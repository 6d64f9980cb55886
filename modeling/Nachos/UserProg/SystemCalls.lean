import Nachos.Lib.Runs
import Nachos.UserProg.Kernel
import Nachos.UserProg.PCB

/-!
# System calls on processes

The parts of `exception.cc` that create, end and await processes.  A system call runs to its
end without another process in between, except `JoinSystemcall`, which yields in a loop:
each round of it is a step of its own.  The scheduler may let any process continue.
-/

namespace Nachos

open Loops

namespace Processes

/-- `StartProcess`; it uses the new PCB before it tests for `NULL`. -/
def startProcess (s : Processes) : Except Fault Processes :=
  match s.createPCB with
  | none => .error .nullPointer
  | some (newPCB, s) => .ok (s.setControl newPCB .user)

def forkSystemcall (current : Ref) (s : Processes) : Except Fault (BitVec 32 × Processes) :=
  match s.createPCB with
  | none => .ok (-1#32, s)
  | some (childPCB, s) => do
    let child ← s.pcb childPCB
    let s := s.setPCB childPCB (some { child with parentPCB := some current })
    let s ← s.appendChildPCB current childPCB
    return (BitVec.ofNat 32 child.pid, s.setControl childPCB .user)

def terminate (ending : Ref) (value : BitVec 32) (s : Processes) : Except Fault Processes := do
  let s ← s.removeChildParentPCB ending
  let s ← s.removeParentPCBChild ending value
  let s ← s.removePCB ending
  return s.setPCB ending none

def exitSystemcall (current : Ref) (val : BitVec 32) (s : Processes) : Except Fault Processes :=
  s.terminate current val

/-- `KillSystemcall` of `current`, which has `killPID` in register 4: what it writes to
register 2, or `none` when it does not return.  A process that kills itself goes through
`ExitSystemcall`, which takes the same register for the exit status. -/
def killSystemcall (current : Ref) (killPID : BitVec 32) (s : Processes) :
    Except Fault (Option (BitVec 32) × Processes) := do
  match ← s.getPCB killPID.toInt with
  | none => return (some (-1#32), s)
  | some killPCB =>
    let currentPCB ← s.pcb current
    if killPID.toInt = currentPCB.pid then
      let s ← s.exitSystemcall current killPID
      return (none, s)
    else
      let s ← s.terminate killPCB (-1#32)
      return (some 0#32, s)

/-- `JoinSystemcall` of `current` up to its loop: what it writes to register 2, or `none`
when it goes on to wait. -/
def joinSystemcall (current : Ref) (joinPID : BitVec 32) (s : Processes) :
    Except Fault (Option (BitVec 32) × Processes) := do
  if joinPID.toInt < 0 ∨ s.numTotalPID ≤ joinPID.toInt then
    return (some (-1#32), s)
  else
    match ← s.getChildPCB current joinPID.toInt with
    | none => return (some (-1#32), s)
    | some childPCB =>
      let child ← s.pcb childPCB
      let currentPCB ← s.pcb current
      match child.parentPCB with
      | none => .error .nullPointer
      | some parent =>
        let parentPCB ← s.pcb parent
        assert (parentPCB.pid == currentPCB.pid)
        return (none, s.setControl current (.joining joinPID.toInt childPCB))

/-- The next test of the loop of `JoinSystemcall`: `none` when `current` yields again, and
otherwise what it writes to register 2 after the loop. -/
def joinResume (current : Ref) (joinPID : Int) (s : Processes) :
    Except Fault (Option (BitVec 32) × Processes) := do
  if ← s.isSet joinPID then
    return (none, s)
  else
    let currentPCB ← s.pcb current
    return (some currentPCB.childExitValue, s.setControl current .user)

end Processes

/-! ## Runs -/

inductive Call where
  | start
  | fork (current : Ref)
  | exit (current : Ref) (val : BitVec 32)
  | kill (current : Ref) (killPID : BitVec 32)
  | yield (current : Ref)
  | join (current : Ref) (joinPID : BitVec 32)
  | resume (current : Ref)
  deriving DecidableEq, Repr

def Processes.Ready (s : Processes) (current : Ref) : Prop :=
  (s.heap current).isSome ∧ s.control current = .user

instance (s : Processes) (current : Ref) : Decidable (s.Ready current) :=
  inferInstanceAs (Decidable (_ ∧ _))

inductive CallStep : Processes → Call → Processes → Prop where
  | start {s s' : Processes} : s.startProcess = .ok s' → CallStep s .start s'
  | fork {s s' : Processes} {current : Ref} {value : BitVec 32} : s.Ready current →
      s.forkSystemcall current = .ok (value, s') → CallStep s (.fork current) s'
  | exit {s s' : Processes} {current : Ref} {val : BitVec 32} : s.Ready current →
      s.exitSystemcall current val = .ok s' → CallStep s (.exit current val) s'
  | kill {s s' : Processes} {current : Ref} {killPID : BitVec 32} {value : Option (BitVec 32)} :
      s.Ready current → s.killSystemcall current killPID = .ok (value, s') →
      CallStep s (.kill current killPID) s'
  | yield {s : Processes} {current : Ref} : s.Ready current → CallStep s (.yield current) s
  | join {s s' : Processes} {current : Ref} {joinPID : BitVec 32} {value : Option (BitVec 32)} :
      s.Ready current → s.joinSystemcall current joinPID = .ok (value, s') →
      CallStep s (.join current joinPID) s'
  | resume {s s' : Processes} {current childPCB : Ref} {joinPID : Int}
      {value : Option (BitVec 32)} : (s.heap current).isSome →
      s.control current = .joining joinPID childPCB →
      s.joinResume current joinPID = .ok (value, s') → CallStep s (.resume current) s'

def performCall (call : Call) (s : Processes) : Option Processes :=
  match call with
  | .start => s.startProcess.toOption
  | .fork current =>
    if s.Ready current then (s.forkSystemcall current).toOption.map Prod.snd else none
  | .exit current val => if s.Ready current then (s.exitSystemcall current val).toOption else none
  | .kill current killPID =>
    if s.Ready current then (s.killSystemcall current killPID).toOption.map Prod.snd else none
  | .yield current => if s.Ready current then some s else none
  | .join current joinPID =>
    if s.Ready current then (s.joinSystemcall current joinPID).toOption.map Prod.snd else none
  | .resume current =>
    match s.control current with
    | .user => none
    | .joining joinPID _ =>
      if (s.heap current).isSome then (s.joinResume current joinPID).toOption.map Prod.snd
      else none

theorem performCall_step {call : Call} {s s' : Processes} (performed : performCall call s = some s') :
    CallStep s call s' := by
  cases call with
  | start => exact .start (toOption_eq_some performed)
  | exit current val =>
    obtain ⟨ready, run⟩ := Option.ite_none_right_eq_some.mp performed
    exact .exit ready (toOption_eq_some run)
  | yield current =>
    obtain ⟨ready, same⟩ := Option.ite_none_right_eq_some.mp performed
    cases same
    exact .yield ready
  | fork current =>
    obtain ⟨ready, mapped⟩ := Option.ite_none_right_eq_some.mp performed
    obtain ⟨⟨value, t⟩, run, rfl⟩ := Option.map_eq_some_iff.mp mapped
    exact .fork ready (toOption_eq_some run)
  | kill current killPID =>
    obtain ⟨ready, mapped⟩ := Option.ite_none_right_eq_some.mp performed
    obtain ⟨⟨value, t⟩, run, rfl⟩ := Option.map_eq_some_iff.mp mapped
    exact .kill ready (toOption_eq_some run)
  | join current joinPID =>
    obtain ⟨ready, mapped⟩ := Option.ite_none_right_eq_some.mp performed
    obtain ⟨⟨value, t⟩, run, rfl⟩ := Option.map_eq_some_iff.mp mapped
    exact .join ready (toOption_eq_some run)
  | resume current =>
    simp only [performCall] at performed
    split at performed
    next => cases performed
    next joinPID childPCB waits =>
      obtain ⟨alive, mapped⟩ := Option.ite_none_right_eq_some.mp performed
      obtain ⟨⟨value, t⟩, run, rfl⟩ := Option.map_eq_some_iff.mp mapped
      exact .resume alive waits (toOption_eq_some run)

def Processes.boot (junk : Nat → BitVec 32) : Processes where
  heap _ := none
  nextRef := 0
  pidMap := BitMap.new pidMapSize junk
  numTotalPID := pidMapSize
  allPCB _ := none
  control _ := .user

end Nachos
