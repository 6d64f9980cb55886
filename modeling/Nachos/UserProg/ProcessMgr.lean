import Nachos.Lib.Runs
import Nachos.UserProg.PCB

/-!
# The sections of `class ProcessMgr`

`CreatePCB` takes `pidLock` twice: to count the free pids, and then to take one.  Another
thread may run in between, so the two critical sections are separate steps here.
`Processes.createPCB` is what they do when nothing comes between them.
-/

namespace Nachos

open Loops Runs

namespace Processes

def numFreePID (s : Processes) : Nat := s.pidMap.numClear

/-- The second critical section of `CreatePCB`.  When `Find` finds nothing, the PCB is made
with the pid `-1`, and `allPCB[-1]` is written. -/
def allocatePCB (s : Processes) : Except Fault (Ref × Processes) :=
  let (newPID, pidMap) := s.pidMap.find
  if newPID < 0 then .error .outOfRange
  else
    let newPCB : PCB := ⟨newPID.toNat, none, [], 0#32⟩
    .ok (s.nextRef,
      { s.setPCB s.nextRef (some newPCB) with
        nextRef := s.nextRef + 1
        pidMap := pidMap
        allPCB := fun pid => if pid = newPID.toNat then some s.nextRef else s.allPCB pid })

def removeLivePCB (inputPCB : Ref) (s : Processes) : Except Fault Processes := do
  let s ← s.removePCB inputPCB
  return s.setPCB inputPCB none

/-- `ProcessMgr::ProcessMgr`.  Neither the words of the bitmap nor the table have contents
before. -/
def newMgr (size : Nat) (junk : Nat → BitVec 32) (junkPCB : Nat → Option Ref) : Processes where
  heap _ := none
  nextRef := 0
  pidMap := BitMap.new size junk
  numTotalPID := size
  allPCB := junkPCB
  control _ := .user

end Processes

structure Creators where
  processes : Processes
  creating : Nat → Bool

def Creators.setCreating (s : Creators) (thread : Nat) (creating : Bool) : Creators :=
  { s with creating := fun other => if other = thread then creating else s.creating other }

inductive Section where
  | noFreePID (thread : Nat)
  | freePID (thread : Nat)
  | allocate (thread : Nat) (newPCB : Ref)
  | remove (inputPCB : Ref)
  deriving DecidableEq, Repr

/-- Any thread may run its next section.  `CreatePCB` returns `NULL` at `noFreePID`, and the
new PCB at `allocate`. -/
inductive SectionStep : Creators → Section → Creators → Prop where
  | noFreePID {s : Creators} {thread : Nat} : s.creating thread = false →
      s.processes.numFreePID = 0 → SectionStep s (.noFreePID thread) s
  | freePID {s : Creators} {thread : Nat} : s.creating thread = false →
      s.processes.numFreePID ≠ 0 → SectionStep s (.freePID thread) (s.setCreating thread true)
  | allocate {s : Creators} {thread : Nat} {newPCB : Ref} {t : Processes} :
      s.creating thread = true → s.processes.allocatePCB = .ok (newPCB, t) →
      SectionStep s (.allocate thread newPCB)
        (Creators.setCreating { s with processes := t } thread false)
  | remove {s : Creators} {inputPCB : Ref} {t : Processes} :
      s.processes.removeLivePCB inputPCB = .ok t →
      SectionStep s (.remove inputPCB) { s with processes := t }

def performSection (label : Section) (s : Creators) : Option Creators :=
  match label with
  | .noFreePID thread =>
    if s.creating thread = false ∧ s.processes.numFreePID = 0 then some s else none
  | .freePID thread =>
    if s.creating thread = false ∧ s.processes.numFreePID ≠ 0 then
      some (s.setCreating thread true)
    else none
  | .allocate thread newPCB =>
    match s.processes.allocatePCB with
    | .ok (ref, t) =>
      if s.creating thread = true ∧ ref = newPCB then
        some (Creators.setCreating { s with processes := t } thread false)
      else none
    | .error _ => none
  | .remove inputPCB =>
    match s.processes.removeLivePCB inputPCB with
    | .ok t => some { s with processes := t }
    | .error _ => none

theorem performSection_step {label : Section} {s s' : Creators}
    (performed : performSection label s = some s') : SectionStep s label s' := by
  cases label with
  | noFreePID thread =>
    obtain ⟨⟨outside, full⟩, same⟩ := Option.ite_none_right_eq_some.mp performed
    cases same
    exact .noFreePID outside full
  | freePID thread =>
    obtain ⟨⟨outside, free⟩, same⟩ := Option.ite_none_right_eq_some.mp performed
    cases same
    exact .freePID outside free
  | allocate thread newPCB =>
    simp only [performSection] at performed
    split at performed
    next ref t allocated =>
      obtain ⟨⟨inside, rfl⟩, same⟩ := Option.ite_none_right_eq_some.mp performed
      cases same
      exact .allocate inside allocated
    next => cases performed
  | remove inputPCB =>
    simp only [performSection] at performed
    split at performed
    next t removed =>
      cases performed
      exact .remove removed
    next => cases performed

theorem Processes.createPCB_eq_sections (s : Processes) :
    s.createPCB = if s.numFreePID = 0 then none else s.allocatePCB.toOption := by
  unfold Processes.createPCB Processes.numFreePID
  split
  next full => rfl
  next notFull =>
    obtain ⟨newPID, -, -, -, found⟩ := BitMap.find_of_numClear notFull
    have notNegative : ¬ (newPID : Int) < 0 := by omega
    simp only [allocatePCB, found, if_neg notNegative]
    rfl

end Nachos
