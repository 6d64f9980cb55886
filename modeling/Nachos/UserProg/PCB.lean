import Nachos.Threads.List
import Nachos.UserProg.BitMap

/-!
# Process control blocks

`pcb.cc` and `processmgr.cc`, as far as they keep the tree of processes.  A pointer to a PCB
is a `Ref`.  `new` returns one that was never used before, and an access through a pointer
to a deleted PCB is a fault, so that a pointer stands for the same PCB for all time.
-/

namespace Nachos

open Loops

abbrev Ref := Nat

structure PCB where
  pid : Nat
  parentPCB : Option Ref
  childrenPCB : List (ListElement Ref)
  childExitValue : BitVec 32
  deriving DecidableEq, Repr

/-- Where the thread of a process is when it does not run: in user code, or in the loop of
`JoinSystemcall`, with the local variables of that routine. -/
inductive Control where
  | user
  | joining (joinPID : Int) (childPCB : Ref)
  deriving DecidableEq, Repr

structure Processes where
  heap : Ref → Option PCB
  nextRef : Ref
  pidMap : BitMap
  numTotalPID : Nat
  allPCB : Nat → Option Ref
  control : Ref → Control

namespace Processes

def pcb (s : Processes) (ref : Ref) : Except Fault PCB :=
  match s.heap ref with
  | some pcb => .ok pcb
  | none => .error .danglingPointer

def setPCB (s : Processes) (ref : Ref) (pcb : Option PCB) : Processes :=
  { s with heap := fun other => if other = ref then pcb else s.heap other }

def setControl (s : Processes) (ref : Ref) (control : Control) : Processes :=
  { s with control := fun other => if other = ref then control else s.control other }

/-! ## `class PCB` -/

def appendChildPCB (this inputPCB : Ref) (s : Processes) : Except Fault Processes := do
  let child ← s.pcb inputPCB
  let pcb ← s.pcb this
  return s.setPCB this
    (some { pcb with childrenPCB := sortedInsert inputPCB child.pid pcb.childrenPCB })

/-- `PCB::RemoveChildPCB`.  The pid that is passed to `SortedRemove` is only overwritten
there. -/
def removeChildPCB (this inputPCB : Ref) (s : Processes) : Except Fault Processes := do
  let _ ← s.pcb inputPCB
  let pcb ← s.pcb this
  return s.setPCB this (some { pcb with childrenPCB := (sortedRemove pcb.childrenPCB).2 })

def setParentPCBNULL (input : Ref) (s : Processes) : Except Fault Processes := do
  let pcb ← s.pcb input
  return s.setPCB input (some { pcb with parentPCB := none })

def removeChildParentPCB (this : Ref) (s : Processes) : Except Fault Processes := do
  let pcb ← s.pcb this
  mapcar setParentPCBNULL pcb.childrenPCB s

def removeParentPCBChild (this : Ref) (inputValue : BitVec 32) (s : Processes) :
    Except Fault Processes := do
  let pcb ← s.pcb this
  match pcb.parentPCB with
  | none => return s
  | some parent =>
    let s ← removeChildPCB parent this s
    let parentPCB ← s.pcb parent
    return s.setPCB parent (some { parentPCB with childExitValue := inputValue })

def getChildPCB (this : Ref) (childPID : Int) (s : Processes) : Except Fault (Option Ref) := do
  let pcb ← s.pcb this
  return search childPID pcb.childrenPCB

/-! ## `class ProcessMgr` -/

def createPCB (s : Processes) : Option (Ref × Processes) :=
  if s.pidMap.numClear = 0 then none
  else
    let (newPID, pidMap) := s.pidMap.find
    let newPCB : PCB := ⟨newPID.toNat, none, [], 0#32⟩
    some (s.nextRef,
      { s.setPCB s.nextRef (some newPCB) with
        nextRef := s.nextRef + 1
        pidMap := pidMap
        allPCB := fun pid => if pid = newPID.toNat then some s.nextRef else s.allPCB pid })

def removePCB (inputPCB : Ref) (s : Processes) : Except Fault Processes := do
  let pcb ← s.pcb inputPCB
  let pidMap ← s.pidMap.clear pcb.pid
  return { s with
    pidMap := pidMap
    allPCB := fun pid => if pid = pcb.pid then none else s.allPCB pid }

def isSet (inputPID : Int) (s : Processes) : Except Fault Bool := s.pidMap.test inputPID

def getPCB (inputPID : Int) (s : Processes) : Except Fault (Option Ref) := do
  if ← s.pidMap.test inputPID then
    return s.allPCB inputPID.toNat
  else
    return none

end Processes

end Nachos
