import Nachos.Lib.Runs
import Nachos.UserProg.AddrSpace

/-!
# Accesses to user memory and the steps of the system

`Machine::ReadMem` and `Machine::WriteMem` for the process that is running, and the
step relation of the virtual-memory system: user accesses, the two page faults, and
the system calls that change address spaces.
-/

namespace Nachos

def readMem (pid : Nat) (addr : BitVec 32) (size : Nat) (s : Kernel) :
    Except Fault (Outcome (BitVec 32 × Kernel)) := do
  let space ← s.space pid
  match ← translate space.pageTable space.numPages addr size false with
  | .raised exception => return .raised exception
  | .done (physAddr, entry) =>
    let value ← loadValue s.machine physAddr size
    return .done (value, s.setSpace pid (some (space.setEntry (addr.toNat / pageSize) entry)))

def writeMem (pid : Nat) (addr : BitVec 32) (size : Nat) (value : BitVec 32) (s : Kernel) :
    Except Fault (Outcome Kernel) := do
  let space ← s.space pid
  match ← translate space.pageTable space.numPages addr size true with
  | .raised exception => return .raised exception
  | .done (physAddr, entry) =>
    let bytes ← storeBytes s.machine size value
    return .done ((s.setMemory (bcopy bytes physAddr size s.machine.mainMemory)).setSpace pid
      (some (space.setEntry (addr.toNat / pageSize) entry)))

/-! ## Steps -/

def PageEntry (s : Kernel) (pid : Nat) (virtAddr : BitVec 32) (entry : TranslationEntry) : Prop :=
  ∃ space, s.allPCB pid = some space ∧ virtAddr.toNat / pageSize < space.numPages ∧
    space.pageTable (virtAddr.toNat / pageSize) = entry

/-- An access to `virtAddr` by `pid`, by its program or by the kernel for it, finds
the page invalid. -/
def PageFaults (s : Kernel) (pid : Nat) (virtAddr : BitVec 32) : Prop :=
  ∃ entry, PageEntry s pid virtAddr entry ∧ entry.valid = false

def ReadOnlyFaults (s : Kernel) (pid : Nat) (virtAddr : BitVec 32) : Prop :=
  ∃ entry, PageEntry s pid virtAddr entry ∧ entry.valid = true ∧ entry.readOnly = true

/-- What happens in one step.  `terminate` is `Exit` of a process or `Kill` of it. -/
inductive Op where
  | start (filename : FileName) (pid : Nat)
  | load (pid : Nat) (addr : BitVec 32) (size : Nat) (value : BitVec 32)
  | store (pid : Nat) (addr : BitVec 32) (size : Nat) (value : BitVec 32)
  | pageFault (pid : Nat) (virtAddr : BitVec 32)
  | readOnlyFault (pid : Nat) (virtAddr : BitVec 32)
  | fork (pid childPID : Nat)
  | terminate (pid : Nat)
  | exec (pid : Nat) (filename : FileName)

inductive Step : Kernel → Op → Kernel → Prop where
  | start {s s' : Kernel} {filename : FileName} {pid : Nat} :
      startProcess filename s = .ok (some pid, s') → Step s (.start filename pid) s'
  | load {s s' : Kernel} {pid size : Nat} {addr value : BitVec 32} :
      readMem pid addr size s = .ok (.done (value, s')) → Step s (.load pid addr size value) s'
  | store {s s' : Kernel} {pid size : Nat} {addr value : BitVec 32} :
      writeMem pid addr size value s = .ok (.done s') → Step s (.store pid addr size value) s'
  | pageFault {s s' : Kernel} {pid : Nat} {virtAddr : BitVec 32} :
      PageFaults s pid virtAddr → pageIn pid virtAddr s = .ok s' →
        Step s (.pageFault pid virtAddr) s'
  | readOnlyFault {s s' : Kernel} {pid : Nat} {virtAddr : BitVec 32} :
      ReadOnlyFaults s pid virtAddr → cow pid virtAddr s = .ok s' →
        Step s (.readOnlyFault pid virtAddr) s'
  | fork {s s' : Kernel} {pid childPID : Nat} (junk : Nat → TranslationEntry) :
      forkSystemcall pid junk s = .ok (some childPID, s') → Step s (.fork pid childPID) s'
  | terminate {s s' : Kernel} {pid : Nat} :
      Nachos.terminate pid s = .ok s' → Step s (.terminate pid) s'
  | exec {s s' : Kernel} {pid : Nat} {filename : FileName} (junk : Nat → Bool) :
      replaceMemory pid filename junk s = .ok s' → Step s (.exec pid filename) s'

/-! ## Running operations -/

def findEntry (s : Kernel) (pid : Nat) (virtAddr : BitVec 32) : Option TranslationEntry :=
  match s.allPCB pid with
  | none => none
  | some space =>
    if virtAddr.toNat / pageSize < space.numPages then
      some (space.pageTable (virtAddr.toNat / pageSize))
    else none

theorem findEntry_eq_some {s : Kernel} {pid : Nat} {virtAddr : BitVec 32}
    {entry : TranslationEntry} (found : findEntry s pid virtAddr = some entry) :
    PageEntry s pid virtAddr entry := by
  unfold findEntry at found
  split at found
  next => cases found
  next space table =>
    split at found
    next bound => exact ⟨space, table, bound, Option.some.inj found⟩
    next => cases found

/-- The state after one operation, when it completes as its label says.  Memory that
the code leaves uninitialised holds zeros here. -/
def perform (op : Op) (s : Kernel) : Option Kernel :=
  match op with
  | .start filename pid =>
    match startProcess filename s with
    | .ok (some newPID, s') => if newPID = pid then some s' else none
    | _ => none
  | .load pid addr size value =>
    match readMem pid addr size s with
    | .ok (.done (loaded, s')) => if loaded = value then some s' else none
    | _ => none
  | .store pid addr size value =>
    match writeMem pid addr size value s with
    | .ok (.done s') => some s'
    | _ => none
  | .pageFault pid virtAddr =>
    match findEntry s pid virtAddr with
    | some entry => if entry.valid then none else (pageIn pid virtAddr s).toOption
    | none => none
  | .readOnlyFault pid virtAddr =>
    match findEntry s pid virtAddr with
    | some entry => if entry.valid && entry.readOnly then (cow pid virtAddr s).toOption else none
    | none => none
  | .fork pid childPID =>
    match forkSystemcall pid (fun _ => freshEntry 0 false) s with
    | .ok (some newPID, s') => if newPID = childPID then some s' else none
    | _ => none
  | .terminate pid => (terminate pid s).toOption
  | .exec pid filename => (replaceMemory pid filename (fun _ => false) s).toOption

theorem perform_step {op : Op} {s s' : Kernel} (performed : perform op s = some s') :
    Step s op s' := by
  cases op with
  | start filename pid =>
    simp only [perform] at performed
    split at performed
    next newPID t run =>
      obtain ⟨rfl, same⟩ := Option.ite_none_right_eq_some.mp performed
      cases same
      exact .start run
    next => cases performed
  | load pid addr size value =>
    simp only [perform] at performed
    split at performed
    next loaded t run =>
      obtain ⟨rfl, same⟩ := Option.ite_none_right_eq_some.mp performed
      cases same
      exact .load run
    next => cases performed
  | store pid addr size value =>
    simp only [perform] at performed
    split at performed
    next t run => cases performed; exact .store run
    next => cases performed
  | pageFault pid virtAddr =>
    simp only [perform] at performed
    split at performed
    next entry found =>
      obtain ⟨invalid, run⟩ := Option.ite_none_left_eq_some.mp performed
      exact .pageFault ⟨entry, findEntry_eq_some found, by simpa using invalid⟩ (toOption_eq_some run)
    next => cases performed
  | readOnlyFault pid virtAddr =>
    simp only [perform] at performed
    split at performed
    next entry found =>
      obtain ⟨valid, run⟩ := Option.ite_none_right_eq_some.mp performed
      exact .readOnlyFault ⟨entry, findEntry_eq_some found, by simpa using valid⟩ (toOption_eq_some run)
    next => cases performed
  | fork pid childPID =>
    simp only [perform] at performed
    split at performed
    next newPID t run =>
      obtain ⟨rfl, same⟩ := Option.ite_none_right_eq_some.mp performed
      cases same
      exact .fork _ run
    next => cases performed
  | terminate pid => exact .terminate (toOption_eq_some performed)
  | exec pid filename => exact .exec _ (toOption_eq_some performed)

/-- The system before any process.  `Machine::Machine` clears the memory; `junk` is
what the words of the bitmaps held.  `allPCB` is not initialised either, but an entry
is read only when its pid is recorded somewhere. -/
def boot (bigEndian : Bool) (junk : Nat → BitVec 32) (files : Files) : Kernel where
  machine := ⟨fun _ => 0#8, bigEndian⟩
  memoryMgr := MemoryMgr.new junk
  pidMap := BitMap.new pidMapSize junk
  allPCB _ := none
  files := files

/-- The system with one program on its disk. -/
abbrev bootWith (program : File) : Kernel :=
  boot false (fun _ => 0#32) (Files.only (.path "prog") program)

end Nachos
