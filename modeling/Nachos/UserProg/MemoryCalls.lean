import Nachos.UserProg.UserMemory

/-!
# The calls of the memory manager

Which routines of `MemoryMgr` the four routines of `AddrSpace` that deal with frames call, and
with which frame and process numbers.  The memory manager tests none of its arguments before it
uses them as indices of `framePID`, `frametime` and `memoryMap`.
-/

namespace Nachos

open Loops

inductive MemoryCall where
  | getPage (pid : Nat) (sharedPage : Int)
  | clearPage (pageNumber : Int)
  | unsetShare (physicalPage : Int) (pid : Nat)
  | setShare (physicalPage : Int) (pid : Nat)
  deriving DecidableEq, Repr

namespace MemoryCall

def perform : MemoryCall → Kernel → Except Fault Kernel
  | .getPage pid sharedPage, s => (Nachos.getPage pid sharedPage s).map Prod.snd
  | .clearPage pageNumber, s => Nachos.clearPage pageNumber s
  | .unsetShare physicalPage pid, s => Nachos.unsetShare physicalPage pid s
  | .setShare physicalPage pid, s =>
    (Nachos.setShare physicalPage pid s.memoryMgr).map fun m => { s with memoryMgr := m }

/-- The frame number with which the call indexes the arrays of `m`.  `sharedPage` is only
compared; the frame of `GetPage` is the victim or a clear one. -/
def frameNumber (m : MemoryMgr) : MemoryCall → Int
  | .getPage _ sharedPage =>
    if m.memoryMap.numClear = 0 then victim m sharedPage else m.memoryMap.find.1
  | .clearPage pageNumber => pageNumber
  | .unsetShare physicalPage _ | .setShare physicalPage _ => physicalPage

def processNumber : MemoryCall → Option Nat
  | .getPage pid _ | .unsetShare _ pid | .setShare _ pid => some pid
  | .clearPage _ => none

def InRange (m : MemoryMgr) (call : MemoryCall) : Prop :=
  (0 ≤ call.frameNumber m ∧ call.frameNumber m < numPhysPages) ∧
    ∀ pid ∈ call.processNumber, pid < pidMapSize

instance (m : MemoryMgr) (call : MemoryCall) : Decidable (call.InRange m) :=
  inferInstanceAs (Decidable (_ ∧ _))

end MemoryCall

def forkCalls (childPID : Nat) (space : AddrSpace) : List MemoryCall :=
  (List.range space.numPages).map fun i => .setShare (space.pageTable i).physicalPage childPID

def releaseCall (pid : Nat) (entry : TranslationEntry) : Option MemoryCall :=
  if entry.physicalPage != -1 && !entry.readOnly then some (.clearPage entry.physicalPage)
  else if entry.physicalPage != -1 && entry.readOnly then some (.unsetShare entry.physicalPage pid)
  else none

def releaseCalls (pid : Nat) (space : AddrSpace) : List MemoryCall :=
  (List.range space.numPages).filterMap fun i => releaseCall pid (space.pageTable i)

def cowCalls (pid : Nat) (virtAddr : BitVec 32) (space : AddrSpace) (s : Kernel) :
    List MemoryCall :=
  let vpn := virtAddr.toNat / pageSize
  let sharedPage := (space.pageTable vpn).physicalPage
  .getPage pid sharedPage ::
    match getPage pid sharedPage s with
    | .error _ => []
    | .ok (_, s) =>
      match s.allPCB pid with
      | none => []
      | some space => [.unsetShare (space.pageTable vpn).physicalPage pid]

inductive FrameRoutine where
  | fork (pid childPID : Nat)
  | releaseMemory (pid : Nat)
  | pageIn (pid : Nat) (virtAddr : BitVec 32)
  | cow (pid : Nat) (virtAddr : BitVec 32)
  deriving DecidableEq, Repr

namespace FrameRoutine

def process : FrameRoutine → Nat
  | .fork pid _ | .releaseMemory pid | .pageIn pid _ | .cow pid _ => pid

def callsIn (space : AddrSpace) (s : Kernel) : FrameRoutine → List MemoryCall
  | .fork _ childPID => forkCalls childPID space
  | .releaseMemory pid => releaseCalls pid space
  | .pageIn pid _ => [.getPage pid (-1)]
  | .cow pid virtAddr => cowCalls pid virtAddr space s

def calls (s : Kernel) (routine : FrameRoutine) : List MemoryCall :=
  match s.allPCB routine.process with
  | none => []
  | some space => routine.callsIn space s

/-- The kernel calls the routine in this state: `Fork` for a new process, the others for a process
that runs and, in the two handlers, has faulted. -/
def CalledIn (s : Kernel) : FrameRoutine → Prop
  | .fork pid childPID => (∃ space, s.allPCB pid = some space) ∧ ∃ t, createPCB s = some (childPID, t)
  | .releaseMemory pid => ∃ space, s.allPCB pid = some space
  | .pageIn pid virtAddr => PageFaults s pid virtAddr
  | .cow pid virtAddr => ReadOnlyFaults s pid virtAddr

end FrameRoutine

/-! ## The loops make these calls -/

theorem releaseEntry_call (pid : Nat) (entry : TranslationEntry) (s : Kernel) :
    releaseEntry pid entry s = (releaseCall pid entry).toList.foldlM
      (fun s call => call.perform s) s := by
  unfold releaseEntry releaseCall
  split
  · simp [MemoryCall.perform]
  · split
    · simp [MemoryCall.perform]
    · rfl

theorem releaseMemory_calls (pid : Nat) (space : AddrSpace) (s : Kernel) :
    releaseMemory pid space s =
      (releaseCalls pid space).foldlM (fun s call => call.perform s) s := by
  unfold releaseMemory releaseCalls
  induction space.numPages generalizing s with
  | zero => rfl
  | succ n ih =>
    have last : ((List.range (n + 1)).filterMap fun i => releaseCall pid (space.pageTable i)) =
        ((List.range n).filterMap fun i => releaseCall pid (space.pageTable i)) ++
          (releaseCall pid (space.pageTable n)).toList := by
      rw [List.range_succ, List.filterMap_append]
      cases found : releaseCall pid (space.pageTable n) <;> simp [found]
    rw [last, List.foldlM_append, ← ih]
    show _ >>= releaseEntry pid (space.pageTable n) = _
    exact congrArg _ (funext fun t => releaseEntry_call pid (space.pageTable n) t)

/-- The memory manager after the loop of `Fork`, which changes no `physicalPage`. -/
theorem fork_loop_calls {childPID n : Nat} {parent : Nat → TranslationEntry}
    {t t' : MemoryMgr × (Nat → TranslationEntry) × (Nat → TranslationEntry)}
    (table : ∀ i, (t.2.1 i).physicalPage = (parent i).physicalPage)
    (run : forUpToM (forkEntry childPID) n t = .ok t') :
    (∀ i, (t'.2.1 i).physicalPage = (parent i).physicalPage) ∧
      (List.range n).foldlM (fun m i => setShare (parent i).physicalPage childPID m) t.1 =
        .ok t'.1 := by
  induction n generalizing t' with
  | zero =>
    cases run
    exact ⟨table, rfl⟩
  | succ n ih =>
    obtain ⟨middle, before, last⟩ := bind_eq_ok.mp run
    obtain ⟨kept, earlier⟩ := ih before
    obtain ⟨m, shared, result⟩ := bind_eq_ok.mp last
    cases result
    refine ⟨fun i => ?_, ?_⟩
    · dsimp only
      split
      next here => rw [here]; exact kept n
      next => exact kept i
    · rw [List.range_succ, List.foldlM_append, earlier]
      simp only [List.foldlM_cons, List.foldlM_nil, bind, Except.bind, pure_eq]
      rw [← kept n, shared]

end Nachos
