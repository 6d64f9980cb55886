import Nachos.UserProg.MemoryCalls
import Nachos.Verified.KernelStore

/-!
# The indices of the memory manager

`physicalPage` is `-1` for a page that is not in memory.  `ReleaseMemory` tests for it, and the
two fault handlers get their frames from `GetPage` or from a page that is valid.  `Fork` calls
`SetShare` before it tests, so its calls are in range exactly when all pages of the parent are in
memory.
-/

namespace Nachos

open Loops Runs

namespace FrameRoutine

def SharesResident (s : Kernel) : FrameRoutine → Prop
  | .fork pid _ => ∀ space, s.allPCB pid = some space → ∀ v < space.numPages,
      (space.pageTable v).physicalPage ≠ -1
  | .releaseMemory _ | .pageIn .. | .cow .. => True

end FrameRoutine

section Calls

variable {s : Kernel} {pid childPID : Nat} {space : AddrSpace} {virtAddr : BitVec 32}

theorem EntryOk.index_in_range {entry : TranslationEntry} (ok : EntryOk entry)
    (resident : entry.physicalPage ≠ -1) :
    0 ≤ entry.physicalPage ∧ entry.physicalPage < numPhysPages := by
  obtain ⟨f, bound, maps⟩ := ok.resident resident
  omega

theorem getPage_inRange (wf : WellFormed s) (live : pid < pidMapSize) (sharedPage : Int) :
    (MemoryCall.getPage pid sharedPage).InRange s.memoryMgr := by
  refine ⟨?_, by simpa [MemoryCall.processNumber] using live⟩
  simp only [MemoryCall.frameNumber]
  split
  next full =>
    have bound := (victim_spec s.memoryMgr sharedPage).1
    omega
  next notFull =>
    obtain ⟨f, below, -, -, result⟩ := BitMap.find_of_numClear notFull
    rw [result]
    have bound : f < numPhysPages := wf.memoryBits ▸ below
    dsimp only
    omega

theorem forkCalls_inRange_iff (wf : WellFormed s) (found : s.allPCB pid = some space)
    (created : childPID < pidMapSize) :
    (∀ call ∈ forkCalls childPID space, call.InRange s.memoryMgr) ↔
      ∀ v < space.numPages, (space.pageTable v).physicalPage ≠ -1 := by
  constructor
  · intro inRange v below absent
    have called : MemoryCall.setShare (space.pageTable v).physicalPage childPID ∈
        forkCalls childPID space :=
      List.mem_map.mpr ⟨v, List.mem_range.mpr below, rfl⟩
    have nonneg := (inRange _ called).1.1
    rw [MemoryCall.frameNumber, absent] at nonneg
    omega
  · intro resident call member
    obtain ⟨v, below, rfl⟩ := List.mem_map.mp member
    have below := List.mem_range.mp below
    exact ⟨(wf.entries found v below).index_in_range (resident v below),
      by simpa [MemoryCall.processNumber] using created⟩

theorem releaseCalls_inRange (wf : WellFormed s) (found : s.allPCB pid = some space) :
    ∀ call ∈ releaseCalls pid space, call.InRange s.memoryMgr := by
  intro call member
  obtain ⟨v, below, made⟩ := List.mem_filterMap.mp member
  have ok := wf.entries found v (List.mem_range.mp below)
  have live := wf.live_lt found
  unfold releaseCall at made
  split at made
  next private_ =>
    cases made
    simp only [Bool.and_eq_true, bne_iff_ne] at private_
    exact ⟨ok.index_in_range private_.1, by simp [MemoryCall.processNumber]⟩
  next =>
    split at made
    next shared =>
      cases made
      simp only [Bool.and_eq_true, bne_iff_ne] at shared
      exact ⟨ok.index_in_range shared.1, by simpa [MemoryCall.processNumber] using live⟩
    next => cases made

/-- `COW` keeps the old frame while `GetPage` looks for another one. -/
theorem cowCalls_inRange (sound : Sound s)
    (faults : ReadOnlyFaults s pid virtAddr) (found : s.allPCB pid = some space) :
    ∀ call ∈ cowCalls pid virtAddr space s, call.InRange s.memoryMgr := by
  have wf := sound.toWellFormed
  have live := wf.live_lt found
  obtain ⟨_, ⟨space₁, found₁, bound, rfl⟩, valid, -⟩ := faults
  cases found.symm.trans found₁
  obtain ⟨g, gBound, maps⟩ := (wf.entries found _ bound).frame valid
  have held : (sharing s).hold pid (virtAddr.toNat / pageSize) g := ⟨space, found, bound, maps⟩
  intro call member
  simp only [cowCalls, List.mem_cons] at member
  cases member with
  | inl first =>
    rw [first]
    exact getPage_inRange wf live _
  | inr second =>
    split at second
    next => cases second
    next f t run =>
      split at second
      next => cases second
      next space' found' =>
        obtain rfl := List.mem_singleton.mp second
        have got := getPage_inv wf.memoryBits run
        rw [maps] at got
        obtain ⟨-, acquired⟩ := got.acquired sound live
        have different := got.ne_shared (sound.coherent.inUse held)
        -- the page still has its frame in the new state
        obtain ⟨space₂, found₂, -, maps₂⟩ :=
          (acquired.hold_iff sound.coherent _ _ g).mpr ⟨held, different.symm⟩
        cases found'.symm.trans found₂
        refine ⟨?_, by simpa [MemoryCall.processNumber] using live⟩
        simp only [MemoryCall.frameNumber]
        omega

theorem calls_inRange_iff (sound : Sound s)
    {routine : FrameRoutine} (called : routine.CalledIn s) :
    (∀ call ∈ routine.calls s, call.InRange s.memoryMgr) ↔ routine.SharesResident s := by
  have wf := sound.toWellFormed
  cases routine with
  | fork pid childPID =>
    obtain ⟨⟨space, found⟩, t, created⟩ := called
    obtain ⟨bound, -, -⟩ := createPCB_inv wf.pidBits created
    simp only [FrameRoutine.calls, FrameRoutine.process, found, FrameRoutine.callsIn,
      FrameRoutine.SharesResident, Option.some.injEq, forall_eq']
    exact forkCalls_inRange_iff wf found bound
  | releaseMemory pid =>
    obtain ⟨space, found⟩ := called
    simp only [FrameRoutine.calls, FrameRoutine.process, found, FrameRoutine.callsIn,
      FrameRoutine.SharesResident, iff_true]
    exact releaseCalls_inRange wf found
  | pageIn pid virtAddr =>
    obtain ⟨_, ⟨space, found, -⟩, -⟩ := called
    simp only [FrameRoutine.calls, FrameRoutine.process, found, FrameRoutine.callsIn,
      FrameRoutine.SharesResident, iff_true, List.mem_singleton, forall_eq]
    exact getPage_inRange wf (wf.live_lt found) _
  | cow pid virtAddr =>
    have faults : ReadOnlyFaults s pid virtAddr := called
    obtain ⟨_, ⟨space, found, -⟩, -⟩ := called
    simp only [FrameRoutine.calls, FrameRoutine.process, found, FrameRoutine.callsIn,
      FrameRoutine.SharesResident, iff_true]
    exact cowCalls_inRange sound faults found

end Calls

end Nachos
