import Nachos.Lib.Recency
import Nachos.Verified.Inversion

/-!
# Frames are replaced first in, first out

`GetPage` takes the lowest clear frame, and when there is none the frame with the least time stamp
other than `sharedPage`.  Every assignment gets a new stamp, so that the least one is that of the
frame whose last assignment is the oldest.  `PageOut` works on an address space and on the swap
file, and leaves the memory manager alone; a call of `GetPage` can be made with any state of the rest
of the kernel.
-/

namespace Nachos

open Loops Recency Runs

/-! ## The eviction loop -/

def Kernel.withManager (s : Kernel) (m : MemoryMgr) : Kernel := { s with memoryMgr := m }

def MemoryMgr.owners (m : MemoryMgr) (f : Nat) : List Nat :=
  (List.range pidMapSize).filter (m.framePID f)

def pageOutAll (f : Nat) (pids : List Nat) (s : Kernel) : Except Fault Kernel :=
  pids.foldlM (fun s pid => pageOut pid f s) s

/-- `PageOut` neither reads nor writes the memory manager. -/
theorem pageOut_withManager (pid f : Nat) (s : Kernel) (m : MemoryMgr) :
    pageOut pid f (s.withManager m) = (pageOut pid f s).map (·.withManager m) := by
  have sameSpace : (s.withManager m).space pid = s.space pid := rfl
  unfold pageOut
  rw [sameSpace]
  cases s.space pid with
  | error failure => rfl
  | ok space =>
    simp only [bind, Except.bind, pure_eq]
    split
    next =>
      -- the files are the same, so the write to the swap file is
      have sameFiles : (s.withManager m).files = s.files := rfl
      have sameMemory : (s.withManager m).machine = s.machine := rfl
      rw [sameFiles, sameMemory]
      split
      next failure => rfl
      next files => rfl
    next => rfl

def MemoryMgr.disown (m : MemoryMgr) (f n : Nat) : MemoryMgr :=
  { m with framePID := fun g q => if g = f ∧ q < n then false else m.framePID g q }

/-- The loop calls `PageOut` once for each recorded owner. -/
theorem evictOwners_eq (f n : Nat) (s : Kernel) :
    forUpToM (evictOwner f) n s =
      (pageOutAll f ((List.range n).filter (s.memoryMgr.framePID f)) s).map
        (·.withManager (s.memoryMgr.disown f n)) := by
  induction n with
  | zero =>
    simp [forUpToM, pageOutAll, MemoryMgr.disown, Kernel.withManager, Except.map, pure_eq]
  | succ n ih =>
    rw [forUpToM, ih, List.range_succ, List.filter_append, pageOutAll, pageOutAll,
      List.foldlM_append]
    cases List.foldlM (fun s pid => pageOut pid f s) s
        ((List.range n).filter (s.memoryMgr.framePID f)) with
    | error failure => rfl
    | ok t =>
      have here : (t.withManager (s.memoryMgr.disown f n)).memoryMgr.framePID f n =
          s.memoryMgr.framePID f n := by simp [Kernel.withManager, MemoryMgr.disown]
      have lost : (s.memoryMgr.disown f n).setFramePID f n false =
          s.memoryMgr.disown f (n + 1) := by
        simp only [MemoryMgr.setFramePID, MemoryMgr.disown, MemoryMgr.mk.injEq, true_and, and_true]
        funext g q
        grind
      cases owned : s.memoryMgr.framePID f n with
      | true =>
        simp only [Except.map, bind, Except.bind, evictOwner, here, owned, if_true,
          pageOut_withManager, List.filter_cons_of_pos, List.filter_nil, List.foldlM_cons,
          List.foldlM_nil]
        cases pageOut n f t with
        | error failure => rfl
        | ok u => simp [pure_eq, Kernel.withManager, ← lost]
      | false =>
        have kept : s.memoryMgr.disown f (n + 1) = s.memoryMgr.disown f n := by
          simp only [MemoryMgr.disown, MemoryMgr.mk.injEq, true_and, and_true]
          funext g q
          grind
        simp [Except.map, ok_bind, evictOwner, here, owned, kept, pure_eq]

/-! ## The victim -/

/-- No frame but `sharedPage` has an earlier stamp than the victim. -/
theorem victim_least (m : MemoryMgr) (sharedPage : Int) {g : Nat} (bound : g < numPhysPages)
    (other : (g : Int) ≠ sharedPage) : m.frametime (victim m sharedPage) ≤ m.frametime g := by
  -- after `n` rounds the best so far is no later than the first `n` frames
  have scanned := forUpTo_invariant (n := numPhysPages)
    (s := (m.frametime (if sharedPage = 0 then 1 else 0), if sharedPage = 0 then 1 else 0))
    (fun i (best : Int × Nat) =>
      if best.1 > m.frametime i && (i : Int) != sharedPage then (m.frametime i, i) else best)
    (fun n best => best.1 = m.frametime best.2 ∧
      ∀ i < n, (i : Int) ≠ sharedPage → best.1 ≤ m.frametime i) ⟨rfl, by simp⟩ (by
      intro n _ best ⟨isTime, least⟩
      split
      next earlier =>
        simp only [Bool.and_eq_true, decide_eq_true_eq, bne_iff_ne, ne_eq] at earlier
        refine ⟨rfl, fun i below different => ?_⟩
        rcases Nat.lt_succ_iff_lt_or_eq.mp below with below | rfl
        · exact (Int.le_of_lt earlier.1).trans (least i below different)
        · exact Int.le_refl _
      next notEarlier =>
        simp only [Bool.and_eq_true, decide_eq_true_eq, bne_iff_ne, ne_eq, not_and_or,
          not_not] at notEarlier
        refine ⟨isTime, fun i below different => ?_⟩
        rcases Nat.lt_succ_iff_lt_or_eq.mp below with below | rfl
        · exact least i below different
        · exact Int.not_lt.mp (notEarlier.resolve_right different))
  unfold victim
  rw [← scanned.1]
  exact scanned.2 g bound other

/-! ## One call -/

def MemoryMgr.replace (m : MemoryMgr) (f pid : Nat) : MemoryMgr :=
  { m with
    framePID := fun g q => if g = f then decide (q = pid) else m.framePID g q
    frametime := fun g => if g = f then m.timestamp else m.frametime g
    timestamp := Int.bmod (m.timestamp + 1) (2 ^ 32) }

section GetPage

variable {s : Kernel} (pid : Nat) (sharedPage : Int)

theorem getPage_of_clear (sized : s.memoryMgr.memoryMap.numBits = numPhysPages)
    (clear : ∃ g < numPhysPages, s.memoryMgr.memoryMap.bit g = false) :
    ∃ f < numPhysPages, s.memoryMgr.memoryMap.bit f = false ∧
      (∀ g < f, s.memoryMgr.memoryMap.bit g = true) ∧
      getPage pid sharedPage s =
        .ok (f, s.withManager (stampFrame (s.memoryMgr.markFrame f) f pid)) := by
  obtain ⟨g, bound, isClear⟩ := clear
  obtain ⟨f, below, found, lowest, result⟩ := BitMap.find_of_clear (sized ▸ bound) isClear
  have notFull : ¬ s.memoryMgr.memoryMap.numClear = 0 := by
    rw [BitMap.numClear_eq_zero]
    intro full
    rw [full g (sized ▸ bound)] at isClear
    cases isClear
  refine ⟨f, sized ▸ below, found, lowest, ?_⟩
  simp only [getPage, if_neg notFull, result, Int.toNat_natCast, pure_eq]
  rfl

theorem getPage_of_full (sized : s.memoryMgr.memoryMap.numBits = numPhysPages)
    (recorded : ∀ f q, s.memoryMgr.framePID f q = true → q < pidMapSize)
    (full : ∀ g < numPhysPages, s.memoryMgr.memoryMap.bit g = true) :
    getPage pid sharedPage s = do
      let t ← pageOutAll (victim s.memoryMgr sharedPage)
        (s.memoryMgr.owners (victim s.memoryMgr sharedPage)) s
      return (victim s.memoryMgr sharedPage,
        t.withManager (s.memoryMgr.replace (victim s.memoryMgr sharedPage) pid)) := by
  have none : s.memoryMgr.memoryMap.numClear = 0 := by
    rw [BitMap.numClear_eq_zero, sized]
    exact full
  generalize victimIs : victim s.memoryMgr sharedPage = f
  have owned : stampFrame (s.memoryMgr.disown f pidMapSize) f pid = s.memoryMgr.replace f pid := by
    simp only [stampFrame, MemoryMgr.setFramePID, MemoryMgr.disown, MemoryMgr.replace,
      MemoryMgr.mk.injEq, true_and, and_true]
    funext g q
    grind
  simp only [getPage, if_pos none, victimIs, evictOwners_eq, MemoryMgr.owners]
  cases pageOutAll f ((List.range pidMapSize).filter (s.memoryMgr.framePID f)) s with
  | error failure => rfl
  | ok t => simp [Except.map, ok_bind, pure_eq, Kernel.withManager, owned]

end GetPage

/-! ## Runs -/

inductive ManagerCall where
  | getPage (pid : Nat) (sharedPage : Int) (frame : Nat)
  | clearPage (pageNumber : Int)

/-- The memory manager before and after a call that is made in some state of the kernel. -/
def ManagerStep (m : MemoryMgr) : ManagerCall → MemoryMgr → Prop
  | .getPage pid sharedPage frame, m' =>
    ∃ s s', s.memoryMgr = m ∧ getPage pid sharedPage s = .ok (frame, s') ∧ s'.memoryMgr = m'
  | .clearPage pageNumber, m' =>
    ∃ s s', s.memoryMgr = m ∧ clearPage pageNumber s = .ok s' ∧ s'.memoryMgr = m'

def ManagerCall.frame? : ManagerCall → Option Nat
  | .getPage _ _ frame => some frame
  | .clearPage _ => none

def assigned (history : List (MemoryMgr × ManagerCall)) : List Nat :=
  history.filterMap fun taken => taken.2.frame?

theorem assigned_cons {history : List (MemoryMgr × ManagerCall)} {m : MemoryMgr} {call : ManagerCall}
    {f : Nat} (isCall : call.frame? = some f) :
    assigned ((m, call) :: history) = f :: assigned history :=
  List.filterMap_cons_some isCall

def ManagerCall.Proper : ManagerCall → Prop
  | .getPage pid _ _ => pid < pidMapSize
  | .clearPage _ => True

structure Managed (history : List (MemoryMgr × ManagerCall)) (m : MemoryMgr) : Prop where
  numBits : m.memoryMap.numBits = numPhysPages
  recorded : ∀ f q, m.framePID f q = true → q < pidMapSize
  stamped : Stamped (assigned history) m.frametime
  timestamp : m.timestamp = (assigned history).length
  used : ∀ f < numPhysPages, m.memoryMap.bit f = true → f ∈ assigned history

namespace Managed

variable {history : List (MemoryMgr × ManagerCall)} {m m' : MemoryMgr}

theorem new (junk : Nat → BitVec 32) : Managed [] (MemoryMgr.new junk) where
  numBits := BitMap.new_numBits _ _
  recorded _ _ owned := by simp [MemoryMgr.new] at owned
  stamped := Stamped.start
  timestamp := rfl
  used f bound set := by
    rw [MemoryMgr.new, BitMap.new_bit _ bound] at set
    cases set

theorem oldest (managed : Managed history m)
    (full : ∀ g < numPhysPages, m.memoryMap.bit g = true) (sharedPage : Int) :
    Oldest (assigned history) (fun g => g < numPhysPages ∧ (g : Int) ≠ sharedPage)
      (victim m sharedPage) :=
  managed.stamped.oldest (fun g candidate => managed.used g candidate.1 (full g candidate.1))
    (victim_spec m sharedPage) fun _ candidate => victim_least m sharedPage candidate.1 candidate.2

theorem assign (managed : Managed history m) {call : ManagerCall} {f : Nat}
    (isCall : call.frame? = some f) (few : (assigned history).length + 1 < 2 ^ 31)
    (numBits : m'.memoryMap.numBits = m.memoryMap.numBits)
    (recorded : ∀ g q, m'.framePID g q = true → q < pidMapSize)
    (frametime : m'.frametime = fun g => if g = f then m.timestamp else m.frametime g)
    (timestamp : m'.timestamp = Int.bmod (m.timestamp + 1) (2 ^ 32))
    (bits : ∀ g, m'.memoryMap.bit g = true → g = f ∨ m.memoryMap.bit g = true) :
    Managed ((m, call) :: history) m' := by
  have frames : assigned ((m, call) :: history) = f :: assigned history := assigned_cons isCall
  exact {
    numBits := numBits.trans managed.numBits
    recorded := recorded
    stamped := by
      rw [frames, frametime, managed.timestamp]
      exact managed.stamped.next f
    timestamp := by
      rw [frames, timestamp, managed.timestamp, List.length_cons]
      exact Int.bmod_eq_of_le (by omega) (by omega)
    used := by
      intro g bound set
      rw [frames, List.mem_cons]
      exact (bits g set).imp_right (managed.used g bound) }

theorem getPage (managed : Managed history m) {pid frame : Nat} {sharedPage : Int}
    (proper : pid < pidMapSize) (few : (assigned history).length + 1 < 2 ^ 31)
    (step : ManagerStep m (.getPage pid sharedPage frame) m') :
    Managed ((m, .getPage pid sharedPage frame) :: history) m' := by
  obtain ⟨s, s', rfl, done, rfl⟩ := step
  by_cases full : ∀ g < numPhysPages, s.memoryMgr.memoryMap.bit g = true
  · rw [getPage_of_full pid sharedPage managed.numBits managed.recorded full] at done
    obtain ⟨t, -, result⟩ := bind_eq_ok.mp done
    obtain ⟨rfl, rfl⟩ := Prod.mk.inj (Except.ok.inj result)
    refine managed.assign rfl few rfl ?_ rfl rfl fun _ set => .inr set
    intro g q owned
    simp only [Kernel.withManager, MemoryMgr.replace] at owned
    split at owned
    next => exact (of_decide_eq_true owned) ▸ proper
    next => exact managed.recorded g q owned
  · simp only [not_forall, Bool.not_eq_true] at full
    obtain ⟨g, bound, clear⟩ := full
    obtain ⟨f, below, -, -, result⟩ :=
      getPage_of_clear pid sharedPage managed.numBits ⟨g, bound, clear⟩
    rw [result] at done
    cases done
    refine managed.assign rfl few rfl ?_ rfl rfl ?_
    · intro g q owned
      simp only [Kernel.withManager, stampFrame, MemoryMgr.setFramePID,
        MemoryMgr.markFrame] at owned
      split at owned
      next here => exact here.2 ▸ proper
      next => exact managed.recorded g q owned
    · intro g set
      simpa [Kernel.withManager, stampFrame, MemoryMgr.setFramePID, MemoryMgr.markFrame] using set

theorem clearPage (managed : Managed history m) {pageNumber : Int}
    (step : ManagerStep m (.clearPage pageNumber) m') :
    Managed ((m, .clearPage pageNumber) :: history) m' := by
  obtain ⟨s, s', rfl, done, rfl⟩ := step
  obtain ⟨memoryMap, cleared, result⟩ := bind_eq_ok.mp done
  cases result
  obtain ⟨-, rfl⟩ := BitMap.clear_eq_ok.mp cleared
  exact {
    numBits := managed.numBits
    recorded := managed.recorded
    stamped := managed.stamped
    timestamp := managed.timestamp
    used := by
      intro g bound set
      rw [BitMap.bit_clearBit, Bool.and_eq_true] at set
      exact managed.used g bound set.2 }

theorem of_run {junk : Nat → BitVec 32} (run : Run ManagerStep (MemoryMgr.new junk) history m)
    (proper : Guarded (fun _ call => call.Proper) history)
    (few : (assigned history).length < 2 ^ 31) : Managed history m := by
  refine run.historyInvariant
    (I := fun history m => (assigned history).length < 2 ^ 31 → Managed history m)
    (fun _ => new junk) ?_ proper few
  intro earlier t call t' before isProper step few
  cases call with
  | getPage pid sharedPage frame =>
    have count : (assigned earlier).length + 1 < 2 ^ 31 := few
    exact (before (by omega)).getPage isProper count step
  | clearPage pageNumber => exact (before few).clearPage step

end Managed

def MemoryMgr.IsClear (m : MemoryMgr) (number : Int) : Prop :=
  ∃ f < numPhysPages, number = f ∧ m.memoryMap.bit f = false

/-- After every run of calls, `GetPage` takes the lowest clear frame.  When there is none it takes
the frame other than `sharedPage` whose last assignment is the oldest, after `PageOut` for each
process recorded for it, and `pid` is then its only owner.  It is never `sharedPage`, unless that
is clear. -/
theorem fifo_replacement {junk : Nat → BitVec 32} {history : List (MemoryMgr × ManagerCall)}
    {m : MemoryMgr} (run : Run ManagerStep (MemoryMgr.new junk) history m)
    (proper : Guarded (fun _ call => call.Proper) history)
    (few : (assigned history).length < 2 ^ 31) (pid : Nat) (sharedPage : Int) {s : Kernel}
    (here : s.memoryMgr = m) :
    ((∃ g < numPhysPages, m.memoryMap.bit g = false) →
      ∃ f < numPhysPages, m.memoryMap.bit f = false ∧ (∀ g < f, m.memoryMap.bit g = true) ∧
        getPage pid sharedPage s = .ok (f, s.withManager (stampFrame (m.markFrame f) f pid))) ∧
    ((∀ g < numPhysPages, m.memoryMap.bit g = true) →
      ∃ f, Oldest (assigned history) (fun g => g < numPhysPages ∧ (g : Int) ≠ sharedPage) f ∧
        getPage pid sharedPage s = do
          let t ← pageOutAll f (m.owners f) s
          return (f, t.withManager (m.replace f pid))) ∧
    (¬ m.IsClear sharedPage → ∀ f s', getPage pid sharedPage s = .ok (f, s') →
      (f : Int) ≠ sharedPage) := by
  subst here
  have managed := Managed.of_run run proper few
  refine ⟨fun clear => getPage_of_clear pid sharedPage managed.numBits clear, fun full =>
    ⟨_, managed.oldest full sharedPage,
      getPage_of_full pid sharedPage managed.numBits managed.recorded full⟩, ?_⟩
  intro inUse f s' done same
  cases getPage_inv managed.numBits done with
  | evicted isVictim => exact (victim_spec s.memoryMgr sharedPage).2 (isVictim ▸ same)
  | clear bound isClear => exact inUse ⟨f, bound, same.symm, isClear⟩

def bareKernel (m : MemoryMgr) : Kernel := (boot false (fun _ => 0#32) fun _ => none).withManager m

/-- Calls of `GetPage` that assign the frames in their order. -/
theorem exists_filled (junk : Nat → BitVec 32) {n : Nat} (most : n ≤ numPhysPages) :
    ∃ history m, Run ManagerStep (MemoryMgr.new junk) history m ∧
      Guarded (fun _ call => call.Proper) history ∧ assigned history = (List.range n).reverse ∧
      m.memoryMap.numBits = numPhysPages ∧
      ∀ f < numPhysPages, m.memoryMap.bit f = decide (f < n) := by
  induction n with
  | zero =>
    exact ⟨[], _, .start, nofun, rfl, BitMap.new_numBits _ _, fun f bound => by
      simp [MemoryMgr.new, BitMap.new_bit _ bound]⟩
  | succ n ih =>
    obtain ⟨history, m, run, proper, frames, numBits, bits⟩ := ih (by omega)
    obtain ⟨f, bound, isClear, lowest, done⟩ := getPage_of_clear (s := bareKernel m) 0 (-1) numBits
      ⟨n, by omega, (bits n (by omega)).trans (by simp)⟩
    have isClear : m.memoryMap.bit f = false := isClear
    have lowest : ∀ g < f, m.memoryMap.bit g = true := lowest
    have isNext : f = n := by
      rw [bits f bound, decide_eq_false_iff_not] at isClear
      by_contra other
      have set := lowest n (by omega)
      rw [bits n (by omega)] at set
      simp at set
    subst isNext
    refine ⟨(m, .getPage 0 (-1) f) :: history, _, run.next ⟨bareKernel m, _, rfl, done, rfl⟩,
      guarded_cons.mpr ⟨show 0 < pidMapSize by decide, proper⟩, ?_, numBits, fun g inside => ?_⟩
    · rw [assigned_cons rfl, frames, List.range_succ, List.reverse_append]
      rfl
    · have next : (m.memoryMap.markBit f).bit g = decide (g < f + 1) := by
        rw [BitMap.bit_markBit, bits g inside]
        grind
      exact next

/-- When the frames were assigned in their order and frame 0 is to be kept, frame 1 is replaced. -/
theorem fifo_replacement_after_filling : ∃ history m,
    Run ManagerStep (MemoryMgr.new fun _ => 0#32) history m ∧
      assigned history = (List.range numPhysPages).reverse ∧
      ∀ s, s.memoryMgr = m → getPage 1 0 s = do
        let t ← pageOutAll 1 (m.owners 1) s
        return (1, t.withManager (m.replace 1 1)) := by
  obtain ⟨history, m, run, proper, frames, -, bits⟩ :=
    exists_filled (fun _ => 0#32) (Nat.le_refl numPhysPages)
  have few : (assigned history).length < 2 ^ 31 := by
    rw [frames]
    decide
  have full : ∀ g < numPhysPages, m.memoryMap.bit g = true :=
    fun g bound => (bits g bound).trans (decide_eq_true bound)
  refine ⟨history, m, run, frames, fun s here => ?_⟩
  obtain ⟨f, oldest, done⟩ := (fifo_replacement run proper few 1 0 here).2.1 full
  have order : ∀ g < numPhysPages, lastUse (List.range numPhysPages).reverse g = some g := by decide
  have isOne : f = 1 := by
    obtain ⟨⟨bound, notShared⟩, t, last, older⟩ := oldest
    rw [frames] at last older
    by_contra other
    obtain ⟨u, lastOne, before⟩ := older 1 ⟨by decide, by decide⟩ (Ne.symm other)
    rw [order f bound] at last
    rw [order 1 (by decide)] at lastOne
    cases last
    cases lastOne
    omega
  rw [done, isOne]

/-- A new memory manager returns `sharedPage` when that is the lowest clear frame. -/
theorem getPage_returns_sharedPage : ∃ s s', s.memoryMgr = MemoryMgr.new (fun _ => 0#32) ∧
    getPage 0 0 s = .ok (0, s') := by
  obtain ⟨f, bound, -, lowest, done⟩ := getPage_of_clear
    (s := bareKernel (MemoryMgr.new fun _ => 0#32)) 0 0 (BitMap.new_numBits _ _)
    ⟨0, by decide, BitMap.new_bit _ (by decide)⟩
  have first : f = 0 := by
    by_contra other
    have set : (BitMap.new numPhysPages fun _ => 0#32).bit 0 = true := lowest 0 (by omega)
    rw [BitMap.new_bit _ (by decide)] at set
    cases set
  subst first
  exact ⟨_, _, rfl, done⟩

end Nachos
