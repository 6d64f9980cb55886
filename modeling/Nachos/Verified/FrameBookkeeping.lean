import Nachos.Verified.FrameSharing

/-!
# Frame bookkeeping

The bitmap, the owner matrix and the page tables record the same thing three times.
They agree throughout a run exactly as long as every process that exits, is killed or
execs has none of its writable pages in memory: `ClearPage` frees the frame of such a
page and leaves its row of `framePID` alone.
-/

namespace Nachos

open Loops Runs

def MapsOnce (s : Kernel) (p f : Nat) : Prop :=
  ∃ space, s.allPCB p = some space ∧
    ∃ v < space.numPages, (space.pageTable v).physicalPage = (f : Int) ∧
      ∀ w < space.numPages, (space.pageTable w).physicalPage = (f : Int) → w = v

def FramesAgree (s : Kernel) : Prop :=
  ∀ f < numPhysPages,
    (∀ p < pidMapSize, s.memoryMgr.framePID f p = true ↔ MapsOnce s p f) ∧
      (s.memoryMgr.memoryMap.bit f = true ↔
        ∃ p < pidMapSize, s.memoryMgr.framePID f p = true)

/-- Whatever frame `GetPage` evicts, each owner it finds has a process with a page in
the frame. -/
def OwnersFound (s : Kernel) : Prop :=
  ∀ f < numPhysPages, ∀ p < pidMapSize, s.memoryMgr.framePID f p = true →
    ∃ space, s.allPCB p = some space ∧ space.findPage f < space.numPages

def NoWritableResident (s : Kernel) (pid : Nat) : Prop :=
  ∀ space, s.allPCB pid = some space → ∀ v < space.numPages,
    (space.pageTable v).physicalPage ≠ -1 → (space.pageTable v).readOnly = true

/-- A process gives up its memory only when none of its writable pages is in it. -/
def ReleasesNoWritable (s : Kernel) : Op → Prop
  | .terminate pid => NoWritableResident s pid
  | .exec pid _ => NoWritableResident s pid
  | _ => True

instance (s : Kernel) (pid : Nat) : Decidable (NoWritableResident s pid) :=
  match found : s.allPCB pid with
  | none => isTrue fun space found' => by rw [found] at found'; cases found'
  | some space =>
    decidable_of_iff (∀ v < space.numPages, (space.pageTable v).physicalPage ≠ -1 →
        (space.pageTable v).readOnly = true)
      ⟨fun pages space' found' => by rw [found] at found'; cases found'; exact pages,
        fun pages => pages space found⟩

instance (s : Kernel) : DecidablePred (ReleasesNoWritable s)
  | .terminate pid => inferInstanceAs (Decidable (NoWritableResident s pid))
  | .exec pid _ => inferInstanceAs (Decidable (NoWritableResident s pid))
  | .start .. => isTrue trivial
  | .load .. => isTrue trivial
  | .store .. => isTrue trivial
  | .pageFault .. => isTrue trivial
  | .readOnlyFault .. => isTrue trivial
  | .fork .. => isTrue trivial

variable {s s' : Kernel} {pid : Nat} {space : AddrSpace} {S : Sharing Nat Nat Nat}

theorem mapsOnce_iff (coherent : (sharing s).Coherent) (p f : Nat) :
    MapsOnce s p f ↔ ∃ v, (sharing s).hold p v f := by
  constructor
  · rintro ⟨space, found, v, bound, maps, -⟩
    exact ⟨v, space, found, bound, maps⟩
  · rintro ⟨v, space, found, bound, maps⟩
    refine ⟨space, found, v, bound, maps, fun w below maps' => ?_⟩
    exact coherent.once ⟨space, found, below, maps'⟩ ⟨space, found, bound, maps⟩

theorem framesAgree_of_exact (exact : (sharing s).Exact) : FramesAgree s := by
  intro f bound
  constructor
  · intro p below
    rw [mapsOnce_iff exact.toCoherent]
    constructor
    · intro owner
      exact exact.backed ⟨below, owner⟩ id
    · rintro ⟨v, held⟩
      exact (exact.owned held).2
  · constructor
    · intro used
      obtain ⟨p, below, owner⟩ := exact.usedOwned ⟨bound, used⟩
      exact ⟨p, below, owner⟩
    · rintro ⟨p, below, owner⟩
      obtain ⟨v, held⟩ := exact.backed ⟨below, owner⟩ id
      exact (exact.inUse held).2

theorem FramesAgree.ownersFound (agree : FramesAgree s) : OwnersFound s := by
  intro f bound p below owner
  obtain ⟨space, found, v, inTable, maps, -⟩ := ((agree f bound).1 p below).mp owner
  exact ⟨space, found, findPage_lt inTable maps⟩

/-! ## Steps that keep the records exact -/

theorem pageFault_exact {virtAddr : BitVec 32} (wf : WellFormed s) (exact : (sharing s).Exact)
    (faults : PageFaults s pid virtAddr) (run : pageIn pid virtAddr s = .ok s') :
    (sharing s').Exact := by
  have coherent := exact.toCoherent
  obtain ⟨-, f, T, acquired, result⟩ := pageFault_sharing ⟨wf, coherent⟩ faults run
  rw [result]
  refine ((exact.acquire acquired).assign (acquired.unheld coherent) acquired.owner
    acquired.used).weaken ?_
  rintro g q (⟨stale, filled⟩ | ⟨-, held⟩)
  · exact stale.elim id filled
  · exact faults.not_hold wf g ((acquired.hold_iff coherent _ _ _).mp held).1

theorem readOnlyFault_exact {virtAddr : BitVec 32} (wf : WellFormed s) (exact : (sharing s).Exact)
    (faults : ReadOnlyFaults s pid virtAddr) (run : cow pid virtAddr s = .ok s') :
    (sharing s').Exact := by
  have coherent := exact.toCoherent
  obtain ⟨-, f, T, g, acquired, different, held, protectedPage, result⟩ :=
    readOnlyFault_sharing ⟨wf, coherent⟩ faults run
  have heldT := (acquired.hold_iff coherent _ _ _).mpr ⟨held, different.symm⟩
  have coherentT := coherent.acquire acquired
  rw [result]
  -- the page's old frame is the one entry that its new frame leaves stale
  have filled := (exact.acquire acquired).assign (v := virtAddr.toNat / pageSize)
    (acquired.unheld coherent) acquired.owner acquired.used
  refine (filled.unshare ?_ ?_).weaken ?_
  · rintro w (⟨-, -, same⟩ | ⟨other, held'⟩)
    · exact different same.symm
    · exact other ⟨rfl, coherentT.once held' heldT⟩
  · obtain ⟨q, apart, owner⟩ := exact.readOnlyShared held protectedPage
    exact ⟨q, apart, (acquired.owner_other different.symm q).mpr owner⟩
  · rintro h q ⟨⟨stale, notFilled⟩ | ⟨rfl, held'⟩, notStruck⟩
    · exact stale.elim id notFilled
    · exact notStruck ⟨coherentT.functional held' heldT, rfl⟩

def StillOwned (pid : Nat) (space : AddrSpace) (n : Nat) (g q : Nat) : Prop :=
  q = pid ∧ ∃ v, n ≤ v ∧ v < space.numPages ∧ (space.pageTable v).physicalPage = (g : Int)

def ReleasingExact (s : Kernel) (pid : Nat) (space : AddrSpace) (n : Nat)
    (S : Sharing Nat Nat Nat) : Prop :=
  S.ExactUpTo (StillOwned pid space n) ∧
    ∀ g q, q ≠ pid → (S.owner g q ↔ (sharing s).owner g q)

theorem releasing_base (exact : (sharing s).Exact) (found : s.allPCB pid = some space) :
    ReleasingExact s pid space 0 ((sharing s).remove pid) := by
  refine ⟨exact.remove.weaken ?_, fun g q _ => Iff.rfl⟩
  rintro g q (impossible | ⟨rfl, v, space', found', bound, maps⟩)
  · exact impossible.elim
  · cases found.symm.trans found'
    exact ⟨rfl, v, Nat.zero_le v, bound, maps⟩

theorem releasing_round {pid i : Nat} {S T : Sharing Nat Nat Nat} (exact : (sharing s).Exact)
    (found : s.allPCB pid = some space) (noWritable : NoWritableResident s pid)
    (bound : i < space.numPages) (releasing : ReleasingExact s pid space i S)
    (round : RoundReleased pid (space.pageTable i) S T) (gone : ∀ w g, ¬ S.hold pid w g) :
    ReleasingExact s pid space (i + 1) T := by
  obtain ⟨exactS, owners⟩ := releasing
  cases round with
  | skipped absent =>
    refine ⟨exactS.weaken ?_, owners⟩
    rintro g q ⟨rfl, v, begins, below, maps⟩
    refine ⟨rfl, v, ?_, below, maps⟩
    rcases Nat.lt_or_eq_of_le begins with later | rfl
    · exact later
    · rw [absent] at maps
      omega
  | cleared maps writable =>
    have protectedPage := noWritable space found i bound (by rw [maps]; omega)
    rw [writable] at protectedPage
    cases protectedPage
  | @unshared f maps protectedPage =>
    have held : (sharing s).hold pid i f := ⟨space, found, bound, maps⟩
    obtain ⟨q, apart, owner⟩ :=
      exact.readOnlyShared held ⟨space, found, bound, protectedPage⟩
    refine ⟨(exactS.unshare (fun w => gone w f) ⟨q, apart, (owners f q apart).mpr owner⟩).weaken ?_,
      fun g r other => ?_⟩
    · rintro g r ⟨⟨rfl, v, begins, below, maps'⟩, notStruck⟩
      refine ⟨rfl, v, ?_, below, maps'⟩
      rcases Nat.lt_or_eq_of_le begins with later | rfl
      · exact later
      · rw [maps] at maps'
        exact absurd ⟨by omega, rfl⟩ notStruck
    · rw [← owners g r other]
      exact ⟨And.left, fun owner => ⟨owner, fun struck => other struck.2⟩⟩

theorem releasing_done (releasing : ReleasingExact s pid space space.numPages S) : S.Exact := by
  refine releasing.1.weaken ?_
  rintro g q ⟨-, v, begins, below, -⟩
  omega

theorem Step.exact {op : Op} (step : Step s op s') (wf : WellFormed s) (exact : (sharing s).Exact)
    (guard : ReleasesNoWritable s op) : (sharing s').Exact := by
  have emptied {pid : Nat} (emptied : Emptied pid s s') (guard : NoWritableResident s pid) :
      (sharing s').Exact := by
    obtain ⟨space, found⟩ := emptied.found
    exact releasing_done (emptied.rounds (ReleasingExact s pid space) ⟨wf, exact.toCoherent⟩ found
      (releasing_base exact found) fun i bound S T kept round gone =>
        releasing_round exact found guard bound kept round gone).2
  cases step with
  | start run => exact (start_sharing wf run).2 ▸ exact
  | load run => exact (load_sharing wf run).2 ▸ exact
  | store run => exact (store_sharing wf run).2 ▸ exact
  | pageFault faults run => exact pageFault_exact wf exact faults run
  | readOnlyFault faults run => exact readOnlyFault_exact wf exact faults run
  | fork junk run =>
    obtain ⟨-, different, fresh, result⟩ := fork_sharing wf run
    exact result ▸ exact.adopt different fresh
  | terminate run => exact emptied (.terminate run) guard
  | exec junk run => exact emptied (.exec run) guard

/-! ## The step that does not -/

/-- The frame `f` of page `v` while `pid` releases its memory: `pid` stays its owner,
and the frame is no longer in use after round `v`. -/
def LeavesOwner (pid v f n : Nat) (S : Sharing Nat Nat Nat) : Prop :=
  S.owner f pid ∧ (v < n → ¬ S.used f)

theorem leavesOwner_round {pid v f i : Nat} {S T : Sharing Nat Nat Nat}
    (coherent : (sharing s).Coherent) (found : s.allPCB pid = some space)
    (inTable : v < space.numPages) (maps : (space.pageTable v).physicalPage = (f : Int))
    (writable : (space.pageTable v).readOnly = false) (bound : i < space.numPages)
    (left : LeavesOwner pid v f i S) (round : RoundReleased pid (space.pageTable i) S T) :
    LeavesOwner pid v f (i + 1) T := by
  cases round with
  | skipped absent =>
    refine ⟨left.1, fun later => left.2 ?_⟩
    rcases Nat.lt_or_eq_of_le (Nat.le_of_lt_succ later) with earlier | rfl
    · exact earlier
    · rw [absent] at maps
      omega
  | @cleared g maps' =>
    refine ⟨left.1, fun later => ?_⟩
    rcases Nat.lt_or_eq_of_le (Nat.le_of_lt_succ later) with earlier | rfl
    · exact fun used => left.2 earlier used.1
    · rintro ⟨-, other⟩
      rw [maps] at maps'
      exact other (by exact_mod_cast maps')
  | @unshared g maps' protectedPage =>
    have otherPage : i ≠ v := by
      rintro rfl
      rw [writable] at protectedPage
      cases protectedPage
    refine ⟨⟨left.1, ?_⟩, fun later => left.2 (by omega)⟩
    rintro ⟨rfl, -⟩
    exact otherPage
      (coherent.once ⟨space, found, bound, maps'⟩ ⟨space, found, inTable, maps⟩)

theorem not_framesAgree_of_leavesOwner {pid v f n : Nat} (bound : f < numPhysPages)
    (left : LeavesOwner pid v f n (sharing s)) (later : v < n) : ¬ FramesAgree s := by
  intro agree
  exact left.2 later ⟨bound, ((agree f bound).2).mpr ⟨pid, left.1.1, left.1.2⟩⟩

theorem exists_of_not_noWritableResident (resident : ¬ NoWritableResident s pid) :
    ∃ space, s.allPCB pid = some space ∧ ∃ v < space.numPages,
      (space.pageTable v).physicalPage ≠ -1 ∧ (space.pageTable v).readOnly = false := by
  unfold NoWritableResident at resident
  push Not at resident
  simpa using resident

theorem Step.disagree {op : Op} (step : Step s op s') (wf : WellFormed s)
    (exact : (sharing s).Exact) (against : ¬ ReleasesNoWritable s op) : ¬ FramesAgree s' := by
  have coherent := exact.toCoherent
  have emptied {pid : Nat} (emptied : Emptied pid s s') (against : ¬ NoWritableResident s pid) :
      ¬ FramesAgree s' := by
    obtain ⟨space, found, v, inTable, resident, writable⟩ :=
      exists_of_not_noWritableResident against
    obtain ⟨f, bound, maps⟩ := (wf.entries found v inTable).resident resident
    have owner : LeavesOwner pid v f 0 ((sharing s).remove pid) :=
      ⟨coherent.owned ⟨space, found, inTable, maps⟩, fun later => by omega⟩
    obtain ⟨-, left⟩ := emptied.rounds (LeavesOwner pid v f) ⟨wf, coherent⟩ found owner
      fun i below S T kept round _ =>
        leavesOwner_round coherent found inTable maps writable below kept round
    exact not_framesAgree_of_leavesOwner bound left inTable
  cases step with
  | start | load | store | pageFault | readOnlyFault | fork => exact absurd trivial against
  | terminate run => exact emptied (.terminate run) against
  | exec junk run => exact emptied (.exec run) against

/-! ## Runs -/

theorem boot_exact (bigEndian : Bool) (junk : Nat → BitVec 32) (files : Files) :
    (sharing (boot bigEndian junk files)).Exact where
  toCoherent := boot_coherent bigEndian junk files
  backed owner := by simp [sharing, boot, MemoryMgr.new] at owner
  usedOwned := by
    rintro f ⟨bound, used⟩
    have isClear := BitMap.new_bit junk bound
    simp only [boot, MemoryMgr.new] at used
    rw [isClear] at used
    cases used
  readOnlyShared held := absurd held (boot_not_hold _ _ _)

/-- In every run, the bitmap, the owner matrix and the page tables agree in every
state exactly when no step releases a writable page that is in memory; and then every
eviction finds the owners' pages. -/
theorem frames_agree_iff {bigEndian : Bool} {junk : Nat → BitVec 32} {files : Files}
    {history : List (Kernel × Op)} {s : Kernel}
    (run : Run Step (boot bigEndian junk files) history s) :
    (Throughout FramesAgree history s ↔ Guarded ReleasesNoWritable history) ∧
      (Guarded ReleasesNoWritable history → Throughout OwnersFound history s) := by
  have agreeIff : Throughout FramesAgree history s ↔ Guarded ReleasesNoWritable history :=
    run.throughout_iff_guarded (I := fun s => WellFormed s ∧ (sharing s).Exact)
      ⟨boot_wellFormed _ _ _, boot_exact _ _ _⟩
      (fun _ _ _ invariant guard step =>
        ⟨(step.sound ⟨invariant.1, invariant.2.toCoherent⟩).toWellFormed,
          step.exact invariant.1 invariant.2 guard⟩)
      (fun _ invariant => framesAgree_of_exact invariant.2)
      (fun _ _ _ invariant against step => step.disagree invariant.1 invariant.2 against)
  refine ⟨agreeIff, fun guarded => ?_⟩
  obtain ⟨earlier, current⟩ := agreeIff.mpr guarded
  exact ⟨fun visited member => (earlier visited member).ownersFound, current.ownersFound⟩

/-- A program forks after its first page fault, and the child exits: all it gives up
is its share of that page. -/
theorem frames_agree_after_child_exit : ∃ history s,
    Run Step (bootWith fourBytes) history s ∧
    history.map Prod.snd =
      [.terminate 1, .fork 0 1, .pageFault 0 0#32, .start (.path "prog") 0] ∧
    Throughout FramesAgree history s := by
  refine labelled_run perform_step (fun history _ => Guarded ReleasesNoWritable history)
    (by decide +kernel) fun history s run guarded => ?_
  exact (frames_agree_iff run).1.mpr guarded

/-- A process of nine pages touches its first page and exits: frame 0 is free, and
still has the process among its owners. -/
theorem exit_leaves_owner : ∃ history s,
    Run Step (bootWith fourBytes) history s ∧
    history.map Prod.snd = [.terminate 0, .pageFault 0 0#32, .start (.path "prog") 0] ∧
    ¬ FramesAgree s := by
  refine labelled_run perform_step (fun _ s => s.memoryMgr.framePID 0 0 = true ∧
    s.memoryMgr.memoryMap.bit 0 = false) (by decide +kernel) fun _ s _ left agree => ?_
  have used := ((agree 0 (by decide)).2).mpr ⟨0, by decide, left.1⟩
  rw [left.2] at used
  cases used

end Nachos
