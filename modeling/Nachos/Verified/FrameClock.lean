import Nachos.Verified.FrameReplacement
import Nachos.Verified.PageVisits

/-!
# The frames that a transfer takes

Which frame `GetPage` takes is decided by the memory manager alone, so the frames that the calls of
`PageIn` in a transfer take are known before it begins: `clock` counts them page by page.  A page of
the range has to be loaded if it is not in memory, or if its frame is taken for an earlier page.
`PageIn` fails only when it evicts a frame that has an owner without a page in it.
-/

namespace Nachos

open Loops

/-! ## The next frame -/

def MemoryMgr.nextFrame (m : MemoryMgr) : Nat :=
  if m.memoryMap.numClear = 0 then victim m (-1) else m.memoryMap.find.1.toNat

def MemoryMgr.take (m : MemoryMgr) (pid : Nat) : MemoryMgr :=
  stampFrame (if m.memoryMap.numClear = 0 then m.disown m.nextFrame pidMapSize
    else m.markFrame m.nextFrame) m.nextFrame pid

variable {s s₁ t : Kernel} {pid f q w g first j v : Nat} {addr : BitVec 32} {space : AddrSpace}

theorem GotPage.takes (sized : s.memoryMgr.memoryMap.numBits = numPhysPages)
    (got : GotPage pid (-1) s f t) :
    f = s.memoryMgr.nextFrame ∧ t.memoryMgr = s.memoryMgr.take pid := by
  cases got with
  | @evicted u isVictim full loop =>
    have none : s.memoryMgr.memoryMap.numClear = 0 := by
      rw [BitMap.numClear_eq_zero, sized]
      exact full
    have isNext : f = s.memoryMgr.nextFrame := by rw [isVictim, MemoryMgr.nextFrame, if_pos none]
    refine ⟨isNext, ?_⟩
    rw [evictOwners_eq] at loop
    obtain ⟨t, -, rfl⟩ := map_eq_ok.mp loop
    rw [MemoryMgr.take, if_pos none, ← isNext]
    rfl
  | clear bound isClear found =>
    have some : ¬ s.memoryMgr.memoryMap.numClear = 0 := by
      rw [BitMap.numClear_eq_zero, sized]
      intro full
      rw [full f bound] at isClear
      cases isClear
    have isNext : f = s.memoryMgr.nextFrame := by
      rw [MemoryMgr.nextFrame, if_neg some, found, Int.toNat_natCast]
    refine ⟨isNext, ?_⟩
    rw [MemoryMgr.take, if_neg some, ← isNext]

theorem MemoryMgr.take_framePID (m : MemoryMgr) (pid : Nat) {g q : Nat} (other : q ≠ pid)
    (owned : (m.take pid).framePID g q = true) : m.framePID g q = true ∧
      (g = m.nextFrame → m.memoryMap.numClear = 0 → pidMapSize ≤ q) := by
  simp only [MemoryMgr.take, stampFrame, MemoryMgr.setFramePID] at owned
  rw [if_neg fun both => other both.2] at owned
  split at owned
  next none =>
    simp only [MemoryMgr.disown] at owned
    split at owned
    next => cases owned
    next kept => exact ⟨owned, fun isNext _ => Nat.le_of_not_lt fun below => kept ⟨isNext, below⟩⟩
  next some => exact ⟨owned, fun _ none => absurd none some⟩

/-! ## When a page can be loaded -/

def Kernel.OwnersMap (s : Kernel) (f : Nat) : Prop :=
  ∀ q < pidMapSize, s.memoryMgr.framePID f q = true → ∃ w, (sharing s).hold q w f

def SwapsWhole (s : Kernel) : Prop :=
  ∀ q loaded, program s q = some loaded → loaded.numPages * pageSize ≤ 2 ^ 31 ∧
    ∃ file, s.files (.swap q) = some file ∧ loaded.numPages * pageSize ≤ file.length

theorem SwapsWhole.page (swaps : SwapsWhole s) (found : s.allPCB q = some space)
    (inTable : v < space.numPages) : 0 ≤ toInt32 (v * pageSize) ∧
      ∃ file, s.files (.swap q) = some file ∧ v * pageSize + pageSize ≤ file.length := by
  obtain ⟨bound, file, opened, whole⟩ := swaps q space.program (program_eq_some.mpr ⟨space, found, rfl⟩)
  have pages : space.program.numPages = space.numPages := rfl
  have below : v * pageSize < 2 ^ 31 ∧ v * pageSize + pageSize ≤ file.length := by
    simp only [pageSize, pages] at *
    omega
  refine ⟨?_, file, opened, below.2⟩
  rw [toInt32, BitVec.toInt_eq_toNat_cond, BitVec.toNat_ofNat, Nat.mod_eq_of_lt (by omega)]
  split <;> omega

theorem EvictedOwner.others (evicted : EvictedOwner f pid s t) (other : q ≠ pid) :
    t.allPCB q = s.allPCB q ∧ t.memoryMgr.framePID f q = s.memoryMgr.framePID f q ∧
      t.files (.swap q) = s.files (.swap q) := by
  cases evicted with
  | skipped => exact ⟨rfl, rfl, rfl⟩
  | pagedOut owned found bound swapped =>
    refine ⟨if_neg other, if_neg fun both => other both.2, ?_⟩
    obtain ⟨-, rfl⟩ | ⟨-, file, -, rfl⟩ := swapped
    · rfl
    · exact Files.set_other _ (swap_name_ne other)

/-- What is still as it was for the processes that the eviction loop has yet to come to. -/
def Pending (s : Kernel) (f n : Nat) (t : Kernel) : Prop :=
  ∀ q, n ≤ q → t.allPCB q = s.allPCB q ∧ t.memoryMgr.framePID f q = s.memoryMgr.framePID f q ∧
    t.files (.swap q) = s.files (.swap q)

theorem Pending.next {n : Nat} {t' : Kernel} (pending : Pending s f n t)
    (evicted : EvictedOwner f n t t') : Pending s f (n + 1) t' := by
  intro q later
  obtain ⟨table, owner, file⟩ := evicted.others (q := q) (by omega)
  obtain ⟨table', owner', file'⟩ := pending q (by omega)
  exact ⟨table.trans table', owner.trans owner', file.trans file'⟩

theorem evictOwners_map (run : forUpToM (evictOwner f) pidMapSize s = .ok t) : s.OwnersMap f := by
  have rounds := forUpToM_invariant (fun n t => Pending s f n t ∧
    ∀ q < n, s.memoryMgr.framePID f q = true → ∃ w, (sharing s).hold q w f) run
    ⟨fun _ _ => ⟨rfl, rfl, rfl⟩, by simp⟩ ?_
  · exact rounds.2
  · rintro n - t t' ⟨pending, held⟩ round
    have evicted := evictOwner_inv round
    refine ⟨pending.next evicted, fun q below owned => ?_⟩
    by_cases earlier : q < n
    · exact held q earlier owned
    obtain rfl : q = n := by omega
    obtain ⟨table, owner, -⟩ := pending q (Nat.le_refl q)
    cases evicted with
    | skipped unowned =>
      rw [owner, owned] at unowned
      cases unowned
    | pagedOut _ found bound => exact ⟨_, _, table ▸ found, bound, findPage_spec bound⟩

theorem pageOut_total {file : File} (found : s.allPCB q = some space) (inTable : w < space.numPages)
    (maps : (space.pageTable w).physicalPage = (f : Int)) (opened : s.files (.swap q) = some file)
    (offset : ∀ v < space.numPages, 0 ≤ toInt32 (v * pageSize)) : ∃ t, pageOut q f s = .ok t := by
  have bound := findPage_lt inTable maps
  unfold pageOut
  simp only [Kernel.space_eq_ok.mpr found, ok_bind, if_pos bound]
  split
  next =>
    have written : writeSwapPage q (space.findPage f) (frame s.machine.mainMemory f) s.files =
        .ok _ := bind_eq_ok.mpr ⟨file, swapFile_eq_ok.mpr opened,
          bind_eq_ok.mpr ⟨_, File.writeAt_eq_ok.mpr ⟨offset _ bound, by decide, rfl⟩, rfl⟩⟩
    rw [written]
    exact ⟨_, rfl⟩
  next => exact ⟨_, rfl⟩

theorem evictOwners_total (swaps : SwapsWhole s) (owners : s.OwnersMap f) :
    ∃ t, forUpToM (evictOwner f) pidMapSize s = .ok t := by
  refine (forUpToM_total (Pending s f) (fun _ _ => ⟨rfl, rfl, rfl⟩) ?_).imp fun t ended => ended.1
  intro n below t pending
  obtain ⟨table, owner, swapFile⟩ := pending n (Nat.le_refl n)
  have round : ∃ t', evictOwner f n t = .ok t' := by
    unfold evictOwner
    split
    next owned =>
      obtain ⟨w, space, found, inTable, maps⟩ := owners n below (owner ▸ owned)
      obtain ⟨-, file, opened, -⟩ := swaps.page found inTable
      obtain ⟨t', out⟩ := pageOut_total (table.trans found) inTable maps (swapFile.trans opened)
        fun v inside => (swaps.page found inside).1
      rw [out]
      exact ⟨_, rfl⟩
    next => exact ⟨t, rfl⟩
  obtain ⟨t', round⟩ := round
  exact ⟨t', round, pending.next (evictOwner_inv round)⟩

/-- No swap file is lost or gets shorter. -/
def SwapsGrow (s t : Kernel) : Prop :=
  ∀ q file, s.files (.swap q) = some file →
    ∃ file', t.files (.swap q) = some file' ∧ file.length ≤ file'.length

theorem SwapsGrow.refl (s : Kernel) : SwapsGrow s s :=
  fun _ file opened => ⟨file, opened, Nat.le_refl _⟩

theorem SwapsGrow.trans {u : Kernel} (first : SwapsGrow s t) (second : SwapsGrow t u) :
    SwapsGrow s u := by
  intro q file opened
  obtain ⟨file₁, opened₁, longer₁⟩ := first q file opened
  obtain ⟨file₂, opened₂, longer₂⟩ := second q file₁ opened₁
  exact ⟨file₂, opened₂, longer₁.trans longer₂⟩

theorem GotPage.files {sharedPage : Int} (got : GotPage pid sharedPage s f t) : SwapsGrow s t := by
  cases got with
  | @evicted t _ _ loop =>
    show SwapsGrow s t
    refine forUpToM_invariant (fun _ u => SwapsGrow s u) loop (.refl s) fun n _ u u' earlier round =>
      earlier.trans fun q file opened => ?_
    have evicted := evictOwner_inv round
    by_cases same : q = n
    · subst same
      cases evicted with
      | skipped => exact ⟨file, opened, Nat.le_refl _⟩
      | pagedOut _ _ _ swapped =>
        obtain ⟨-, rfl⟩ | ⟨-, old, isOld, rfl⟩ := swapped
        · exact ⟨file, opened, Nat.le_refl _⟩
        · cases isOld.symm.trans opened
          refine ⟨_, Files.set_same .., ?_⟩
          simp [File.write, pageSize]
    · exact ⟨file, (evicted.others same).2.2.trans opened, Nat.le_refl _⟩
  | clear => exact .refl s

theorem SwapsWhole.of_longer (swaps : SwapsWhole s) (programs : ∀ q, program t q = program s q)
    (files : SwapsGrow s t) : SwapsWhole t := by
  intro q loaded live
  obtain ⟨bound, file, opened, whole⟩ := swaps q loaded (programs q ▸ live)
  obtain ⟨file', opened', longer⟩ := files q file opened
  exact ⟨bound, file', opened', whole.trans longer⟩

/-- `PageIn` fails only in the eviction. -/
theorem pageIn_total (sound : Sound s) (swaps : SwapsWhole s) (absent : Absent s pid space addr)
    (owners : s.memoryMgr.memoryMap.numClear = 0 → s.OwnersMap s.memoryMgr.nextFrame) :
    ∃ s₁, pageIn pid addr s = .ok s₁ := by
  have acquires : ∃ f t, getPage pid (-1) s = .ok (f, t) := by
    unfold getPage
    split
    next none =>
      have map := owners none
      rw [MemoryMgr.nextFrame, if_pos none] at map
      obtain ⟨t, run⟩ := evictOwners_total swaps map
      dsimp only
      rw [run]
      exact ⟨_, _, rfl⟩
    next => exact ⟨_, _, rfl⟩
  obtain ⟨f, t, run⟩ := acquires
  have got := getPage_inv sound.memoryBits run
  obtain ⟨space', found, pages, -⟩ := got.onlyEvicted.entries absent.found
  have inTable : addr.toNat / pageSize < space'.numPages := pages ▸ absent.inTable
  have swapsT := swaps.of_longer got.onlyEvicted.programs got.files
  obtain ⟨offset, file, opened, whole⟩ := swapsT.page found inTable
  have read := (readSwapPage_eq_ok (space'.offset_lt inTable)).mpr ⟨file, opened, offset, whole, rfl⟩
  unfold pageIn
  simp only [run, ok_bind, Kernel.space_eq_ok.mpr found, if_neg (Nat.not_le.mpr inTable)]
  split
  next => exact ⟨_, rfl⟩
  next =>
    rw [read]
    exact ⟨_, rfl⟩

structure Took (pid v : Nat) (s s₁ : Kernel) : Prop where
  manager : s₁.memoryMgr = s.memoryMgr.take pid
  hold : ∀ q w g, (sharing s₁).hold q w g ↔ q = pid ∧ w = v ∧ g = s.memoryMgr.nextFrame ∨
    ¬ (q = pid ∧ w = v) ∧ (sharing s).hold q w g ∧ g ≠ s.memoryMgr.nextFrame
  owners : s.memoryMgr.memoryMap.numClear = 0 → s.OwnersMap s.memoryMgr.nextFrame
  files : SwapsGrow s s₁
  entries : ∀ {q space}, s.allPCB q = some space → ∃ space', s₁.allPCB q = some space' ∧
    space'.numPages = space.numPages ∧ ∀ w, ¬ (q = pid ∧ w = v) →
      space'.pageTable w = space.pageTable w ∨ space'.pageTable w = (space.pageTable w).evicted

theorem pageIn_took (sound : Sound s) (found : s.allPCB pid = some space)
    (run : pageIn pid addr s = .ok s₁) : Took pid (addr.toNat / pageSize) s s₁ := by
  obtain ⟨f, t, space', page, zeroFilled, got, found', below, -, rfl⟩ :=
    pageIn_inv sound.memoryBits run
  obtain ⟨wfT, acquired⟩ := got.acquired sound (sound.live_lt found)
  obtain ⟨rfl, manager⟩ := got.takes sound.memoryBits
  refine ⟨manager, fun q w g => ?_, fun none => ?_, got.files, fun {q spaceQ} foundQ => ?_⟩
  · rw [sharing_fillPage page found' below rfl rfl]
    simp only [Sharing.assign, acquired.hold_iff sound.coherent]
  · cases got with
    | evicted _ _ loop => exact evictOwners_map loop
    | clear bound isClear =>
      rw [BitMap.numClear_eq_zero, sound.memoryBits] at none
      rw [none _ bound] at isClear
      cases isClear
  · obtain ⟨spaceT, foundT, pages, entries⟩ := got.onlyEvicted.entries foundQ
    by_cases party : q = pid
    · subst party
      cases found'.symm.trans foundT
      refine ⟨_, if_pos rfl, pages, fun w other => ?_⟩
      rw [AddrSpace.setEntry_pageTable, if_neg fun same => other ⟨rfl, same⟩]
      exact entries w
    · exact ⟨spaceT, (if_neg party).trans foundT, pages, fun w _ => entries w⟩

/-! ## The clock of a range -/

/-- The memory manager after some visits, and the pages that frames were taken for. -/
structure Clock where
  mgr : MemoryMgr
  taken : Nat → Option Nat

def Clock.Resident (c : Clock) (entry : TranslationEntry) : Prop :=
  entry.valid = true ∧ c.taken entry.physicalPage.toNat = none

instance (c : Clock) (entry : TranslationEntry) : Decidable (c.Resident entry) :=
  inferInstanceAs (Decidable (_ ∧ _))

def Clock.load (c : Clock) (pid v : Nat) : Clock where
  mgr := c.mgr.take pid
  taken f := if f = c.mgr.nextFrame then some v else c.taken f

def Clock.visit (c : Clock) (pid : Nat) (space : AddrSpace) (v : Nat) : Clock :=
  if c.Resident (space.pageTable v) then c else c.load pid v

def clock (s : Kernel) (pid : Nat) (space : AddrSpace) (first : Nat) : Nat → Clock
  | 0 => ⟨s.memoryMgr, fun _ => none⟩
  | j + 1 => (clock s pid space first j).visit pid space (first + j)

theorem clock_taken_mono {j' : Nat} (earlier : j ≤ j')
    (taken : (clock s pid space first j).taken f ≠ none) :
    (clock s pid space first j').taken f ≠ none := by
  induction j', earlier using Nat.le_induction with
  | base => exact taken
  | succ j' _ ih =>
    rw [clock, Clock.visit]
    split
    next => exact ih
    next =>
      simp only [Clock.load]
      split
      next => simp
      next => exact ih

/-- Pages in memory are not loaded, so no frame is taken for them. -/
theorem clock_of_resident (resident : ∀ w, first ≤ w → w < first + j →
    (space.pageTable w).valid = true) : (clock s pid space first j).taken = fun _ => none := by
  induction j with
  | zero => rfl
  | succ j ih =>
    have free := ih fun w lower upper => resident w lower (by omega)
    have stays : (clock s pid space first j).Resident (space.pageTable (first + j)) :=
      ⟨resident _ (by omega) (by omega), by rw [free]⟩
    rw [clock, Clock.visit, if_pos stays, free]

/-- If page `v` has to be loaded and no frame is clear, all owners of the frame that is taken have a
page in it: in the state before the call, or the frame was taken in it for `pid`. -/
def OwnersMapped (s : Kernel) (pid : Nat) (space : AddrSpace) (first v : Nat) : Prop :=
  let c := clock s pid space first (v - first)
  ¬ c.Resident (space.pageTable v) → c.mgr.memoryMap.numClear = 0 →
    ∀ q < pidMapSize, c.mgr.framePID c.mgr.nextFrame q = true →
      (∃ w, (sharing s).hold q w c.mgr.nextFrame) ∨ q = pid ∧ c.taken c.mgr.nextFrame ≠ none

structure Clocked (s : Kernel) (pid first j : Nat) (c : Clock) (t : Kernel) : Prop where
  sound : Sound t
  manager : t.memoryMgr = c.mgr
  holds : ∀ q w f, c.taken f = none → ((sharing t).hold q w f ↔ (sharing s).hold q w f)
  visited : ∀ f v, c.taken f = some v → first ≤ v ∧ v < first + j
  own : ∀ f v, c.taken f = some v → ∀ q w, (sharing t).hold q w f ↔ q = pid ∧ w = v
  owners : ∀ f v, c.taken f = some v → ∀ q w, c.mgr.framePID f q = true → (sharing s).hold q w f →
    q = pid
  entries : ∀ {q space}, s.allPCB q = some space → ∃ space', t.allPCB q = some space' ∧
    space'.numPages = space.numPages ∧ ∀ w, ¬ (q = pid ∧ first ≤ w ∧ w < first + j) →
      space'.pageTable w = space.pageTable w ∨ space'.pageTable w = (space.pageTable w).evicted

namespace Clocked

variable {c : Clock}

theorem start (sound : Sound s) (pid first : Nat) :
    Clocked s pid first 0 ⟨s.memoryMgr, fun _ => none⟩ s where
  sound := sound
  manager := rfl
  holds _ _ _ _ := Iff.rfl
  visited _ _ taken := by cases taken
  own _ _ taken := by cases taken
  owners _ _ taken := by cases taken
  entries found := ⟨_, found, rfl, fun _ _ => .inl rfl⟩

theorem free (clocked : Clocked s pid first j c t) (held : (sharing t).hold q w f)
    (unvisited : ¬ (q = pid ∧ first ≤ w ∧ w < first + j)) : c.taken f = none := by
  cases taken : c.taken f with
  | none => rfl
  | some v =>
    obtain ⟨rfl, rfl⟩ := (clocked.own f v taken q w).mp held
    exact absurd ⟨rfl, clocked.visited f w taken⟩ unvisited

theorem valid_iff (clocked : Clocked s pid first j c t) (sound : Sound s)
    {spaceS spaceT : AddrSpace} (foundS : s.allPCB q = some spaceS)
    (foundT : t.allPCB q = some spaceT) (inTable : w < spaceS.numPages)
    (unvisited : ¬ (q = pid ∧ first ≤ w ∧ w < first + j)) :
    (spaceT.pageTable w).valid = true ↔ c.Resident (spaceS.pageTable w) := by
  obtain ⟨spaceT', foundT', pages, -⟩ := clocked.entries foundS
  cases foundT.symm.trans foundT'
  have inTableT : w < spaceT.numPages := pages ▸ inTable
  constructor
  · intro valid
    obtain ⟨f, -, maps⟩ := (clocked.sound.entries foundT w inTableT).frame valid
    have held : (sharing t).hold q w f := ⟨spaceT, foundT, inTableT, maps⟩
    have free := clocked.free held unvisited
    obtain ⟨space', found', -, maps'⟩ := (clocked.holds q w f free).mp held
    cases foundS.symm.trans found'
    refine ⟨(sound.entries foundS w inTable).valid maps', ?_⟩
    rw [maps', Int.toNat_natCast, free]
  · rintro ⟨valid, free⟩
    obtain ⟨f, -, maps⟩ := (sound.entries foundS w inTable).frame valid
    have held : (sharing s).hold q w f := ⟨spaceS, foundS, inTable, maps⟩
    rw [maps, Int.toNat_natCast] at free
    obtain ⟨space', found', -, maps'⟩ := (clocked.holds q w f free).mpr held
    cases foundT.symm.trans found'
    exact (clocked.sound.entries foundT w inTableT).valid maps'

/-- The condition of the clock is that of `PageIn`. -/
theorem ownersMap_iff (clocked : Clocked s pid first j c t) :
    t.OwnersMap t.memoryMgr.nextFrame ↔
      ∀ q < pidMapSize, c.mgr.framePID c.mgr.nextFrame q = true →
        (∃ w, (sharing s).hold q w c.mgr.nextFrame) ∨ q = pid ∧ c.taken c.mgr.nextFrame ≠ none := by
  rw [clocked.manager]
  cases taken : c.taken c.mgr.nextFrame with
  | none =>
    simp only [Kernel.OwnersMap, clocked.manager, clocked.holds _ _ _ taken]
    simp
  | some v =>
    simp only [Kernel.OwnersMap, clocked.manager, clocked.own _ v taken]
    constructor
    · intro map q bound owned
      obtain ⟨w, isPid, -⟩ := map q bound owned
      exact .inr ⟨isPid, by simp⟩
    · intro found q bound owned
      obtain ⟨w, held⟩ | ⟨isPid, -⟩ := found q bound owned
      · exact ⟨v, clocked.owners _ v taken q w owned held, rfl⟩
      · exact ⟨v, isPid, rfl⟩

theorem succ (clocked : Clocked s pid first j c t) : Clocked s pid first (j + 1) c t :=
  { clocked with
    visited := fun f v taken => by
      obtain ⟨lower, upper⟩ := clocked.visited f v taken
      exact ⟨lower, by omega⟩
    entries := fun found => by
      obtain ⟨space', found', pages, entries⟩ := clocked.entries found
      exact ⟨space', found', pages, fun w unvisited => entries w fun visited => unvisited (by omega)⟩ }

theorem touch {f n : Nat} {bytes : Nat → Byte} {physAddr : Nat}
    (clocked : Clocked s pid first j c t) (inFrame : InFrame t pid space addr f)
    (visited : first ≤ addr.toNat / pageSize ∧ addr.toNat / pageSize < first + j) :
    Clocked s pid first j c
      (t.storeInto pid space (addr.toNat / pageSize) false bytes physAddr n) := by
  have same : sharing (t.storeInto pid space (addr.toNat / pageSize) false bytes physAddr n) =
      sharing t := sharing_touched inFrame.found inFrame.inTable rfl rfl
  refine ⟨touched_sound false clocked.sound inFrame.found inFrame.inTable rfl rfl rfl,
    clocked.manager, same ▸ clocked.holds,
    clocked.visited, same ▸ clocked.own, clocked.owners, ?_⟩
  intro q spaceQ foundQ
  obtain ⟨spaceT, foundT, pages, entries⟩ := clocked.entries foundQ
  by_cases party : q = pid
  · subst party
    cases foundT.symm.trans inFrame.found
    refine ⟨_, if_pos rfl, pages, fun w unvisited => ?_⟩
    rw [AddrSpace.setEntry_pageTable, if_neg (by omega)]
    exact entries w unvisited
  · exact ⟨spaceT, (if_neg party).trans foundT, pages, entries⟩

theorem load (clocked : Clocked s pid first j c t) (sound : Sound s)
    (page : addr.toNat / pageSize = first + j) (after : Sound s₁)
    (absent : ∀ g, ¬ (sharing t).hold pid (addr.toNat / pageSize) g)
    (took : Took pid (addr.toNat / pageSize) t s₁) :
    Clocked s pid first (j + 1) (c.load pid (addr.toNat / pageSize)) s₁ := by
  have hold := took.hold
  rw [clocked.manager, page] at hold
  rw [page] at absent ⊢
  have frames : ∀ g, (c.load pid (first + j)).taken g = none ↔
      g ≠ c.mgr.nextFrame ∧ c.taken g = none := by
    intro g
    simp only [Clock.load]
    split <;> simp_all
  refine ⟨after, by rw [took.manager, clocked.manager, Clock.load], fun q w g free => ?_, fun g v taken => ?_,
    fun g v taken q w => ?_, fun g v taken q w owned held => ?_, fun {q spaceQ} foundQ => ?_⟩
  · obtain ⟨notNext, free⟩ := (frames g).mp free
    rw [hold, ← clocked.holds q w g free]
    constructor
    · rintro (⟨-, -, isNext⟩ | ⟨-, held, -⟩)
      · exact absurd isNext notNext
      · exact held
    · intro held
      refine .inr ⟨?_, held, notNext⟩
      rintro ⟨rfl, rfl⟩
      exact absent g held
  · simp only [Clock.load] at taken
    split at taken
    next =>
      cases taken
      omega
    next =>
      obtain ⟨lower, upper⟩ := clocked.visited g v taken
      exact ⟨lower, by omega⟩
  · simp only [Clock.load] at taken
    rw [hold]
    split at taken
    next isNext =>
      cases taken
      simp [isNext]
    next notNext =>
      obtain ⟨-, upper⟩ := clocked.visited g v taken
      rw [clocked.own g v taken]
      constructor
      · rintro (⟨-, -, isNext⟩ | ⟨-, held, -⟩)
        · exact absurd isNext notNext
        · exact held
      · exact fun held => .inr ⟨by omega, held, notNext⟩
  · by_contra other
    obtain ⟨before, struck⟩ := c.mgr.take_framePID pid other owned
    cases earlier : c.taken g with
    | some v => exact other (clocked.owners g v earlier q w before held)
    | none =>
      -- the frame was in use, so it was evicted, and its owners are no longer recorded
      have heldT := (clocked.holds q w g earlier).mpr held
      obtain rfl : g = c.mgr.nextFrame := by
        by_contra notNext
        rw [(frames g).mpr ⟨notNext, earlier⟩] at taken
        cases taken
      refine absurd (sound.live_lt held.choose_spec.1) (Nat.not_lt.mpr (struck rfl ?_))
      by_contra some
      have used := (clocked.sound.coherent.inUse heldT).2
      obtain ⟨f, -, isClear, -, found⟩ := BitMap.find_of_numClear some
      rw [clocked.manager, MemoryMgr.nextFrame, if_neg some, found, Int.toNat_natCast, isClear]
        at used
      cases used
  · obtain ⟨spaceT, foundT, pagesT, entriesT⟩ := clocked.entries foundQ
    obtain ⟨space', found', pages, entries⟩ := took.entries foundT
    refine ⟨space', found', pages.trans pagesT, fun w unvisited => ?_⟩
    obtain same | evicted := entries w fun both => unvisited ⟨both.1, by omega, by omega⟩
    · rw [same]
      exact entriesT w fun visited => unvisited ⟨visited.1, by omega, by omega⟩
    · rw [evicted]
      obtain sameT | evictedT := entriesT w fun visited => unvisited ⟨visited.1, by omega, by omega⟩
      · exact .inr (by rw [sameT])
      · exact .inr (by rw [evictedT]; rfl)

/-- The next page is in memory, or has to be loaded, as the clock says. -/
theorem brings {t₁ : Kernel} {spaceS space₁ : AddrSpace} (clocked : Clocked s pid first j c t)
    (sound : Sound s) (foundS : s.allPCB pid = some spaceS)
    (page : addr.toNat / pageSize = first + j) (brought : BroughtIn t pid addr t₁)
    (inFrame : InFrame t₁ pid space₁ addr f) :
    (c.Resident (spaceS.pageTable (addr.toNat / pageSize)) ∧ t₁ = t) ∨
      ¬ c.Resident (spaceS.pageTable (addr.toNat / pageSize)) ∧ PageFaults t pid addr ∧
        pageIn pid addr t = .ok t₁ ∧ Took pid (addr.toNat / pageSize) t t₁ := by
  obtain ⟨spaceT, foundT, pages, -⟩ := clocked.entries foundS
  have same := brought.programs clocked.sound pid
  simp only [program, inFrame.found, foundT, Option.map_some, Option.some.injEq] at same
  have numPages : space₁.numPages = spaceT.numPages := congrArg Program.numPages same
  have inTable : addr.toNat / pageSize < spaceS.numPages :=
    pages ▸ numPages ▸ inFrame.inTable
  have resident := clocked.valid_iff sound foundS foundT inTable (by omega)
  cases brought with
  | present found valid =>
    cases foundT.symm.trans found
    exact .inl ⟨resident.mp valid, rfl⟩
  | loaded found invalid run =>
    cases foundT.symm.trans found
    refine .inr ⟨?_, BroughtIn.faults clocked.sound.toWellFormed found invalid run, run,
      pageIn_took clocked.sound found run⟩
    rw [← resident, invalid]
    simp

theorem next {t₁ : Kernel} {spaceS space₁ : AddrSpace} {f n physAddr : Nat} {bytes : Nat → Byte}
    (clocked : Clocked s pid first j c t) (sound : Sound s) (foundS : s.allPCB pid = some spaceS)
    (page : addr.toNat / pageSize = first + j) (brought : BroughtIn t pid addr t₁)
    (inFrame : InFrame t₁ pid space₁ addr f) :
    (¬ c.Resident (spaceS.pageTable (first + j)) → c.mgr.memoryMap.numClear = 0 →
      t.OwnersMap t.memoryMgr.nextFrame) ∧
    Clocked s pid first (j + 1) (c.visit pid spaceS (first + j))
      (t₁.storeInto pid space₁ (addr.toNat / pageSize) false bytes physAddr n) := by
  have visited : first ≤ addr.toNat / pageSize ∧ addr.toNat / pageSize < first + (j + 1) := by omega
  have after := brought.sound clocked.sound
  rw [← page, Clock.visit]
  obtain ⟨stays, rfl⟩ | ⟨gone, faults, -, took⟩ := clocked.brings sound foundS page brought inFrame
  · rw [if_pos stays]
    exact ⟨fun gone => absurd stays gone, clocked.succ.touch inFrame visited⟩
  · have absent := faults.not_hold clocked.sound.toWellFormed
    rw [if_neg gone]
    exact ⟨fun _ none => took.owners (clocked.manager ▸ none),
      (clocked.load sound page after absent took).touch inFrame visited⟩

end Clocked

variable {opt : TransferOpt} {buffer : Nat → Byte} {virtAddr : BitVec 32} {k size : Nat}

theorem Visits.files (visits : Visits pid opt buffer virtAddr size s j k t) (sound : Sound s) :
    SwapsGrow s t := by
  induction visits with
  | start => exact .refl s
  | next earlier _ _ brought inFrame ih =>
    obtain ⟨soundT, -⟩ := earlier.kept sound
    cases brought with
    | present => exact ih
    | loaded found _ run => exact ih.trans (pageIn_took soundT found run).files

theorem Visits.swaps (visits : Visits pid opt buffer virtAddr size s j k t) (sound : Sound s)
    (swaps : SwapsWhole s) : SwapsWhole t :=
  swaps.of_longer (visits.kept sound).2 (visits.files sound)

/-- The visits of a call go by the clock, and the owners of the frames taken were found. -/
theorem Visits.clocked (visits : Visits pid opt buffer virtAddr size s j k t) (sound : Sound s)
    (found : s.allPCB pid = some space) :
    Clocked s pid (virtAddr.toNat / pageSize) j
        (clock s pid space (virtAddr.toNat / pageSize) j) t ∧
      ∀ i < j, OwnersMapped s pid space (virtAddr.toNat / pageSize)
        (virtAddr.toNat / pageSize + i) := by
  induction visits with
  | start => exact ⟨.start sound _ _, by simp⟩
  | @next j k n f t t₁ addr space₁ earlier part addressable brought inFrame ih =>
    obtain ⟨clocked, owners⟩ := ih
    obtain ⟨map, next⟩ := clocked.next sound found part.page brought inFrame
    refine ⟨next, fun i below => ?_⟩
    by_cases before : i < j
    · exact owners i before
    obtain rfl : i = j := by omega
    unfold OwnersMapped
    rw [Nat.add_sub_cancel_left]
    exact fun gone none => clocked.ownersMap_iff.mp (map gone none)

/-- A page that is visited is alone in its frame, if it was before, or had to be loaded. -/
theorem Visits.alone {t₁ : Kernel} {space₁ : AddrSpace}
    (visits : Visits pid opt buffer virtAddr size s j k t) (sound : Sound s)
    (found : s.allPCB pid = some space)
    (page : addr.toNat / pageSize = virtAddr.toNat / pageSize + j)
    (brought : BroughtIn t pid addr t₁) (inFrame : InFrame t₁ pid space₁ addr f)
    (unshared : (clock s pid space (virtAddr.toNat / pageSize) j).Resident
      (space.pageTable (addr.toNat / pageSize)) → ∀ q w, (sharing s).hold q w
        (space.pageTable (addr.toNat / pageSize)).physicalPage.toNat → q = pid) :
    ∀ q w, (sharing t₁).hold q w f → q = pid ∧ w = addr.toNat / pageSize := by
  obtain ⟨clocked, -⟩ := visits.clocked sound found
  have held : (sharing t₁).hold pid (addr.toNat / pageSize) f :=
    ⟨_, inFrame.found, inFrame.inTable, inFrame.maps⟩
  intro q w heldQ
  obtain ⟨stays, rfl⟩ | ⟨-, -, -, took⟩ := clocked.brings sound found page brought inFrame
  · have free := clocked.free held (by omega)
    obtain ⟨space', isSpace, inTable, maps⟩ := (clocked.holds _ _ _ free).mp held
    cases found.symm.trans isSpace
    rw [maps, Int.toNat_natCast] at unshared
    obtain rfl := unshared stays q w ((clocked.holds _ _ _ free).mp heldQ)
    exact ⟨rfl, clocked.sound.coherent.once heldQ held⟩
  · obtain ⟨isPid, isPage, -⟩ | ⟨-, -, notNext⟩ := (took.hold q w f).mp heldQ
    · exact ⟨isPid, isPage⟩
    · obtain ⟨-, -, isNext⟩ | ⟨other, -⟩ := (took.hold _ _ f).mp held
      · exact absurd isNext notNext
      · exact absurd ⟨rfl, rfl⟩ other

/-- `PageIn` does not fail for a page whose owners are found. -/
theorem OwnersMapped.not_fails {fault : Fault} (sound : Sound s) (swaps : SwapsWhole s)
    (found : s.allPCB pid = some space)
    (owners : ∀ v, rangePages virtAddr.toNat size v → space.Accepts v →
      OwnersMapped s pid space (virtAddr.toNat / pageSize) v) :
    ¬ LoadFails pid opt buffer virtAddr size s fault := by
  rintro ⟨j, k, n, t, addr, spaceT, visits, part, addressable, absent, fails⟩
  have page := part.page
  obtain ⟨clocked, -⟩ := visits.clocked sound found
  obtain ⟨spaceT', foundT, pages, -⟩ := clocked.entries found
  cases absent.found.symm.trans foundT
  have accepts : space.Accepts (addr.toNat / pageSize) :=
    ⟨pages ▸ absent.inTable, Nat.lt_of_le_of_lt (Nat.div_mul_le_self ..) addressable⟩
  have owners := owners _ part.covers accepts
  unfold OwnersMapped at owners
  rw [page, Nat.add_sub_cancel_left] at owners
  have gone : ¬ (clock s pid space (virtAddr.toNat / pageSize) j).Resident
      (space.pageTable (virtAddr.toNat / pageSize + j)) := by
    rw [← clocked.valid_iff sound found foundT (page ▸ accepts.1) (by omega), ← page, absent.invalid]
    simp
  obtain ⟨s₁, loaded⟩ := pageIn_total clocked.sound (visits.swaps sound swaps) absent fun none =>
    clocked.ownersMap_iff.mpr (owners gone (clocked.manager ▸ none))
  cases fails.symm.trans loaded

/-! ## Swap files -/

/-- The swap file of a process has the size that was computed for it, which need not be that of all
pages: as an `unsigned int`, `numPages * PageSize` may overflow. -/
def SwapsMade (s : Kernel) : Prop :=
  ∀ q loaded, program s q = some loaded →
    loaded.swapFileSize = BitVec.ofNat 32 (loaded.numPages * pageSize) ∧
      0 ≤ loaded.swapFileSize.toInt ∧
      ∃ file, s.files (.swap q) = some file ∧ loaded.swapFileSize.toNat ≤ file.length

theorem SwapsMade.of_longer (made : SwapsMade s) (programs : ∀ q, program t q = program s q)
    (files : SwapsGrow s t) : SwapsMade t := by
  intro q loaded live
  obtain ⟨size, signed, file, opened, whole⟩ := made q loaded (programs q ▸ live)
  obtain ⟨file', opened', longer⟩ := files q file opened
  exact ⟨size, signed, file', opened', whole.trans longer⟩

theorem SwapsMade.allocate {openFile : FileName} {codeDataSize codeDataFileAddr : BitVec 32}
    {files : Files} (made : SwapsMade s) (loaded : Program)
    (others : ∀ q, q ≠ pid → program t q = program s q) (own : program t pid = some loaded)
    (size : loaded.swapFileSize = BitVec.ofNat 32 (loaded.numPages * pageSize))
    (allocated : allocateSwapFile pid openFile codeDataSize codeDataFileAddr loaded.swapFileSize
      s.files = .ok files) (sameFiles : t.files = files) : SwapsMade t := by
  obtain ⟨executable, swap, -, -, signed, length, -, rfl⟩ := allocateSwapFile_inv allocated
  intro q loaded' live
  rw [sameFiles]
  by_cases same : q = pid
  · subst same
    cases own.symm.trans live
    exact ⟨size, signed, swap, Files.set_same .., Nat.le_of_eq length.symm⟩
  · rw [others q same] at live
    rw [Files.set_other _ (swap_name_ne same)]
    exact made q loaded' live

theorem Step.swapsMade {op : Op} (step : Step s op t) (sound : Sound s) (made : SwapsMade s) :
    SwapsMade t := by
  have wf := sound.toWellFormed
  cases step with
  | start run =>
    obtain ⟨space, files, -, -, constructed, rfl⟩ := startProcess_inv wf.pidBits run
    obtain ⟨executable, noffH, -, -, rfl, allocated⟩ := construct_eq_ok.mp constructed
    exact made.allocate (freshSpace _ noffH).program
      (fun q other => program_congr (if_neg other)) (program_eq_some.mpr ⟨_, if_pos rfl, rfl⟩) rfl
      allocated rfl
  | load run =>
    obtain ⟨space, f, -, -, -, rfl⟩ := readMem_inv run
    exact made.of_longer (load_cells run).1 (.refl s)
  | store run =>
    have programs := (store_cells sound run).1
    obtain ⟨space, f, bytes, -, -, -, rfl⟩ := writeMem_inv run
    exact made.of_longer programs (.refl s)
  | pageFault faults run =>
    have programs := (pageFault_cells sound faults run).1
    obtain ⟨entry, ⟨space, found, -⟩, -⟩ := faults
    exact made.of_longer programs (pageIn_took sound found run).files
  | readOnlyFault faults run =>
    have programs := (readOnlyFault_cells sound faults run).1
    obtain ⟨space₁, f, t, space, oppn, -, -, got, -, -, -, unshared⟩ := cow_inv wf.memoryBits run
    refine made.of_longer programs fun q file opened => ?_
    rw [unshared.files_machine.1]
    exact got.files q file opened
  | @fork _ parent childPID junk run =>
    obtain ⟨space, m, files, -, -, found, -, allocated, rfl⟩ := forkSystemcall_inv wf.pidBits run
    refine made.allocate space.program (fun q other => ?_)
      (by simp [program, AddrSpace.forkChild, AddrSpace.program])
      (made _ _ (program_eq_some.mpr ⟨space, found, rfl⟩)).1 allocated rfl
    by_cases forks : q = parent
    · subst forks
      simp [program, other, found, AddrSpace.forkParent, AddrSpace.program]
    · simp [program, other, forks]
  | terminate run =>
    obtain ⟨others, gone⟩ := terminate_cells run
    obtain ⟨space, -, released⟩ := terminate_inv run
    obtain ⟨-, files, -⟩ := releaseMemory_undisturbed released
    intro q loaded live
    have other : q ≠ _ := fun same => by
      rw [same, gone] at live
      cases live
    rw [(others q other).program] at live
    rw [files]
    exact made q loaded live
  | exec junk run =>
    obtain ⟨space, executable, noffH, files, t, -, -, -, allocated, released, rfl⟩ :=
      replaceMemory_inv run
    obtain ⟨undisturbed, sameFiles, -⟩ := releaseMemory_undisturbed released
    refine made.allocate (space.replaced _ noffH junk).program (fun q other => ?_)
      (program_eq_some.mpr ⟨_, if_pos rfl, rfl⟩) rfl allocated sameFiles
    exact (program_congr (if_neg other)).trans (undisturbed q).program

theorem SystemStep.swapsMade {op : SystemOp} (step : SystemStep s op t) (sound : Sound s)
    (made : SwapsMade s) : SwapsMade t := by
  cases step with
  | user step => exact step.swapsMade sound made
  | transfer run =>
    obtain ⟨-, rfl | ⟨space, j, -, visits⟩⟩ := userReadWrite_inv sound run
    · exact made
    · exact made.of_longer (visits.kept sound).2 (visits.files sound)

/-- The size of no address space has overflowed as an `unsigned int`. -/
def SizesFit (s : Kernel) : Prop :=
  ∀ q < pidMapSize, ∀ space ∈ s.allPCB q, space.numPages * pageSize < 2 ^ 32

instance (s : Kernel) : Decidable (SizesFit s) :=
  inferInstanceAs (Decidable (∀ q < pidMapSize, ∀ space ∈ s.allPCB q, _))

theorem swapsWhole_of_run {bigEndian : Bool} {junk : Nat → BitVec 32} {files : Files}
    {history : List (Kernel × SystemOp)}
    (run : Runs.Run SystemStep (boot bigEndian junk files) history s)
    (fits : SizesFit s) : SwapsWhole s := by
  have made : Sound s ∧ SwapsMade s :=
    run.always (I := fun s => Sound s ∧ SwapsMade s)
      ⟨⟨boot_wellFormed _ _ _, boot_coherent _ _ _⟩, fun q loaded live => by
        simp [program, boot] at live⟩
      fun _ _ _ before step => ⟨step.sound before.1, step.swapsMade before.1 before.2⟩
  intro q loaded live
  obtain ⟨size, signed, file, opened, whole⟩ := made.2 q loaded live
  obtain ⟨space, found, rfl⟩ := program_eq_some.mp live
  have value : space.program.swapFileSize.toNat = space.program.numPages * pageSize := by
    rw [size, BitVec.toNat_ofNat]
    exact Nat.mod_eq_of_lt (fits q (made.1.live_lt found) space found)
  rw [value] at whole
  refine ⟨?_, file, opened, whole⟩
  have nonneg := toInt_of_nonneg signed
  have bound := BitVec.toInt_lt (x := space.program.swapFileSize)
  omega

end Nachos
