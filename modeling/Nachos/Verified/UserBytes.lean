import Nachos.Verified.FrameClock
import Nachos.Verified.KernelStore

/-!
# The bytes of processes under a copy

`byteAt` is the byte that a process finds at an address, whether its page is in memory or not.  A
copy to a range of a process sets the bytes of the range and no others of any process, if no page
of the range is in a frame of another process, and no page loses bytes when it is loaded or paged out
on the way.  Which pages these are is known from the state before the copy.
-/

namespace Nachos

open Loops

def byteAt (s : Kernel) (pid : Nat) (addr : BitVec 32) : Option Byte :=
  (accessPage s pid addr).map fun page => page ⟨addr.toNat % pageSize, pageOffset_lt addr⟩

def overlay (bytes : Nat → Byte) (virtAddr size : Nat) (old : BitVec 32 → Option Byte)
    (addr : BitVec 32) : Option Byte :=
  if virtAddr ≤ addr.toNat ∧ addr.toNat < virtAddr + size then some (bytes (addr.toNat - virtAddr))
  else old addr

def copiedBytes (s : Kernel) (pid : Nat) (bytes : Nat → Byte) (virtAddr size q : Nat)
    (addr : BitVec 32) : Option Byte :=
  if q = pid then overlay bytes virtAddr size (byteAt s pid) addr else byteAt s q addr

/-- The bytes that a process finds on a page, each by an access of its own: a page that was never
zeroed is zeroed by a first access behind code and data. -/
def pageBytes (loaded : Program) (v : Nat) (c : DemandCell Page) : Page := fun i =>
  if c.resident = false ∧ c.zeroFilled = false ∧ loaded.codeDataEnd ≤ v * pageSize + i then 0#8
  else c.content i

/-! ## Copies that cost no bytes -/

def EvictsWhole (s : Kernel) (q w : Nat) : Prop :=
  ∀ c loaded, cell s q w = some c → program s q = some loaded →
    pageBytes loaded w c.evict = pageBytes loaded w c

def ByteInRange (virtAddr size a : Nat) : Prop := virtAddr ≤ a ∧ a < virtAddr + size

/-- The page can be paged out after the copy to it: it is dirty, and none of its bytes will be
zeroed. -/
def SurvivesEviction (s : Kernel) (pid : Nat) (loaded : Program) (virtAddr size w : Nat) : Prop :=
  ∀ c, cell s pid w = some c → c.dirty = true ∧
    (c.zeroFilled = false → ∀ i : Fin pageSize, loaded.codeDataEnd ≤ w * pageSize + i →
      ¬ ByteInRange virtAddr size (w * pageSize + i) ∧ pageBytes loaded w c i = 0#8)

/-- The page is loaded with the bytes that it has outside of the range.  The first page of the range
is loaded at the first address of the range, and any other at its own. -/
def LoadsWhole (s : Kernel) (pid : Nat) (loaded : Program) (virtAddr size v : Nat) : Prop :=
  ∀ c, cell s pid v = some c → ∀ i : Fin pageSize, ¬ ByteInRange virtAddr size (v * pageSize + i) →
    (if loaded.codeDataEnd ≤ max virtAddr (v * pageSize) ∧ c.zeroFilled = false then 0#8
      else c.evict.backing i) = pageBytes loaded v c i

def Clock.Holds (c : Clock) (s : Kernel) (pid q w f : Nat) : Prop :=
  match c.taken f with
  | none => (sharing s).hold q w f
  | some v => q = pid ∧ w = v

/-- What the pages of a range and the pages that they displace have to be like, for a copy to the
range to cost no process a byte. -/
structure CopyKeeps (s : Kernel) (pid : Nat) (space : AddrSpace) (virtAddr size : Nat) : Prop where
  owners : ∀ v, rangePages virtAddr size v → OwnersMapped s pid space (virtAddr / pageSize) v
  unshared : 0 < size → ∀ v, rangePages virtAddr size v →
    (clock s pid space (virtAddr / pageSize) (v - virtAddr / pageSize)).Resident
      (space.pageTable v) →
    ∀ q w, (sharing s).hold q w (space.pageTable v).physicalPage.toNat → q = pid
  loads : ∀ v, rangePages virtAddr size v →
    ¬ (clock s pid space (virtAddr / pageSize) (v - virtAddr / pageSize)).Resident
      (space.pageTable v) →
    LoadsWhole s pid space.program virtAddr size v
  evicts : ∀ v, rangePages virtAddr size v →
    let c := clock s pid space (virtAddr / pageSize) (v - virtAddr / pageSize)
    ¬ c.Resident (space.pageTable v) → ∀ q w, c.Holds s pid q w c.mgr.nextFrame →
      (¬ (q = pid ∧ rangePages virtAddr size w) → EvictsWhole s q w) ∧
      (q = pid → rangePages virtAddr size w → w < v →
        SurvivesEviction s pid space.program virtAddr size w)

theorem ByteInRange.covers {va size a : Nat} (inside : ByteInRange va size a) :
    rangePages va size (a / pageSize) := by
  simp only [ByteInRange, rangePages, pageSize] at *
  omega

theorem overlay_inside {bytes : Nat → Byte} {va size : Nat} {old : BitVec 32 → Option Byte}
    {addr : BitVec 32} (inside : ByteInRange va size addr.toNat) :
    overlay bytes va size old addr = some (bytes (addr.toNat - va)) :=
  if_pos inside

theorem overlay_outside {bytes : Nat → Byte} {va size : Nat} {old : BitVec 32 → Option Byte}
    {addr : BitVec 32} (outside : ¬ ByteInRange va size addr.toNat) :
    overlay bytes va size old addr = old addr :=
  if_neg outside

variable {s s₁ t : Kernel} {pid q v w f first j k n va size : Nat} {space : AddrSpace}
  {addr virtAddr : BitVec 32} {buffer : Nat → Byte} {loaded : Program} {d e : DemandCell Page}
  {c : Clock}

/-! ## Cells and bytes -/

theorem cell_resident_iff (wf : WellFormed s) (here : cell s q w = some d) :
    d.resident = true ↔ ∃ f, (sharing s).hold q w f := by
  obtain ⟨space, found, inTable, rfl⟩ := cell_inv here
  constructor
  · intro resident
    obtain ⟨f, -, maps⟩ := (wf.entries found w inTable).resident (by simpa [pageCell] using resident)
    exact ⟨f, space, found, inTable, maps⟩
  · rintro ⟨f, space', found', -, maps⟩
    cases found.symm.trans found'
    simp [pageCell, maps]

theorem cell_evict_absent (here : cell s q w = some d) (absent : d.resident = false) :
    d.evict = d := by
  obtain ⟨space, found, inTable, rfl⟩ := cell_inv here
  have unmapped : (space.pageTable w).physicalPage = -1 := by simpa [pageCell] using absent
  simp [DemandCell.evict, pageCell, unmapped]

theorem cell_eq_none : cell s q w = none ↔
    ∀ loaded, program s q = some loaded → loaded.numPages ≤ w := by
  constructor
  · intro none loaded live
    by_contra below
    obtain ⟨d, here⟩ := cell_exists live (Nat.lt_of_not_le below)
    cases none.symm.trans here
  · intro beyond
    cases here : cell s q w with
    | none => rfl
    | some d =>
      obtain ⟨space, found, below, -⟩ := cell_inv here
      exact absurd below (Nat.not_lt.mpr (beyond _ (program_eq_some.mpr ⟨space, found, rfl⟩)))

theorem byteAt_none (beyond : cell s q (addr.toNat / pageSize) = none) :
    byteAt s q addr = none := by
  rw [cell_eq_none] at beyond
  unfold byteAt accessPage
  split
  next => rfl
  next space found =>
    have past : space.numPages ≤ addr.toNat / pageSize :=
      beyond _ (program_eq_some.mpr ⟨space, found, rfl⟩)
    dsimp only
    rw [if_pos past]
    rfl

theorem byteAt_some (wf : WellFormed s) (swaps : SwapsWhole s) (live : program s q = some loaded)
    (here : cell s q (addr.toNat / pageSize) = some d) :
    byteAt s q addr = some (pageBytes loaded (addr.toNat / pageSize) d
      ⟨addr.toNat % pageSize, pageOffset_lt addr⟩) := by
  obtain ⟨space, found, inTable, rfl⟩ := cell_inv here
  obtain ⟨space', found', rfl⟩ := program_eq_some.mp live
  cases found.symm.trans found'
  have place := Nat.div_add_mod' addr.toNat pageSize
  have ends : space.program.codeDataEnd = space.codeDataEnd := rfl
  simp only [byteAt, accessPage, found, if_neg (Nat.not_le.mpr inTable), pageBytes, place, ends]
  obtain ⟨valid, f, -, maps⟩ | ⟨invalid, unmapped⟩ := wf.entries found _ inTable
  · simp [pageCell, valid, maps]
  · obtain ⟨offset, file, opened, whole⟩ := swaps.page found inTable
    have read := (readSwapPage_eq_ok (space.offset_lt inTable)).mpr ⟨file, opened, offset, whole, rfl⟩
    have page := readSwapPage_page (space.offset_lt inTable) read
    simp only [invalid, read, Except.toOption, Option.map_some, page]
    cases zeroed : (space.pageTable (addr.toNat / pageSize)).zeroFilled with
    | true => simp [pageCell, unmapped, zeroed]
    | false =>
      by_cases beyond : space.codeDataEnd ≤ addr.toNat <;> simp [pageCell, unmapped, zeroed, beyond]

/-- The pages in the frame that `PageIn` takes are paged out, and no others. -/
theorem pageIn_cell (sound : Sound t) (faults : PageFaults t pid addr)
    (run : pageIn pid addr t = .ok s₁) (took : Took pid (addr.toNat / pageSize) t s₁)
    (other : ¬ (q = pid ∧ w = addr.toNat / pageSize)) (here : cell t q w = some d) :
    ((sharing t).hold q w t.memoryMgr.nextFrame → cell s₁ q w = some d.evict) ∧
      (¬ (sharing t).hold q w t.memoryMgr.nextFrame → cell s₁ q w = some d) := by
  have after := (Step.pageFault faults run).sound sound
  obtain ⟨e, here₁, kept⟩ := (pageFault_cells sound faults run).2.1 other here
  rw [here₁]
  have resident := cell_resident_iff sound.toWellFormed here
  have resident₁ := cell_resident_iff after.toWellFormed here₁
  have frames : ∀ g, (sharing s₁).hold q w g ↔
      (sharing t).hold q w g ∧ g ≠ t.memoryMgr.nextFrame := by
    intro g
    rw [took.hold]
    exact ⟨fun held => held.elim (fun same => absurd ⟨same.1, same.2.1⟩ other) And.right,
      fun held => .inr ⟨other, held⟩⟩
  simp only [frames] at resident₁
  constructor
  · intro held
    obtain rfl | ⟨-, rfl⟩ := kept
    · obtain ⟨g, heldG, different⟩ := resident₁.mp (resident.mpr ⟨_, held⟩)
      exact absurd (sound.coherent.functional heldG held) different
    · rfl
  · intro free
    obtain rfl | ⟨before, rfl⟩ := kept
    · rfl
    · obtain ⟨g, held⟩ := resident.mp before
      have still := resident₁.mpr ⟨g, held, fun same => free (same ▸ held)⟩
      cases still

/-! ## The pages visited -/

structure CopiedCell (loaded : Program) (buffer : Nat → Byte) (va size k w : Nat)
    (d e : DemandCell Page) : Prop where
  dirty : e.dirty = d.dirty
  zeroFilled : d.zeroFilled = true → e.zeroFilled = true
  stored : ∀ i : Fin pageSize, ByteInRange va size (w * pageSize + i) → w * pageSize + i < va + k →
    pageBytes loaded w e i = buffer (w * pageSize + i - va)
  kept : ∀ i : Fin pageSize, ¬ ByteInRange va size (w * pageSize + i) →
    pageBytes loaded w e i = pageBytes loaded w d i

theorem pageBytes_resident (resident : e.resident = true) : pageBytes loaded w e = e.content := by
  funext i
  exact if_neg fun absent => by simp [resident] at absent

theorem CopiedCell.evict (copied : CopiedCell loaded buffer va size k w d e)
    (resident : e.resident = true) (here : cell s pid w = some d)
    (survives : SurvivesEviction s pid loaded va size w) :
    CopiedCell loaded buffer va size k w d e.evict := by
  obtain ⟨dirty, zeros⟩ := survives d here
  have saved : e.evict.content = e.content := by simp [DemandCell.evict, copied.dirty, dirty]
  -- a byte that an access would zero is outside of the range, and zero
  have same : ∀ i, pageBytes loaded w e.evict i = pageBytes loaded w e i ∨
      ¬ ByteInRange va size (w * pageSize + i) ∧ pageBytes loaded w e.evict i = pageBytes loaded w d i := by
    intro i
    rw [pageBytes_resident resident]
    by_cases lost : e.zeroFilled = false ∧ loaded.codeDataEnd ≤ w * pageSize + i
    · have unzeroed : d.zeroFilled = false := by
        by_contra zeroed
        rw [copied.zeroFilled (by simpa using zeroed)] at lost
        simp at lost
      obtain ⟨outside, zero⟩ := zeros unzeroed i lost.2
      exact .inr ⟨outside, (if_pos ⟨rfl, lost⟩).trans zero.symm⟩
    · exact .inl ((if_neg fun absent => lost absent.2).trans (congrFun saved i))
  refine ⟨copied.dirty, copied.zeroFilled, fun i inside below => ?_, fun i outside => ?_⟩
  · obtain same | ⟨outside, -⟩ := same i
    · rw [same, copied.stored i inside below]
    · exact absurd inside outside
  · obtain same | ⟨-, same⟩ := same i
    · rw [same, copied.kept i outside]
    · exact same

structure Kept (s : Kernel) (pid : Nat) (loaded : Program) (buffer : Nat → Byte)
    (va size j k : Nat) (c : Clock) (t : Kernel) : Prop where
  unvisited : ∀ {q w d}, ¬ (q = pid ∧ va / pageSize ≤ w ∧ w < va / pageSize + j) →
    cell s q w = some d →
    cell t q w = some d ∧ (∀ f, (sharing s).hold q w f → c.taken f = none) ∨
      cell t q w = some d.evict ∧ (∃ f, (sharing s).hold q w f ∧ c.taken f ≠ none) ∧
        (q = pid ∧ rangePages va size w ∨ EvictsWhole s q w)
  visited : ∀ {w d}, va / pageSize ≤ w → w < va / pageSize + j → cell s pid w = some d →
    ∃ e, cell t pid w = some e ∧ CopiedCell loaded buffer va size k w d e

namespace Kept

theorem start (s : Kernel) (pid : Nat) (loaded : Program) (buffer : Nat → Byte) (va size : Nat) :
    Kept s pid loaded buffer va size 0 0 ⟨s.memoryMgr, fun _ => none⟩ s where
  unvisited _ here := .inl ⟨here, fun _ _ => rfl⟩
  visited lower upper := by omega

/-- The bytes of a page that are copied before its own. -/
theorem before (part : RangePart va size j k n addr.toNat) (i : Fin pageSize)
    (inside : ByteInRange va size (addr.toNat / pageSize * pageSize + i)) :
    va + k ≤ addr.toNat / pageSize * pageSize + i := by
  have place := Nat.div_add_mod' addr.toNat pageSize
  have address := part.address
  obtain ⟨-, rfl⟩ | aligned := part.boundary
  · exact inside.1
  · omega

theorem stay (kept : Kept s pid loaded buffer va size j k c t)
    (clocked : Clocked s pid (va / pageSize) j c t) (wf : WellFormed t)
    (part : RangePart va size j k n addr.toNat)
    (inFrame : InFrame t pid space addr f) : Kept s pid loaded buffer va size (j + 1) k c t := by
  have page := part.page
  refine ⟨fun unvisited => kept.unvisited fun visited => unvisited (by omega),
    fun {w d} lower upper here => ?_⟩
  by_cases earlier : w < va / pageSize + j
  · exact kept.visited lower earlier here
  obtain rfl : w = addr.toNat / pageSize := by omega
  have held : (sharing t).hold pid (addr.toNat / pageSize) f :=
    ⟨space, inFrame.found, inFrame.inTable, inFrame.maps⟩
  have heldS := (clocked.holds _ _ _ (clocked.free held (by omega))).mp held
  obtain ⟨same, -⟩ | ⟨gone, -⟩ := kept.unvisited (by omega) here
  · refine ⟨d, same, rfl, id, fun i inside below => ?_, fun _ _ => rfl⟩
    have late := before part i inside
    omega
  · have resident := (cell_resident_iff wf gone).mpr ⟨f, held⟩
    cases resident

theorem load (kept : Kept s pid space.program buffer va size j k c t)
    (clocked : Clocked s pid (va / pageSize) j c t)
    (keeps : CopyKeeps s pid space va size) (isClock : c = clock s pid space (va / pageSize) j)
    (gone : ¬ c.Resident (space.pageTable (addr.toNat / pageSize)))
    (part : RangePart va size j k n addr.toNat) (found : s.allPCB pid = some space)
    (programs : ∀ q, program t q = program s q)
    (faults : PageFaults t pid addr) (run : pageIn pid addr t = .ok s₁)
    (took : Took pid (addr.toNat / pageSize) t s₁) :
    Kept s pid space.program buffer va size (j + 1) k (c.load pid (addr.toNat / pageSize)) s₁ := by
  have wf := clocked.sound.toWellFormed
  have page := part.page
  have isBefore : addr.toNat / pageSize - va / pageSize = j := by omega
  have evicts := keeps.evicts _ part.covers
  have loads := keeps.loads _ part.covers
  rw [isBefore, ← isClock] at evicts loads
  replace evicts := evicts gone
  replace loads := loads gone
  have next : t.memoryMgr.nextFrame = c.mgr.nextFrame := by rw [clocked.manager]
  have holds : ∀ q w f, (sharing t).hold q w f ↔ c.Holds s pid q w f := by
    intro q w f
    unfold Clock.Holds
    cases taken : c.taken f with
    | none => exact clocked.holds q w f taken
    | some v => exact clocked.own f v taken q w
  refine ⟨fun {q w d} unvisited here => ?_, fun {w d} lower upper here => ?_⟩
  · have other : ¬ (q = pid ∧ w = addr.toNat / pageSize) := fun same => unvisited (by omega)
    have unvisited' : ¬ (q = pid ∧ va / pageSize ≤ w ∧ w < va / pageSize + j) :=
      fun visited => unvisited (by omega)
    obtain ⟨same, free⟩ | ⟨evicted, ⟨f, held, taken⟩, lost⟩ := kept.unvisited unvisited' here
    · obtain ⟨goes, stays⟩ := pageIn_cell clocked.sound faults run took other same
      by_cases inNext : (sharing t).hold q w t.memoryMgr.nextFrame
      · have free := clocked.free inNext unvisited'
        refine .inr ⟨goes inNext, ⟨_, (clocked.holds _ _ _ free).mp inNext, ?_⟩, ?_⟩
        · simp [Clock.load, next]
        · by_cases range : q = pid ∧ rangePages va size w
          · exact .inl range
          · exact .inr ((evicts q w (next ▸ (holds q w _).mp inNext)).1 range)
      · refine .inl ⟨stays inNext, fun f held => ?_⟩
        have notNext : f ≠ c.mgr.nextFrame := by
          rintro rfl
          exact inNext (next ▸ (clocked.holds _ _ _ (free _ held)).mpr held)
        simp only [Clock.load, if_neg notNext, free f held]
    · have absent : ¬ (sharing t).hold q w t.memoryMgr.nextFrame := by
        intro held
        cases (cell_resident_iff wf evicted).mpr ⟨_, held⟩
      refine .inr ⟨(pageIn_cell clocked.sound faults run took other evicted).2 absent,
        ⟨f, held, ?_⟩, lost⟩
      simp only [Clock.load]
      split
      next => simp
      next => exact taken
  by_cases earlier : w < va / pageSize + j
  · -- a page visited earlier: it may have to make room
    obtain ⟨e, after, copied⟩ := kept.visited lower earlier here
    obtain ⟨goes, stays⟩ := pageIn_cell clocked.sound faults run took (by omega) after
    by_cases inNext : (sharing t).hold pid w t.memoryMgr.nextFrame
    · have range : rangePages va size w := by
        have covers := part.covers
        simp only [rangePages, pageSize] at *
        omega
      have resident := (cell_resident_iff wf after).mpr ⟨_, inNext⟩
      exact ⟨_, goes inNext, copied.evict resident here
        ((evicts pid w (next ▸ (holds pid w _).mp inNext)).2 rfl range (by omega))⟩
    · exact ⟨e, stays inNext, copied⟩
  · obtain rfl : w = addr.toNat / pageSize := by omega
    have evicted : cell t pid (addr.toNat / pageSize) = some d.evict := by
      obtain ⟨same, -⟩ | ⟨evicted, -⟩ := kept.unvisited (by omega) here
      · have absent : d.resident = false := by
          rw [← Bool.not_eq_true, cell_resident_iff wf same]
          rintro ⟨f, held⟩
          exact faults.not_hold wf f held
        rw [cell_evict_absent same absent]
        exact same
      · exact evicted
    obtain ⟨-, -, loaded, c', e, live, before', -, after, faulted⟩ :=
      pageFault_cells clocked.sound faults run
    cases evicted.symm.trans before'
    rw [programs] at live
    cases live.symm.trans (program_eq_some.mpr ⟨space, found, rfl⟩)
    have start : addr.toNat = max va (addr.toNat / pageSize * pageSize) := by
      have place := Nat.div_add_mod' addr.toNat pageSize
      have address := part.address
      have boundary := part.boundary
      omega
    have late : ∀ i : Fin pageSize, ByteInRange va size (addr.toNat / pageSize * pageSize + i) →
        ¬ addr.toNat / pageSize * pageSize + i < va + k :=
      fun i inside => Nat.not_lt.mpr (before part i inside)
    have bytes := loads d here
    rw [← start] at bytes
    refine ⟨e, after, ?_⟩
    cases faulted with
    | zeroed beyond unzeroed =>
      refine ⟨rfl, fun _ => rfl, fun i inside below => absurd below (late i inside),
        fun i outside => ?_⟩
      rw [pageBytes_resident rfl, ← bytes i outside, if_pos ⟨beyond, unzeroed⟩]
      rfl
    | filled zeroed =>
      refine ⟨rfl, id, fun i inside below => absurd below (late i inside), fun i outside => ?_⟩
      have notZeroed : ¬ (space.program.codeDataEnd ≤ addr.toNat ∧ d.zeroFilled = false) := by
        rintro ⟨beyond, unzeroed⟩
        have isZeroed : d.zeroFilled = true := zeroed beyond
        rw [isZeroed] at unzeroed
        cases unzeroed
      rw [pageBytes_resident rfl, ← bytes i outside, if_neg notZeroed]
      rfl

theorem store (kept : Kept s pid loaded buffer va size (j + 1) k c t) (wf : WellFormed t)
    (inFrame : InFrame t pid space addr f) (part : RangePart va size j k n addr.toNat)
    (alone : 0 < n → ∀ q w, (sharing t).hold q w f → q = pid ∧ w = addr.toNat / pageSize) :
    Kept s pid loaded buffer va size (j + 1) (k + n) c
      (t.storeInto pid space (addr.toNat / pageSize) false (fun i => buffer (k + i))
        (f * pageSize + addr.toNat % pageSize) n) := by
  have place := Nat.div_add_mod' addr.toNat pageSize
  have ⟨address, page, _, within, most, _, _⟩ := part
  have others : ∀ {q w d}, ¬ (q = pid ∧ w = addr.toNat / pageSize) → cell t q w = some d →
      cell (t.storeInto pid space (addr.toNat / pageSize) false (fun i => buffer (k + i))
        (f * pageSize + addr.toNat % pageSize) n) q w = some d := by
    intro q w d other here
    exact storeInto_cell_other wf inFrame within other
      (fun some held => other (alone some q w held)) here
  refine ⟨fun {q w d} unvisited here => ?_, fun {w d} lower upper here => ?_⟩
  · have other : ¬ (q = pid ∧ w = addr.toNat / pageSize) := fun same => unvisited (by omega)
    exact (kept.unvisited unvisited here).imp (And.imp_left (others other))
      (And.imp_left (others other))
  obtain ⟨e, after, copied⟩ := kept.visited lower upper here
  by_cases earlier : w < va / pageSize + j
  · refine ⟨e, others (by omega) after, copied.dirty, copied.zeroFilled,
      fun i inside _ => copied.stored i inside ?_, copied.kept⟩
    have bound := i.isLt
    simp only [pageSize] at *
    omega
  · obtain rfl : w = addr.toNat / pageSize := by omega
    have resident : e.resident = true := (cell_resident_iff wf after).mpr
      ⟨f, space, inFrame.found, inFrame.inTable, inFrame.maps⟩
    have bytes : ∀ stored : Page, pageBytes loaded (addr.toNat / pageSize)
        { e with dirty := false || e.dirty, content := stored } = stored :=
      fun _ => pageBytes_resident resident
    refine ⟨_, storeInto_cell inFrame after, copied.dirty, copied.zeroFilled,
      fun i inside below => ?_, fun i outside => ?_⟩
    · have late := before part i inside
      rw [bytes, storePage, if_pos (by omega)]
      congr 1
      omega
    · have elsewhere : ¬ (addr.toNat % pageSize ≤ i ∧ i < addr.toNat % pageSize + n) := by
        intro stored
        exact outside ⟨by omega, by omega⟩
      rw [← copied.kept i outside, bytes, pageBytes_resident resident]
      exact if_neg elsewhere

end Kept

theorem Visits.keeps (visits : Visits pid .r buffer virtAddr size s j k t) (sound : Sound s)
    (found : s.allPCB pid = some space)
    (keeps : CopyKeeps s pid space virtAddr.toNat size) :
    Kept s pid space.program buffer virtAddr.toNat size j k
      (clock s pid space (virtAddr.toNat / pageSize) j) t := by
  induction visits with
  | start => exact .start ..
  | @next j k n f t t₁ addr space₁ earlier part addressable brought inFrame kept =>
    have ⟨_, page, _, _, most, _, covers⟩ := part
    obtain ⟨clocked, -⟩ := earlier.clocked sound found
    have after := (brought.sound clocked.sound).toWellFormed
    have isBefore : addr.toNat / pageSize - virtAddr.toNat / pageSize = j := by omega
    have alone : 0 < n → _ := fun some => earlier.alone sound found page brought inFrame
      (isBefore ▸ keeps.unshared (by omega) _ covers)
    rw [clock, Clock.visit, ← page]
    obtain ⟨stays, rfl⟩ | ⟨gone, faults, run, took⟩ :=
      clocked.brings sound found page brought inFrame
    · rw [if_pos stays]
      exact (kept.stay clocked after part inFrame).store after inFrame part alone
    · rw [if_neg gone]
      exact (kept.load clocked keeps rfl gone part found (earlier.kept sound).2 faults run took).store
        after inFrame part alone

/-- `userReadWrite` with `'r'` for a range in the address space whose pages are kept: it sets the
bytes of the range, and no process loses or gains a byte elsewhere. -/
theorem userReadWrite_stores (sound : Sound s) (swaps : SwapsWhole s)
    (found : s.allPCB pid = some space) (contains : space.Contains virtAddr size)
    (keeps : CopyKeeps s pid space virtAddr.toNat size) (buffer : Nat → Byte) :
    ∃ s', userReadWrite pid buffer virtAddr size .r s = .ok (buffer, s') ∧
      ∀ q addr, byteAt s' q addr = copiedBytes s pid buffer virtAddr.toNat size q addr := by
  cases userReadWrite_outcome .r buffer virtAddr size sound found with
  | outside outside => exact absurd (.inr contains) outside
  | failed fails =>
    exact absurd fails (OwnersMapped.not_fails sound swaps found fun v covers _ =>
      keeps.owners v covers)
  | @completed j t inside result copying all =>
    rw [copying.sameBuffer rfl] at result
    refine ⟨_, result, fun q addr => ?_⟩
    rw [copiedBytes]
    obtain ⟨soundT, programs⟩ := copying.visits.kept sound
    have swapsT := copying.visits.swaps sound swaps
    have kept := copying.visits.keeps sound found keeps
    have place := Nat.div_add_mod' addr.toNat pageSize
    -- the pages of the range were visited
    have visited : ∀ v, rangePages virtAddr.toNat size v → v < space.numPages →
        virtAddr.toNat / pageSize ≤ v ∧ v < virtAddr.toNat / pageSize + j := by
      intro v covers below
      have start := toInt_of_nonneg contains.nonneg
      have signed := contains.signed
      have upper := covers.2
      exact ⟨rangePages_le covers, all v covers ⟨below, by omega⟩⟩
    cases here : cell s q (addr.toNat / pageSize) with
    | none =>
      have hereT := here
      rw [cell_eq_none, ← programs q, ← cell_eq_none] at hereT
      rw [byteAt_none hereT]
      split
      next isPid =>
        have outside : ¬ ByteInRange virtAddr.toNat size addr.toNat := by
          rintro ⟨-, upper⟩
          have start := toInt_of_nonneg contains.nonneg
          have pages := contains.pages
          have beyond : space.numPages ≤ addr.toNat / pageSize :=
            cell_eq_none.mp (isPid ▸ here) _ (program_eq_some.mpr ⟨space, found, rfl⟩)
          simp only [pageSize] at *
          omega
        rw [overlay_outside outside, byteAt_none (isPid ▸ here)]
      next => exact (byteAt_none here).symm
    | some d =>
      obtain ⟨spaceQ, foundQ, inTable, -⟩ := cell_inv here
      have live := program_eq_some.mpr ⟨spaceQ, foundQ, rfl⟩
      have liveT := live
      rw [← programs q] at liveT
      have old := byteAt_some sound.toWellFormed swaps live here
      by_cases isVisited : q = pid ∧ virtAddr.toNat / pageSize ≤ addr.toNat / pageSize ∧
          addr.toNat / pageSize < virtAddr.toNat / pageSize + j
      · obtain ⟨rfl, lower, upper⟩ := isVisited
        cases found.symm.trans foundQ
        obtain ⟨e, hereT, copied⟩ := kept.visited lower upper here
        rw [byteAt_some soundT.toWellFormed swapsT liveT hereT, if_pos rfl]
        have stored := copied.stored ⟨addr.toNat % pageSize, pageOffset_lt addr⟩
        have unchanged := copied.kept ⟨addr.toNat % pageSize, pageOffset_lt addr⟩
        simp only [place] at stored unchanged
        by_cases inside : ByteInRange virtAddr.toNat size addr.toNat
        · rw [stored inside inside.2, overlay_inside inside]
        · rw [unchanged inside, overlay_outside inside, old]
      · have same : byteAt t.kernel q addr = byteAt s q addr := by
          obtain ⟨hereT, -⟩ | ⟨hereT, -, lost⟩ := kept.unvisited isVisited here
          · rw [byteAt_some soundT.toWellFormed swapsT liveT hereT, old]
          · rw [byteAt_some soundT.toWellFormed swapsT liveT hereT, old]
            obtain ⟨rfl, covers⟩ | whole := lost
            · cases found.symm.trans foundQ
              exact absurd ⟨rfl, visited _ covers inTable⟩ isVisited
            · rw [whole d _ here live]
        rw [same]
        split
        next isPid =>
          subst isPid
          cases found.symm.trans foundQ
          rw [overlay_outside fun inside => isVisited ⟨rfl, visited _ inside.covers inTable⟩]
        next => rfl

/-! ## Copies from user memory -/

/-- No page of another process loses a byte when it makes room for a page of the range. -/
def EvictsOthersWhole (s : Kernel) (pid : Nat) (space : AddrSpace) (virtAddr size : Nat) : Prop :=
  ∀ v, rangePages virtAddr size v → space.Accepts v → ∀ q, q ≠ pid → ∀ w f, (sharing s).hold q w f →
    (clock s pid space (virtAddr / pageSize) (v + 1 - virtAddr / pageSize)).taken f ≠ none →
    EvictsWhole s q w

/-- The pages of other processes are as they were, or paged out. -/
theorem Visits.others (visits : Visits pid .w buffer virtAddr size s j k t) (sound : Sound s)
    (other : q ≠ pid) (here : cell s q w = some d) :
    ∃ e, cell t q w = some e ∧ d.KeptOrEvicted e := by
  induction visits with
  | start => exact ⟨d, here, .inl rfl⟩
  | @next j k n f t t₁ addr space₁ earlier part addressable brought inFrame ih =>
    obtain ⟨e, hereT, kept⟩ := ih
    obtain ⟨soundT, -⟩ := earlier.kept sound
    have another : ¬ (q = pid ∧ w = addr.toNat / pageSize) := fun same => other same.1
    have after : ∃ e, cell t₁ q w = some e ∧ d.KeptOrEvicted e := by
      cases brought with
      | present => exact ⟨e, hereT, kept⟩
      | loaded found invalid run =>
        have faults := BroughtIn.faults soundT.toWellFormed found invalid run
        obtain ⟨e', there, kept'⟩ := (pageFault_cells soundT faults run).2.1 another hereT
        exact ⟨e', there, kept.trans kept'⟩
    obtain ⟨e, there, kept⟩ := after
    refine ⟨e, ?_, kept⟩
    have less := Nat.le_trans (Nat.add_le_add_left (TransferOpt.w.stored_le n) _) part.within
    exact storeInto_cell_other (brought.sound soundT).toWellFormed inFrame less another
      (fun some => absurd some (Nat.lt_irrefl 0)) there

theorem Visits.displaced (visits : Visits pid .w buffer virtAddr size s j k t) (sound : Sound s)
    (found : s.allPCB pid = some space) (other : q ≠ pid) (held : (sharing s).hold q w f)
    (here : cell s q w = some d) : cell t q w =
      some (if (clock s pid space (virtAddr.toNat / pageSize) j).taken f = none then d
        else d.evict) := by
  obtain ⟨clocked, -⟩ := visits.clocked sound found
  obtain ⟨e, there, kept⟩ := visits.others sound other here
  have resident := cell_resident_iff clocked.sound.toWellFormed there
  split
  next free =>
    have stays := resident.mpr ⟨f, (clocked.holds q w f free).mpr held⟩
    obtain rfl | ⟨-, rfl⟩ := kept
    · exact there
    · cases stays
  next taken =>
    obtain rfl | ⟨-, rfl⟩ := kept
    · -- it would be in another frame
      obtain ⟨g, heldG⟩ := resident.mp ((cell_resident_iff sound.toWellFormed here).mpr ⟨f, held⟩)
      have freeG := clocked.free heldG fun same => other same.1
      have isF := sound.coherent.functional ((clocked.holds q w g freeG).mp heldG) held
      exact absurd (isF ▸ freeG) taken
    · exact there

/-- A copy from user memory keeps the bytes of other processes exactly when no page of theirs that
makes room loses one. -/
theorem Visits.bytes_iff (visits : Visits pid .w buffer virtAddr size s j k t) (sound : Sound s)
    (swaps : SwapsWhole s) (found : s.allPCB pid = some space)
    (all : ∀ v, rangePages virtAddr.toNat size v → space.Accepts v →
      v < virtAddr.toNat / pageSize + j) :
    (∀ q, q ≠ pid → ∀ addr, byteAt t q addr = byteAt s q addr) ↔
      EvictsOthersWhole s pid space virtAddr.toNat size := by
  obtain ⟨soundT, programs⟩ := visits.kept sound
  have swapsT := visits.swaps sound swaps
  constructor
  · intro same v covers accepts q other w f held taken d loaded here live
    have gone : (clock s pid space (virtAddr.toNat / pageSize) j).taken f ≠ none :=
      clock_taken_mono (by have := all v covers accepts; omega) taken
    have there := visits.displaced sound found other held here
    rw [if_neg gone] at there
    have liveT := live
    rw [← programs q] at liveT
    funext i
    -- the address of the byte
    obtain ⟨bound, -⟩ := swaps q loaded live
    have below := cell_below live here
    have inside := i.isLt
    have isAddr : (BitVec.ofNat 32 (w * pageSize + i)).toNat = w * pageSize + i := by
      simp only [BitVec.toNat_ofNat, pageSize] at *
      omega
    have isPage : (BitVec.ofNat 32 (w * pageSize + i)).toNat / pageSize = w := by
      simp only [isAddr, pageSize] at *
      omega
    have isOffset : (BitVec.ofNat 32 (w * pageSize + i)).toNat % pageSize = i := by
      simp only [isAddr, pageSize] at *
      omega
    have bytes := same q other (BitVec.ofNat 32 (w * pageSize + i))
    rw [byteAt_some soundT.toWellFormed swapsT liveT (isPage.symm ▸ there),
      byteAt_some sound.toWellFormed swaps live (isPage.symm ▸ here)] at bytes
    simpa only [isPage, isOffset, Fin.eta, Option.some.injEq] using bytes
  · intro whole q other addr
    cases here : cell s q (addr.toNat / pageSize) with
    | none =>
      have hereT := here
      rw [cell_eq_none, ← programs q, ← cell_eq_none] at hereT
      rw [byteAt_none hereT, byteAt_none here]
    | some d =>
      obtain ⟨spaceQ, foundQ, -, -⟩ := cell_inv here
      have live := program_eq_some.mpr ⟨spaceQ, foundQ, rfl⟩
      have liveT := live
      rw [← programs q] at liveT
      obtain ⟨e, there, kept⟩ := visits.others sound other here
      rw [byteAt_some soundT.toWellFormed swapsT liveT there,
        byteAt_some sound.toWellFormed swaps live here]
      obtain rfl | ⟨resident, rfl⟩ := kept
      · rfl
      obtain ⟨f, held⟩ := (cell_resident_iff sound.toWellFormed here).mp resident
      have moved := visits.displaced sound found other held here
      by_cases free : (clock s pid space (virtAddr.toNat / pageSize) j).taken f = none
      · rw [if_pos free] at moved
        rw [← Option.some.inj (moved.symm.trans there)]
      · have room : EvictsWhole s q (addr.toNat / pageSize) := by
          have accepts := fun v => visits.accepts sound found (v := v)
          cases visits with
          | start => exact absurd rfl free
          | next _ part =>
            have page := part.page
            refine whole _ part.covers (accepts _ (rangePages_le part.covers) (by omega)) q other _ f
              held ?_
            rwa [page, Nat.add_assoc, Nat.add_sub_cancel_left]
        rw [room d _ here live]

/-- Pages that are in memory, and in no frame of another process, are not loaded. -/
theorem copyKeeps_of_resident (resident : ∀ v, rangePages va size v → (space.pageTable v).valid = true)
    (unshared : ∀ v, rangePages va size v → ∀ q w,
      (sharing s).hold q w (space.pageTable v).physicalPage.toNat → q = pid) :
    CopyKeeps s pid space va size := by
  have stays : ∀ v, rangePages va size v →
      (clock s pid space (va / pageSize) (v - va / pageSize)).Resident (space.pageTable v) := by
    intro v covers
    refine ⟨resident v covers, ?_⟩
    rw [clock_of_resident fun w lower upper => resident w ?_]
    simp only [rangePages, pageSize] at *
    omega
  exact ⟨fun v covers gone => absurd (stays v covers) gone, fun _ v covers _ => unshared v covers,
    fun v covers gone => absurd (stays v covers) gone,
    fun v covers gone => absurd (stays v covers) gone⟩

end Nachos
