import Nachos.UserProg.OpenSections
import Nachos.Verified.DescriptorTables

/-!
# Entries of the system table

A file should have one entry in the table of the system, whose lock orders all access to it.  Two
processes that both wait for the disk have both found the table without an entry, and each then
makes one.

`Open` asserts that a file without an entry is open in no process.  It finds that out by the names of
the descriptors, which it reads together with what the heap holds behind them.
-/

namespace Nachos

open Loops Runs

variable {id : Int}

namespace OpenFiles

variable {s s' t : OpenFiles} {p k : Nat} {filename behind : String} {table : Slots POF}

def Entry (s : OpenFiles) (k : Nat) (filename : String) : Prop :=
  ∃ sof, s.sofMgr.Has k sof ∧ sof.filename = filename

def OneEntryPerFile (s : OpenFiles) : Prop :=
  ∀ {k k' filename}, s.Entry k filename → s.Entry k' filename → k = k'

def AssertionHolds (s : OpenFiles) : Prop :=
  ∀ p filename behind, s.openLookup p filename behind ≠ .error .assertion

/-- What `strcmp` reads at the name of a descriptor is the name of an entry, and a file has one
entry. -/
structure Linked (s : OpenFiles) : Prop where
  tidy : s.TidyTables
  named : ∀ {p i pof}, s.Descriptor p i pof → ∃ k, s.Entry k pof.cString
  oneEntry : s.OneEntryPerFile

theorem findSOFByName_cases (filename : String) (s : OpenFiles) :
    (∃ k : Nat, s.findSOFByName filename = k ∧ s.Entry k filename) ∨
      s.findSOFByName filename = -1 ∧ ∀ k, ¬ s.Entry k filename := by
  obtain ⟨k, sof, has, named, found⟩ | ⟨missing, unnamed⟩ :=
    Slots.findByName_cases SOF.filename filename s.sofMgr
  · exact .inl ⟨k, found, sof, has, named⟩
  · exact .inr ⟨missing, fun k ⟨sof, has, named⟩ => unnamed k sof has named⟩

theorem findSOFByName_eq_neg_one :
    s.findSOFByName filename = -1 ↔ ∀ k, ¬ s.Entry k filename := by
  obtain ⟨k, found, entry⟩ | ⟨missing, unnamed⟩ := findSOFByName_cases filename s
  · exact ⟨fun missing => by omega, fun unnamed => absurd entry (unnamed k)⟩
  · exact ⟨fun _ => unnamed, fun _ => missing⟩

theorem findPOFByName_eq_neg_one :
    findPOFByName filename table = -1 ↔ ∀ i pof, table.Has i pof → pof.cString ≠ filename := by
  obtain ⟨i, pof, has, named, found⟩ | ⟨missing, unnamed⟩ :=
    Slots.findByName_cases POF.cString filename table
  · refine ⟨fun missing => ?_, fun unnamed => absurd named (unnamed i pof has)⟩
    rw [findPOFByName, found] at missing
    omega
  · exact ⟨fun _ => unnamed, fun _ => missing⟩

/-! ## The assertion -/

theorem incSOFCounter_ne_assertion (sofIndex : Int) (s : OpenFiles) :
    s.incSOFCounter sofIndex ≠ .error .assertion := by
  unfold incSOFCounter Slots.get
  split
  next => split <;> nofun
  next => nofun

theorem openDescriptor_ne_assertion (table : Slots POF) (found : s.allPCB p = some table)
    (sofIndex pofIndex : Int) :
    s.openDescriptor p filename behind sofIndex pofIndex ≠ .error .assertion := by
  intro fails
  simp only [openDescriptor, pcb, found, bind, Except.bind] at fails
  split at fails
  next =>
    split at fails
    next => cases fails
    next =>
      split at fails
      next raised =>
        cases fails
        exact incSOFCounter_ne_assertion _ _ raised
      next => cases fails
  next =>
    split at fails
    next raised =>
      cases fails
      exact incSOFCounter_ne_assertion _ _ raised
    next => cases fails

/-- The assertion fails exactly for a file that the process has open and the system has not. -/
theorem openLookup_assertion_iff (found : s.allPCB p = some table) :
    s.openLookup p filename behind = .error .assertion ↔
      s.findSOFByName filename = -1 ∧ findPOFByName filename table ≠ -1 := by
  simp only [openLookup, pcb, found, bind, Except.bind]
  by_cases unlisted : s.findSOFByName filename = -1
  · by_cases unopened : findPOFByName filename table = -1
    · simp only [if_pos unlisted, unopened, assert, decide_true, if_true, ne_eq, not_true, and_false,
        iff_false]
      split <;> rintro ⟨⟩
    · simp [unlisted, unopened, assert]
  · have never : s.openDescriptor p filename behind (s.findSOFByName filename)
        (findPOFByName filename table) ≠ .error .assertion :=
      openDescriptor_ne_assertion table found _ _
    simp only [unlisted, if_false, false_and, iff_false]
    cases descriptor : s.openDescriptor p filename behind (s.findSOFByName filename)
        (findPOFByName filename table) with
    | ok => rintro ⟨⟩
    | error fault =>
      intro fails
      obtain rfl := Except.error.inj fails
      exact never descriptor

theorem Linked.assertionHolds (linked : s.Linked) : s.AssertionHolds := by
  intro p filename behind fails
  cases found : s.allPCB p with
  | none => simp [openLookup, pcb, found, bind, Except.bind] at fails
  | some table =>
    obtain ⟨unlisted, opened⟩ := (openLookup_assertion_iff found).mp fails
    refine opened (findPOFByName_eq_neg_one.mpr fun i pof has named => ?_)
    obtain ⟨k, entry⟩ := linked.named ⟨table, found, has⟩
    exact findSOFByName_eq_neg_one.mp unlisted k (named ▸ entry)

/-! ## What the sections do to the entries -/

theorem entry_congr (same : s'.sofMgr = s.sofMgr) (k : Nat) (filename : String) :
    s'.Entry k filename ↔ s.Entry k filename := by
  rw [Entry, Entry, same]

theorem entry_setCounter {i : Nat} {sof : SOF} (object : s.sofMgr.array i = some sof)
    (counter : BitVec 32)
    (changed : s'.sofMgr = s.sofMgr.update i { sof with counter := counter }) (k : Nat)
    (filename : String) : s'.Entry k filename ↔ s.Entry k filename := by
  simp only [Entry, Slots.Has, changed, Slots.update]
  by_cases here : k = i
  · subst here
    simp [object]
  · simp [here]

theorem incSOFCounter_entry {index : Int} (run : s.incSOFCounter index = .ok s') (k : Nat)
    (filename : String) : s'.Entry k filename ↔ s.Entry k filename := by
  obtain ⟨sof, found, run⟩ := bind_eq_ok.mp run
  cases run
  exact entry_setCounter (Slots.get_eq_ok found).2 _ rfl k filename

/-- `openDescriptor` makes a descriptor when the process has none and there is room for one. -/
theorem openDescriptor_effect {index pofIndex id : Int}
    (run : s.openDescriptor p filename behind index pofIndex = .ok (id, s')) :
    (∀ k name, s'.Entry k name ↔ s.Entry k name) ∧
      (∀ {q j pof}, s'.Descriptor q j pof → s.Descriptor q j pof ∨
        pof.cString = filename ++ behind ∧ pofIndex = -1 ∧
          ∃ table, s.allPCB p = some table ∧ table.map.numClear ≠ 0) ∧
      (∀ {table}, pofIndex = -1 → s.allPCB p = some table → table.map.numClear ≠ 0 →
        ∃ i pof, s'.Descriptor p i pof ∧ pof.cString = filename ++ behind) := by
  unfold openDescriptor at run
  split at run
  next isNew =>
    obtain ⟨table, found, run⟩ := bind_eq_ok.mp run
    have old := pcb_eq_ok found
    dsimp only at run
    obtain full | ⟨i, below, clear, created⟩ :=
      Slots.create_cases ⟨filename, behind, index, 0#32⟩ table
    · rw [createPOF, full, if_pos rfl] at run
      cases run
      refine ⟨fun _ _ => .rfl, .inl, fun _ old' room => ?_⟩
      cases old.symm.trans old'
      obtain ⟨j, -, -, -, isFound⟩ := BitMap.find_of_numClear room
      have notNone : ¬ ((j : Int) = -1) := by omega
      simp [Slots.create, isFound, notNone] at full
    · have notNone : ¬ ((i : Int) = -1) := by omega
      simp only [createPOF, created, if_neg notNone] at run
      obtain ⟨t, raised, run⟩ := bind_eq_ok.mp run
      cases run
      have descriptors : ∀ {q j pof}, s'.Descriptor q j pof ↔
          (s.setPCB p (some (table.add i ⟨filename, behind, index, 0#32⟩))).Descriptor q j pof := by
        intro q j pof
        rw [Descriptor, Descriptor, (incSOFCounter_same raised).1.1]
      have room : table.map.numClear ≠ 0 := by
        intro full
        rw [(BitMap.numClear_eq_zero _).mp full i below] at clear
        cases clear
      refine ⟨fun k name => (incSOFCounter_entry raised k name).trans (entry_congr rfl k name),
        fun {q j pof} after => ?_, fun _ old' _ => ?_⟩
      · obtain ⟨rfl, new, isNewTable, has⟩ | ⟨-, before⟩ :=
          descriptor_setPCB.mp (descriptors.mp after)
        · cases isNewTable
          obtain ⟨-, rfl, -⟩ | ⟨-, has⟩ := Slots.has_add.mp has
          · exact .inr ⟨rfl, isNew, table, old, room⟩
          · exact .inl ⟨table, old, has⟩
        · exact .inl before
      · cases old.symm.trans old'
        exact ⟨i, _, descriptors.mpr (descriptor_setPCB.mpr (.inl ⟨rfl, _, rfl,
          Slots.has_add.mpr (.inl ⟨rfl, rfl, below⟩)⟩)), rfl⟩
  next hasOne =>
    obtain ⟨t, raised, run⟩ := bind_eq_ok.mp run
    cases run
    refine ⟨incSOFCounter_entry raised, ?_, fun isNew => absurd isNew hasOne⟩
    rintro q j pof ⟨left, isLeft, has⟩
    rw [(incSOFCounter_same raised).1.1] at isLeft
    exact .inl ⟨left, isLeft, has⟩

def Misreads (s : OpenFiles) (p : Nat) (filename behind : String) : Prop :=
  (∃ table, s.allPCB p = some table ∧ table.map.numClear ≠ 0) ∧
    ∀ k, ¬ s.Entry k (filename ++ behind)

theorem Linked.openDescriptor (linked : s.Linked) {index pofIndex id : Int}
    (readable : pofIndex = -1 → ¬ s.Misreads p filename behind)
    (run : s.openDescriptor p filename behind index pofIndex = .ok (id, s')) : s'.Linked := by
  obtain ⟨entries, descriptors, -⟩ := openDescriptor_effect run
  refine ⟨linked.tidy.openDescriptor run, fun descriptor => ?_, fun first second => ?_⟩
  · obtain before | ⟨read, isNew, room⟩ := descriptors descriptor
    · obtain ⟨j, found⟩ := linked.named before
      exact ⟨j, (entries _ _).mpr found⟩
    · by_contra unnamed
      push Not at unnamed
      refine readable isNew ⟨room, fun k entry => unnamed k ((entries _ _).mpr ?_)⟩
      rwa [read]
  · exact linked.oneEntry ((entries _ _).mp first) ((entries _ _).mp second)

/-- A descriptor that is not read as the name of an entry fails the assertion at an `Open` of what is
read. -/
theorem not_assertionHolds {q j : Nat} {pof : POF} (descriptor : s.Descriptor q j pof)
    (unnamed : ∀ k, ¬ s.Entry k pof.cString) : ¬ s.AssertionHolds := by
  obtain ⟨table, found, has⟩ := descriptor
  intro holds
  refine holds q pof.cString "" ((openLookup_assertion_iff found).mpr ⟨?_, fun unopened => ?_⟩)
  · exact findSOFByName_eq_neg_one.mpr unnamed
  · exact findPOFByName_eq_neg_one.mp unopened j pof has rfl

theorem openDescriptor_misreads {index id : Int} (misreads : s.Misreads p filename behind)
    (run : s.openDescriptor p filename behind index (-1) = .ok (id, s')) : ¬ s'.AssertionHolds := by
  obtain ⟨entries, -, made⟩ := openDescriptor_effect run
  obtain ⟨⟨table, found, room⟩, unnamed⟩ := misreads
  obtain ⟨i, pof, descriptor, read⟩ := made rfl found room
  refine not_assertionHolds descriptor fun k entry => unnamed k ?_
  rw [← read]
  exact (entries _ _).mp entry

def LookupMisreads (s : OpenFiles) (p : Nat) (filename behind : String) : Prop :=
  s.findSOFByName filename ≠ -1 ∧
    (∀ table, s.allPCB p = some table → findPOFByName filename table = -1) ∧
    s.Misreads p filename behind

theorem Linked.openLookup (linked : s.Linked) (readable : ¬ s.LookupMisreads p filename behind)
    {result : Option Int} (run : s.openLookup p filename behind = .ok (result, s')) : s'.Linked := by
  obtain ⟨table, found, run⟩ := bind_eq_ok.mp run
  dsimp only at run
  split at run
  next =>
    obtain ⟨_, -, run⟩ := bind_eq_ok.mp run
    split at run <;>
    · cases run
      exact linked
  next listed =>
    obtain ⟨⟨id, t⟩, opened, run⟩ := bind_eq_ok.mp run
    cases run
    refine linked.openDescriptor (fun isNew misreads => readable ⟨listed, ?_, misreads⟩) opened
    intro table' found'
    cases (pcb_eq_ok found).symm.trans found'
    exact isNew

theorem openLookup_misreads (misreads : s.LookupMisreads p filename behind) {result : Option Int}
    (run : s.openLookup p filename behind = .ok (result, s')) : ¬ s'.AssertionHolds := by
  obtain ⟨listed, unopened, misreads⟩ := misreads
  obtain ⟨table, found, run⟩ := bind_eq_ok.mp run
  simp only [if_neg listed, unopened table (pcb_eq_ok found)] at run
  obtain ⟨⟨id, t⟩, opened, run⟩ := bind_eq_ok.mp run
  cases run
  exact openDescriptor_misreads misreads opened

theorem createSOF_cases (filename : String) (s : OpenFiles) :
    (s.createSOF filename = (-1, s) ∧
        (s.files (.path filename) = none ∨ s.sofMgr.map.numClear = 0)) ∨
      ∃ (k : Nat) (t : OpenFiles), s.createSOF filename = ((k : Int), t) ∧
        s.files (.path filename) ≠ none ∧ s.sofMgr.map.numClear ≠ 0 ∧ t.allPCB = s.allPCB ∧
        (∀ name, ¬ s.Entry k name) ∧
        ∀ j name, t.Entry j name ↔ (j = k ∧ name = filename) ∨ s.Entry j name := by
  unfold createSOF
  cases s.files (.path filename) with
  | none => exact .inl ⟨rfl, .inl rfl⟩
  | some file =>
    by_cases full : s.sofMgr.map.numClear = 0
    · refine .inl ⟨?_, .inr full⟩
      have allSet := (BitMap.numClear_eq_zero _).mp full
      simp [Slots.create, BitMap.find_of_full allSet]
    · obtain ⟨k, below, clear, -, found⟩ := BitMap.find_of_numClear full
      have notNone : ¬ ((k : Int) = -1) := by omega
      have unused : ∀ name, ¬ s.Entry k name := by
        rintro name ⟨sof, has, -⟩
        rw [has.2.1] at clear
        cases clear
      refine .inr ⟨k, { s with sofMgr := s.sofMgr.add k ⟨filename, .path filename, 0#32⟩ }, ?_, by simp,
        full, rfl, unused, fun j name => ?_⟩
      · simp [Slots.create, found, notNone]
      · simp only [Entry, Slots.has_add]
        constructor
        · rintro ⟨sof, ⟨here, rfl, -⟩ | ⟨-, has⟩, named⟩
          · exact .inl ⟨here, named.symm⟩
          · exact .inr ⟨sof, has, named⟩
        · rintro (⟨here, named⟩ | ⟨sof, has, named⟩)
          · exact ⟨_, .inl ⟨here, rfl, below⟩, named.symm⟩
          · refine ⟨sof, .inr ⟨?_, has⟩, named⟩
            rintro rfl
            exact unused name ⟨sof, has, named⟩

def MakesEntry (s : OpenFiles) (filename : String) : Prop :=
  s.files (.path filename) ≠ none ∧ s.sofMgr.map.numClear ≠ 0

/-- Another process has made an entry for the file, or the new descriptor is not read as the name of
an entry. -/
def EnterFails (s : OpenFiles) (p : Nat) (filename behind : String) : Prop :=
  s.MakesEntry filename ∧ (s.findSOFByName filename ≠ -1 ∨
    behind ≠ "" ∧ s.Misreads p filename behind)

theorem append_eq_self (filename behind : String) : filename ++ behind = filename ↔ behind = "" := by
  constructor
  · intro same
    have lengths := congrArg String.length same
    rw [String.length_append] at lengths
    exact String.length_eq_zero_iff.mp (by omega)
  · rintro rfl
    exact String.append_empty

theorem Linked.openCreate (linked : s.Linked) (alone : ¬ s.EnterFails p filename behind)
    (run : s.openCreate p filename behind = .ok (id, s')) : s'.Linked := by
  unfold OpenFiles.openCreate at run
  obtain ⟨created, -⟩ | ⟨k, t, created, exists_, notFull, tables, unused, entries⟩ :=
    createSOF_cases filename s
  · simp only [created, if_true] at run
    cases run
    exact linked
  · have notNone : ¬ ((k : Int) = -1) := by omega
    simp only [created, if_neg notNone] at run
    have unlisted : ∀ j, ¬ s.Entry j filename := by
      refine findSOFByName_eq_neg_one.mp ?_
      by_contra listed
      exact alone ⟨⟨exists_, notFull⟩, .inl listed⟩
    have same := createSOF_same (s := s) filename
    rw [created] at same
    have linked' : t.Linked := by
      refine ⟨linked.tidy.same same, ?_, fun {i j name} first second => ?_⟩
      · rintro q j pof ⟨left, isLeft, has⟩
        obtain ⟨m, entry⟩ := linked.named ⟨left, tables ▸ isLeft, has⟩
        exact ⟨m, (entries _ _).mpr (.inr entry)⟩
      · obtain ⟨rfl, rfl⟩ | first := (entries _ _).mp first
        · obtain ⟨rfl, -⟩ | second := (entries _ _).mp second
          · rfl
          · exact absurd second (unlisted _)
        · obtain ⟨-, rfl⟩ | second := (entries _ _).mp second
          · exact absurd first (unlisted _)
          · exact linked.oneEntry first second
    refine linked'.openDescriptor (fun _ ⟨room, unnamed⟩ => ?_) run
    refine alone ⟨⟨exists_, notFull⟩, .inr ⟨fun none => ?_, tables ▸ room, fun j entry => ?_⟩⟩
    · exact unnamed k ((entries _ _).mpr (.inl ⟨rfl, (append_eq_self _ _).mpr none⟩))
    · exact unnamed j ((entries _ _).mpr (.inr entry))

theorem openCreate_fails (fails : s.EnterFails p filename behind)
    (run : s.openCreate p filename behind = .ok (id, s')) :
    ¬ (s'.OneEntryPerFile ∧ s'.AssertionHolds) := by
  obtain ⟨⟨exists_, notFull⟩, wrong⟩ := fails
  unfold openCreate at run
  obtain ⟨-, missing | full⟩ | ⟨k, t, created, -, -, tables, unused, entries⟩ :=
    createSOF_cases filename s
  · exact absurd missing exists_
  · exact absurd full notFull
  · have notNone : ¬ ((k : Int) = -1) := by omega
    simp only [created, if_neg notNone] at run
    rintro ⟨oneEntry, holds⟩
    obtain listed | ⟨more, room, unnamed⟩ := wrong
    · obtain ⟨same, -⟩ := openDescriptor_effect run
      obtain ⟨j, -, entry⟩ | ⟨missing, -⟩ := findSOFByName_cases filename s
      · have here : s'.Entry k filename := (same _ _).mpr ((entries _ _).mpr (.inl ⟨rfl, rfl⟩))
        have there : s'.Entry j filename := (same _ _).mpr ((entries _ _).mpr (.inr entry))
        obtain rfl := oneEntry here there
        exact unused filename entry
      · exact listed missing
    · refine openDescriptor_misreads ⟨tables ▸ room, fun j entry => ?_⟩ run holds
      obtain ⟨-, same⟩ | before := (entries _ _).mp entry
      · exact more ((append_eq_self _ _).mp same)
      · exact unnamed j before

/-! ## Close -/

def Releases (s : OpenFiles) (p i k : Nat) : Prop :=
  ∃ (pof : POF) (sof : SOF), s.Descriptor p i pof ∧ pof.sofIndex = k ∧ s.sofMgr.Has k sof ∧
    sof.counter = 1#32

/-- `RemoveSOF` of an entry, whether it is in use or not. -/
theorem removeSOF_entries {index : Int} (run : s.removeSOF index = .ok s') (j : Nat) (name : String) :
    s'.Entry j name ↔ s.Entry j name ∧
      ¬ ∃ sof, index = (j : Int) ∧ s.sofMgr.Has j sof ∧ sof.counter = 1#32 := by
  obtain ⟨isSet, tested, -⟩ := bind_eq_ok.mp run
  obtain ⟨inside, isBit⟩ := BitMap.test_eq_ok.mp tested
  obtain ⟨k, rfl, below⟩ := Slots.inRange_iff.mp inside
  have sameIndex : (k : Int) = (j : Int) ↔ k = j := Int.ofNat_inj
  cases isSet with
  | false =>
    have unused : ∀ sof, ¬ s.sofMgr.Has k sof := by
      rintro sof ⟨-, bit, -⟩
      simp [bit] at isBit
    have same : s' = s := by simpa [removeSOF, tested, ok_bind, pure_eq, eq_comm] using run
    subst same
    refine ⟨fun entry => ⟨entry, ?_⟩, And.left⟩
    rintro ⟨sof, isK, has, -⟩
    exact unused sof (sameIndex.mp isK ▸ has)
  | true =>
    obtain ⟨sof, inUse⟩ := Slots.has_of_bit below (by simpa using isBit.symm)
    have only : (∃ y, (k : Int) = (j : Int) ∧ s.sofMgr.Has j y ∧ y.counter = 1#32) ↔
        k = j ∧ sof.counter = 1#32 := by
      rw [sameIndex]
      constructor
      · rintro ⟨y, rfl, has, isOne⟩
        exact ⟨rfl, inUse.unique has ▸ isOne⟩
      · rintro ⟨rfl, isOne⟩
        exact ⟨sof, rfl, inUse, isOne⟩
    rw [only]
    obtain ⟨isOne, rfl⟩ | ⟨notOne, rfl⟩ := removeSOF_cases inUse run
    · simp only [Entry, Slots.has_remove, isOne, and_true]
      constructor
      · rintro ⟨y, ⟨other, there⟩, named⟩
        exact ⟨⟨y, there, named⟩, Ne.symm other⟩
      · rintro ⟨⟨y, there, named⟩, other⟩
        exact ⟨y, ⟨Ne.symm other, there⟩, named⟩
    · rw [entry_setCounter inUse.2.2 (sof.counter - 1#32) rfl]
      simp [notOne]

/-- What `Close` does: the descriptor goes, and with it the entry when its counter is 1. -/
theorem closeSystemcall_effect (linked : s.Linked) (run : s.closeSystemcall p id = .ok s') :
    ∃ i : Nat, id = i + 2 ∧
      (∀ {q j y}, s'.Descriptor q j y ↔ s.Descriptor q j y ∧ (q, j) ≠ (p, i)) ∧
      ∀ j name, s'.Entry j name ↔ s.Entry j name ∧ ¬ s.Releases p i j := by
  obtain ⟨table, found, run⟩ := bind_eq_ok.mp run
  obtain ⟨pof, object, run⟩ := bind_eq_ok.mp run
  obtain ⟨left, removes, run⟩ := bind_eq_ok.mp run
  have old := pcb_eq_ok found
  obtain ⟨inside, pointer⟩ := Slots.get_eq_ok object
  obtain ⟨i, isIndex, below⟩ := Slots.inRange_iff.mp inside
  rw [isIndex] at pointer removes
  have isSet : table.map.bit i = true := (linked.tidy.table old).isSet pointer
  have has : table.Has i pof := ⟨below, isSet, pointer⟩
  rw [removePOF_has has] at removes
  cases removes
  refine ⟨i, by omega, ?_, fun j name => ?_⟩
  · intro q j y
    have tables := (removeSOF_same run).1
    have same : s'.Descriptor q j y ↔ (s.setPCB p (some (table.remove i))).Descriptor q j y := by
      rw [Descriptor, Descriptor, tables]
    rw [same, descriptor_setPCB]
    by_cases own : q = p
    · subst own
      simp [Descriptor, old, Slots.has_remove, and_comm]
    · simp [own]
  · rw [removeSOF_entries run]
    refine and_congr Iff.rfl (not_congr ⟨?_, ?_⟩)
    · rintro ⟨sof, index, inUse, isOne⟩
      exact ⟨pof, sof, ⟨table, old, has⟩, index, inUse, isOne⟩
    · rintro ⟨pof', sof, descriptor, index, inUse, isOne⟩
      obtain rfl := descriptor.unique ⟨table, old, has⟩
      exact ⟨sof, index, inUse, isOne⟩

/-- `Close` would remove an entry whose name is read at another descriptor. -/
def Unbinds (s : OpenFiles) (p : Nat) (id : Int) : Prop :=
  ∃ (i k : Nat) (name : String), id = i + 2 ∧ s.Releases p i k ∧ s.Entry k name ∧
    ∃ q j y, s.Descriptor q j y ∧ y.cString = name ∧ (q, j) ≠ (p, i)

theorem Linked.closeSystemcall (linked : s.Linked) (last : ¬ s.Unbinds p id)
    (run : s.closeSystemcall p id = .ok s') : s'.Linked := by
  obtain ⟨i, isId, descriptors, entries⟩ := closeSystemcall_effect linked run
  refine ⟨linked.tidy.closeSystemcall run, fun {q j y} after => ?_, fun first second => ?_⟩
  · obtain ⟨before, other⟩ := descriptors.mp after
    obtain ⟨m, entry⟩ := linked.named before
    refine ⟨m, (entries _ _).mpr ⟨entry, fun released => ?_⟩⟩
    exact last ⟨i, m, y.cString, isId, released, entry, q, j, y, before, rfl, other⟩
  · exact linked.oneEntry ((entries _ _).mp first).1 ((entries _ _).mp second).1

theorem closeSystemcall_unbinds (linked : s.Linked) (unbinds : s.Unbinds p id)
    (run : s.closeSystemcall p id = .ok s') : ¬ s'.AssertionHolds := by
  obtain ⟨i, isId, descriptors, entries⟩ := closeSystemcall_effect linked run
  obtain ⟨i', k, name, isId', released, entry, q, j, y, other, rfl, differs⟩ := unbinds
  obtain rfl : i = i' := by omega
  refine not_assertionHolds (descriptors.mpr ⟨other, differs⟩) fun m after => ?_
  obtain ⟨before, kept⟩ := (entries _ _).mp after
  obtain rfl := linked.oneEntry before entry
  exact kept released

end OpenFiles

/-! ## Runs -/

/-- A process enters a file only if no other has done so while it was waiting for the disk; what is
read at the name of a new descriptor is the name of an entry; and an entry goes only when its name is
read at no other descriptor. -/
def OpenerCall.Alone (s : Openers) : OpenerCall → Prop
  | .lookup current filename behind => ¬ s.tables.LookupMisreads current filename behind
  | .enter current behind => ∀ filename, s.opening current = some filename →
      ¬ s.tables.EnterFails current filename behind
  | .close current id => ¬ s.tables.Unbinds current id
  | .create _ => True

theorem OpenerStep.linked {s s' : Openers} {call : OpenerCall} (linked : s.tables.Linked)
    (alone : call.Alone s) (step : OpenerStep s call s') : s'.tables.Linked := by
  cases step with
  | @create pid junk free =>
    refine ⟨linked.tidy.setPCB (.empty _), fun after => ?_,
      linked.oneEntry⟩
    obtain ⟨-, new, isNew, has⟩ | ⟨-, before⟩ := OpenFiles.descriptor_setPCB.mp after
    · cases isNew
      exact absurd has Slots.not_has_empty
    · exact linked.named before
  | returns _ run => exact linked.openLookup alone run
  | waits _ run => exact linked.openLookup alone run
  | enter inside run => exact linked.openCreate (alone _ inside) run
  | close _ run => exact linked.closeSystemcall alone run

def SoundEntries (s : Openers) : Prop := s.tables.OneEntryPerFile ∧ s.tables.AssertionHolds

theorem OpenerStep.not_sound {s s' : Openers} {call : OpenerCall} (linked : s.tables.Linked)
    (against : ¬ call.Alone s) (step : OpenerStep s call s') : ¬ SoundEntries s' := by
  cases step with
  | create => exact absurd trivial against
  | returns _ run | waits _ run =>
    exact fun sound => OpenFiles.openLookup_misreads (not_not.mp against) run sound.2
  | @enter current filename behind id t inside run =>
    have fails : s.tables.EnterFails current filename behind := by
      by_contra alone
      refine against fun other isOther => ?_
      cases inside.symm.trans isOther
      exact alone
    exact OpenFiles.openCreate_fails fails run
  | close _ run =>
    exact fun sound => OpenFiles.closeSystemcall_unbinds linked (not_not.mp against) run sound.2

theorem boot_linked (files : Files) (junk : Nat → BitVec 32) : (OpenFiles.boot files junk).Linked := by
  refine ⟨⟨BitMap.new_numBits _ _, fun found => by cases found⟩, ?_, ?_⟩
  · rintro p i pof ⟨table, found, -⟩
    cases found
  · rintro k k' filename ⟨sof, has, -⟩
    exact absurd has Slots.not_has_empty

def OpenerCall.readsNames (s : Openers) : OpenerCall → Bool
  | .lookup _ filename behind =>
    behind == "" || s.tables.findSOFByName (filename ++ behind) != -1
  | .enter current behind => (s.opening current).all fun filename =>
    s.tables.findSOFByName filename == -1 &&
      (behind == "" || s.tables.findSOFByName (filename ++ behind) != -1)
  | .close _ _ => false
  | .create _ => true

theorem OpenFiles.not_misreads {s : OpenFiles} {p : Nat} {filename behind : String}
    (found : s.findSOFByName (filename ++ behind) ≠ -1) : ¬ s.Misreads p filename behind :=
  fun misreads => found (findSOFByName_eq_neg_one.mpr misreads.2)

theorem OpenerCall.alone_of_readsNames {s : Openers} {call : OpenerCall}
    (reads : call.readsNames s = true) : call.Alone s := by
  cases call with
  | create => trivial
  | close => cases reads
  | lookup current filename behind =>
    rintro ⟨listed, -, misreads⟩
    simp only [readsNames, Bool.or_eq_true, beq_iff_eq, bne_iff_ne] at reads
    obtain rfl | found := reads
    · exact OpenFiles.not_misreads (by rwa [String.append_empty]) misreads
    · exact OpenFiles.not_misreads found misreads
  | enter current behind =>
    rintro filename inside ⟨-, wrong⟩
    simp only [readsNames, inside, Option.all_some, Bool.and_eq_true, beq_iff_eq, Bool.or_eq_true,
      bne_iff_ne] at reads
    obtain ⟨unlisted, terminated⟩ := reads
    obtain listed | ⟨more, misreads⟩ := wrong
    · exact listed unlisted
    · exact OpenFiles.not_misreads (terminated.resolve_left more) misreads

def twoFiles : Files := fun name =>
  if name = .path "f" ∨ name = .path "foo" then some .empty else none

end Nachos
