import Nachos.Verified.FileTables

/-!
# Descriptor tables

What holds of the descriptor tables in every run, whatever became of the counters: an entry has an
object only while its bit is set, and the object has the index of an entry of `sofMgr`.  So the
destructor of a PCB never fails.
-/

namespace Nachos

open Loops Runs

/-- Only entries in use have objects, and those have the index of an entry of `sofMgr`. -/
structure TidyTable (table : Slots POF) : Prop where
  numBits : table.map.numBits = pofMaxNum
  isSet : ∀ {i pof}, table.array i = some pof → table.map.bit i = true
  index : ∀ {i pof}, table.array i = some pof → 0 ≤ pof.sofIndex ∧ pof.sofIndex < sofMaxNum

namespace TidyTable

variable {table : Slots POF} {i : Nat} {pof : POF}

theorem empty (junk : Nat → BitVec 32) : TidyTable (.empty pofMaxNum junk) where
  numBits := BitMap.new_numBits _ _
  isSet entry := by cases entry
  index entry := by cases entry

theorem add (tidy : TidyTable table) (index : 0 ≤ pof.sofIndex ∧ pof.sofIndex < sofMaxNum) :
    TidyTable (table.add i pof) where
  numBits := tidy.numBits
  isSet {j _} entry := by
    simp only [Slots.add] at entry ⊢
    split at entry
    next same => simp [same]
    next => simp [tidy.isSet entry]
  index {j _} entry := by
    simp only [Slots.add] at entry
    split at entry
    next =>
      cases entry
      exact index
    next => exact tidy.index entry

theorem create (tidy : TidyTable table) (index : 0 ≤ pof.sofIndex ∧ pof.sofIndex < sofMaxNum) :
    TidyTable (table.create pof).2 := by
  unfold Slots.create
  dsimp only
  split
  · exact tidy
  · exact tidy.add index

theorem remove (tidy : TidyTable table) : TidyTable (table.remove i) := by
  have left : ∀ {j y}, (table.remove i).array j = some y → j ≠ i ∧ table.array j = some y := by
    intro j y entry
    simp only [Slots.remove] at entry
    split at entry
    next => cases entry
    next different => exact ⟨different, entry⟩
  refine ⟨tidy.numBits, fun entry => ?_, fun entry => tidy.index (left entry).2⟩
  simp [Slots.remove, (left entry).1, tidy.isSet (left entry).2]

theorem update (tidy : TidyTable table) (has : table.Has i pof) (offset : BitVec 32) :
    TidyTable (table.update i { pof with offset := offset }) where
  numBits := tidy.numBits
  isSet {j _} entry := by
    simp only [Slots.update] at entry ⊢
    split at entry
    next same => exact same ▸ has.2.1
    next => exact tidy.isSet entry
  index {j _} entry := by
    simp only [Slots.update] at entry
    split at entry
    next =>
      cases entry
      exact (tidy.index has.2.2 :)
    next => exact tidy.index entry

end TidyTable

namespace OpenFiles

structure TidyTables (s : OpenFiles) : Prop where
  sofs : s.sofMgr.map.numBits = sofMaxNum
  table : ∀ {p table}, s.allPCB p = some table → TidyTable table

def SameTables (s s' : OpenFiles) : Prop :=
  s'.allPCB = s.allPCB ∧ s'.sofMgr.map.numBits = s.sofMgr.map.numBits

variable {s s' : OpenFiles} {p : Nat} {table : Slots POF} {sofIndex id : Int}

theorem TidyTables.same (tidy : s.TidyTables) (same : SameTables s s') : s'.TidyTables :=
  ⟨same.2.trans tidy.sofs, fun found => tidy.table (same.1 ▸ found)⟩

theorem TidyTables.setPCB (tidy : s.TidyTables) (new : TidyTable table) :
    (s.setPCB p (some table)).TidyTables := by
  refine ⟨tidy.sofs, fun found => ?_⟩
  simp only [OpenFiles.setPCB] at found
  split at found
  next =>
    cases found
    exact new
  next => exact tidy.table found

theorem TidyTables.removePCB (tidy : s.TidyTables) : (s.setPCB p none).TidyTables := by
  refine ⟨tidy.sofs, fun found => ?_⟩
  simp only [OpenFiles.setPCB] at found
  split at found
  next => cases found
  next => exact tidy.table found

theorem createSOF_same (filename : String) : SameTables s (s.createSOF filename).2 := by
  unfold createSOF
  split
  next => exact ⟨rfl, rfl⟩
  next =>
    refine ⟨rfl, ?_⟩
    dsimp only [Slots.create]
    split <;> rfl

theorem incSOFCounter_same (run : s.incSOFCounter sofIndex = .ok s') :
    SameTables s s' ∧ s.sofMgr.map.inRange sofIndex = true := by
  obtain ⟨sof, found, run⟩ := bind_eq_ok.mp run
  cases run
  exact ⟨⟨rfl, rfl⟩, (Slots.get_eq_ok found).1⟩

theorem removeSOF_same (run : s.removeSOF sofIndex = .ok s') : SameTables s s' := by
  obtain ⟨inUse, -, run⟩ := bind_eq_ok.mp run
  cases inUse with
  | false =>
    cases run
    exact ⟨rfl, rfl⟩
  | true =>
    obtain ⟨sof, -, run⟩ := bind_eq_ok.mp run
    dsimp only at run
    split at run <;> cases run <;> exact ⟨rfl, rfl⟩

section

variable (tidy : s.TidyTables)

include tidy

theorem TidyTables.inRange_iff : s.sofMgr.map.inRange sofIndex = true ↔
    0 ≤ sofIndex ∧ sofIndex < sofMaxNum := by
  simp only [BitMap.inRange, tidy.sofs, decide_eq_true_eq]

theorem TidyTables.openDescriptor {filename behind : String} {pofIndex : Int}
    (run : s.openDescriptor p filename behind sofIndex pofIndex = .ok (id, s')) : s'.TidyTables := by
  unfold OpenFiles.openDescriptor at run
  split at run
  next =>
    obtain ⟨table, found, run⟩ := bind_eq_ok.mp run
    dsimp only at run
    split at run
    next =>
      cases run
      exact tidy
    next =>
      obtain ⟨t, raised, run⟩ := bind_eq_ok.mp run
      cases run
      obtain ⟨same, inside⟩ := incSOFCounter_same raised
      have index : 0 ≤ sofIndex ∧ sofIndex < sofMaxNum := tidy.inRange_iff.mp inside
      exact (tidy.setPCB ((tidy.table (pcb_eq_ok found)).create index)).same same
  next =>
    obtain ⟨t, raised, run⟩ := bind_eq_ok.mp run
    cases run
    exact tidy.same (incSOFCounter_same raised).1

theorem TidyTables.openSystemcall {filename behind : String}
    (run : s.openSystemcall p filename behind = .ok (id, s')) : s'.TidyTables := by
  obtain ⟨table, -, run⟩ := bind_eq_ok.mp run
  dsimp only at run
  split at run
  next =>
    obtain ⟨_, -, run⟩ := bind_eq_ok.mp run
    split at run
    next =>
      cases run
      exact tidy
    next =>
      have created := tidy.same (createSOF_same filename)
      split at run
      next =>
        cases run
        exact created
      next => exact created.openDescriptor run
  next => exact tidy.openDescriptor run

theorem TidyTables.closeSystemcall (run : s.closeSystemcall p id = .ok s') :
    s'.TidyTables := by
  obtain ⟨table, found, run⟩ := bind_eq_ok.mp run
  obtain ⟨pof, -, run⟩ := bind_eq_ok.mp run
  obtain ⟨left, removes, run⟩ := bind_eq_ok.mp run
  have old := tidy.table (pcb_eq_ok found)
  refine TidyTables.same ?_ (removeSOF_same run)
  obtain ⟨inUse, -, removes⟩ := bind_eq_ok.mp removes
  cases inUse with
  | true =>
    cases removes
    exact tidy.setPCB old.remove
  | false =>
    cases removes
    exact tidy.setPCB old

theorem TidyTables.writeSystemcall {buffer : Nat → Byte} {size : BitVec 32}
    (run : s.writeSystemcall p id buffer size = .ok s') : s'.TidyTables := by
  obtain ⟨rfl, -⟩ | ⟨i, table, pof, isId, entry, has, run⟩ := fileCall_cases run
  · exact tidy
  · have index : id - 2 = i := by omega
    simp only [index, has.get, ok_bind, setPOFoffset_has has] at run
    obtain ⟨_, -, run⟩ := bind_eq_ok.mp run
    obtain ⟨_, -, run⟩ := bind_eq_ok.mp run
    cases run
    exact (tidy.setPCB ((tidy.table entry).update has _)).same ⟨rfl, rfl⟩

theorem TidyTables.readSystemcall {buffer : Nat → Byte} {size : BitVec 32}
    {result : Option ((Nat → Byte) × Int)}
    (run : s.readSystemcall p id buffer size = .ok (result, s')) : s'.TidyTables := by
  obtain ⟨same, -⟩ | ⟨i, table, pof, isId, entry, has, run⟩ := fileCall_cases run
  · cases same
    exact tidy
  · have index : id - 2 = i := by omega
    simp only [index, has.get, ok_bind, setPOFoffset_has has] at run
    obtain ⟨_, -, run⟩ := bind_eq_ok.mp run
    obtain ⟨_, -, run⟩ := bind_eq_ok.mp run
    cases run
    exact tidy.setPCB ((tidy.table entry).update has _)

theorem removeSOF_total (index : 0 ≤ sofIndex ∧ sofIndex < sofMaxNum) :
    ∃ s', s.removeSOF sofIndex = .ok s' := by
  have inside := tidy.inRange_iff.mpr index
  unfold removeSOF
  rw [BitMap.test_eq_ok.mpr ⟨inside, rfl⟩, ok_bind]
  split
  next isSet =>
    have bound : sofIndex.toNat < s.sofMgr.map.numBits := by
      rw [tidy.sofs]
      omega
    obtain ⟨sof, object⟩ := Option.isSome_iff_exists.mp (s.sofMgr.filled _ bound isSet)
    have found : s.sofMgr.get sofIndex = .ok sof := by simp [Slots.get, inside, object]
    rw [found, ok_bind]
    dsimp only
    split <;> exact ⟨_, rfl⟩
  next => exact ⟨s, rfl⟩

theorem closeSlot_total {i : Nat} (below : i < pofMaxNum) (found : s.allPCB p = some table) :
    ∃ s', s.closeSlot p i = .ok s' ∧ s'.TidyTables ∧ (s'.allPCB p).isSome = true := by
  have old := tidy.table found
  have entered : s.pcb p = .ok table := by simp [pcb, found]
  unfold closeSlot
  rw [entered, ok_bind]
  split
  next isSet =>
    have bound : i < table.map.numBits := old.numBits.symm ▸ below
    obtain ⟨pof, object⟩ := Option.isSome_iff_exists.mp (table.filled i bound isSet)
    have has : table.get i = .ok pof := Slots.Has.get ⟨bound, isSet, object⟩
    have left := tidy.setPCB (p := p) (old.remove (i := i))
    obtain ⟨s', removed⟩ := removeSOF_total left (old.index object)
    rw [has, ok_bind]
    have same := removeSOF_same removed
    refine ⟨s', removed, left.same same, ?_⟩
    rw [same.1]
    simp [OpenFiles.setPCB]
  next => exact ⟨s, rfl, tidy, by rw [found]; rfl⟩

theorem TidyTables.deletePCB (found : s.allPCB p ≠ none) (run : s.deletePCB p = .ok s') :
    s'.TidyTables := by
  obtain ⟨table, found⟩ := Option.ne_none_iff_exists'.mp found
  obtain ⟨t, closed, run⟩ := bind_eq_ok.mp run
  cases run
  refine TidyTables.removePCB (forUpToM_invariant
    (fun _ (t : OpenFiles) => t.TidyTables ∧ (t.allPCB p).isSome = true) closed
    ⟨tidy, by rw [found]; rfl⟩ fun i below t t' before round => ?_).1
  obtain ⟨table, found⟩ := Option.isSome_iff_exists.mp before.2
  obtain ⟨t'', done, after⟩ := closeSlot_total before.1 below found
  cases done.symm.trans round
  exact after

end

end OpenFiles

theorem FileStep.tidyTables {s s' : OpenFiles} {call : FileCall} (tidy : s.TidyTables)
    (step : FileStep s call s') : s'.TidyTables := by
  cases step with
  | create => exact tidy.setPCB (.empty _)
  | openFile run => exact tidy.openSystemcall run
  | close _ run => exact tidy.closeSystemcall run
  | write run => exact tidy.writeSystemcall run
  | read run => exact tidy.readSystemcall run
  | exit found run => exact tidy.deletePCB found run
  | kill _ found run => exact tidy.deletePCB found run

theorem reachable_tidyTables {files : Files} {junk : Nat → BitVec 32}
    {history : List (OpenFiles × FileCall)} {s : OpenFiles}
    (run : Run FileStep (.boot files junk) history s) : s.TidyTables :=
  run.always ⟨BitMap.new_numBits _ _, fun found => by cases found⟩
    fun _ _ _ tidy step => step.tidyTables tidy

end Nachos
