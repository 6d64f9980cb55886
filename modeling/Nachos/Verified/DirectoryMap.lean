import Nachos.Lib.SlotTables
import Nachos.Verified.DiskFiles
import Nachos.FileSys.Directory
import Nachos.Lib.Runs

/-!
# A directory is a finite map

The routines of `directory.cc` compare names with `strncmp` and store them with `strncpy`, both for
`FileNameMaxLen` characters, so a name stands for these characters of it.  The entries in use are
the entries of a map from such keys to sectors: `Remove` leaves the old name in its slot, but no
routine looks at the name of a slot that is not in use.
-/

namespace Nachos

open Runs SlotTables

/-! ## Names -/

def charsOf (name : Nat → Byte) (count : Nat) : List Byte :=
  ((List.range count).map name).takeWhile (· != 0#8)

def nameKey (name : Nat → Byte) : List Byte := charsOf name fileNameMaxLen

theorem charsOf_succ (name : Nat → Byte) (count : Nat) :
    charsOf name (count + 1) =
      if name 0 = 0#8 then [] else name 0 :: charsOf (fun k => name (k + 1)) count := by
  simp only [charsOf, List.range_succ_eq_map, List.map_cons, List.map_map, List.takeWhile_cons]
  by_cases ended : name 0 = 0#8
  · simp [ended]
  · simp [ended, Function.comp_def]

theorem strncmpEqual_iff {first second : Nat → Byte} {count : Nat} :
    strncmpEqual first second count = true ↔ charsOf first count = charsOf second count := by
  induction count generalizing first second with
  | zero => simp [strncmpEqual, charsOf]
  | succ count ih =>
    simp only [strncmpEqual, charsOf_succ, Bool.and_eq_true, Bool.or_eq_true, beq_iff_eq,
      ih]
    by_cases ended : first 0 = 0#8
    · by_cases endedToo : second 0 = 0#8
      · simp [ended, endedToo]
      · simp [ended, endedToo, Ne.symm endedToo]
    · by_cases endedToo : second 0 = 0#8
      · simp [ended, endedToo]
      · simp [ended, endedToo]

theorem nameKey_congr {name name' : Nat → Byte} (same : ∀ k < fileNameMaxLen, name k = name' k) :
    nameKey name = nameKey name' := by
  unfold nameKey charsOf
  rw [List.map_congr_left fun k member => same k (List.mem_range.mp member)]

namespace Directory

variable {d d' : Directory} {name : Nat → Byte} {i j : Nat}

/-! ## The table as slots -/

def slot (d : Directory) (i : Nat) : Option (List Byte × Int) :=
  if d.inUse i then some (nameKey (d.name i), d.sector i) else none

theorem slot_eq_none : d.slot i = none ↔ d.inUse i = false := by
  simp [slot]

theorem slot_eq_some {key : List Byte} {sector : Int} :
    d.slot i = some (key, sector) ↔
      d.inUse i = true ∧ nameKey (d.name i) = key ∧ d.sector i = sector := by
  simp [slot]

theorem isNamed_iff : d.isNamed name i = true ↔ d.slot i = some (nameKey name, d.sector i) := by
  rw [isNamed, Bool.and_eq_true, strncmpEqual_iff, slot_eq_some]
  simp [nameKey]

def Stands (d : Directory) (map : List Byte → Option Int) : Prop :=
  Represents d.tableSize d.slot map

variable {map : List Byte → Option Int}

theorem Stands.findIndex_cases (stands : d.Stands map) (name : Nat → Byte) :
    (map (nameKey name) = none ∧ d.findIndex name = -1) ∨
      ∃ i < d.tableSize, d.findIndex name = i ∧
        d.slot i = some (nameKey name, d.sector i) ∧ map (nameKey name) = some (d.sector i) := by
  cases d.findIndex_cases name with
  | inr found =>
    obtain ⟨i, bound, isIndex, named⟩ := found
    have here := isNamed_iff.mp named
    exact .inr ⟨i, bound, isIndex, here, stands.lookup_of_slot bound here⟩
  | inl missing =>
    refine .inl ⟨?_, missing⟩
    cases found : map (nameKey name) with
    | none => rfl
    | some sector =>
      obtain ⟨i, bound, here⟩ := (stands.lookup _ _).mp found
      have unnamed := findIndex_eq_neg_one.mp missing i bound
      obtain ⟨-, -, rfl⟩ := slot_eq_some.mp here
      rw [isNamed_iff.mpr here] at unnamed
      cases unnamed

/-! ## The routines -/

theorem Stands.find_eq (stands : d.Stands map) (name : Nat → Byte) :
    d.find name = (map (nameKey name)).getD (-1) := by
  cases stands.findIndex_cases name with
  | inl absent => simp [find, absent.1, absent.2]
  | inr present =>
    obtain ⟨i, -, isIndex, -, value⟩ := present
    simp [find, isIndex, value]

theorem Stands.add_cases (stands : d.Stands map) (name : Nat → Byte) {sector : Int}
    (nonneg : 0 ≤ sector) (small : sector < 2 ^ 31) :
    (d.add name sector = (false, d) ∧
      ((map (nameKey name)).isSome = true ∨ ∀ i < d.tableSize, d.inUse i = true)) ∨
    ∃ d', d.add name sector = (true, d') ∧ map (nameKey name) = none ∧
      (∃ i < d.tableSize, d.inUse i = false) ∧ d'.tableSize = d.tableSize ∧
      d'.Stands (Function.update map (nameKey name) (some sector)) := by
  cases stands.findIndex_cases name with
  | inr present =>
    obtain ⟨i, -, isIndex, -, value⟩ := present
    exact .inl ⟨by simp [add, isIndex], .inl (by simp [value])⟩
  | inl absent =>
    by_cases full : ∀ i < d.tableSize, d.inUse i = true
    · exact .inl ⟨add_of_full sector full, .inr full⟩
    · right
      simp only [not_forall, Bool.not_eq_true] at full
      obtain ⟨i, bound, free⟩ := full
      obtain ⟨j, d', added, entry⟩ := add_of_free absent.2 bound free nonneg small
      refine ⟨d', added, absent.1, ⟨i, bound, free⟩, entry.tableSize, ?_⟩
      have here : d'.slot j = some (nameKey name, sector) := by
        rw [isNamed_iff.mp entry.named, entry.sector]
      -- an entry in use keeps its name, since it is found by it
      have others : ∀ k < d.tableSize, k ≠ j → d'.slot k = d.slot k := by
        intro k _ different
        have inUse := entry.inUse k
        rw [if_neg different] at inUse
        cases used : d.inUse k with
        | false => rw [slot_eq_none.mpr used, slot_eq_none.mpr (inUse.trans used)]
        | true =>
          have before : d.slot k = some (nameKey (d.name k), d.sector k) :=
            slot_eq_some.mpr ⟨used, rfl, rfl⟩
          have named := add_isNamed added used (d.name k)
          rw [isNamed_iff.mpr before, isNamed_iff, entry.other k different] at named
          rw [named, before]
      show Represents d'.tableSize d'.slot _
      rw [entry.tableSize]
      exact stands.insert entry.bound (slot_eq_none.mpr entry.free) absent.1 here others

theorem slot_setInUse (d : Directory) (i j : Nat) :
    (d.setInUse i false).slot j = if j = i then none else d.slot j := by
  by_cases same : j = i
  · rw [if_pos same, slot_eq_none, setInUse_inUse, if_pos same]
  · have name : nameKey ((d.setInUse i false).name j) = nameKey (d.name j) := by
      apply nameKey_congr
      intro k small
      exact store_name (by simp only [directoryEntrySize, fileNameMaxLen] at *; omega)
    rw [if_neg same, slot, setInUse_inUse, if_neg same, name, setInUse_sector, slot]

theorem Stands.remove_cases (stands : d.Stands map) (name : Nat → Byte) :
    (d.remove name = (false, d) ∧ map (nameKey name) = none) ∨
    ∃ d', d.remove name = (true, d') ∧ (map (nameKey name)).isSome = true ∧
      d'.tableSize = d.tableSize ∧ d'.Stands (Function.update map (nameKey name) none) := by
  cases stands.findIndex_cases name with
  | inl absent => exact .inl ⟨by simp [remove, absent.2], absent.1⟩
  | inr present =>
    obtain ⟨i, bound, isIndex, here, value⟩ := present
    refine .inr ⟨d.setInUse i false, remove_of_found isIndex, by simp [value], rfl, ?_⟩
    exact Represents.erase stands bound here (by simp [slot_setInUse])
      fun j _ different => by simp [slot_setInUse, different]

/-! ## On disk -/

theorem Agrees.slot_eq (agrees : Agrees d d') (bound : i < d.tableSize) : d.slot i = d'.slot i := by
  have name : nameKey (d.name i) = nameKey (d'.name i) := by
    apply nameKey_congr
    intro k small
    exact agrees.table _ (by simp only [directoryEntrySize, fileNameMaxLen] at *; omega)
  rw [slot, agrees.inUse_eq bound, name, agrees.sector_eq bound, slot]

theorem Stands.congr (stands : d.Stands map) (agrees : d.Agrees d') : d'.Stands map := by
  unfold Stands
  rw [← agrees.tableSize]
  exact Represents.congr stands fun i bound => (agrees.slot_eq bound).symm

theorem writeBack_fetchFrom {file : OpenFile} (covering : file.hdr.Covering)
    (room : (d.tableSize * directoryEntrySize : Nat) ≤ file.hdr.fileLength) (disk : Disk)
    (buf : Nat → Byte) :
    ∃ disk', d.writeBack disk file buf = .ok disk' ∧
      ∀ d₀ : Directory, d₀.tableSize = d.tableSize →
        ∃ d', d₀.fetchFrom disk' file = .ok d' ∧ d.Agrees d' := by
  obtain ⟨disk', written, -, bytes⟩ := OpenFile.writeAt_front covering disk buf d.table room
  refine ⟨disk', by simp only [writeBack, written, Loops.ok_bind, Loops.pure_eq], ?_⟩
  intro d₀ size
  obtain ⟨table, read, arrived⟩ := OpenFile.readAt_front covering disk' d₀.table room
  refine ⟨{ d₀ with table := table }, ?_, size.symm, ?_⟩
  · simp only [fetchFrom, size, read, Loops.ok_bind, Loops.pure_eq]
  · intro p bound
    exact ((arrived p bound).trans (bytes p bound)).symm

end Directory

/-! ## Runs -/

inductive DirectoryCall where
  | add (name : Nat → Byte) (newSector : Int)
  | remove (name : Nat → Byte)
  | find (name : Nat → Byte)

namespace Directory

def perform (d : Directory) : DirectoryCall → Directory
  | .add name newSector => (d.add name newSector).2
  | .remove name => (d.remove name).2
  | .find _ => d

end Directory

def DirectoryStep (d : Directory) (call : DirectoryCall) (d' : Directory) : Prop :=
  d' = d.perform call

def DirectoryCall.Proper : DirectoryCall → Prop
  | .add _ newSector => 0 ≤ newSector ∧ newSector < 2 ^ 31
  | .remove _ => True
  | .find _ => True

/-- The sector of the latest successful `Add` of the key that is not followed by a `Remove` of it.
The history has its latest call first. -/
def latest : List (Directory × DirectoryCall) → List Byte → Option Int
  | [], _ => none
  | (d, .add name newSector) :: earlier, key =>
    if nameKey name = key ∧ (d.add name newSector).1 = true then some newSector
    else latest earlier key
  | (_, .remove name) :: earlier, key => if nameKey name = key then none else latest earlier key
  | (_, .find _) :: earlier, key => latest earlier key

structure Directory.IsMap (d : Directory) (map : List Byte → Option Int) : Prop where
  /-- No two entries in use have the same key. -/
  distinct : ∀ i < d.tableSize, ∀ j < d.tableSize, d.inUse i = true → d.inUse j = true →
    nameKey (d.name i) = nameKey (d.name j) → i = j
  find : ∀ name, d.find name = (map (nameKey name)).getD (-1)
  add_fails : ∀ name sector, DirectoryCall.Proper (.add name sector) →
    ((d.add name sector).1 = false ↔
      (map (nameKey name)).isSome = true ∨ ∀ i < d.tableSize, d.inUse i = true) ∧
    ((d.add name sector).1 = false → (d.add name sector).2 = d)
  remove_succeeds : ∀ name, (d.remove name).1 = true ↔ (map (nameKey name)).isSome = true
  remove_other : ∀ name other, nameKey other ≠ nameKey name →
    (d.remove name).2.find other = d.find other

theorem Directory.Stands.isMap {d : Directory} {map : List Byte → Option Int}
    (stands : d.Stands map) : d.IsMap map where
  distinct i boundi j boundj usedi usedj same :=
    Represents.distinct stands boundi boundj (slot_eq_some.mpr ⟨usedi, rfl, rfl⟩)
      (slot_eq_some.mpr ⟨usedj, same.symm, rfl⟩)
  find := stands.find_eq
  add_fails name sector proper := by
    cases stands.add_cases name proper.1 proper.2 with
    | inl failed => simp [failed.1, failed.2]
    | inr succeeded =>
      obtain ⟨d', added, absent, ⟨i, bound, free⟩, -⟩ := succeeded
      have room : ¬ ∀ i < d.tableSize, d.inUse i = true := by
        intro full
        rw [full i bound] at free
        cases free
      simp [added, absent, room]
  remove_succeeds name := by
    cases stands.remove_cases name with
    | inl failed => simp [failed.1, failed.2]
    | inr succeeded =>
      obtain ⟨d', removed, present, -⟩ := succeeded
      simp [removed, present]
  remove_other name other different := by
    cases stands.remove_cases name with
    | inl failed => rw [failed.1]
    | inr succeeded =>
      obtain ⟨d', removed, -, -, stands'⟩ := succeeded
      rw [removed, stands'.find_eq, Function.update_of_ne different, stands.find_eq]

namespace Directory

theorem Stands.step {d d' : Directory} {call : DirectoryCall}
    {history : List (Directory × DirectoryCall)} (stands : d.Stands (latest history))
    (proper : call.Proper) (step : DirectoryStep d call d') :
    d'.tableSize = d.tableSize ∧ d'.Stands (latest ((d, call) :: history)) := by
  subst step
  cases call with
  | find name => exact ⟨rfl, stands⟩
  | add name sector =>
    cases stands.add_cases name proper.1 proper.2 with
    | inl failed =>
      have same : latest ((d, .add name sector) :: history) = latest history := by
        funext key
        simp [latest, failed.1]
      rw [same, perform, failed.1]
      exact ⟨rfl, stands⟩
    | inr succeeded =>
      obtain ⟨d', added, -, -, size, stands'⟩ := succeeded
      have extended : latest ((d, .add name sector) :: history) =
          Function.update (latest history) (nameKey name) (some sector) := by
        funext key
        simp [latest, added, Function.update_apply, eq_comm]
      rw [extended, perform, added]
      exact ⟨size, stands'⟩
  | remove name =>
    have without : latest ((d, .remove name) :: history) =
        Function.update (latest history) (nameKey name) none := by
      funext key
      simp [latest, Function.update_apply, eq_comm]
    cases stands.remove_cases name with
    | inl failed =>
      rw [without, Function.update_eq_self_iff.mpr failed.2.symm, perform, failed.1]
      exact ⟨rfl, stands⟩
    | inr succeeded =>
      obtain ⟨d', removed, -, size, stands'⟩ := succeeded
      rw [without, perform, removed]
      exact ⟨size, stands'⟩

end Directory

/-- From an empty directory, after any calls, the directory is the map of the latest additions, and
it is the same map after it was written to a file and read again. -/
theorem directory_is_map {size : Nat} {junk : Nat → Byte}
    {history : List (Directory × DirectoryCall)} {d : Directory}
    (run : Run DirectoryStep (Directory.new size junk) history d)
    (proper : Guarded (fun _ call => call.Proper) history) :
    d.IsMap (latest history) ∧
      ∀ (file : OpenFile) (disk : Disk) (buf : Nat → Byte), file.hdr.Covering →
        (size * directoryEntrySize : Nat) ≤ file.hdr.fileLength →
        ∃ disk', d.writeBack disk file buf = .ok disk' ∧
          ∀ d₀ : Directory, d₀.tableSize = size →
            ∃ d', d₀.fetchFrom disk' file = .ok d' ∧ d'.IsMap (latest history) := by
  have initial : (Directory.new size junk).Stands (latest []) := by
    apply Represents.empty
    intro i bound
    rw [Directory.new_tableSize] at bound
    exact Directory.slot_eq_none.mpr (Directory.new_inUse junk bound)
  obtain ⟨tableSize, stands⟩ : d.tableSize = size ∧ d.Stands (latest history) := by
    refine run.historyInvariant
      (I := fun history d => d.tableSize = size ∧ d.Stands (latest history))
      ⟨Directory.new_tableSize size junk, initial⟩ ?_ proper
    intro earlier t call t' ⟨before, stands⟩ isProper taken
    obtain ⟨same, stands'⟩ := stands.step isProper taken
    exact ⟨same.trans before, stands'⟩
  refine ⟨stands.isMap, fun file disk buf covering room => ?_⟩
  obtain ⟨disk', written, fetched⟩ :=
    Directory.writeBack_fetchFrom covering (tableSize ▸ room) disk buf
  refine ⟨disk', written, fun d₀ sameSize => ?_⟩
  obtain ⟨d', done, agrees⟩ := fetched d₀ (sameSize.trans tableSize.symm)
  exact ⟨d', done, (stands.congr agrees).isMap⟩

def oneChar (c : Byte) : Nat → Byte := fun k => if k = 0 then c else 0#8

/-- In a table of two entries: "a" and "b" are added, "a" is removed and "c" takes its place. -/
theorem directory_with_reused_entry : ∃ history d,
    Run DirectoryStep (Directory.new 2 fun _ => 255#8) history d ∧
      history.map Prod.snd = [.add (oneChar 99#8) 8, .remove (oneChar 97#8),
        .add (oneChar 98#8) 7, .add (oneChar 97#8) 5] ∧
      d.find (oneChar 97#8) = -1 ∧ d.find (oneChar 98#8) = 7 ∧ d.find (oneChar 99#8) = 8 := by
  obtain ⟨d₀, isNew⟩ : ∃ d₀, d₀ = Directory.new 2 fun _ => 255#8 := ⟨_, rfl⟩
  obtain ⟨d₁, first⟩ : ∃ d₁, DirectoryStep d₀ (.add (oneChar 97#8) 5) d₁ := ⟨_, rfl⟩
  obtain ⟨d₂, second⟩ : ∃ d₂, DirectoryStep d₁ (.add (oneChar 98#8) 7) d₂ := ⟨_, rfl⟩
  obtain ⟨d₃, third⟩ : ∃ d₃, DirectoryStep d₂ (.remove (oneChar 97#8)) d₃ := ⟨_, rfl⟩
  obtain ⟨d₄, fourth⟩ : ∃ d₄, DirectoryStep d₃ (.add (oneChar 99#8) 8) d₄ := ⟨_, rfl⟩
  have run := (((Run.start.next (isNew ▸ first)).next second).next third).next fourth
  have added : (d₀.add (oneChar 97#8) 5).1 = true ∧ (d₁.add (oneChar 98#8) 7).1 = true ∧
      (d₃.add (oneChar 99#8) 8).1 = true := by
    subst isNew first second third
    decide
  have isMap := (directory_is_map run (by simp [Guarded, DirectoryCall.Proper])).1
  have keys : nameKey (oneChar 97#8) = [97#8] ∧ nameKey (oneChar 98#8) = [98#8] ∧
      nameKey (oneChar 99#8) = [99#8] := by decide
  refine ⟨_, d₄, run, rfl, ?_⟩
  simp only [isMap.find, latest, keys, added, and_true]
  decide

end Nachos
