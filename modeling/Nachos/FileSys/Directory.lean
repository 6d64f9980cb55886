import Nachos.FileSys.FileHeader

/-!
# Directories

`directory.cc`.  The table goes to disk as it is in memory, so a directory is modelled by the
bytes of its table.  An entry takes 20 of them: the flag `inUse`, three bytes of padding, the
word `sector`, and `name` with its ten characters, rounded up to whole words.
-/

namespace Nachos

open Loops

def fileNameMaxLen : Nat := 9

def directoryEntrySize : Nat := 20

/-- Whether `strncmp` of two strings is zero: they agree up to the first `NUL`, or up to
`count` characters. -/
def strncmpEqual (first second : Nat → Byte) : Nat → Bool
  | 0 => true
  | count + 1 =>
    first 0 == second 0 &&
      (first 0 == 0#8 || strncmpEqual (fun k => first (k + 1)) (fun k => second (k + 1)) count)

/-- The characters that `strncpy` writes: the source up to its first `NUL`, then more
`NUL`s. -/
def strncpy (source : Nat → Byte) : Nat → Byte :=
  fun j => if (List.range j).all fun k => source k != 0#8 then source j else 0#8

structure Directory where
  tableSize : Nat
  table : Nat → Byte

namespace Directory

def inUse (d : Directory) (i : Nat) : Bool := d.table (directoryEntrySize * i) != 0#8

def sector (d : Directory) (i : Nat) : Int :=
  (hostWord false fun j => d.table (directoryEntrySize * i + 4 + j)).toInt

def name (d : Directory) (i : Nat) : Nat → Byte :=
  fun j => d.table (directoryEntrySize * i + 8 + j)

def store (d : Directory) (start count : Nat) (bytes : Nat → Byte) : Directory :=
  { d with table := bcopy bytes start count d.table }

def setInUse (d : Directory) (i : Nat) (value : Bool) : Directory :=
  d.store (directoryEntrySize * i) 1 fun _ => if value then 1#8 else 0#8

def setSector (d : Directory) (i : Nat) (newSector : Int) : Directory :=
  d.store (directoryEntrySize * i + 4) intSize (byteOf (BitVec.ofInt 32 newSector))

def setName (d : Directory) (i : Nat) (name : Nat → Byte) : Directory :=
  d.store (directoryEntrySize * i + 8) fileNameMaxLen (strncpy name)

def new (size : Nat) (junk : Nat → Byte) : Directory :=
  forUpTo (fun i d => d.setInUse i false) size ⟨size, junk⟩

def fetchFrom (d : Directory) (disk : Disk) (file : OpenFile) : Except Fault Directory := do
  let (table, _) ← file.readAt disk d.table (d.tableSize * directoryEntrySize : Nat) 0
  return { d with table := table }

def writeBack (d : Directory) (disk : Disk) (file : OpenFile) (buf : Nat → Byte) :
    Except Fault Disk := do
  let (disk, _) ← file.writeAt disk buf d.table (d.tableSize * directoryEntrySize : Nat) 0
  return disk

def isNamed (d : Directory) (name : Nat → Byte) (i : Nat) : Bool :=
  d.inUse i && strncmpEqual (d.name i) name fileNameMaxLen

def findIndex (d : Directory) (name : Nat → Byte) : Int :=
  let i := firstIndex (d.isNamed name) d.tableSize
  if i < d.tableSize then i else -1

def find (d : Directory) (name : Nat → Byte) : Int :=
  let i := d.findIndex name
  if i ≠ -1 then d.sector i.toNat else -1

def add (d : Directory) (name : Nat → Byte) (newSector : Int) : Bool × Directory :=
  if d.findIndex name ≠ -1 then (false, d)
  else
    let i := firstIndex (fun i => !d.inUse i) d.tableSize
    if i < d.tableSize then (true, ((d.setInUse i true).setName i name).setSector i newSector)
    else (false, d)

def remove (d : Directory) (name : Nat → Byte) : Bool × Directory :=
  let i := d.findIndex name
  if i = -1 then (false, d) else (true, d.setInUse i.toNat false)

/-! ## The table, entry by entry -/

variable {d d' : Directory} {i j k start count : Nat} {bytes : Nat → Byte}

theorem store_inUse (apart : directoryEntrySize * j < start ∨ start + count ≤ directoryEntrySize * j) :
    (d.store start count bytes).inUse j = d.inUse j := by
  simp only [inUse, store, bcopy]
  rw [if_neg (by omega)]

theorem store_sector (apart : directoryEntrySize * j + 8 ≤ start ∨
    start + count ≤ directoryEntrySize * j + 4) :
    (d.store start count bytes).sector j = d.sector j := by
  simp only [sector, store, bcopy]
  congr 1
  apply hostWord_congr
  intro k small
  rw [if_neg (by omega)]

theorem store_name (apart : directoryEntrySize * j + 8 + k < start ∨
    start + count ≤ directoryEntrySize * j + 8 + k) :
    (d.store start count bytes).name j k = d.name j k := by
  simp only [name, store, bcopy]
  rw [if_neg (by omega)]

theorem setInUse_inUse (d : Directory) (i j : Nat) (value : Bool) :
    (d.setInUse i value).inUse j = if j = i then value else d.inUse j := by
  by_cases same : j = i
  · subst same
    cases value <;> simp [inUse, setInUse, store, bcopy]
  · rw [if_neg same]
    exact store_inUse (by simp only [directoryEntrySize]; omega)

theorem setInUse_sector (d : Directory) (i j : Nat) (value : Bool) :
    (d.setInUse i value).sector j = d.sector j :=
  store_sector (by simp only [directoryEntrySize]; omega)

theorem setSector_sector (d : Directory) (i : Nat) (newSector : Int) :
    (d.setSector i newSector).sector i = (BitVec.ofInt 32 newSector).toInt := by
  simp only [sector, setSector, store, bcopy, intSize]
  congr 1
  refine Eq.trans (hostWord_congr ?_) (hostWord_byteOf (BitVec.ofInt 32 newSector))
  intro k small
  rw [if_pos (by omega), Nat.add_sub_cancel_left]

theorem setName_name (d : Directory) (i : Nat) (new : Nat → Byte) (small : k < fileNameMaxLen) :
    (d.setName i new).name i k = strncpy new k := by
  simp only [name, setName, store, bcopy]
  rw [if_pos (by omega), Nat.add_sub_cancel_left]

theorem new_tableSize (size : Nat) (junk : Nat → Byte) : (new size junk).tableSize = size :=
  forUpTo_invariant (fun i (d : Directory) => d.setInUse i false)
    (fun _ d => d.tableSize = size) rfl fun _ _ _ kept => kept

theorem new_inUse {size : Nat} (junk : Nat → Byte) (bound : i < size) :
    (new size junk).inUse i = false := by
  have emptied := forUpTo_invariant (n := size) (s := ⟨size, junk⟩)
    (fun i (d : Directory) => d.setInUse i false)
    (fun n d => ∀ j < n, d.inUse j = false) (by simp) (by
      intro n _ d ih j below
      rw [setInUse_inUse]
      split
      next => rfl
      next other => exact ih j (by omega))
  exact emptied i bound

/-! ## Names -/

theorem strncmpEqual_congr {first first' second : Nat → Byte} {count : Nat}
    (same : ∀ k < count, first k = first' k) :
    strncmpEqual first second count = strncmpEqual first' second count := by
  induction count generalizing first first' second with
  | zero => rfl
  | succ count ih =>
    simp only [strncmpEqual, same 0 (by omega)]
    rw [ih fun k bound => same (k + 1) (by omega)]

theorem strncmpEqual_of_agree {first second : Nat → Byte} {count : Nat}
    (agree : ∀ k < count, (∀ l < k, second l ≠ 0#8) → first k = second k) :
    strncmpEqual first second count = true := by
  induction count generalizing first second with
  | zero => rfl
  | succ count ih =>
    have head : first 0 = second 0 := agree 0 (by omega) (by simp)
    simp only [strncmpEqual, head, beq_self_eq_true, Bool.true_and, Bool.or_eq_true, beq_iff_eq]
    by_cases ended : second 0 = 0#8
    · exact .inl ended
    · right
      apply ih
      intro k bound unended
      apply agree (k + 1) (by omega)
      intro l before
      cases l with
      | zero => exact ended
      | succ l => exact unended l (by omega)

/-- The name that `strncpy` stored is equal, to `strncmp`, to the one it was copied from. -/
theorem strncmpEqual_strncpy {stored name : Nat → Byte} {count : Nat}
    (copied : ∀ k < count, stored k = strncpy name k) : strncmpEqual stored name count = true := by
  apply strncmpEqual_of_agree
  intro k bound unended
  rw [copied k bound, strncpy, if_pos]
  simpa using unended

/-! ## Searching -/

theorem findIndex_of_absent {name : Nat → Byte} (absent : ∀ i < d.tableSize, d.isNamed name i = false) :
    d.findIndex name = -1 := by
  have missed : ¬ firstIndex (d.isNamed name) d.tableSize < d.tableSize := by
    intro found
    have named := firstIndex_spec found
    rw [absent _ found] at named
    cases named
  simp only [findIndex, if_neg missed]

theorem findIndex_of_present {name : Nat → Byte} (bound : i < d.tableSize)
    (named : d.isNamed name i = true) :
    ∃ j < d.tableSize, d.findIndex name = j ∧ d.isNamed name j = true := by
  have found := firstIndex_lt bound named
  exact ⟨_, found, by simp only [findIndex, if_pos found], firstIndex_spec found⟩

/-- `FindIndex` returns `-1`, or the index of an entry with the name. -/
theorem findIndex_cases (d : Directory) (name : Nat → Byte) :
    d.findIndex name = -1 ∨
      ∃ i < d.tableSize, d.findIndex name = i ∧ d.isNamed name i = true := by
  by_cases present : ∃ i < d.tableSize, d.isNamed name i = true
  · obtain ⟨i, bound, named⟩ := present
    exact .inr (findIndex_of_present bound named)
  · left
    apply findIndex_of_absent
    intro i bound
    by_contra named
    exact present ⟨i, bound, by simpa using named⟩

theorem findIndex_eq_neg_one {name : Nat → Byte} :
    d.findIndex name = -1 ↔ ∀ i < d.tableSize, d.isNamed name i = false := by
  constructor
  · intro missing i bound
    by_contra named
    obtain ⟨j, _, found, _⟩ := findIndex_of_present bound (by simpa using named)
    omega
  · exact findIndex_of_absent

theorem inUse_of_isNamed {name : Nat → Byte} (named : d.isNamed name i = true) :
    d.inUse i = true := by
  simp only [isNamed, Bool.and_eq_true] at named
  exact named.1

/-! ## Add and Remove -/

structure Added (d : Directory) (i : Nat) (name : Nat → Byte) (newSector : Int) (d' : Directory) :
    Prop where
  bound : i < d.tableSize
  free : d.inUse i = false
  tableSize : d'.tableSize = d.tableSize
  inUse : ∀ j, d'.inUse j = if j = i then true else d.inUse j
  sector : d'.sector i = newSector
  other : ∀ j, j ≠ i → d'.sector j = d.sector j
  named : d'.isNamed name i = true

theorem add_of_full {name : Nat → Byte} (newSector : Int)
    (full : ∀ i < d.tableSize, d.inUse i = true) : d.add name newSector = (false, d) := by
  have missed : ¬ firstIndex (fun i => !d.inUse i) d.tableSize < d.tableSize := by
    intro found
    have free := firstIndex_spec found
    rw [full _ found] at free
    cases free
  simp [add, if_neg missed]

theorem add_of_free {name : Nat → Byte} {newSector : Int} (absent : d.findIndex name = -1)
    (bound : i < d.tableSize) (free : d.inUse i = false) (nonneg : 0 ≤ newSector)
    (small : newSector < 2 ^ 31) :
    ∃ j d', d.add name newSector = (true, d') ∧ Added d j name newSector d' := by
  have found : firstIndex (fun i => !d.inUse i) d.tableSize < d.tableSize :=
    firstIndex_lt bound (by simp [free])
  have first := firstIndex_spec found
  generalize entry : firstIndex (fun i => !d.inUse i) d.tableSize = j at *
  have added : d.add name newSector =
      (true, ((d.setInUse j true).setName j name).setSector j newSector) := by
    simp only [add, absent, ne_eq, not_true_eq_false, if_false, entry, if_pos found]
  have inUse : ∀ k, (((d.setInUse j true).setName j name).setSector j newSector).inUse k =
      if k = j then true else d.inUse k := by
    intro k
    rw [setSector, store_inUse (by simp only [directoryEntrySize, intSize]; omega), setName,
      store_inUse (by simp only [directoryEntrySize, fileNameMaxLen]; omega), setInUse_inUse]
  exact ⟨j, _, added, {
    bound := found
    free := by simpa using first
    tableSize := rfl
    inUse := inUse
    sector := by rw [setSector_sector, toInt_ofInt nonneg small]
    other := by
      intro k different
      rw [setSector, store_sector (by simp only [directoryEntrySize, intSize]; omega), setName,
        store_sector (by simp only [directoryEntrySize, fileNameMaxLen]; omega), setInUse_sector]
    named := by
      rw [isNamed, inUse, if_pos rfl, Bool.true_and]
      apply strncmpEqual_strncpy
      intro k bound
      rw [setSector, store_name (by simp only [directoryEntrySize, intSize]; omega),
        setName_name _ _ _ bound] }⟩

/-- An entry that was in use is found by the same names as before. -/
theorem add_isNamed {name : Nat → Byte} {newSector : Int} (added : d.add name newSector = (true, d'))
    (inUse : d.inUse j = true) (other : Nat → Byte) : d'.isNamed other j = d.isNamed other j := by
  simp only [add] at added
  split at added
  · simp at added
  · split at added
    next found =>
      have free := firstIndex_spec found
      generalize firstIndex (fun i => !d.inUse i) d.tableSize = i at *
      have different : j ≠ i := by
        intro same
        rw [same] at inUse
        simp [inUse] at free
      rw [Prod.mk.injEq] at added
      rw [← added.2]
      have stillInUse : (((d.setInUse i true).setName i name).setSector i newSector).inUse j =
          d.inUse j := by
        rw [setSector, store_inUse (by simp only [directoryEntrySize, intSize]; omega), setName,
          store_inUse (by simp only [directoryEntrySize, fileNameMaxLen]; omega), setInUse_inUse,
          if_neg different]
      unfold isNamed
      rw [stillInUse]
      congr 1
      apply strncmpEqual_congr
      intro k small
      simp only [fileNameMaxLen] at small
      rw [setSector, store_name (by simp only [directoryEntrySize, intSize]; omega), setName,
        store_name (by simp only [directoryEntrySize, fileNameMaxLen]; omega), setInUse,
        store_name (by simp only [directoryEntrySize]; omega)]
    next => simp at added

theorem remove_of_found {name : Nat → Byte} (found : d.findIndex name = i) :
    d.remove name = (true, d.setInUse i false) := by
  simp [remove, found]

structure Agrees (d d' : Directory) : Prop where
  tableSize : d.tableSize = d'.tableSize
  table : ∀ p < d.tableSize * directoryEntrySize, d.table p = d'.table p

namespace Agrees

theorem refl (d : Directory) : Agrees d d := ⟨rfl, fun _ _ => rfl⟩

theorem symm (agrees : Agrees d d') : Agrees d' d where
  tableSize := agrees.tableSize.symm
  table p bound := (agrees.table p (by rw [agrees.tableSize]; exact bound)).symm

theorem trans {d'' : Directory} (first : Agrees d d') (second : Agrees d' d'') : Agrees d d'' where
  tableSize := first.tableSize.trans second.tableSize
  table p bound := (first.table p bound).trans (second.table p (by rw [← first.tableSize]; exact bound))

theorem inUse_eq (agrees : Agrees d d') (bound : i < d.tableSize) : d.inUse i = d'.inUse i := by
  unfold inUse
  rw [agrees.table _ (by simp only [directoryEntrySize]; omega)]

theorem sector_eq (agrees : Agrees d d') (bound : i < d.tableSize) : d.sector i = d'.sector i := by
  unfold sector
  congr 1
  apply hostWord_congr
  intro k small
  exact agrees.table _ (by simp only [directoryEntrySize]; omega)

theorem isNamed_eq (agrees : Agrees d d') (name : Nat → Byte) (bound : i < d.tableSize) :
    d.isNamed name i = d'.isNamed name i := by
  unfold isNamed
  rw [agrees.inUse_eq bound]
  congr 1
  apply strncmpEqual_congr
  intro k small
  exact agrees.table _ (by simp only [directoryEntrySize, fileNameMaxLen] at *; omega)

end Agrees

end Directory

end Nachos
