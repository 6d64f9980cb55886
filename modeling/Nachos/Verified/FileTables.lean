import Mathlib.Data.Finset.Prod
import Nachos.Lib.RefCount
import Nachos.UserProg.OpenFiles

/-!
# The tables of open files

A descriptor of a process is bound to an entry of the system table with the same file name,
and the counter of that entry is at least the number of descriptors bound to it.  The routines
are followed on the abstract counts: opening a file adds a user of an entry, closing a
descriptor and ending a process release users.  Only an `Open` that finds its name in the
table of the process raises a counter without a new user.
-/

namespace Nachos

open Loops Runs RefCount

/-! ## Entries in use -/

namespace Slots

variable {β : Type} {t : Slots β} {i j : Nat} {object x y : β}

def Has (t : Slots β) (i : Nat) (object : β) : Prop :=
  i < t.map.numBits ∧ t.map.bit i = true ∧ t.array i = some object

theorem Has.unique (here : t.Has i x) (also : t.Has i y) : x = y :=
  Option.some.inj (here.2.2.symm.trans also.2.2)

theorem has_of_bit (bound : i < t.map.numBits) (isSet : t.map.bit i = true) :
    ∃ object, t.Has i object := by
  obtain ⟨object, entry⟩ := Option.isSome_iff_exists.mp (t.filled i bound isSet)
  exact ⟨object, bound, isSet, entry⟩

theorem not_has_empty {size : Nat} {junk : Nat → BitVec 32} :
    ¬ (empty size junk : Slots β).Has i object := by
  rintro ⟨-, -, entry⟩
  cases entry

theorem has_add : (t.add i x).Has j y ↔ (j = i ∧ y = x ∧ i < t.map.numBits) ∨ (j ≠ i ∧ t.Has j y) := by
  by_cases same : j = i
  · subst same
    have swapped : x = y ↔ y = x := eq_comm
    simp [Has, add, and_comm, swapped]
  · simp [Has, add, same]

theorem has_remove : (t.remove i).Has j y ↔ j ≠ i ∧ t.Has j y := by
  by_cases same : j = i
  · simp [Has, remove, same]
  · simp [Has, remove, same]

theorem has_update (inUse : t.Has i object) :
    (t.update i x).Has j y ↔ (j = i ∧ y = x) ∨ (j ≠ i ∧ t.Has j y) := by
  by_cases same : j = i
  · subst same
    have swapped : x = y ↔ y = x := eq_comm
    simp [Has, update, inUse.1, inUse.2.1, swapped]
  · simp [Has, update, same]

@[simp] theorem add_numBits : (t.add i x).map.numBits = t.map.numBits := rfl

@[simp] theorem remove_numBits : (t.remove i).map.numBits = t.map.numBits := rfl

@[simp] theorem update_map : (t.update i x).map = t.map := rfl

theorem Has.get (inUse : t.Has i object) : t.get i = .ok object := by
  simp [Slots.get, BitMap.inRange_ofNat inUse.1, inUse.2.2]

theorem Has.test (inUse : t.Has i object) : t.map.test i = .ok true :=
  BitMap.test_eq_ok.mpr ⟨BitMap.inRange_ofNat inUse.1, inUse.2.1.symm⟩

theorem get_eq_ok {index : Int} (found : t.get index = .ok object) :
    t.map.inRange index = true ∧ t.array index.toNat = some object := by
  unfold Slots.get at found
  split at found
  next inside =>
    split at found
    next there =>
      cases found
      exact ⟨inside, there⟩
    next => cases found
  next => cases found

theorem inRange_iff {b : BitMap} {index : Int} :
    b.inRange index = true ↔ ∃ i : Nat, index = i ∧ i < b.numBits := by
  simp only [BitMap.inRange, decide_eq_true_eq]
  constructor
  · rintro ⟨nonneg, below⟩
    exact ⟨index.toNat, by omega, by omega⟩
  · rintro ⟨i, rfl, below⟩
    omega

theorem findByName_cases (nameOf : β → String) (filename : String) (t : Slots β) :
    (∃ i object, t.Has i object ∧ nameOf object = filename ∧
        t.findByName nameOf filename = (i : Int)) ∨
      (t.findByName nameOf filename = -1 ∧
        ∀ i object, t.Has i object → nameOf object ≠ filename) := by
  unfold findByName
  generalize isNamed : (fun i => t.map.bit i && (t.array i).any fun object =>
    nameOf object == filename) = named
  have named_iff : ∀ i, named i = true ↔ t.map.bit i = true ∧
      ∃ object, t.array i = some object ∧ nameOf object = filename := by
    intro i
    rw [← isNamed]
    simp [Option.any_eq_true]
  by_cases found : firstIndex named t.map.numBits < t.map.numBits
  · left
    obtain ⟨isSet, object, entry, same⟩ := (named_iff _).mp (firstIndex_spec found)
    exact ⟨_, object, ⟨found, isSet, entry⟩, same, by simp [found]⟩
  · right
    refine ⟨by simp [found], ?_⟩
    intro i object inUse same
    exact found (firstIndex_lt inUse.1 ((named_iff i).mpr ⟨inUse.2.1, object, inUse.2.2, same⟩))

theorem create_cases (object : β) (t : Slots β) :
    t.create object = (-1, t) ∨
      ∃ i < t.map.numBits, t.map.bit i = false ∧ t.create object = ((i : Int), t.add i object) := by
  by_cases full : ∀ i < t.map.numBits, t.map.bit i = true
  · left
    simp [create, BitMap.find_of_full full]
  · right
    push Not at full
    obtain ⟨i, bound, notSet⟩ := full
    obtain ⟨j, below, isClear, -, found⟩ := BitMap.find_of_clear bound (by simpa using notSet)
    have notNone : ¬ ((j : Int) = -1) := by omega
    exact ⟨j, below, isClear, by simp [create, found, notNone]⟩

end Slots

/-! ## Descriptors and their counts -/

variable {s : OpenFiles} {k : Nat} {id : Int}

namespace OpenFiles

def Descriptor (s : OpenFiles) (p i : Nat) (pof : POF) : Prop :=
  ∃ table, s.allPCB p = some table ∧ table.Has i pof

theorem Descriptor.unique {p i : Nat} {x y : POF} (here : s.Descriptor p i x)
    (also : s.Descriptor p i y) : x = y := by
  obtain ⟨table, entry, has⟩ := here
  obtain ⟨table', entry', has'⟩ := also
  cases entry.symm.trans entry'
  exact has.unique has'

def refers (s : OpenFiles) (k p i : Nat) : Bool :=
  (s.allPCB p).any fun table => table.map.bit i && (table.array i).any fun pof =>
    pof.sofIndex == (k : Int)

def users (s : OpenFiles) (k : Nat) : Finset (Nat × Nat) :=
  (Finset.range pidMapSize ×ˢ Finset.range pofMaxNum).filter fun pair => s.refers k pair.1 pair.2

def counts (s : OpenFiles) : Counts Nat (Nat × Nat) where
  users := s.users
  count k :=
    if k < s.sofMgr.map.numBits ∧ s.sofMgr.map.bit k = true then
      ((s.sofMgr.array k).map fun sof => sof.counter.toNat).getD 0
    else 0

structure Sized (s : OpenFiles) : Prop where
  sofMgr : s.sofMgr.map.numBits = sofMaxNum
  pid : ∀ {p table}, s.allPCB p = some table → p < pidMapSize
  table : ∀ {p table}, s.allPCB p = some table → table.map.numBits = pofMaxNum

theorem mem_users (sized : Sized s) {k p i : Nat} :
    (p, i) ∈ s.users k ↔ ∃ pof, s.Descriptor p i pof ∧ pof.sofIndex = k := by
  simp only [users, Finset.mem_filter, Finset.mem_product, Finset.mem_range, refers,
    Option.any_eq_true, Bool.and_eq_true, beq_iff_eq, Descriptor]
  constructor
  · rintro ⟨⟨-, below⟩, table, entry, isSet, pof, object, bound⟩
    exact ⟨pof, ⟨table, entry, sized.table entry ▸ below, isSet, object⟩, bound⟩
  · rintro ⟨pof, ⟨table, entry, below, isSet, object⟩, bound⟩
    exact ⟨⟨sized.pid entry, sized.table entry ▸ below⟩, table, entry, isSet, pof, object, bound⟩

theorem users_congr {s s' : OpenFiles} (sized : Sized s) {p i : Nat}
    (same : ∀ {pof}, s'.Descriptor p i pof ↔ s.Descriptor p i pof) :
    (∃ pof, s'.Descriptor p i pof ∧ pof.sofIndex = k) ↔ (p, i) ∈ s.users k := by
  rw [mem_users sized]
  exact exists_congr fun _ => and_congr_left fun _ => same

theorem count_of_has {sof : SOF} (inUse : s.sofMgr.Has k sof) :
    s.counts.count k = sof.counter.toNat := by
  simp [counts, inUse.1, inUse.2.1, inUse.2.2]

theorem count_of_free (free : ∀ sof, ¬ s.sofMgr.Has k sof) :
    s.counts.count k = 0 := by
  simp only [counts]
  split
  next inUse =>
    obtain ⟨sof, has⟩ := Slots.has_of_bit inUse.1 inUse.2
    exact absurd has (free sof)
  next => rfl

/-- The counts are known from the descriptors and the counters. -/
theorem counts_eq {c : Counts Nat (Nat × Nat)} (sized : Sized s)
    (users : ∀ (k : Nat) p i,
      (∃ pof, s.Descriptor p i pof ∧ pof.sofIndex = k) ↔ (p, i) ∈ c.users k)
    (count : ∀ k, s.counts.count k = c.count k) : s.counts = c := by
  refine Counts.ext (funext fun k => Finset.ext ?_) (funext count)
  rintro ⟨p, i⟩
  exact (mem_users sized).trans (users k p i)

theorem count_congr {s s' : OpenFiles} (same : ∀ sof, s'.sofMgr.Has k sof ↔ s.sofMgr.Has k sof) :
    s'.counts.count k = s.counts.count k := by
  by_cases inUse : ∃ sof, s.sofMgr.Has k sof
  · obtain ⟨sof, has⟩ := inUse
    rw [count_of_has has, count_of_has ((same sof).mpr has)]
  · push Not at inUse
    rw [count_of_free inUse, count_of_free fun sof has => inUse sof ((same sof).mp has)]

/-- Every descriptor is bound to an entry in use with the name of its file, no file has two
entries, and no counter is too low. -/
structure Bound (s : OpenFiles) : Prop where
  sized : Sized s
  bound : ∀ {p i pof}, s.Descriptor p i pof →
    ∃ (k : Nat) (sof : SOF), pof.sofIndex = k ∧ s.sofMgr.Has k sof ∧ sof.filename = pof.filename
  distinct : ∀ {k k' sof sof'}, s.sofMgr.Has k sof → s.sofMgr.Has k' sof' →
    sof.filename = sof'.filename → k = k'
  opened : ∀ {k sof}, s.sofMgr.Has k sof → sof.openFile = .path sof.filename
  counted : ∀ {k sof}, s.sofMgr.Has k sof → sof.counter.toNat ≠ 0
  covered : Covered s.counts

theorem Bound.only {sof : SOF} (bound : Bound s) (inUse : s.sofMgr.Has k sof) {j : Nat} {y : SOF}
    (has : s.sofMgr.Has j y) : y.filename = sof.filename ↔ j = k := by
  refine ⟨bound.distinct has inUse, ?_⟩
  rintro rfl
  rw [has.unique inUse]

theorem Bound.count_pos (bound : Bound s) {k p i : Nat} (user : (p, i) ∈ s.users k) :
    0 < s.counts.count k :=
  Nat.lt_of_lt_of_le (Finset.card_pos.mpr ⟨_, user⟩) (bound.covered k)

theorem Bound.users_of_free (bound : Bound s) (free : ∀ sof, ¬ s.sofMgr.Has k sof) :
    s.users k = ∅ := by
  rw [Finset.eq_empty_iff_forall_notMem]
  rintro ⟨p, i⟩ user
  have positive := bound.count_pos user
  rw [count_of_free free] at positive
  exact Nat.lt_irrefl _ positive

/-! ## What the routines do to the entries -/

structure Entered (k : Nat) (sof : SOF) (s s' : OpenFiles) : Prop where
  here : s'.sofMgr.Has k sof
  others : ∀ {j y}, j ≠ k → (s'.sofMgr.Has j y ↔ s.sofMgr.Has j y)

structure Opened (current i k : Nat) (filename : String) (s s' : OpenFiles) : Prop where
  sized : Sized s'
  entered : ∃ sof : SOF, sof.filename = filename ∧ sof.openFile = .path filename ∧
    sof.counter.toNat = s.counts.count k + 1 ∧ Entered k sof s s'
  only : ∀ {j y}, s.sofMgr.Has j y → (y.filename = filename ↔ j = k)
  fresh : ∀ pof, ¬ s.Descriptor current i pof
  here : ∃ pof : POF, pof.filename = filename ∧ pof.sofIndex = (k : Int) ∧
    s'.Descriptor current i pof
  others : ∀ {p j pof}, (p, j) ≠ (current, i) → (s'.Descriptor p j pof ↔ s.Descriptor p j pof)
  files : s'.files = s.files

structure Closed (current i k : Nat) (s s' : OpenFiles) : Prop where
  sized : Sized s'
  was : ∃ pof, s.Descriptor current i pof ∧ pof.sofIndex = (k : Int)
  count : s'.counts.count k = s.counts.count k - 1
  entry : ∀ sof', s'.sofMgr.Has k sof' → ∃ sof, s.sofMgr.Has k sof ∧ sof'.counter.toNat ≠ 0 ∧
    sof'.filename = sof.filename ∧ sof'.openFile = sof.openFile
  kept : s.counts.count k ≠ 1 → ∃ sof', s'.sofMgr.Has k sof'
  entries : ∀ {j y}, j ≠ k → (s'.sofMgr.Has j y ↔ s.sofMgr.Has j y)
  gone : ∀ pof, ¬ s'.Descriptor current i pof
  others : ∀ {p j pof}, (p, j) ≠ (current, i) → (s'.Descriptor p j pof ↔ s.Descriptor p j pof)
  files : s'.files = s.files

section Effects

variable {s s' : OpenFiles} {current i k : Nat} {filename : String}

theorem Opened.notUser (bound : Bound s) (opened : Opened current i k filename s s') (j : Nat) :
    (current, i) ∉ s.users j := by
  rw [mem_users bound.sized]
  rintro ⟨old, was, -⟩
  exact opened.fresh old was

theorem Opened.counts (bound : Bound s) (opened : Opened current i k filename s s') :
    s'.counts = share s.counts k (current, i) := by
  obtain ⟨sof, -, -, counter, entered⟩ := opened.entered
  obtain ⟨pof, -, index, here⟩ := opened.here
  refine counts_eq opened.sized (fun j p l => ?_) fun j => ?_
  · by_cases isNew : (p, l) = (current, i)
    · obtain ⟨rfl, rfl⟩ := Prod.mk.inj isNew
      have toK : (∃ y, s'.Descriptor p l y ∧ y.sofIndex = (j : Int)) ↔ j = k := by
        constructor
        · rintro ⟨y, after, isJ⟩
          rw [after.unique here, index] at isJ
          exact Int.ofNat_inj.mp isJ.symm
        · rintro rfl
          exact ⟨pof, here, index⟩
      rw [toK]
      simp only [share]
      split
      next same => simp [same]
      next other => exact ⟨fun same => absurd same other, fun user => absurd user
        (opened.notUser bound j)⟩
    · rw [users_congr bound.sized (opened.others isNew)]
      simp only [share]
      split
      next here => rw [Finset.mem_insert]; exact ⟨Or.inr, fun member => member.resolve_left isNew⟩
      next => rfl
  · simp only [share]
    split
    next isK => rw [isK, count_of_has entered.here, counter]
    next other => exact count_congr fun y => entered.others other

/-- An entry is made or changed, and the descriptors that are new are bound to it. -/
theorem Bound.entered {sof : SOF} (bound : Bound s) (sized : Sized s') (entered : Entered k sof s s')
    (file : sof.openFile = .path sof.filename) (positive : sof.counter.toNat ≠ 0)
    (only : ∀ {j y}, s.sofMgr.Has j y → (y.filename = sof.filename ↔ j = k))
    (descriptors : ∀ {p j pof}, s'.Descriptor p j pof →
      s.Descriptor p j pof ∨ pof.sofIndex = (k : Int) ∧ pof.filename = sof.filename)
    (covered : Covered s'.counts) : Bound s' := by
  -- an entry of the new table is `sof`, or was there before
  have cases : ∀ {j y}, s'.sofMgr.Has j y → (j = k ∧ y = sof) ∨ (j ≠ k ∧ s.sofMgr.Has j y) := by
    intro j y has
    by_cases isK : j = k
    · subst isK
      exact Or.inl ⟨rfl, has.unique entered.here⟩
    · exact Or.inr ⟨isK, (entered.others isK).mp has⟩
  refine ⟨sized, ?_, ?_, ?_, ?_, covered⟩
  · intro p j y descriptor
    obtain was | ⟨index, named⟩ := descriptors descriptor
    · obtain ⟨l, old, isL, has, same⟩ := bound.bound was
      by_cases isK : l = k
      · subst isK
        exact ⟨l, sof, isL, entered.here, ((only has).mpr rfl).symm.trans same⟩
      · exact ⟨l, old, isL, (entered.others isK).mpr has, same⟩
    · exact ⟨k, sof, index, entered.here, named.symm⟩
  · intro j j' y y' has has' same
    obtain ⟨rfl, rfl⟩ | ⟨other, old⟩ := cases has <;>
      obtain ⟨rfl, rfl⟩ | ⟨other', old'⟩ := cases has'
    · rfl
    · exact absurd ((only old').mp same.symm) other'
    · exact absurd ((only old).mp same) other
    · exact bound.distinct old old' same
  · intro j y has
    obtain ⟨rfl, rfl⟩ | ⟨-, old⟩ := cases has
    · exact file
    · exact bound.opened old
  · intro j y has
    obtain ⟨rfl, rfl⟩ | ⟨-, old⟩ := cases has
    · exact positive
    · exact bound.counted old

theorem Opened.bound (bound : Bound s) (opened : Opened current i k filename s s') : Bound s' := by
  have counts := opened.counts bound
  have fresh := opened.notUser bound k
  obtain ⟨sof, rfl, file, counter, entered⟩ := opened.entered
  obtain ⟨pof, named, index, here⟩ := opened.here
  refine bound.entered opened.sized entered file (by omega) opened.only ?_
    (counts ▸ (Balanced.same.share fresh).covered bound.covered)
  intro p j y descriptor
  by_cases isNew : (p, j) = (current, i)
  · obtain ⟨rfl, rfl⟩ := Prod.mk.inj isNew
    obtain rfl := descriptor.unique here
    exact Or.inr ⟨index, named⟩
  · exact Or.inl ((opened.others isNew).mp descriptor)

theorem Closed.user (bound : Bound s) (closed : Closed current i k s s') :
    (current, i) ∈ s.users k := by
  obtain ⟨pof, was, index⟩ := closed.was
  exact (mem_users bound.sized).mpr ⟨pof, was, index⟩

theorem Closed.counts (bound : Bound s) (closed : Closed current i k s s') :
    s'.counts = release s.counts k (current, i) := by
  obtain ⟨pof, was, index⟩ := closed.was
  refine counts_eq closed.sized (fun j p l => ?_) fun j => ?_
  · by_cases isGone : (p, l) = (current, i)
    · obtain ⟨rfl, rfl⟩ := Prod.mk.inj isGone
      have notAfter : ¬ ∃ y, s'.Descriptor p l y ∧ y.sofIndex = (j : Int) := by
        rintro ⟨y, after, -⟩
        exact closed.gone y after
      simp only [notAfter, release, false_iff]
      split
      next => exact Finset.notMem_erase _ _
      next other =>
        intro user
        obtain ⟨y, also, isJ⟩ := (mem_users bound.sized).mp user
        rw [also.unique was, index] at isJ
        exact other (Int.ofNat_inj.mp isJ.symm)
    · rw [users_congr bound.sized (closed.others isGone)]
      simp only [release]
      split
      next => rw [Finset.mem_erase]; exact ⟨fun user => ⟨isGone, user⟩, And.right⟩
      next => rfl
  · simp only [release]
    split
    next isK => rw [isK, closed.count]
    next other => exact count_congr fun y => closed.entries other

theorem Closed.balanced (bound : Bound s) (closed : Closed current i k s s') :
    Balanced s.counts s'.counts := by
  rw [closed.counts bound]
  exact Balanced.same.release (closed.user bound)

theorem Closed.bound (bound : Bound s) (closed : Closed current i k s s') : Bound s' := by
  have user := closed.user bound
  -- an entry of the new table was there before, with the same name
  have before : ∀ {j y}, s'.sofMgr.Has j y → ∃ old, s.sofMgr.Has j old ∧ y.counter.toNat ≠ 0 ∧
      y.filename = old.filename ∧ y.openFile = old.openFile := by
    intro j y has
    by_cases isK : j = k
    · subst isK
      exact closed.entry y has
    · have old := (closed.entries isK).mp has
      exact ⟨y, old, bound.counted old, rfl, rfl⟩
  refine ⟨closed.sized, ?_, ?_, ?_, ?_, (closed.balanced bound).covered bound.covered⟩
  · intro p j y descriptor
    have other : (p, j) ≠ (current, i) := by
      intro same
      obtain ⟨rfl, rfl⟩ := Prod.mk.inj same
      exact closed.gone y descriptor
    have was := (closed.others other).mp descriptor
    obtain ⟨l, old, isL, has, same⟩ := bound.bound was
    by_cases isK : l = k
    · subst isK
      -- two descriptors were bound to the entry, so it is still in use
      have several : 1 < (s.users l).card := Finset.one_lt_card.mpr
        ⟨_, user, _, (mem_users bound.sized).mpr ⟨y, was, isL⟩, Ne.symm other⟩
      have notLast : s.counts.count l ≠ 1 := (Nat.lt_of_lt_of_le several (bound.covered l)).ne'
      obtain ⟨sof', kept⟩ := closed.kept notLast
      obtain ⟨old', has', -, named, -⟩ := closed.entry sof' kept
      obtain rfl := has.unique has'
      exact ⟨l, sof', isL, kept, named.trans same⟩
    · exact ⟨l, old, isL, (closed.entries isK).mpr has, same⟩
  · intro j j' y y' has has' same
    obtain ⟨old, inUse, -, named, -⟩ := before has
    obtain ⟨old', inUse', -, named', -⟩ := before has'
    exact bound.distinct inUse inUse' (named.symm.trans (same.trans named'))
  · intro j y has
    obtain ⟨old, inUse, -, named, file⟩ := before has
    rw [file, bound.opened inUse, named]
  · intro j y has
    obtain ⟨old, -, positive, -⟩ := before has
    exact positive

def Reopened (k : Nat) (s s' : OpenFiles) : Prop :=
  ∃ sof, s.sofMgr.Has k sof ∧ sof.counter.toNat + 1 < 2 ^ 32 ∧
    s' = { s with sofMgr := s.sofMgr.update k { sof with counter := sof.counter + 1#32 } }

theorem toNat_succ {counter : BitVec 32} (small : counter.toNat + 1 < 2 ^ 32) :
    (counter + 1#32).toNat = counter.toNat + 1 := by
  rw [BitVec.toNat_add]
  exact Nat.mod_eq_of_lt small

theorem raised_entered {sof : SOF} (has : s.sofMgr.Has k sof) :
    Entered k { sof with counter := sof.counter + 1#32 } s
      { s with sofMgr := s.sofMgr.update k { sof with counter := sof.counter + 1#32 } } :=
  ⟨(Slots.has_update has).mpr (Or.inl ⟨rfl, rfl⟩), fun other => by simp [Slots.has_update has, other]⟩

theorem Reopened.counts (reopened : Reopened k s s') : s'.counts = leak s.counts k := by
  obtain ⟨sof, has, small, rfl⟩ := reopened
  apply Counts.ext
  · rfl
  · funext j
    simp only [leak]
    split
    next isK =>
      subst isK
      rw [count_of_has has]
      exact (count_of_has (raised_entered has).here).trans (toNat_succ small)
    next other => exact count_congr fun y => (raised_entered has).others other

theorem Reopened.bound (bound : Bound s) (reopened : Reopened k s s') : Bound s' := by
  have covered : Covered s'.counts := by
    rw [reopened.counts]
    exact leak_covered bound.covered k
  obtain ⟨sof, has, small, rfl⟩ := reopened
  have file : sof.openFile = .path sof.filename := bound.opened has
  have raised := toNat_succ small
  exact bound.entered ⟨bound.sized.sofMgr, bound.sized.pid, bound.sized.table⟩ (raised_entered has)
    file (by simp only [raised]; omega) (bound.only has) Or.inl covered

structure SameBindings (s s' : OpenFiles) : Prop where
  sized : Sized s'
  sofMgr : s'.sofMgr = s.sofMgr
  after : ∀ {p i pof}, s.Descriptor p i pof →
    ∃ pof', s'.Descriptor p i pof' ∧ pof'.filename = pof.filename ∧ pof'.sofIndex = pof.sofIndex
  before : ∀ {p i pof'}, s'.Descriptor p i pof' →
    ∃ pof, s.Descriptor p i pof ∧ pof'.filename = pof.filename ∧ pof'.sofIndex = pof.sofIndex

theorem SameBindings.of_iff (sized : Sized s') (sofMgr : s'.sofMgr = s.sofMgr)
    (same : ∀ {p i pof}, s'.Descriptor p i pof ↔ s.Descriptor p i pof) : SameBindings s s' :=
  ⟨sized, sofMgr, fun descriptor => ⟨_, same.mpr descriptor, rfl, rfl⟩,
    fun descriptor => ⟨_, same.mp descriptor, rfl, rfl⟩⟩

theorem SameBindings.counts (sized : Sized s) (same : SameBindings s s') : s'.counts = s.counts := by
  refine counts_eq same.sized (fun j p l => ?_) fun j => count_congr fun y => by rw [same.sofMgr]
  · refine Iff.trans ?_ (mem_users sized).symm
    constructor
    · rintro ⟨pof', descriptor, isJ⟩
      obtain ⟨pof, was, -, index⟩ := same.before descriptor
      exact ⟨pof, was, index ▸ isJ⟩
    · rintro ⟨pof, descriptor, isJ⟩
      obtain ⟨pof', is, -, index⟩ := same.after descriptor
      exact ⟨pof', is, index ▸ isJ⟩

theorem SameBindings.bound (bound : Bound s) (same : SameBindings s s') : Bound s' where
  sized := same.sized
  bound descriptor := by
    obtain ⟨pof, was, named, index⟩ := same.before descriptor
    obtain ⟨k, sof, isK, has, sofNamed⟩ := bound.bound was
    exact ⟨k, sof, index.trans isK, same.sofMgr ▸ has, sofNamed.trans named.symm⟩
  distinct has has' := bound.distinct (same.sofMgr ▸ has) (same.sofMgr ▸ has')
  opened has := bound.opened (same.sofMgr ▸ has)
  counted has := bound.counted (same.sofMgr ▸ has)
  covered := same.counts bound.sized ▸ bound.covered

end Effects

/-! ## The routines -/

section Routines

variable {s s' : OpenFiles} {p i : Nat} {table : Slots POF} {pof : POF}

theorem descriptor_setPCB {other : Option (Slots POF)} {q j : Nat} {y : POF} :
    (s.setPCB p other).Descriptor q j y ↔
      (q = p ∧ ∃ table, other = some table ∧ table.Has j y) ∨ (q ≠ p ∧ s.Descriptor q j y) := by
  by_cases same : q = p
  · simp [Descriptor, setPCB, same]
  · simp [Descriptor, setPCB, same]

theorem descriptor_other {table' : Slots POF} {q j : Nat} {y : POF} (entry : s.allPCB p = some table)
    (same : j ≠ i → (table'.Has j y ↔ table.Has j y)) (other : (q, j) ≠ (p, i)) :
    (s.setPCB p (some table')).Descriptor q j y ↔ s.Descriptor q j y := by
  rw [descriptor_setPCB]
  by_cases isP : q = p
  · subst isP
    simp [Descriptor, entry, same fun sameSlot => other (by rw [sameSlot])]
  · simp [isP]

theorem Sized.setPCB (sized : Sized s) (isPid : p < pidMapSize)
    (size : table.map.numBits = pofMaxNum) : Sized (s.setPCB p (some table)) := by
  refine ⟨sized.sofMgr, ?_, ?_⟩
  · intro q other entry
    by_cases same : q = p
    · exact same ▸ isPid
    · exact sized.pid (by simpa [OpenFiles.setPCB, same] using entry)
  · intro q other entry
    by_cases same : q = p
    · simp only [OpenFiles.setPCB, same, if_true, Option.some.injEq] at entry
      exact entry ▸ size
    · exact sized.table (by simpa [OpenFiles.setPCB, same] using entry)

theorem removeSOF_cases {sof : SOF} (inUse : s.sofMgr.Has k sof) (run : s.removeSOF k = .ok s') :
    (sof.counter = 1#32 ∧ s' = { s with sofMgr := s.sofMgr.remove k }) ∨
      sof.counter ≠ 1#32 ∧ s' =
        { s with sofMgr := s.sofMgr.update k { sof with counter := sof.counter - 1#32 } } := by
  have isZero : sof.counter - 1#32 = 0#32 ↔ sof.counter = 1#32 := sub_eq_zero
  simp only [removeSOF, inUse.test, inUse.get, ok_bind, pure_eq, if_true, Int.toNat_natCast,
    isZero] at run
  split at run
  next isOne =>
    cases run
    exact Or.inl ⟨isOne, rfl⟩
  next more =>
    cases run
    exact Or.inr ⟨more, rfl⟩

theorem removePOF_has (has : table.Has i pof) : removePOF i table = .ok (table.remove i) := by
  simp only [removePOF, has.test, ok_bind, pure_eq, if_true, Int.toNat_natCast]

/-- A descriptor is taken out of its table, and `RemoveSOF` is called with its entry. -/
theorem closed_of_removeSOF (bound : Bound s) (entry : s.allPCB p = some table)
    (has : table.Has i pof)
    (run : (s.setPCB p (some (table.remove i))).removeSOF pof.sofIndex = .ok s') :
    ∃ k, Closed p i k s s' := by
  have descriptor : s.Descriptor p i pof := ⟨table, entry, has⟩
  obtain ⟨k, sof, index, inUse, -⟩ := bound.bound descriptor
  have sized : Sized (s.setPCB p (some (table.remove i))) :=
    bound.sized.setPCB (bound.sized.pid entry)
      (Slots.remove_numBits.trans (bound.sized.table entry))
  have positive := bound.counted inUse
  have gone : ∀ y, ¬ (s.setPCB p (some (table.remove i))).Descriptor p i y := by
    intro y after
    obtain ⟨-, left, isLeft, hasLeft⟩ | ⟨other, -⟩ := descriptor_setPCB.mp after
    · cases isLeft
      exact (Slots.has_remove.mp hasLeft).1 rfl
    · exact other rfl
  have others : ∀ {q j y}, (q, j) ≠ (p, i) →
      ((s.setPCB p (some (table.remove i))).Descriptor q j y ↔ s.Descriptor q j y) := by
    intro q j y
    exact descriptor_other entry fun otherSlot => by simp [Slots.has_remove, otherSlot]
  rw [index] at run
  refine ⟨k, ?_⟩
  obtain ⟨isOne, rfl⟩ | ⟨notOne, rfl⟩ := removeSOF_cases (s := s.setPCB p _) inUse run
  · have one : s.counts.count k = 1 := by
      rw [count_of_has inUse, isOne]
      rfl
    refine ⟨⟨sized.sofMgr, sized.pid, sized.table⟩, ⟨pof, descriptor, index⟩, ?_, ?_,
      fun notOne => absurd one notOne, ?_, gone, others, rfl⟩
    · rw [one]
      exact count_of_free fun y after => (Slots.has_remove.mp after).1 rfl
    · intro sof' after
      exact absurd rfl (Slots.has_remove.mp after).1
    · intro j y other
      exact Slots.has_remove.trans (and_iff_right other)
  · have counter : (sof.counter - 1#32).toNat = sof.counter.toNat - 1 := by
      rw [BitVec.toNat_sub]
      simp only [BitVec.toNat_ofNat]
      omega
    have isMore : sof.counter.toNat ≠ 1 := fun isOne => notOne (BitVec.eq_of_toNat_eq isOne)
    have here : (s.sofMgr.update k { sof with counter := sof.counter - 1#32 }).Has k
        { sof with counter := sof.counter - 1#32 } :=
      (Slots.has_update inUse).mpr (Or.inl ⟨rfl, rfl⟩)
    refine ⟨⟨sized.sofMgr, sized.pid, sized.table⟩, ⟨pof, descriptor, index⟩, ?_, ?_,
      fun _ => ⟨_, here⟩, ?_, gone, others, rfl⟩
    · rw [count_of_has inUse, ← counter]
      exact @count_of_has { s.setPCB p (some (table.remove i)) with
        sofMgr := s.sofMgr.update k { sof with counter := sof.counter - 1#32 } } k _ here
    · intro sof' after
      obtain rfl := after.unique here
      exact ⟨sof, inUse, by simp only [counter]; omega, rfl, rfl⟩
    · intro j y other
      exact (Slots.has_update inUse).trans (by simp [other])

theorem pcb_eq_ok (found : s.pcb p = .ok table) : s.allPCB p = some table := by
  unfold OpenFiles.pcb at found
  split at found
  next there =>
    cases found
    exact there
  next => cases found

theorem closeSystemcall_closed (bound : Bound s) (isOpen : s.IsOpen p id)
    (run : s.closeSystemcall p id = .ok s') : ∃ i k : Nat, id = i + 2 ∧ Closed p i k s s' := by
  obtain ⟨table, entry, inside, isSet⟩ := isOpen
  obtain ⟨i, isIndex, below⟩ := Slots.inRange_iff.mp inside
  rw [isIndex] at isSet
  obtain ⟨table', found, run⟩ := bind_eq_ok.mp run
  cases entry.symm.trans (pcb_eq_ok found)
  obtain ⟨pof, object, run⟩ := bind_eq_ok.mp run
  obtain ⟨left, removed, run⟩ := bind_eq_ok.mp run
  rw [isIndex] at object removed
  have has : table.Has i pof := ⟨below, isSet, (Slots.get_eq_ok object).2⟩
  rw [removePOF_has has] at removed
  cases removed
  obtain ⟨k, closed⟩ := closed_of_removeSOF bound entry has run
  exact ⟨i, k, by omega, closed⟩

structure Closing (p : Nat) (s s' : OpenFiles) : Prop where
  bound : Bound s'
  balanced : Balanced s.counts s'.counts
  others : ∀ {q j y}, q ≠ p → (s'.Descriptor q j y ↔ s.Descriptor q j y)
  files : s'.files = s.files

theorem closeSlot_closing {t t' : OpenFiles} (below : i < pofMaxNum) (closing : Closing p s t)
    (run : t.closeSlot p i = .ok t') :
    Closing p s t' ∧ (∀ y, ¬ t'.Descriptor p i y) ∧
      ∀ {j y}, t'.Descriptor p j y → t.Descriptor p j y := by
  obtain ⟨table, found, run⟩ := bind_eq_ok.mp run
  have entry := pcb_eq_ok found
  have size := closing.bound.sized.table entry
  split at run
  next isSet =>
    obtain ⟨pof, object, run⟩ := bind_eq_ok.mp run
    have has : table.Has i pof := ⟨size ▸ below, isSet, (Slots.get_eq_ok object).2⟩
    obtain ⟨k, closed⟩ := closed_of_removeSOF closing.bound entry has run
    refine ⟨⟨closed.bound closing.bound, closing.balanced.trans (closed.balanced closing.bound),
      ?_, closed.files.trans closing.files⟩, closed.gone, ?_⟩
    · intro q j y other
      have isOther : (q, j) ≠ (p, i) := fun same => other (Prod.mk.inj same).1
      exact (closed.others isOther).trans (closing.others other)
    · intro j y after
      by_cases same : j = i
      · subst same
        exact absurd after (closed.gone y)
      · exact (closed.others (by simp [same])).mp after
  next notSet =>
    cases run
    refine ⟨closing, ?_, fun after => after⟩
    rintro y ⟨table', entry', has⟩
    cases entry.symm.trans entry'
    exact notSet has.2.1

/-- The destructor closes every descriptor of the process, and no other. -/
theorem deletePCB_closing (bound : Bound s) (run : s.deletePCB p = .ok s') :
    Closing p s s' ∧ ∀ j y, ¬ s'.Descriptor p j y := by
  obtain ⟨t, closed, run⟩ := bind_eq_ok.mp run
  cases run
  obtain ⟨closing, none⟩ := forUpToM_invariant
    (fun n t => Closing p s t ∧ ∀ i < n, ∀ y, ¬ t.Descriptor p i y) closed
    ⟨⟨bound, .same, fun _ => Iff.rfl, rfl⟩, by simp⟩ (by
      intro i below t t' ⟨closing, earlier⟩ body
      obtain ⟨after, here, kept⟩ := closeSlot_closing below closing body
      refine ⟨after, ?_⟩
      intro j bound y descriptor
      obtain smaller | rfl := Nat.lt_succ_iff_lt_or_eq.mp bound
      · exact earlier j smaller y (kept descriptor)
      · exact here y descriptor)
  -- the table that is deleted has no entry in use any more
  have empty : ∀ j y, ¬ t.Descriptor p j y := by
    intro j y descriptor
    obtain ⟨table, entry, has⟩ := id descriptor
    exact none j (closing.bound.sized.table entry ▸ has.1) y descriptor
  have same : SameBindings t (t.setPCB p Option.none) := by
    have after : ∀ {q j y}, (t.setPCB p Option.none).Descriptor q j y ↔ t.Descriptor q j y := by
      intro q j y
      rw [descriptor_setPCB]
      by_cases isP : q = p
      · simp [isP, empty j y]
      · simp [isP]
    have left : ∀ {q table}, (t.setPCB p Option.none).allPCB q = some table →
        t.allPCB q = some table := by
      intro q table entry
      by_cases isP : q = p
      · simp [OpenFiles.setPCB, isP] at entry
      · simpa [OpenFiles.setPCB, isP] using entry
    exact .of_iff ⟨closing.bound.sized.sofMgr, fun entry => closing.bound.sized.pid (left entry),
      fun entry => closing.bound.sized.table (left entry)⟩ rfl after
  refine ⟨⟨same.bound closing.bound, ?_, ?_, closing.files⟩, ?_⟩
  · rw [same.counts closing.bound.sized]
    exact closing.balanced
  · intro q j y other
    rw [descriptor_setPCB, ← closing.others other]
    simp [other]
  · intro j y descriptor
    simpa using descriptor_setPCB.mp descriptor

theorem create_same (sized : Sized s) {junk : Nat → BitVec 32} (isPid : p < pidMapSize)
    (free : s.allPCB p = none) : SameBindings s (s.setPCB p (some (.empty pofMaxNum junk))) := by
  refine .of_iff (sized.setPCB isPid (BitMap.new_numBits _ _)) rfl fun {q j y} => ?_
  rw [descriptor_setPCB]
  by_cases isP : q = p
  · simp [isP, Slots.not_has_empty, Descriptor, free]
  · simp [isP]

theorem offset_same (sized : Sized s) {offset : BitVec 32} (files : Files)
    (entry : s.allPCB p = some table) (has : table.Has i pof) :
    SameBindings s { s.setPCB p (some (table.update i { pof with offset := offset })) with
      files := files } := by
  have resized : Sized (s.setPCB p (some (table.update i { pof with offset := offset }))) :=
    sized.setPCB (sized.pid entry) ((congrArg BitMap.numBits Slots.update_map).trans
      (sized.table entry))
  refine ⟨⟨resized.sofMgr, resized.pid, resized.table⟩, rfl, ?_, ?_⟩
  · rintro q j y ⟨table', entry', has'⟩
    by_cases isP : q = p
    · subst isP
      cases entry.symm.trans entry'
      by_cases isI : j = i
      · subst isI
        obtain rfl := has.unique has'
        exact ⟨_, descriptor_setPCB.mpr (Or.inl ⟨rfl, _, rfl,
          (Slots.has_update has).mpr (Or.inl ⟨rfl, rfl⟩)⟩), rfl, rfl⟩
      · exact ⟨y, descriptor_setPCB.mpr (Or.inl ⟨rfl, _, rfl,
          (Slots.has_update has).mpr (Or.inr ⟨isI, has'⟩)⟩), rfl, rfl⟩
    · exact ⟨y, descriptor_setPCB.mpr (Or.inr ⟨isP, table', entry', has'⟩), rfl, rfl⟩
  · intro q j y descriptor
    obtain ⟨rfl, left, isLeft, hasLeft⟩ | ⟨isOther, was⟩ := descriptor_setPCB.mp descriptor
    · cases isLeft
      obtain ⟨rfl, rfl⟩ | ⟨-, hasOld⟩ := (Slots.has_update has).mp hasLeft
      · exact ⟨pof, ⟨table, entry, has⟩, rfl, rfl⟩
      · exact ⟨y, ⟨table, entry, hasOld⟩, rfl, rfl⟩
    · exact ⟨y, was, rfl, rfl⟩

/-- `CreatePOF` and `IncSOFCounter`, once the entry of the file is known. -/
theorem opened_of_openDescriptor {sofMgr : Slots SOF} {filename behind : String} {sof : SOF}
    (bound : Bound s) (entry : s.allPCB p = some table) (size : sofMgr.map.numBits = sofMaxNum)
    (here : sofMgr.Has k sof) (others : ∀ {j y}, j ≠ k → (sofMgr.Has j y ↔ s.sofMgr.Has j y))
    (named : sof.filename = filename) (file : sof.openFile = .path filename)
    (counter : sof.counter.toNat = s.counts.count k) (small : sof.counter.toNat + 1 < 2 ^ 32)
    (only : ∀ {j y}, s.sofMgr.Has j y → (y.filename = filename ↔ j = k))
    (run : { s with sofMgr := sofMgr }.openDescriptor p filename behind k (-1) = .ok (id, s')) :
    (id = -1 ∧ s' = { s with sofMgr := sofMgr } ∧ table.map.numClear = 0) ∨
      ∃ i : Nat, id = i + 2 ∧ Opened p i k filename s s' := by
  have found : { s with sofMgr := sofMgr }.pcb p = .ok table := by simp [OpenFiles.pcb, entry]
  simp only [openDescriptor, if_true, found, createPOF, ok_bind] at run
  obtain full | ⟨i, below, isClear, created⟩ := Slots.create_cases ⟨filename, behind, k, 0#32⟩ table
  · left
    simp only [full, if_true, pure_eq] at run
    cases run
    refine ⟨rfl, rfl, ?_⟩
    by_contra notFull
    obtain ⟨j, -, -, -, isFound⟩ := BitMap.find_of_numClear notFull
    have notNone : ¬ ((j : Int) = -1) := by omega
    simp [Slots.create, isFound, notNone] at full
  · right
    have notNone : ¬ ((i : Int) = -1) := by omega
    simp only [created, if_neg notNone, incSOFCounter, OpenFiles.setPCB, here.get, ok_bind,
      pure_eq, Int.toNat_natCast] at run
    cases run
    have resized : Sized (s.setPCB p (some (table.add i ⟨filename, behind, k, 0#32⟩))) :=
      bound.sized.setPCB (bound.sized.pid entry)
        (Slots.add_numBits.trans (bound.sized.table entry))
    refine ⟨i, rfl, ⟨size, resized.pid, resized.table⟩,
      ⟨{ sof with counter := sof.counter + 1#32 }, named, file, ?_, ?_, ?_⟩, only, ?_, ?_, ?_, rfl⟩
    · rw [toNat_succ small, counter]
    · exact (Slots.has_update here).mpr (Or.inl ⟨rfl, rfl⟩)
    · intro j y other
      rw [← others other]
      simp [Slots.has_update here, other]
    · rintro y ⟨table', entry', has⟩
      cases entry.symm.trans entry'
      rw [has.2.1] at isClear
      cases isClear
    · exact ⟨⟨filename, behind, k, 0#32⟩, rfl, rfl, descriptor_setPCB.mpr
        (Or.inl ⟨rfl, _, rfl, Slots.has_add.mpr (Or.inl ⟨rfl, rfl, below⟩)⟩)⟩
    · intro q j y other
      exact descriptor_other entry (fun otherSlot => by simp [Slots.has_add, otherSlot]) other

/-- `Open` of a file that the process has not open yet fails without an effect, or adds a
descriptor; of one that it has open, it only raises the counter. -/
theorem openSystemcall_cases {filename behind : String} (bound : Bound s) (small : ∀ {k sof}, s.sofMgr.Has
      k sof → sof.filename = filename → sof.counter.toNat + 1 < 2 ^ 32)
    (run : s.openSystemcall p filename behind = .ok (id, s')) :
    ∃ table, s.allPCB p = some table ∧
      ((findPOFByName filename table = -1 ∧
          ((id = -1 ∧ s' = s) ∨ ∃ i k : Nat, id = i + 2 ∧ Opened p i k filename s s')) ∨
        ∃ (i : Nat) (pof : POF) (k : Nat), findPOFByName filename table = i ∧ id = i + 2 ∧
          table.Has i pof ∧ pof.cString = filename ∧ Reopened k s s') := by
  obtain ⟨table, found, run⟩ := bind_eq_ok.mp run
  have entry := pcb_eq_ok found
  refine ⟨table, entry, ?_⟩
  obtain ⟨k, sof, inUse, named, sought⟩ | ⟨sought, unnamed⟩ :=
    Slots.findByName_cases SOF.filename filename s.sofMgr
  · -- the file is in the system
    have notNone : ¬ ((k : Int) = -1) := by omega
    have small := small inUse named
    simp only [findSOFByName, sought, if_neg notNone] at run
    obtain ⟨i, pof, has, pofNamed, isOpen⟩ | ⟨notOpen, -⟩ :=
      Slots.findByName_cases POF.cString filename table
    · right
      have isDescriptor : ¬ ((i : Int) = -1) := by omega
      simp only [findPOFByName, isOpen, openDescriptor, if_neg isDescriptor, incSOFCounter, inUse.get,
        ok_bind, pure_eq, Int.toNat_natCast] at run
      cases run
      exact ⟨i, pof, k, isOpen, rfl, has, pofNamed, sof, inUse, small, rfl⟩
    · left
      refine ⟨notOpen, ?_⟩
      simp only [findPOFByName, notOpen] at run
      obtain ⟨failed, same, -⟩ | ⟨i, isId, opened⟩ := opened_of_openDescriptor bound entry
        bound.sized.sofMgr inUse (fun _ => Iff.rfl) named (named ▸ bound.opened inUse)
        (count_of_has inUse).symm small (named ▸ bound.only inUse) run
      · exact Or.inl ⟨failed, same⟩
      · exact Or.inr ⟨i, k, isId, opened⟩
  · -- the file is new to the system, and the assertion holds
    left
    simp only [findSOFByName, sought, if_true] at run
    obtain ⟨_, asserted, run⟩ := bind_eq_ok.mp run
    have notOpen : findPOFByName filename table = -1 := by simpa [assert_eq_ok] using asserted
    refine ⟨notOpen, ?_⟩
    simp only [notOpen] at run
    split at run
    next full =>
      left
      cases run
      exact ⟨rfl, rfl⟩
    next room =>
      push Not at room
      obtain ⟨freePOF, freeSOF⟩ := room
      cases isFile : s.files (.path filename) with
      | none =>
        left
        simp only [createSOF, isFile, if_true] at run
        cases run
        exact ⟨rfl, rfl⟩
      | some file =>
        obtain ⟨k, below, isClear, -, isFound⟩ := BitMap.find_of_numClear freeSOF
        have notNone : ¬ ((k : Int) = -1) := by omega
        simp only [createSOF, isFile, Slots.create, isFound, if_neg notNone, Int.toNat_natCast]
          at run
        have free : ∀ sof, ¬ s.sofMgr.Has k sof := by
          intro sof inUse
          rw [inUse.2.1] at isClear
          cases isClear
        have here : (s.sofMgr.add k ⟨filename, .path filename, 0#32⟩).Has k
            ⟨filename, .path filename, 0#32⟩ := Slots.has_add.mpr (Or.inl ⟨rfl, rfl, below⟩)
        obtain ⟨-, -, isFull⟩ | ⟨i, isId, opened⟩ := opened_of_openDescriptor bound entry
          (Slots.add_numBits.trans bound.sized.sofMgr) here (fun other => by simp [Slots.has_add, other]) rfl rfl
          (count_of_free free).symm (by simp)
          (fun has => ⟨fun same => absurd same (unnamed _ _ has), fun isK => absurd has (isK ▸ free _)⟩)
          run
        · exact absurd isFull freePOF
        · exact Or.inr ⟨i, k, isId, opened⟩

theorem fileCall_cases {α : Type} {closed result : α} {body : Slots POF → Except Fault α}
    (run : (if id < 2 then pure closed else do
      let table ← s.pcb p
      if ← table.map.test (id - 2) then body table else pure closed) = .ok result) :
    (result = closed ∧ ¬ s.IsOpen p id) ∨ ∃ (i : Nat) (table : Slots POF) (pof : POF),
      id = i + 2 ∧ s.allPCB p = some table ∧ table.Has i pof ∧ body table = .ok result := by
  split at run
  next isConsole =>
    cases run
    refine Or.inl ⟨rfl, ?_⟩
    rintro ⟨table, -, inside, -⟩
    obtain ⟨i, isIndex, -⟩ := Slots.inRange_iff.mp inside
    omega
  next notConsole =>
    obtain ⟨table, found, run⟩ := bind_eq_ok.mp run
    have entry := pcb_eq_ok found
    obtain ⟨isSet, tested, run⟩ := bind_eq_ok.mp run
    obtain ⟨inside, isBit⟩ := BitMap.test_eq_ok.mp tested
    cases isSet with
    | false =>
      cases run
      refine Or.inl ⟨rfl, ?_⟩
      rintro ⟨table', entry', -, isSet⟩
      cases entry.symm.trans entry'
      rw [isSet] at isBit
      cases isBit
    | true =>
      obtain ⟨i, isIndex, below⟩ := Slots.inRange_iff.mp inside
      rw [isIndex] at isBit
      obtain ⟨pof, has⟩ := Slots.has_of_bit below isBit.symm
      exact Or.inr ⟨i, table, pof, by omega, entry, has, run⟩

theorem sofFile_eq_ok {index : Int} {name : FileName} {file : File}
    (reached : s.sofFile index = .ok (name, file)) :
    ∃ sof, s.sofMgr.get index = .ok sof ∧ name = sof.openFile ∧ s.files sof.openFile = some file := by
  obtain ⟨sof, isSOF, reached⟩ := bind_eq_ok.mp reached
  split at reached
  next content isFile =>
    cases reached
    exact ⟨sof, isSOF, rfl, isFile⟩
  next => cases reached

theorem setPOFoffset_has (has : table.Has i pof) (offset : BitVec 32) :
    setPOFoffset i offset table = .ok (table.update i { pof with offset := offset }) := by
  simp only [OpenFiles.setPOFoffset, has.get, ok_bind, pure_eq, Int.toNat_natCast]

theorem writeSystemcall_cases {buffer : Nat → Byte} {size : BitVec 32} (sized : Sized s)
    (run : s.writeSystemcall p id buffer size = .ok s') :
    (s' = s ∧ ¬ s.IsOpen p id) ∨ ∃ (i : Nat) (table : Slots POF) (pof : POF) (sof : SOF)
    (file file' : File),
      id = i + 2 ∧ s.allPCB p = some table ∧ table.Has i pof ∧
      s.sofMgr.get pof.sofIndex = .ok sof ∧ s.files sof.openFile = some file ∧
      file.writeAt buffer size.toInt pof.offset.toInt = .ok file' ∧
      s'.files = s.files.set sof.openFile file' ∧ SameBindings s s' := by
  obtain closed | ⟨i, table, pof, isId, entry, has, run⟩ := fileCall_cases run
  · exact Or.inl closed
  · have index : id - 2 = i := by omega
    simp only [index, has.get, ok_bind, setPOFoffset_has has] at run
    obtain ⟨⟨name, file⟩, reached, run⟩ := bind_eq_ok.mp run
    obtain ⟨sof, isSOF, rfl, isFile⟩ := sofFile_eq_ok reached
    obtain ⟨file', written, run⟩ := bind_eq_ok.mp run
    cases run
    exact Or.inr ⟨i, table, pof, sof, file, file', isId, entry, has, isSOF, isFile, written, rfl,
      offset_same sized _ entry has⟩

theorem readSystemcall_cases {buffer : Nat → Byte} {size : BitVec 32}
    {result : Option ((Nat → Byte) × Int)} (sized : Sized s)
    (run : s.readSystemcall p id buffer size = .ok (result, s')) :
    (s' = s ∧ result = none ∧ ¬ s.IsOpen p id) ∨
      ∃ (i : Nat) (table : Slots POF) (pof : POF) (sof : SOF) (file : File) (out : (Nat → Byte) × Int),
      id = i + 2 ∧ s.allPCB p = some table ∧ table.Has i pof ∧
      s.sofMgr.get pof.sofIndex = .ok sof ∧ s.files sof.openFile = some file ∧
      file.readAt buffer size.toInt pof.offset.toInt = .ok out ∧ result = some out ∧
      SameBindings s s' := by
  obtain ⟨same, notOpen⟩ | ⟨i, table, pof, isId, entry, has, run⟩ := fileCall_cases run
  · cases same
    exact Or.inl ⟨rfl, rfl, notOpen⟩
  · have index : id - 2 = i := by omega
    simp only [index, has.get, ok_bind, setPOFoffset_has has] at run
    obtain ⟨⟨name, file⟩, reached, run⟩ := bind_eq_ok.mp run
    obtain ⟨sof, isSOF, rfl, isFile⟩ := sofFile_eq_ok reached
    obtain ⟨⟨into, numRead⟩, isRead, run⟩ := bind_eq_ok.mp run
    cases run
    exact Or.inr ⟨i, table, pof, sof, file, (into, numRead), isId, entry, has, isSOF, isFile, isRead,
      rfl, offset_same sized s.files entry has⟩

end Routines

end OpenFiles

/-! ## Every call -/

/-- The call is an `Open` of a name that `FindPOFByName` finds among the descriptors of the process. -/
def FileCall.Reopens (s : OpenFiles) : FileCall → Prop
  | .openFile current filename _ _ => ∃ table, s.allPCB current = some table ∧
      OpenFiles.findPOFByName filename table ≠ -1
  | _ => False

/-- The counter that the call may raise is not at its greatest value. -/
def FileCall.NoWrap (s : OpenFiles) : FileCall → Prop
  | .openFile _ filename _ _ => ∀ {k sof}, s.sofMgr.Has k sof → sof.filename = filename →
      sof.counter.toNat + 1 < 2 ^ 32
  | _ => True

/-- Every call keeps the descriptors bound and counts the users it adds and releases, except
an `Open` that finds a descriptor. -/
theorem FileStep.effect {s s' : OpenFiles} {call : FileCall} (bound : s.Bound)
    (noWrap : call.NoWrap s) (step : FileStep s call s') :
    s'.Bound ∧ ((¬ call.Reopens s ∧ Balanced s.counts s'.counts) ∨
      (call.Reopens s ∧ ∃ k, s'.counts = leak s.counts k)) := by
  have plain (same : s.SameBindings s') (opensNone : ¬ call.Reopens s) : s'.Bound ∧
      ((¬ call.Reopens s ∧ Balanced s.counts s'.counts) ∨
        (call.Reopens s ∧ ∃ k, s'.counts = leak s.counts k)) :=
    ⟨same.bound bound, Or.inl ⟨opensNone, by rw [same.counts bound.sized]; exact .same⟩⟩
  -- all calls but `Open` are none of a file that is open already
  cases step with
  | create isPid free least => exact plain (OpenFiles.create_same bound.sized isPid free) id
  | @openFile _ current filename behind descriptor run =>
    obtain ⟨table, entry, ⟨notOpen, done⟩ | reopened⟩ :=
      OpenFiles.openSystemcall_cases bound noWrap run
    · have opensNone : ¬ (FileCall.openFile current filename behind descriptor).Reopens s := by
        rintro ⟨table', entry', isOpen⟩
        cases entry.symm.trans entry'
        exact isOpen notOpen
      obtain ⟨-, rfl⟩ | ⟨i, k, -, opened⟩ := done
      · exact ⟨bound, Or.inl ⟨opensNone, .same⟩⟩
      · refine ⟨opened.bound bound, Or.inl ⟨opensNone, ?_⟩⟩
        rw [opened.counts bound]
        exact Balanced.same.share (opened.notUser bound k)
    · obtain ⟨i, pof, k, isOpen, -, -, -, reopened⟩ := reopened
      refine ⟨reopened.bound bound, Or.inr ⟨⟨table, entry, ?_⟩, k, reopened.counts⟩⟩
      rw [isOpen]
      omega
  | close isOpen run =>
    obtain ⟨i, k, -, closed⟩ := OpenFiles.closeSystemcall_closed bound isOpen run
    exact ⟨closed.bound bound, Or.inl ⟨id, closed.balanced bound⟩⟩
  | write run =>
    obtain ⟨rfl, -⟩ | ⟨_, _, _, _, _, _, -, -, -, -, -, -, -, same⟩ :=
      OpenFiles.writeSystemcall_cases bound.sized run
    · exact ⟨bound, Or.inl ⟨id, .same⟩⟩
    · exact plain same id
  | read run =>
    obtain ⟨rfl, -⟩ | ⟨_, _, _, _, _, _, -, -, -, -, -, -, -, same⟩ :=
      OpenFiles.readSystemcall_cases bound.sized run
    · exact ⟨bound, Or.inl ⟨id, .same⟩⟩
    · exact plain same id
  | exit _ run | kill _ _ run =>
    obtain ⟨closing, -⟩ := OpenFiles.deletePCB_closing bound run
    exact ⟨closing.bound, Or.inl ⟨id, closing.balanced⟩⟩

theorem OpenFiles.boot_bound (files : Files) (junk : Nat → BitVec 32) : (boot files junk).Bound := by
  have free : ∀ {k sof}, ¬ (boot files junk).sofMgr.Has k sof := Slots.not_has_empty
  have none : ∀ {p i pof}, ¬ (boot files junk).Descriptor p i pof := by
    rintro p i pof ⟨table, entry, -⟩
    cases entry
  have sized : Sized (boot files junk) := ⟨BitMap.new_numBits _ _, by rintro _ _ ⟨⟩, by rintro _ _ ⟨⟩⟩
  refine ⟨sized, fun d => absurd d none, fun h => absurd h free, fun h => absurd h free,
    fun h => absurd h free, ?_⟩
  intro k
  have empty : (boot files junk).users k = ∅ := by
    rw [Finset.eq_empty_iff_forall_notMem]
    rintro ⟨p, i⟩ user
    obtain ⟨pof, descriptor, -⟩ := (mem_users sized).mp user
    exact none descriptor
  show ((boot files junk).users k).card ≤ _
  simp [empty]

end Nachos
