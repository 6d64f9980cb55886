import Mathlib.Data.Finset.Card
import Mathlib.Data.Finset.Range
import Nachos.Threads.Utility

/-!
# Bitmaps

`bitmap.cc`: an array of 32-bit words, bit `i` being bit `i % 32` of word
`i / 32`.  The routines are modelled on the words; the lemmas below describe them
through `bit`, so that no later proof looks at a word.
-/

namespace Nachos

open Loops

def bitsInWord : Nat := 32

structure BitMap where
  numBits : Nat
  map : Nat → BitVec 32

variable {b b' : BitMap} {i : Nat} {which : Int}

namespace BitMap

def mask (which : Nat) : BitVec 32 := 1#32 <<< (which % bitsInWord)

def bit (b : BitMap) (which : Nat) : Bool :=
  (b.map (which / bitsInWord) &&& mask which) != 0#32

def setWord (b : BitMap) (index : Nat) (word : BitVec 32) : BitMap :=
  { b with map := fun i => if i = index then word else b.map i }

def markBit (b : BitMap) (which : Nat) : BitMap :=
  b.setWord (which / bitsInWord) (b.map (which / bitsInWord) ||| mask which)

def clearBit (b : BitMap) (which : Nat) : BitMap :=
  b.setWord (which / bitsInWord) (b.map (which / bitsInWord) &&& ~~~ mask which)

def inRange (b : BitMap) (which : Int) : Bool := decide (0 ≤ which ∧ which < b.numBits)

def mark (b : BitMap) (which : Int) : Except Fault BitMap := do
  assert (b.inRange which)
  return b.markBit which.toNat

def clear (b : BitMap) (which : Int) : Except Fault BitMap := do
  assert (b.inRange which)
  return b.clearBit which.toNat

def test (b : BitMap) (which : Int) : Except Fault Bool := do
  assert (b.inRange which)
  return b.bit which.toNat

def find (b : BitMap) : Int × BitMap :=
  let i := firstIndex (fun i => !b.bit i) b.numBits
  if i < b.numBits then (i, b.markBit i) else (-1, b)

def numClear (b : BitMap) : Nat :=
  forUpTo (fun i count => if b.bit i then count else count + 1) b.numBits 0

def new (nitems : Nat) (junk : Nat → BitVec 32) : BitMap :=
  forUpTo (fun i b => b.clearBit i) nitems ⟨nitems, junk⟩

/-! ## Single bits -/

theorem mask_getLsbD (which k : Nat) :
    (mask which).getLsbD k = decide (k = which % bitsInWord) := by
  have small : which % bitsInWord < 32 := Nat.mod_lt _ (by decide)
  unfold mask
  rw [BitVec.getLsbD_shiftLeft, BitVec.getLsbD_one]
  by_cases same : k = which % bitsInWord
  · simp [same, small]
  · simp only [same, decide_false]
    grind

theorem bit_eq_getLsbD (b : BitMap) (which : Nat) :
    b.bit which = (b.map (which / bitsInWord)).getLsbD (which % bitsInWord) := by
  generalize word : b.map (which / bitsInWord) = w
  unfold bit
  rw [word]
  cases here : w.getLsbD (which % bitsInWord) with
  | true =>
    have nonzero : w &&& mask which ≠ 0#32 := by
      intro zero
      have at_bit := congrArg (fun x => x.getLsbD (which % bitsInWord)) zero
      simp [mask_getLsbD, here] at at_bit
    simpa using nonzero
  | false =>
    have zero : w &&& mask which = 0#32 := by
      apply BitVec.eq_of_getLsbD_eq
      intro k _
      rw [BitVec.getLsbD_and, mask_getLsbD]
      by_cases same : k = which % bitsInWord
      · simp [same, here]
      · simp [same]
    simp [zero]

theorem mod_eq_iff {i j : Nat} (word : i / bitsInWord = j / bitsInWord) :
    i % bitsInWord = j % bitsInWord ↔ i = j := by
  refine ⟨fun position => ?_, fun same => by rw [same]⟩
  rw [← Nat.div_add_mod i bitsInWord, ← Nat.div_add_mod j bitsInWord, word, position]

@[simp] theorem markBit_numBits (b : BitMap) (i : Nat) : (b.markBit i).numBits = b.numBits := rfl

@[simp] theorem clearBit_numBits (b : BitMap) (i : Nat) : (b.clearBit i).numBits = b.numBits := rfl

@[simp] theorem bit_markBit (b : BitMap) (i j : Nat) :
    (b.markBit i).bit j = (decide (j = i) || b.bit j) := by
  rw [bit_eq_getLsbD, bit_eq_getLsbD]
  simp only [markBit, setWord]
  by_cases word : j / bitsInWord = i / bitsInWord
  · rw [if_pos word, word, BitVec.getLsbD_or, mask_getLsbD, Bool.or_comm]
    simp only [mod_eq_iff word]
  · have different : j ≠ i := by
      rintro rfl
      exact word rfl
    simp [word, different]

@[simp] theorem bit_clearBit (b : BitMap) (i j : Nat) :
    (b.clearBit i).bit j = (!decide (j = i) && b.bit j) := by
  have small : j % bitsInWord < 32 := Nat.mod_lt _ (by decide)
  rw [bit_eq_getLsbD, bit_eq_getLsbD]
  simp only [clearBit, setWord]
  by_cases word : j / bitsInWord = i / bitsInWord
  · rw [if_pos word, word, BitVec.getLsbD_and, BitVec.getLsbD_not, mask_getLsbD, Bool.and_comm]
    simp [mod_eq_iff word, small]
  · have different : j ≠ i := by
      rintro rfl
      exact word rfl
    simp [word, different]

/-! ## The routines, bit by bit -/

theorem inRange_ofNat (bound : i < b.numBits) : b.inRange i = true := by
  simp [inRange, bound]

theorem mark_ok (bound : i < b.numBits) : b.mark i = .ok (b.markBit i) := by
  simp [mark, inRange_ofNat bound, assert, ok_bind, pure_eq]

theorem clear_eq_ok :
    b.clear which = .ok b' ↔ b.inRange which = true ∧ b' = b.clearBit which.toNat := by
  unfold clear
  rw [bind_eq_ok]
  constructor
  · rintro ⟨_, inside, result⟩
    cases result
    exact ⟨assert_eq_ok.mp inside, rfl⟩
  · rintro ⟨inside, rfl⟩
    exact ⟨(), assert_eq_ok.mpr inside, rfl⟩

theorem test_eq_ok {answer : Bool} :
    b.test which = .ok answer ↔ b.inRange which = true ∧ answer = b.bit which.toNat := by
  unfold test
  rw [bind_eq_ok]
  constructor
  · rintro ⟨_, inside, result⟩
    cases result
    exact ⟨assert_eq_ok.mp inside, rfl⟩
  · rintro ⟨inside, rfl⟩
    exact ⟨(), assert_eq_ok.mpr inside, rfl⟩

theorem find_of_clear (bound : i < b.numBits) (clear : b.bit i = false) :
    ∃ j, j < b.numBits ∧ b.bit j = false ∧ (∀ k < j, b.bit k = true) ∧
      b.find = ((j : Int), b.markBit j) := by
  have found : firstIndex (fun i => !b.bit i) b.numBits < b.numBits :=
    firstIndex_lt bound (by simpa using clear)
  refine ⟨_, found, by simpa using firstIndex_spec found, ?_, by simp only [find, if_pos found]⟩
  intro k before
  simpa using not_of_lt_firstIndex before

theorem find_of_full (full : ∀ i < b.numBits, b.bit i = true) :
    b.find = (-1, b) := by
  have missed : ¬ firstIndex (fun i => !b.bit i) b.numBits < b.numBits := by
    intro found
    have clear := firstIndex_spec found
    simp [full _ found] at clear
  simp only [find, if_neg missed]

/-! ## The set of the bits -/

def contents (b : BitMap) : Finset Nat := {i ∈ Finset.range b.numBits | b.bit i = true}

@[simp] theorem mem_contents : i ∈ b.contents ↔ i < b.numBits ∧ b.bit i = true := by
  simp [contents]

theorem contents_markBit (bound : i < b.numBits) : (b.markBit i).contents = insert i b.contents := by
  ext j
  simp only [mem_contents, markBit_numBits, bit_markBit, Bool.or_eq_true, decide_eq_true_eq,
    Finset.mem_insert]
  constructor
  · exact fun inside => inside.2.imp_right fun set => ⟨inside.1, set⟩
  · rintro (rfl | set)
    · exact ⟨bound, .inl rfl⟩
    · exact ⟨set.1, .inr set.2⟩

theorem contents_clearBit : (b.clearBit i).contents = b.contents.erase i := by
  ext j
  simp only [mem_contents, clearBit_numBits, bit_clearBit, Bool.and_eq_true, Bool.not_eq_true',
    decide_eq_false_iff_not, Finset.mem_erase]
  exact and_left_comm

theorem numClear_add_card (b : BitMap) : b.numClear + b.contents.card = b.numBits :=
  forUpTo_invariant (n := b.numBits) (s := 0)
    (fun i count => if b.bit i then count else count + 1)
    (fun n count => count + {i ∈ Finset.range n | b.bit i = true}.card = n) rfl (by
      intro n _ count ih
      rw [Finset.range_add_one, Finset.filter_insert]
      cases b.bit n with
      | true =>
        rw [if_pos rfl, if_pos rfl, Finset.card_insert_of_notMem (by simp)]
        omega
      | false =>
        rw [if_neg (by simp), if_neg (by simp)]
        omega)

theorem numClear_eq_zero (b : BitMap) : b.numClear = 0 ↔ ∀ i < b.numBits, b.bit i = true := by
  have counted := numClear_add_card b
  have full : b.contents.card = b.numBits ↔ ∀ i ∈ Finset.range b.numBits, b.bit i = true := by
    rw [← Finset.card_filter_eq_iff, Finset.card_range, contents]
  simp only [Finset.mem_range] at full
  rw [← full]
  omega

theorem find_of_numClear (notFull : ¬ b.numClear = 0) :
    ∃ j, j < b.numBits ∧ b.bit j = false ∧ (∀ k < j, b.bit k = true) ∧
      b.find = ((j : Int), b.markBit j) := by
  rw [numClear_eq_zero] at notFull
  push Not at notFull
  obtain ⟨i, bound, isClear⟩ := notFull
  exact find_of_clear bound (by simpa using isClear)

theorem numClear_congr (size : b'.numBits = b.numBits)
    (same : ∀ i < b.numBits, b'.bit i = b.bit i) : b'.numClear = b.numClear := by
  have sets : b'.contents = b.contents := by
    ext i
    simp only [mem_contents, size]
    exact and_congr_right fun bound => by rw [same i bound]
  have counted := numClear_add_card b
  have counted' := numClear_add_card b'
  rw [sets] at counted'
  omega

theorem numClear_markBit (bound : i < b.numBits) (clear : b.bit i = false) :
    (b.markBit i).numClear + 1 = b.numClear := by
  have counted := numClear_add_card b
  have counted' := numClear_add_card (b.markBit i)
  rw [contents_markBit bound, Finset.card_insert_of_notMem (by simp [clear])] at counted'
  simp only [markBit_numBits] at counted'
  omega

theorem new_numBits (nitems : Nat) (junk : Nat → BitVec 32) : (new nitems junk).numBits = nitems :=
  forUpTo_invariant (fun i (b : BitMap) => b.clearBit i)
    (fun _ b => b.numBits = nitems) rfl fun _ _ _ kept => kept

theorem new_bit {nitems i : Nat} (junk : Nat → BitVec 32) (bound : i < nitems) :
    (new nitems junk).bit i = false := by
  have cleared := forUpTo_invariant (n := nitems) (s := ⟨nitems, junk⟩)
    (fun i (b : BitMap) => b.clearBit i)
    (fun n b => ∀ j < n, b.bit j = false) (by simp) (by
      intro n _ b ih j below
      rw [bit_clearBit]
      by_cases last : j = n
      · simp [last]
      · simp [ih j (by omega)])
  exact cleared i bound

theorem contents_new (nitems : Nat) (junk : Nat → BitVec 32) : (new nitems junk).contents = ∅ := by
  ext i
  simp only [mem_contents, new_numBits, Finset.notMem_empty, iff_false]
  rintro ⟨bound, set⟩
  simp [new_bit junk bound] at set

theorem numClear_new (nitems : Nat) (junk : Nat → BitVec 32) :
    (new nitems junk).numClear = nitems := by
  have counted := numClear_add_card (new nitems junk)
  rwa [contents_new, Finset.card_empty, new_numBits] at counted

/-! ## Marked bits -/

def Marked (b : BitMap) (which : Int) : Prop := b.inRange which = true ∧ b.bit which.toNat = true

theorem inRange_iff :
    b.inRange which = true ↔ 0 ≤ which ∧ which < b.numBits := by
  simp [inRange]

theorem marked_congr (size : b'.numBits = b.numBits) (same : ∀ i < b.numBits, b'.bit i = b.bit i)
    (which : Int) :
    b'.Marked which ↔ b.Marked which := by
  unfold Marked
  simp only [inRange_iff, size]
  constructor
  · rintro ⟨inside, set⟩
    exact ⟨inside, by rwa [same _ (by omega)] at set⟩
  · rintro ⟨inside, set⟩
    exact ⟨inside, by rwa [same _ (by omega)]⟩

theorem bit_congr_of_marked (bound : i < b.numBits) (same : b.Marked i ↔ b'.Marked i)
    (size : b'.numBits = b.numBits) : b'.bit i = b.bit i := by
  simp only [Marked, inRange_ofNat bound, inRange_ofNat (size ▸ bound), Int.toNat_natCast,
    true_and] at same
  exact Bool.eq_iff_iff.mpr same.symm

theorem marked_markBit (bound : i < b.numBits) (which : Int) :
    (b.markBit i).Marked which ↔ b.Marked which ∨ which = i := by
  unfold Marked
  simp only [inRange_iff, markBit_numBits, bit_markBit, Bool.or_eq_true, decide_eq_true_eq]
  constructor
  · rintro ⟨inside, either⟩
    cases either with
    | inl here => exact .inr (by omega)
    | inr set => exact .inl ⟨inside, set⟩
  · intro either
    cases either with
    | inl before => exact ⟨before.1, .inr before.2⟩
    | inr here => exact ⟨by omega, .inl (by omega)⟩

theorem marked_clearBit (inside : b.inRange which = true) (other : Int) :
    (b.clearBit which.toNat).Marked other ↔ b.Marked other ∧ other ≠ which := by
  rw [inRange_iff] at inside
  unfold Marked
  simp only [inRange_iff, clearBit_numBits, bit_clearBit, Bool.and_eq_true, Bool.not_eq_true',
    decide_eq_false_iff_not]
  constructor
  · rintro ⟨range, different, set⟩
    exact ⟨⟨range, set⟩, fun same => different (by rw [same])⟩
  · rintro ⟨⟨range, set⟩, different⟩
    exact ⟨range, fun same => different (by omega), set⟩

theorem find_lowest (found : b.find = (which, b')) {other : Int} (nonneg : 0 ≤ other)
    (before : other < which) : b.Marked other := by
  have first : other.toNat < firstIndex (fun i => !b.bit i) b.numBits ∧ other < b.numBits := by
    simp only [find] at found
    split at found
    next bound =>
      cases found
      omega
    next =>
      cases found
      omega
  exact ⟨inRange_iff.mpr ⟨nonneg, first.2⟩, by simpa using not_of_lt_firstIndex first.1⟩

theorem find_marked (free : 0 < b.numClear) :
    ∃ which b', b.find = (which, b') ∧ b'.numBits = b.numBits ∧ b'.numClear + 1 = b.numClear ∧
      b.inRange which = true ∧ ¬ b.Marked which ∧
      ∀ other, b'.Marked other ↔ b.Marked other ∨ other = which := by
  obtain ⟨i, bound, clear, _, found⟩ := find_of_numClear (b := b) (by omega)
  refine ⟨i, b.markBit i, found, rfl, numClear_markBit bound clear, inRange_ofNat bound, ?_,
    marked_markBit bound⟩
  intro marked
  simp [Marked, clear] at marked

end BitMap

end Nachos
