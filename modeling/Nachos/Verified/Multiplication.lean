import Nachos.Machine.Mipssim
import Nachos.Lib.DoubleWords

/-!
# The multiplication of the processor

`Mult` adds up, bit by bit of `a`, the multiples of `b`.  With some rounds to go it has still to add
the product of the shifted `b` and of as many low bits of the shifted `a`; the copies of the sign that
`>>` brings in are above those bits.
-/

namespace Nachos

open DoubleWords

/-! ## One round -/

theorem and_top_ne_zero (x : BitVec 32) : x &&& 0x80000000#32 ≠ 0 ↔ x.msb = true := by
  have top : 0x80000000#32 = BitVec.twoPow 32 31 := rfl
  rw [top, BitVec.and_twoPow, BitVec.msb_eq_getLsbD_last]
  cases x.getLsbD 31 with
  | false => simp
  | true => simp

theorem and_one_ne_zero (x : BitVec 32) : x &&& 1#32 ≠ 0 ↔ x.toNat % 2 = 1 := by
  rw [BitVec.toNat_eq.ne, BitVec.toNat_and]
  simp [Nat.and_one_is_mod]

/-- `a & 0xfffffffe` is zero when there is no bit above the lowest. -/
theorem rest_eq_zero {a : BitVec 32} (last : a &&& 0xfffffffe#32 = 0) : a.toNat / 2 = 0 := by
  have mask : 0xfffffffe#32 = ~~~1#32 := rfl
  apply Nat.eq_of_testBit_eq
  intro i
  have clear : (a &&& 0xfffffffe#32).getLsbD (i + 1) = false := by
    rw [last]
    exact BitVec.getLsbD_zero
  rw [Nat.testBit_div_two, Nat.zero_testBit, BitVec.testBit_toNat]
  by_cases inside : i + 1 < 32
  · rw [mask, BitVec.getLsbD_and, BitVec.getLsbD_not] at clear
    simpa [inside] using clear
  · exact BitVec.getLsbD_of_ge a (i + 1) (by omega)

/-- The sign that `>>` copies stays above the bits that the rounds to come look at. -/
theorem sshiftRight_one_mod (a : BitVec 32) {turns : Nat} (few : turns + 1 ≤ 32) :
    (a.sshiftRight 1).toNat % 2 ^ turns = a.toNat / 2 % 2 ^ turns := by
  apply Nat.eq_of_testBit_eq
  intro i
  rw [Nat.testBit_mod_two_pow, Nat.testBit_mod_two_pow]
  by_cases looked : i < turns
  · have inside : 1 + i < 32 := by omega
    have outside : ¬ 32 ≤ i := by omega
    rw [BitVec.testBit_toNat, BitVec.getLsbD_sshiftRight, if_pos inside, ← BitVec.testBit_toNat,
      Nat.testBit_div_two]
    simp [outside, Nat.add_comm]
  · simp [looked]

theorem low_bits_succ (a : BitVec 32) {turns : Nat} (few : turns + 1 ≤ 32) :
    a.toNat % 2 ^ (turns + 1) = a.toNat % 2 + 2 * ((a.sshiftRight 1).toNat % 2 ^ turns) := by
  rw [sshiftRight_one_mod a few, Nat.pow_succ', Nat.mod_mul]

/-! ## The loop -/

/-- The rounds to come: one for the lowest bit, the others for twice the operand. -/
theorem multiple_succ (x : BitVec (32 + 32)) (a : BitVec 32) {turns : Nat} (few : turns + 1 ≤ 32) :
    x * BitVec.ofNat (32 + 32) (a.toNat % 2 ^ (turns + 1)) =
      x * BitVec.ofNat (32 + 32) (a.toNat % 2) +
        (x + x) * BitVec.ofNat (32 + 32) ((a.sshiftRight 1).toNat % 2 ^ turns) := by
  have two : BitVec.ofNat (32 + 32) 2 = 1 + 1 := rfl
  rw [low_bits_succ a few, BitVec.ofNat_add, BitVec.ofNat_mul, two]
  ring

theorem multLoop_eq (turns : Nat) (a bHi bLo hi lo : BitVec 32) (few : turns ≤ 32) :
    (multLoop turns a bHi bLo hi lo).1 ++ (multLoop turns a bHi bLo hi lo).2 =
      (hi ++ lo) + (bHi ++ bLo) * BitVec.ofNat (32 + 32) (a.toNat % 2 ^ turns) := by
  induction turns generalizing a bHi bLo hi lo with
  | zero => simp [multLoop, Nat.mod_one]
  | succ turns next =>
    have shifted := append_double (by decide) bHi bLo
    simp only [← and_top_ne_zero] at shifted
    rw [multiple_succ (bHi ++ bLo) a few]
    simp only [multLoop]
    by_cases odd : a &&& 1#32 ≠ 0
    · have one := (and_one_ne_zero a).mp odd
      rw [if_pos odd, one, BitVec.mul_one, ← BitVec.add_assoc, append_add]
      by_cases last : a &&& 0xfffffffe#32 = 0
      · -- the early exit: the bits that are left are all zero
        rw [if_pos last, sshiftRight_one_mod a few, rest_eq_zero last, Nat.zero_mod,
          BitVec.mul_zero, BitVec.add_zero]
      · rw [if_neg last, next _ _ _ _ _ (by omega), ← shifted]
    · have zero : a.toNat % 2 = 0 := by
        have even := (and_one_ne_zero a).not.mp odd
        omega
      rw [if_neg odd, next _ _ _ _ _ (by omega), ← shifted, zero, BitVec.mul_zero, BitVec.zero_add]

theorem multLoop_product (a b : BitVec 32) :
    (multLoop 32 a 0 b 0 0).1 ++ (multLoop 32 a 0 b 0 0).2 =
      BitVec.ofNat (32 + 32) (a.toNat * b.toNat) := by
  have wide : (0#32 ++ b) = BitVec.ofNat (32 + 32) b.toNat := by
    rw [append_eq_ofNat]
    simp
  have start : (0#32 ++ 0#32) = 0#(32 + 32) := rfl
  rw [show (0 : BitVec 32) = 0#32 from rfl, multLoop_eq 32 a 0#32 b 0#32 0#32 (le_refl 32), start,
    wide, BitVec.zero_add, Nat.mod_eq_of_lt a.isLt, ← BitVec.ofNat_mul, Nat.mul_comm]

/-! ## The product -/

theorem slt_zero_iff (a : BitVec 32) : a.slt 0 = true ↔ a.toInt < 0 := by
  rw [BitVec.slt_eq_decide, decide_eq_true_iff]
  rfl

/-- `-a` of a negative `a`, modulo `2 ^ 32`: the absolute value, also of the least integer. -/
theorem magnitude_toNat (a : BitVec 32) :
    (if a.slt 0 then -a else a).toNat = a.toInt.natAbs := by
  have value := BitVec.toInt_eq_toNat_cond a
  by_cases negative : a.slt 0 = true
  · have below := (slt_zero_iff a).mp negative
    rw [if_pos negative, BitVec.toNat_neg]
    split at value <;> omega
  · have above := (slt_zero_iff a).not.mp negative
    rw [if_neg negative]
    split at value <;> omega

theorem toInt_eq_magnitude (a : BitVec 32) :
    a.toInt = if a.slt 0 then -(a.toInt.natAbs : Int) else (a.toInt.natAbs : Int) := by
  by_cases negative : a.slt 0 = true
  · have below := (slt_zero_iff a).mp negative
    rw [if_pos negative]
    omega
  · have above := (slt_zero_iff a).not.mp negative
    rw [if_neg negative]
    omega

/-- The product of two integers is negative when one of them is. -/
theorem toInt_product (a b : BitVec 32) :
    a.toInt * b.toInt =
      if a.slt 0 != b.slt 0 then -((a.toInt.natAbs * b.toInt.natAbs : Nat) : Int)
      else ((a.toInt.natAbs * b.toInt.natAbs : Nat) : Int) := by
  rw [toInt_eq_magnitude a, toInt_eq_magnitude b, Nat.cast_mul]
  cases a.slt 0 <;> cases b.slt 0 <;> simp

theorem negated_words (hi lo : BitVec 32) :
    (if ~~~lo + 1 = 0 then ~~~hi + 1 else ~~~hi) ++ (~~~lo + 1) = -(hi ++ lo) :=
  (neg_append (by decide) hi lo).symm

theorem mult_true (a b : BitVec 32) :
    (mult a b true).1 ++ (mult a b true).2 = BitVec.ofInt (32 + 32) (a.toInt * b.toInt) := by
  simp only [mult]
  split
  next zero =>
    rcases zero with zero | zero <;> simp [zero]
  next _ =>
    have product := multLoop_product (if a.slt 0 then -a else a) (if b.slt 0 then -b else b)
    rw [magnitude_toNat, magnitude_toNat] at product
    simp only [Bool.true_and]
    rw [toInt_product]
    by_cases negative : (a.slt 0 != b.slt 0) = true
    · rw [if_pos negative, if_pos negative, negated_words, product, BitVec.ofInt_neg,
        BitVec.ofInt_natCast]
    · rw [if_neg negative, if_neg negative, product, BitVec.ofInt_natCast]

theorem mult_false (a b : BitVec 32) :
    (mult a b false).1 ++ (mult a b false).2 = BitVec.ofNat (32 + 32) (a.toNat * b.toNat) := by
  simp only [mult]
  split
  next zero =>
    rcases zero with zero | zero <;> simp [zero]
  next _ =>
    simp only [Bool.false_and, Bool.false_eq_true, if_false]
    exact multLoop_product a b

theorem natAbs_toInt_le (a : BitVec 32) : a.toInt.natAbs ≤ 2 ^ 31 := by
  have below := BitVec.le_toInt a
  have above := BitVec.toInt_lt (x := a)
  omega

theorem product_natAbs_le (a b : BitVec 32) : (a.toInt * b.toInt).natAbs ≤ 2 ^ 62 := by
  calc (a.toInt * b.toInt).natAbs = a.toInt.natAbs * b.toInt.natAbs := Int.natAbs_mul _ _
    _ ≤ 2 ^ 31 * 2 ^ 31 := Nat.mul_le_mul (natAbs_toInt_le a) (natAbs_toInt_le b)
    _ = 2 ^ 62 := by decide

/-- `Mult` leaves the product of 64 bits in `hi` and `lo`, as of integers with a sign or without. -/
theorem mult_product (a b : BitVec 32) :
    ((mult a b true).1 ++ (mult a b true).2).toInt = a.toInt * b.toInt ∧
      ((mult a b false).1 ++ (mult a b false).2).toNat = a.toNat * b.toNat := by
  constructor
  · have size := product_natAbs_le a b
    rw [mult_true, BitVec.toInt_ofInt]
    exact Int.bmod_eq_of_le (by omega) (by omega)
  · have bound : a.toNat * b.toNat < 2 ^ 32 * 2 ^ 32 :=
      Nat.mul_lt_mul'' a.isLt b.isLt
    rw [mult_false, BitVec.toNat_ofNat, Nat.mod_eq_of_lt]
    simpa using bound

end Nachos
