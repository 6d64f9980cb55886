import Mathlib.Algebra.Ring.Basic
import Mathlib.Data.BitVec
import Mathlib.Tactic.Ring

/-!
# Arithmetic on double words

A number of `2 * w` bits as a high and a low word of `w` bits: addition with a carry out of the low
words, doubling, and negation.
-/

namespace DoubleWords

variable {w : Nat}

theorem append_ofNat {high low : Nat} (fits : low < 2 ^ w) :
    BitVec.ofNat w high ++ BitVec.ofNat w low = BitVec.ofNat (w + w) (high * 2 ^ w + low) := by
  have quotient : (high * 2 ^ w + low) / 2 ^ w = high := by
    rw [Nat.add_comm, Nat.add_mul_div_right _ _ (Nat.two_pow_pos w), Nat.div_eq_of_lt fits,
      Nat.zero_add]
  have remainder : (high * 2 ^ w + low) % 2 ^ w = low := by
    rw [Nat.add_comm, Nat.add_mul_mod_self_right, Nat.mod_eq_of_lt fits]
  apply BitVec.eq_of_toNat_eq
  rw [BitVec.toNat_append, BitVec.toNat_ofNat, BitVec.toNat_ofNat, BitVec.toNat_ofNat,
    Nat.mod_eq_of_lt fits, ← Nat.shiftLeft_add_eq_or_of_lt fits, Nat.shiftLeft_eq, Nat.pow_add,
    Nat.mod_mul, quotient, remainder]
  ring

theorem append_eq_ofNat (hi lo : BitVec w) :
    hi ++ lo = BitVec.ofNat (w + w) (hi.toNat * 2 ^ w + lo.toNat) := by
  rw [← append_ofNat lo.isLt]
  simp

theorem toNat_append_words {v : Nat} (hi : BitVec v) (lo : BitVec w) :
    (hi ++ lo).toNat = hi.toNat * 2 ^ w + lo.toNat := by
  rw [BitVec.toNat_append, ← Nat.shiftLeft_add_eq_or_of_lt lo.isLt, Nat.shiftLeft_eq]

theorem carries_iff (x y : BitVec w) : x + y < y ↔ 2 ^ w ≤ x.toNat + y.toNat := by
  have small' := y.isLt
  rw [BitVec.lt_def, BitVec.toNat_add]
  by_cases carries : 2 ^ w ≤ x.toNat + y.toNat
  · rw [Nat.mod_eq_sub_mod carries, Nat.mod_eq_of_lt (by omega)]
    omega
  · rw [Nat.mod_eq_of_lt (by omega)]
    omega

theorem append_add (hi lo hi' lo' : BitVec w) :
    (hi ++ lo) + (hi' ++ lo') =
      ((if lo + lo' < lo' then hi + 1#w else hi) + hi') ++ (lo + lo') := by
  have small' := lo'.isLt
  rw [append_eq_ofNat hi lo, append_eq_ofNat hi' lo', ← BitVec.ofNat_add]
  simp only [carries_iff]
  split
  next carries =>
    have low : lo + lo' = BitVec.ofNat w (lo.toNat + lo'.toNat - 2 ^ w) := by
      apply BitVec.eq_of_toNat_eq
      rw [BitVec.toNat_add, BitVec.toNat_ofNat, Nat.mod_eq_sub_mod carries]
    have high : hi + 1#w + hi' = BitVec.ofNat w (hi.toNat + 1 + hi'.toNat) := by
      simp [BitVec.ofNat_add]
    rw [low, high, append_ofNat (by omega)]
    congr 1
    have sum : lo.toNat + lo'.toNat - 2 ^ w + 2 ^ w = lo.toNat + lo'.toNat := by omega
    calc hi.toNat * 2 ^ w + lo.toNat + (hi'.toNat * 2 ^ w + lo'.toNat)
        = (hi.toNat + hi'.toNat) * 2 ^ w + (lo.toNat + lo'.toNat) := by ring
      _ = (hi.toNat + hi'.toNat) * 2 ^ w + (lo.toNat + lo'.toNat - 2 ^ w + 2 ^ w) := by rw [sum]
      _ = (hi.toNat + 1 + hi'.toNat) * 2 ^ w + (lo.toNat + lo'.toNat - 2 ^ w) := by ring
  next fits =>
    have low : lo + lo' = BitVec.ofNat w (lo.toNat + lo'.toNat) := by simp [BitVec.ofNat_add]
    have high : hi + hi' = BitVec.ofNat w (hi.toNat + hi'.toNat) := by simp [BitVec.ofNat_add]
    rw [low, high, append_ofNat (by omega)]
    congr 1
    ring

theorem shiftLeft_one_eq (x : BitVec w) : x <<< 1 = x + x := by
  apply BitVec.eq_of_toNat_eq
  rw [BitVec.toNat_shiftLeft, BitVec.toNat_add, Nat.shiftLeft_eq, Nat.pow_one, Nat.mul_two]

theorem shiftLeft_one_or_one (x : BitVec w) : x <<< 1 ||| 1#w = x <<< 1 + 1#w := by
  refine (BitVec.add_eq_or_of_and_eq_zero _ _ ?_).symm
  ext i bound
  simp only [BitVec.getElem_and, BitVec.getElem_shiftLeft, BitVec.getElem_zero, BitVec.getElem_one]
  by_cases first : i = 0
  · simp [first]
  · simp [first]

theorem append_double (positive : 0 < w) (hi lo : BitVec w) :
    (hi ++ lo) + (hi ++ lo) =
      (if lo.msb then (hi <<< 1) ||| 1#w else hi <<< 1) ++ (lo <<< 1) := by
  have carries : lo + lo < lo ↔ lo.msb = true := by
    have half : 2 ^ w = 2 ^ (w - 1) * 2 := (Nat.pow_pred_mul positive).symm
    rw [carries_iff, BitVec.msb_eq_decide, decide_eq_true_iff]
    omega
  rw [append_add]
  simp only [carries, shiftLeft_one_or_one]
  simp only [shiftLeft_one_eq]
  split
  · congr 1
    exact add_right_comm hi 1#w hi
  · rfl

theorem neg_append (positive : 0 < w) (hi lo : BitVec w) :
    -(hi ++ lo) = (if ~~~lo + 1#w = 0 then ~~~hi + 1#w else ~~~hi) ++ (~~~lo + 1#w) := by
  have bound : 1 < 2 ^ w := Nat.one_lt_two_pow positive.ne'
  have one : 1#(w + w) = 0#w ++ 1#w := by
    apply BitVec.eq_of_toNat_eq
    have bound' : 1 < 2 ^ (w + w) := Nat.one_lt_two_pow (by omega)
    rw [toNat_append_words, BitVec.toNat_ofNat, BitVec.toNat_ofNat, BitVec.toNat_ofNat,
      Nat.mod_eq_of_lt bound, Nat.mod_eq_of_lt bound', Nat.zero_mod, Nat.zero_mul]
  have carries : ~~~lo + 1#w < 1#w ↔ ~~~lo + 1#w = 0 := by
    rw [BitVec.lt_def, ← BitVec.toNat_inj]
    simp only [BitVec.toNat_ofNat, Nat.mod_eq_of_lt bound]
    simp
  rw [BitVec.neg_eq_not_add, BitVec.not_append, one, append_add]
  simp only [carries]
  split <;> simp

end DoubleWords
