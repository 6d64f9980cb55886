import Mathlib.Data.BitVec
import Nachos.Lib.Loops

/-!
# Kernel failures and 32-bit arithmetic

`Fault` lists the ways in which kernel code stops being defined: a failed
`ASSERT`, which calls `Abort()`, and the memory errors of C++ that no test in the
kernel guards.  Kernel routines are functions into `Except Fault`.
-/

namespace Nachos

inductive Fault where
  /-- A failed `ASSERT`. -/
  | assertion
  /-- A member access through a `NULL` pointer. -/
  | nullPointer
  /-- An access outside the bounds of an array. -/
  | outOfRange
  /-- A value is used that nothing has written. -/
  | uninitialised
  /-- A loop of which no round changes anything. -/
  | endlessLoop
  /-- An access to an object that was deleted. -/
  | danglingPointer
  deriving DecidableEq, Repr

def assert (condition : Bool) : Except Fault Unit :=
  if condition then .ok () else .error .assertion

@[simp] theorem assert_eq_ok {condition : Bool} {done : Unit} :
    assert condition = .ok done ↔ condition = true := by
  cases condition <;> simp [assert]

def ceilDiv (n : Int) (d : Nat) : Int := -(-n / d)

def divRoundUp (n s : Nat) : Nat :=
  n / s + (if n % s > 0 then 1 else 0)

def divRoundDownInt (n s : Int) : Int := n.tdiv s

def divRoundUpInt (n s : Int) : Int := n.tdiv s + (if n.tmod s > 0 then 1 else 0)

def toInt32 (n : Nat) : Int := (BitVec.ofNat 32 n).toInt

theorem toInt32_of_nonneg {n : Nat} (bound : n < 2 ^ 32) (nonneg : 0 ≤ toInt32 n) :
    toInt32 n = n := by
  unfold toInt32 at nonneg ⊢
  rw [BitVec.toInt_eq_toNat_cond, BitVec.toNat_ofNat, Nat.mod_eq_of_lt bound] at nonneg ⊢
  split at nonneg
  next small => rw [if_pos small]
  next large => omega

theorem toInt32_nonneg {n : Nat} (small : n < 2 ^ 31) : 0 ≤ toInt32 n := by
  unfold toInt32
  rw [BitVec.toInt_eq_toNat_cond, BitVec.toNat_ofNat, Nat.mod_eq_of_lt (by omega)]
  split <;> omega

theorem toInt_of_nonneg {word : BitVec 32} (nonneg : 0 ≤ word.toInt) :
    word.toInt = (word.toNat : Int) := by
  rw [BitVec.toInt_eq_toNat_cond] at nonneg ⊢
  split at nonneg <;> omega

theorem toInt_ofInt {value : Int} (nonneg : 0 ≤ value) (small : value < 2 ^ 31) :
    (BitVec.ofInt 32 value).toInt = value := by
  rw [BitVec.toInt_ofInt]
  exact Int.bmod_eq_of_le (by omega) (by omega)

theorem toOption_eq_some {α : Type} {result : Except Fault α} {a : α}
    (succeeded : result.toOption = some a) : result = .ok a := by
  cases result with
  | error => cases succeeded
  | ok => cases succeeded; rfl

end Nachos
