import Mathlib.Data.List.Basic
import Mathlib.Order.Basic

/-!
# The least recent of several things

Things are used one after the other, and each use is stamped with the number of uses before it.
The thing with the least stamp is the one whose last use is the oldest.
-/

namespace Recency

variable {α : Type*} [DecidableEq α] {uses : List α} {a b : α} {t : Nat}

/-- How many uses there were before the last use of `a`.  The list has the latest use first. -/
def lastUse : List α → α → Option Nat
  | [], _ => none
  | b :: earlier, a => if b = a then some earlier.length else lastUse earlier a

theorem lastUse_lt (used : lastUse uses a = some t) : t < uses.length := by
  induction uses with
  | nil => cases used
  | cons b earlier ih =>
    simp only [lastUse] at used
    split at used
    next => simp_all
    next => exact Nat.lt_succ_of_lt (ih used)

theorem lastUse_inj (first : lastUse uses a = some t) (second : lastUse uses b = some t) : a = b := by
  induction uses with
  | nil => cases first
  | cons c earlier ih =>
    simp only [lastUse] at first second
    split at first
    next isA =>
      split at second
      next isB => exact isA.symm.trans isB
      next =>
        cases first
        exact absurd (lastUse_lt second) (Nat.lt_irrefl _)
    next =>
      split at second
      next =>
        cases second
        exact absurd (lastUse_lt first) (Nat.lt_irrefl _)
      next => exact ih first second

theorem exists_lastUse (used : a ∈ uses) : ∃ t, lastUse uses a = some t := by
  induction uses with
  | nil => cases used
  | cons b earlier ih =>
    simp only [lastUse]
    split
    next => exact ⟨_, rfl⟩
    next other => exact ih ((List.mem_cons.mp used).resolve_left (Ne.symm other))

structure Oldest (uses : List α) (candidate : α → Prop) (a : α) : Prop where
  isCandidate : candidate a
  older : ∃ t, lastUse uses a = some t ∧
    ∀ b, candidate b → b ≠ a → ∃ u, lastUse uses b = some u ∧ t < u

def Stamped (uses : List α) (stamp : α → Int) : Prop :=
  ∀ a, stamp a = (lastUse uses a).elim (-1) fun t => (t : Int)

namespace Stamped

variable {stamp : α → Int} {candidate : α → Prop}

theorem start : Stamped ([] : List α) fun _ => -1 := fun _ => rfl

theorem next (stamped : Stamped uses stamp) (b : α) :
    Stamped (b :: uses) fun a => if a = b then (uses.length : Int) else stamp a := by
  intro a
  by_cases same : a = b
  · simp [lastUse, same]
  · simp [lastUse, same, Ne.symm same, stamped a]

theorem oldest (stamped : Stamped uses stamp) (used : ∀ b, candidate b → b ∈ uses)
    (isCandidate : candidate a) (least : ∀ b, candidate b → stamp a ≤ stamp b) :
    Oldest uses candidate a := by
  obtain ⟨t, last⟩ := exists_lastUse (used a isCandidate)
  refine ⟨isCandidate, t, last, fun b other different => ?_⟩
  obtain ⟨u, lastOther⟩ := exists_lastUse (used b other)
  refine ⟨u, lastOther, ?_⟩
  have order := least b other
  simp only [stamped a, stamped b, last, lastOther, Option.elim_some, Int.ofNat_le] at order
  have apart : t ≠ u := by
    intro same
    subst same
    exact different (lastUse_inj lastOther last)
  omega

end Stamped

end Recency
