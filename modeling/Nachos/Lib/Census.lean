import Mathlib.Algebra.BigOperators.Group.Finset.Piecewise
import Mathlib.Algebra.Order.BigOperators.Group.Finset
import Mathlib.Data.Nat.Count

/-!
# Counting the members of a growing population

Members are numbered in the order in which they join.  `Nat.count p n` is the number of the first
`n` members with `p`; the rules say how it changes when one member changes, when members join, and
how the counts of the classes add up.
-/

namespace Census

variable {p q : Nat → Prop} [DecidablePred p] [DecidablePred q] {n m t : Nat}

theorem count_congr (same : ∀ u < n, p u ↔ q u) : Nat.count p n = Nat.count q n :=
  Nat.le_antisymm (Nat.count_mono_left fun u small => (same u small).mp)
    (Nat.count_mono_left fun u small => (same u small).mpr)

theorem count_change (small : t < n) (same : ∀ u, u ≠ t → (p u ↔ q u)) :
    Nat.count q n + (if p t then 1 else 0) = Nat.count p n + (if q t then 1 else 0) := by
  induction n with
  | zero => cases small
  | succ n ih =>
    rw [Nat.count_succ, Nat.count_succ]
    by_cases last : t = n
    · subst last
      have earlier : Nat.count p t = Nat.count q t :=
        count_congr fun u before => same u (Nat.ne_of_lt before)
      omega
    · have before := ih (by omega)
      have here : (if p n then 1 else 0) = if q n then 1 else 0 := by
        simp only [same n fun again => last again.symm]
      omega

theorem count_grow (more : n ≤ m) (new : ∀ u, n ≤ u → ¬ p u) : Nat.count p m = Nat.count p n := by
  induction m, more using Nat.le_induction with
  | base => rfl
  | succ m above ih => simp [Nat.count_succ, ih, new m above]

theorem count_pos (small : t < n) (member : p t) : 0 < Nat.count p n :=
  Nat.pos_of_ne_zero (Nat.count_ne_iff_exists.mpr ⟨t, small, member⟩)

theorem sum_count_class (index : Nat → Option Nat) (inRange : ∀ u < n, ∀ j, index u = some j → j < m) :
    ∑ j ∈ Finset.range m, Nat.count (fun u => index u = some j) n =
      Nat.count (fun u => (index u).isSome = true) n := by
  induction n with
  | zero => simp
  | succ n ih =>
    have before := ih fun u small => inRange u (by omega)
    simp only [Nat.count_succ, Finset.sum_add_distrib, before, Nat.add_left_cancel_iff]
    cases here : index n with
    | none => simp
    | some j => simp [inRange n (by omega) j here]

theorem count_le_length {κ : Type} [DecidableEq κ] {keys : List κ} (key : Nat → κ)
    (has : ∀ u < n, p u → key u ∈ keys)
    (distinct : ∀ u < n, ∀ v < n, p u → p v → key u = key v → u = v) :
    Nat.count p n ≤ keys.length := by
  rw [Nat.count_eq_card_filter_range]
  refine le_trans (Finset.card_le_card_of_injOn key (t := keys.toFinset) ?_ ?_)
    keys.toFinset_card_le
  · intro u member
    have found := Finset.mem_filter.mp (Finset.mem_coe.mp member)
    exact List.mem_toFinset.mpr (has u (Finset.mem_range.mp found.1) found.2)
  · intro u member v member' same
    have found := Finset.mem_filter.mp (Finset.mem_coe.mp member)
    have found' := Finset.mem_filter.mp (Finset.mem_coe.mp member')
    exact distinct u (Finset.mem_range.mp found.1) v (Finset.mem_range.mp found'.1) found.2 found'.2
      same

end Census
