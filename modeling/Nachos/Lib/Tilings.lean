import Mathlib

/-!
# Tilings of an interval

Pieces of given starts and sizes, in any order.  Together they cover exactly the interval that
begins at `a` and is as long as all of them if and only if they can be ordered so that the first
starts at `a` and each other one where the one before it ends.
-/

namespace Tilings

variable {β : Type} (start : β → ℤ) (size : β → ℕ)

def total (pieces : List β) : ℕ := (pieces.map size).sum

def Covers (pieces : List β) (x : ℤ) : Prop :=
  ∃ piece ∈ pieces, start piece ≤ x ∧ x < start piece + size piece

def Chain : ℤ → List β → Prop
  | _, [] => True
  | a, piece :: rest => start piece = a ∧ Chain (a + size piece) rest

instance Chain.decidable : (a : ℤ) → (pieces : List β) → Decidable (Chain start size a pieces)
  | _, [] => isTrue trivial
  | a, piece :: rest =>
    @instDecidableAnd _ _ inferInstance (Chain.decidable (a + size piece) rest)

noncomputable def points (pieces : List β) : Finset ℤ :=
  pieces.foldr (fun piece rest => Finset.Ico (start piece) (start piece + size piece) ∪ rest) ∅

variable {start size}

theorem total_cons (piece : β) (rest : List β) :
    total size (piece :: rest) = size piece + total size rest := rfl

theorem total_concat (pieces : List β) (piece : β) :
    total size (pieces ++ [piece]) = total size pieces + size piece := by
  simp [total]

theorem total_perm {pieces ordered : List β} (perm : ordered.Perm pieces) :
    total size ordered = total size pieces :=
  (perm.map size).sum_eq

variable {x a : ℤ} {pieces : List β}

theorem covers_cons {piece : β} {rest : List β} :
    Covers start size (piece :: rest) x ↔
      (start piece ≤ x ∧ x < start piece + size piece) ∨ Covers start size rest x := by
  simp [Covers]

theorem covers_perm {pieces ordered : List β} (perm : ordered.Perm pieces) :
    Covers start size ordered x ↔ Covers start size pieces x := by
  simp only [Covers, perm.mem_iff]

theorem mem_points :
    x ∈ points start size pieces ↔ Covers start size pieces x := by
  induction pieces with
  | nil => simp [points, Covers]
  | cons piece rest ih =>
    rw [covers_cons, ← ih]
    simp [points]

theorem card_points_le (pieces : List β) :
    (points start size pieces).card ≤ total size pieces := by
  induction pieces with
  | nil => simp [points, total]
  | cons piece rest ih =>
    calc (points start size (piece :: rest)).card
        ≤ (Finset.Ico (start piece) (start piece + size piece)).card +
            (points start size rest).card := Finset.card_union_le ..
      _ ≤ size piece + total size rest := by
        refine Nat.add_le_add (Nat.le_of_eq ?_) ih
        simp

theorem Chain.covers (chain : Chain start size a pieces) (x : ℤ) :
    Covers start size pieces x ↔ a ≤ x ∧ x < a + total size pieces := by
  induction pieces generalizing a with
  | nil =>
    simp only [Covers, total, List.map_nil, List.sum_nil, List.not_mem_nil, false_and, exists_false,
      false_iff]
    omega
  | cons piece rest ih =>
    obtain ⟨rfl, others⟩ := chain
    rw [covers_cons, ih others, total_cons]
    omega

theorem exists_chain (positive : ∀ piece ∈ pieces, 0 < size piece)
    (exactly : ∀ x, Covers start size pieces x ↔ a ≤ x ∧ x < a + total size pieces) :
    ∃ ordered, ordered.Perm pieces ∧ Chain start size a ordered := by
  induction length : pieces.length generalizing a pieces with
  | zero =>
    obtain rfl := List.length_eq_zero_iff.mp length
    exact ⟨[], .refl _, trivial⟩
  | succ n ih =>
    -- the piece with the first point starts there
    have long : 0 < total size pieces := by
      cases pieces with
      | nil => simp at length
      | cons piece rest =>
        have here := positive piece (List.mem_cons_self ..)
        rw [total_cons]
        omega
    obtain ⟨piece, member, before, inside⟩ := (exactly a).mpr ⟨le_refl a, by omega⟩
    have first := positive piece member
    have starts : start piece = a := by
      have lowest := (exactly (start piece)).mp ⟨piece, member, le_refl _, by omega⟩
      omega
    obtain ⟨front, back, rfl⟩ := List.append_of_mem member
    have perm : (piece :: (front ++ back)).Perm (front ++ piece :: back) := List.perm_middle.symm
    have sizes : size piece + total size (front ++ back) = total size (front ++ piece :: back) :=
      total_perm perm
    -- the others have just enough points for the rest of the interval
    have contained : Finset.Ico (a + size piece) (a + size piece + total size (front ++ back)) ⊆
        points start size (front ++ back) := by
      intro x member
      rw [Finset.mem_Ico] at member
      have covered := (exactly x).mpr (by omega)
      rw [← covers_perm perm, covers_cons] at covered
      exact mem_points.mpr (covered.resolve_left (by omega))
    have same := Finset.eq_of_subset_of_card_le contained (by
      simpa using card_points_le (front ++ back))
    have exactly' : ∀ x, Covers start size (front ++ back) x ↔
        a + size piece ≤ x ∧ x < a + size piece + total size (front ++ back) := by
      intro x
      rw [← mem_points, ← same, Finset.mem_Ico]
    obtain ⟨ordered, others, chain⟩ := ih
      (fun other within => positive other (perm.subset (List.mem_cons_of_mem _ within))) exactly'
      (by
        simp only [List.length_append, List.length_cons] at length ⊢
        omega)
    exact ⟨piece :: ordered, (others.cons piece).trans perm, starts, chain⟩

/-- Pieces cover an interval of their total length exactly when they can be put in a chain. -/
theorem covers_interval_iff (positive : ∀ piece ∈ pieces, 0 < size piece) :
    (∀ x, Covers start size pieces x ↔ a ≤ x ∧ x < a + total size pieces) ↔
      ∃ ordered, ordered.Perm pieces ∧ Chain start size a ordered := by
  refine ⟨exists_chain positive, fun ⟨ordered, perm, chain⟩ x => ?_⟩
  rw [← covers_perm perm, chain.covers, total_perm perm]

end Tilings
