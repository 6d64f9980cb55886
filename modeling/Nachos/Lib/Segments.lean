import Mathlib.Data.List.Basic

/-!
# Arrays read and written in segments

An array of a fixed length as a list: `slice` is what a read of `count` elements at `position`
finds, and `overwrite` is what a write at `position` leaves.  Writes that follow each other are
one write, and reads that follow each other are one read.
-/

namespace Segments

variable {α : Type}

def slice (xs : List α) (position count : Nat) : List α := (xs.drop position).take count

def overwrite (xs : List α) (position : Nat) (ys : List α) : List α :=
  xs.take position ++ ys ++ xs.drop (position + ys.length)

variable {xs ys zs : List α} {position count : Nat}

theorem length_slice : (slice xs position count).length = min count (xs.length - position) := by
  simp [slice]

theorem slice_append_drop (xs : List α) (position count : Nat) :
    slice xs position count ++ xs.drop (position + (slice xs position count).length) =
      xs.drop position := by
  rw [length_slice]
  by_cases short : count ≤ xs.length - position
  · rw [Nat.min_eq_left short, ← List.drop_drop, slice, List.take_append_drop]
  · have past : xs.length ≤ position + min count (xs.length - position) := by omega
    have whole : (xs.drop position).length ≤ count := by
      rw [List.length_drop]
      omega
    rw [List.drop_eq_nil_of_le past, List.append_nil, slice, List.take_of_length_le whole]

theorem overwrite_nil : overwrite xs position [] = xs := by
  simp [overwrite]

theorem overwrite_whole (same : ys.length = xs.length) : overwrite xs 0 ys = ys := by
  simp [overwrite, ← same]

theorem overwrite_overwrite (inside : position + ys.length ≤ xs.length) :
    overwrite (overwrite xs position ys) (position + ys.length) zs =
      overwrite xs position (ys ++ zs) := by
  have front : (xs.take position ++ ys).length = position + ys.length := by
    simp only [List.length_append, List.length_take]
    omega
  have before : (overwrite xs position ys).take (position + ys.length) =
      xs.take position ++ ys := by
    rw [overwrite, ← front, List.take_left]
  have behind : (overwrite xs position ys).drop (position + ys.length + zs.length) =
      xs.drop (position + (ys ++ zs).length) := by
    rw [overwrite, ← List.drop_drop, ← front, List.drop_left, front, List.drop_drop,
      List.length_append, Nat.add_assoc]
  rw [overwrite, before, behind, overwrite, ← List.append_assoc (xs.take position) ys zs]

theorem getElem?_overwrite (inside : position + ys.length ≤ xs.length) (p : Nat) :
    (overwrite xs position ys)[p]? =
      if position ≤ p ∧ p < position + ys.length then ys[p - position]? else xs[p]? := by
  have front : (xs.take position).length = position := by
    rw [List.length_take]
    omega
  unfold overwrite
  by_cases before : p < position
  · rw [if_neg (by omega), List.append_assoc, List.getElem?_append_left (by omega),
      List.getElem?_take_of_lt before]
  · by_cases inWrite : p < position + ys.length
    · rw [if_pos ⟨by omega, inWrite⟩, List.getElem?_append_left (by rw [List.length_append]; omega),
        List.getElem?_append_right (by omega), front]
    · have length : (xs.take position ++ ys).length = position + ys.length := by
        rw [List.length_append, front]
      rw [if_neg (by omega), List.getElem?_append_right (by omega), length, List.getElem?_drop]
      congr 1
      omega

end Segments
