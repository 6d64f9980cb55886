import Mathlib.Data.List.Basic
import Mathlib.Data.List.Nodup

/-!
# Exclusive allocation

Owners `ι` hold lists of blocks `β`, and a record of the blocks in use.  `Exact` says that no
block is held twice and that the record has the held blocks and no others.  `grant` and
`revoke` are the two ways of changing such a state: a new owner takes blocks that are not in
use, and an owner gives back all of its blocks.
-/

namespace Allocation

variable {ι β : Type}

structure Exact (owns : ι → Prop) (blocks : ι → List β) (used : β → Prop) : Prop where
  nodup : ∀ o, owns o → (blocks o).Nodup
  /-- A block has one owner. -/
  owner_unique : ∀ o p b, owns o → owns p → b ∈ blocks o → b ∈ blocks p → o = p
  used_iff : ∀ b, used b ↔ ∃ o, owns o ∧ b ∈ blocks o

namespace Exact

variable {owns owns' : ι → Prop} {blocks blocks' : ι → List β} {used used' : β → Prop}

theorem used_of_mem (exact : Exact owns blocks used) {o : ι} {b : β} (held : owns o)
    (member : b ∈ blocks o) : used b :=
  (exact.used_iff b).mpr ⟨o, held, member⟩

theorem not_mem_of_ne (exact : Exact owns blocks used) {o p : ι} {b : β} (held : owns o)
    (other : owns p) (different : o ≠ p) (member : b ∈ blocks o) : b ∉ blocks p :=
  fun again => different (exact.owner_unique o p b held other member again)

theorem empty (blocks : ι → List β) : Exact (fun _ => False) blocks fun _ => False where
  nodup _ held := held.elim
  owner_unique _ _ _ held := held.elim
  used_iff _ := by simp

theorem congr (exact : Exact owns blocks used) (owners : ∀ o, owns' o ↔ owns o)
    (kept : ∀ o, owns o → blocks' o = blocks o) (record : ∀ b, used' b ↔ used b) :
    Exact owns' blocks' used' := by
  obtain rfl : owns' = owns := funext fun o => propext (owners o)
  obtain rfl : used' = used := funext fun b => propext (record b)
  refine ⟨fun o held => kept o held ▸ exact.nodup o held,
    fun o p b held other member again => ?_, fun b => ?_⟩
  · rw [kept o held] at member
    rw [kept p other] at again
    exact exact.owner_unique o p b held other member again
  · rw [exact.used_iff]
    exact exists_congr fun o => and_congr_right fun held => by rw [kept o held]

theorem grant (exact : Exact owns blocks used) (new : ι)
    (owners : ∀ o, owns' o ↔ owns o ∨ o = new) (kept : ∀ o, owns o → blocks' o = blocks o)
    (distinct : (blocks' new).Nodup) (unused : ∀ b ∈ blocks' new, ¬ used b)
    (record : ∀ b, used' b ↔ used b ∨ b ∈ blocks' new) : Exact owns' blocks' used' where
  nodup o held := by
    cases (owners o).mp held with
    | inl before =>
      rw [kept o before]
      exact exact.nodup o before
    | inr isNew => exact isNew ▸ distinct
  owner_unique o p b held other member again := by
    -- a block of the new owner was unused, so no earlier owner has it
    have clash : ∀ q, owns q → b ∈ blocks' q → b ∈ blocks' new → False := by
      intro q before here there
      rw [kept q before] at here
      exact unused b there (exact.used_of_mem before here)
    cases (owners o).mp held with
    | inl heldBefore =>
      cases (owners p).mp other with
      | inl otherBefore =>
        rw [kept o heldBefore] at member
        rw [kept p otherBefore] at again
        exact exact.owner_unique o p b heldBefore otherBefore member again
      | inr isNew => exact (clash o heldBefore member (isNew ▸ again)).elim
    | inr isNew =>
      cases (owners p).mp other with
      | inl otherBefore => exact (clash p otherBefore again (isNew ▸ member)).elim
      | inr alsoNew => exact isNew.trans alsoNew.symm
  used_iff b := by
    simp only [record, exact.used_iff, owners, or_and_right, exists_or, exists_eq_left]
    exact or_congr_left (exists_congr fun o => and_congr_right fun held => by rw [kept o held])

theorem revoke (exact : Exact owns blocks used) {gone : ι} (held : owns gone)
    (owners : ∀ o, owns' o ↔ owns o ∧ o ≠ gone) (kept : ∀ o, owns' o → blocks' o = blocks o)
    (record : ∀ b, used' b ↔ used b ∧ b ∉ blocks gone) : Exact owns' blocks' used' where
  nodup o still := by
    rw [kept o still]
    exact exact.nodup o ((owners o).mp still).1
  owner_unique o p b still other member again := by
    rw [kept o still] at member
    rw [kept p other] at again
    exact exact.owner_unique o p b ((owners o).mp still).1 ((owners p).mp other).1 member again
  used_iff b := by
    rw [record, exact.used_iff]
    constructor
    · intro ⟨⟨o, before, member⟩, absent⟩
      have different : o ≠ gone := fun same => absent (same ▸ member)
      have still := (owners o).mpr ⟨before, different⟩
      exact ⟨o, still, by rw [kept o still]; exact member⟩
    · intro ⟨o, still, member⟩
      rw [kept o still] at member
      obtain ⟨before, different⟩ := (owners o).mp still
      exact ⟨⟨o, before, member⟩, exact.not_mem_of_ne before held different member⟩

theorem nodup_flatMap (exact : Exact owns blocks used) {owners : List ι} (distinct : owners.Nodup)
    (held : ∀ o ∈ owners, owns o) : (owners.flatMap blocks).Nodup := by
  rw [List.nodup_flatMap]
  constructor
  · intro o member
    exact exact.nodup o (held o member)
  · apply List.Pairwise.imp_of_mem _ distinct
    intro o p first second different b here there
    exact different (exact.owner_unique o p b (held o first) (held p second) here there)

end Exact

end Allocation
