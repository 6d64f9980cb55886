import Mathlib.Logic.Function.Basic

/-!
# Finite maps in tables of slots

A table of `n` slots, each empty or with a key and a value, in no order.  While no two slots have
the same key the table stands for a finite map: filling an empty slot with a new key extends the
map, and emptying a slot takes its key out of the map.
-/

namespace SlotTables

variable {κ ν : Type*} {n i : Nat} {slot slot' : Nat → Option (κ × ν)} {map : κ → Option ν}
  {key : κ} {value : ν}

/-- The first `n` slots hold the entries of `map`, each once. -/
structure Represents (n : Nat) (slot : Nat → Option (κ × ν)) (map : κ → Option ν) : Prop where
  distinct : ∀ {i j key value value'}, i < n → j < n → slot i = some (key, value) →
    slot j = some (key, value') → i = j
  lookup : ∀ key value, map key = some value ↔ ∃ i < n, slot i = some (key, value)

theorem exists_slot_iff (others : ∀ j < n, j ≠ i → slot' j = slot j)
    (now : slot' i ≠ some (key, value)) (before : slot i ≠ some (key, value)) :
    (∃ j < n, slot j = some (key, value)) ↔ ∃ j < n, slot' j = some (key, value) := by
  apply exists_congr
  intro j
  apply and_congr_right
  intro bound
  by_cases here : j = i
  · subst here
    exact iff_of_false before now
  · rw [others j bound here]

namespace Represents

theorem empty (none : ∀ i < n, slot i = none) : Represents n slot fun _ => Option.none where
  distinct bound _ here := by simp [none _ bound] at here
  lookup key value := by
    simp only [reduceCtorEq, false_iff]
    rintro ⟨i, bound, here⟩
    simp [none i bound] at here

theorem congr (represents : Represents n slot map) (same : ∀ i < n, slot' i = slot i) :
    Represents n slot' map where
  distinct bound bound' here here' :=
    represents.distinct bound bound' (same _ bound ▸ here) (same _ bound' ▸ here')
  lookup key value := by
    rw [represents.lookup]
    exact exists_congr fun i => and_congr_right fun bound => by rw [same i bound]

theorem lookup_of_slot (represents : Represents n slot map) (bound : i < n)
    (here : slot i = some (key, value)) : map key = some value :=
  (represents.lookup key value).mpr ⟨i, bound, here⟩

theorem slot_ne_of_absent (represents : Represents n slot map) (absent : map key = none)
    (bound : i < n) (value : ν) : slot i ≠ some (key, value) := by
  intro here
  rw [represents.lookup_of_slot bound here] at absent
  cases absent

variable [DecidableEq κ]

theorem insert (represents : Represents n slot map) (bound : i < n) (free : slot i = none)
    (absent : map key = none) (here : slot' i = some (key, value))
    (others : ∀ j < n, j ≠ i → slot' j = slot j) :
    Represents n slot' (Function.update map key (some value)) where
  distinct {j k other v v'} boundj boundk herej herek := by
    -- the new key is in no other slot
    have new : ∀ l < n, ∀ w, l ≠ i → slot' l = some (key, w) → False := by
      intro l boundl w different herel
      rw [others l boundl different] at herel
      exact represents.slot_ne_of_absent absent boundl w herel
    by_cases firstj : j = i
    · by_cases firstk : k = i
      · rw [firstj, firstk]
      · rw [firstj, here, Option.some.injEq, Prod.mk.injEq] at herej
        exact (new k boundk v' firstk (herej.1 ▸ herek)).elim
    · by_cases firstk : k = i
      · rw [firstk, here, Option.some.injEq, Prod.mk.injEq] at herek
        exact (new j boundj v firstj (herek.1 ▸ herej)).elim
      · rw [others j boundj firstj] at herej
        rw [others k boundk firstk] at herek
        exact represents.distinct boundj boundk herej herek
  lookup other w := by
    by_cases same : other = key
    · subst same
      rw [Function.update_self, Option.some.injEq]
      constructor
      · rintro rfl
        exact ⟨i, bound, here⟩
      · rintro ⟨j, boundj, herej⟩
        by_cases first : j = i
        · rw [first, here, Option.some.injEq, Prod.mk.injEq] at herej
          exact herej.2
        · rw [others j boundj first] at herej
          exact (represents.slot_ne_of_absent absent boundj w herej).elim
    · rw [Function.update_of_ne same, represents.lookup, exists_slot_iff others]
      · simp [here, Ne.symm same]
      · simp [free]

theorem erase (represents : Represents n slot map) (bound : i < n)
    (here : slot i = some (key, value)) (free : slot' i = none) (others : ∀ j < n, j ≠ i
    → slot' j = slot j) :
    Represents n slot' (Function.update map key none) where
  distinct {j k other v v'} boundj boundk herej herek := by
    have notj : j ≠ i := by
      rintro rfl
      simp [free] at herej
    have notk : k ≠ i := by
      rintro rfl
      simp [free] at herek
    rw [others j boundj notj] at herej
    rw [others k boundk notk] at herek
    exact represents.distinct boundj boundk herej herek
  lookup other w := by
    by_cases same : other = key
    · subst same
      simp only [Function.update_self, reduceCtorEq, false_iff]
      rintro ⟨j, boundj, herej⟩
      by_cases first : j = i
      · simp [first, free] at herej
      · rw [others j boundj first] at herej
        exact first (represents.distinct boundj bound herej here)
    · rw [Function.update_of_ne same, represents.lookup, exists_slot_iff others]
      · simp [free]
      · simp [here, Ne.symm same]

end Represents

end SlotTables
