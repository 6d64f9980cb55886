import Mathlib.Logic.Function.Basic
import Mathlib.Data.List.Basic

/-!
# A family of queues

`queues q` is the queue of the index `q`.  An element is taken from the front of one queue
and put at the end of another; `Located` says that it is nowhere or once in one queue.
-/

namespace Queues

variable {ι α : Type} [DecidableEq ι] [DecidableEq α]

def push (q : ι) (a : α) (queues : ι → List α) : ι → List α :=
  Function.update queues q (queues q ++ [a])

def pop (q : ι) (queues : ι → List α) : ι → List α :=
  Function.update queues q (queues q).tail

def discard (q : ι) (a : α) (queues : ι → List α) : ι → List α :=
  Function.update queues q ((queues q).erase a)

def Located (queues : ι → List α) (a : α) : Option ι → Prop
  | none => ∀ q, a ∉ queues q
  | some q => (queues q).count a = 1 ∧ ∀ p, p ≠ q → a ∉ queues p

variable {queues : ι → List α} {a b : α} {p q : ι} {place : Option ι}

omit [DecidableEq α] in
@[simp]
theorem push_self : push q a queues q = queues q ++ [a] := Function.update_self ..

omit [DecidableEq α] in
@[simp]
theorem push_of_ne (other : p ≠ q) : push q a queues p = queues p :=
  Function.update_of_ne other ..

omit [DecidableEq α] in
@[simp]
theorem pop_self : pop q queues q = (queues q).tail := Function.update_self ..

omit [DecidableEq α] in
@[simp]
theorem pop_of_ne (other : p ≠ q) : pop q queues p = queues p :=
  Function.update_of_ne other ..

@[simp]
theorem discard_self : discard q a queues q = (queues q).erase a := Function.update_self ..

@[simp]
theorem discard_of_ne (other : p ≠ q) : discard q a queues p = queues p :=
  Function.update_of_ne other ..

omit [DecidableEq α] in
theorem pop_of_empty (empty : queues q = []) : pop q queues = queues := by
  rw [pop, empty, List.tail_nil, ← empty]
  exact Function.update_eq_self q queues

omit [DecidableEq ι] in
theorem Located.eq_of_mem (located : Located queues a place) (member : a ∈ queues p) :
    place = some p := by
  cases place with
  | none => exact absurd member (located p)
  | some q =>
    by_contra other
    exact located.2 p (fun same => other (by rw [same])) member

/-! ## Elements at rest -/

theorem count_push_of_ne (other : b ≠ a) : (push q a queues p).count b = (queues p).count b := by
  by_cases same : p = q
  · subst same
    simp [List.count_append, Ne.symm other]
  · rw [push_of_ne same]

theorem count_pop_of_ne (front : (queues q).head? = some a) (other : b ≠ a) :
    (pop q queues p).count b = (queues p).count b := by
  by_cases same : p = q
  · subst same
    obtain ⟨rest, shape⟩ := List.head?_eq_some_iff.mp front
    simp [shape, Ne.symm other]
  · rw [pop_of_ne same]

theorem count_discard_of_ne (other : b ≠ a) :
    (discard q a queues p).count b = (queues p).count b := by
  by_cases same : p = q
  · subst same
    rw [discard_self, List.count_erase_of_ne other]
  · rw [discard_of_ne same]

omit [DecidableEq ι] in
theorem Located.congr {queues' : ι → List α}
    (counts : ∀ p, (queues' p).count a = (queues p).count a) :
    Located queues' a place ↔ Located queues a place := by
  have members : ∀ p, a ∈ queues' p ↔ a ∈ queues p := by
    intro p
    rw [← List.count_pos_iff, ← List.count_pos_iff, counts]
  cases place with
  | none => simp only [Located, members]
  | some q => simp only [Located, members, counts]

theorem located_push_of_ne (other : b ≠ a) :
    Located (push q a queues) b place ↔ Located queues b place :=
  Located.congr fun _ => count_push_of_ne other

theorem located_pop_of_ne (front : (queues q).head? = some a) (other : b ≠ a) :
    Located (pop q queues) b place ↔ Located queues b place :=
  Located.congr fun _ => count_pop_of_ne front other

theorem located_discard_of_ne (other : b ≠ a) :
    Located (discard q a queues) b place ↔ Located queues b place :=
  Located.congr fun _ => count_discard_of_ne other

/-! ## The element that moves -/

theorem Located.push (nowhere : Located queues a none) :
    Located (push q a queues) a (some q) := by
  constructor
  · simp [List.count_append, List.count_eq_zero_of_not_mem (nowhere q)]
  · intro p other
    rw [push_of_ne other]
    exact nowhere p

theorem Located.pop (located : Located queues a place) (front : (queues q).head? = some a) :
    place = some q ∧ Located (pop q queues) a none := by
  obtain ⟨rest, shape⟩ := List.head?_eq_some_iff.mp front
  have here : place = some q := located.eq_of_mem (by simp [shape])
  subst here
  refine ⟨rfl, fun p => ?_⟩
  by_cases same : p = q
  · subst same
    have once := located.1
    simp only [shape, List.count_cons_self, Nat.add_eq_right] at once
    simpa [shape] using List.count_eq_zero.mp once
  · rw [pop_of_ne same]
    exact located.2 p same

theorem Located.discard (located : Located queues a (some q)) :
    Located (discard q a queues) a none := by
  intro p
  by_cases same : p = q
  · subst same
    have once : ((queues p).erase a).count a = 0 := by
      rw [List.count_erase_self, located.1]
    rw [discard_self]
    exact List.count_eq_zero.mp once
  · rw [discard_of_ne same]
    exact located.2 p same

end Queues
