import Mathlib.Data.List.Nodup
import Mathlib.Data.List.Perm.Subperm
import Mathlib.Tactic.Common

/-!
# Singly linked cells

Cells on a heap, each with a value and the address of the next one.  `Holds heap nodes` says
that the addresses and values of `nodes` follow one another on the heap, the last cell having
no successor.  The rules below are the pointer updates that put a cell into such a chain, and
take one out.
-/

namespace Linked

variable {β : Type}

structure Cell (β : Type) where
  value : β
  next : Option Nat
  deriving DecidableEq, Repr

abbrev Heap (β : Type) := Nat → Option (Cell β)

def set (heap : Heap β) (p : Nat) (cell : Option (Cell β)) : Heap β :=
  fun other => if other = p then cell else heap other

@[simp] theorem set_same (heap : Heap β) (p : Nat) (cell : Option (Cell β)) :
    set heap p cell p = cell := if_pos rfl

theorem set_other (heap : Heap β) {p q : Nat} (cell : Option (Cell β)) (other : q ≠ p) :
    set heap p cell q = heap q := if_neg other

theorem set_set (heap : Heap β) (p : Nat) (cell cell' : Option (Cell β)) :
    set (set heap p cell) p cell' = set heap p cell' := by
  funext other
  simp only [set]
  split <;> rfl

def start (nodes : List (Nat × β)) : Option Nat := nodes.head?.map Prod.fst

@[simp] theorem start_nil : start ([] : List (Nat × β)) = none := rfl

@[simp] theorem start_cons (p : Nat) (v : β) (rest : List (Nat × β)) :
    start ((p, v) :: rest) = some p := rfl

def finish (nodes : List (Nat × β)) : Option Nat := nodes.getLast?.map Prod.fst

@[simp] theorem finish_nil : finish ([] : List (Nat × β)) = none := rfl

@[simp] theorem finish_concat (before : List (Nat × β)) (p : Nat) (v : β) :
    finish (before ++ [(p, v)]) = some p := by
  simp [finish]

theorem finish_append_cons (before : List (Nat × β)) (node : Nat × β) (after : List (Nat × β)) :
    finish (before ++ node :: after) = finish (node :: after) := by
  rw [finish, List.getLast?_append]
  simp [finish, List.getLast?_cons]

theorem finish_cons_cons (node next : Nat × β) (after : List (Nat × β)) :
    finish (node :: next :: after) = finish (next :: after) := rfl

theorem start_eq_none {nodes : List (Nat × β)} : start nodes = none ↔ nodes = [] := by
  cases nodes with
  | nil => simp
  | cons node rest => simp [start]

/-- What precedes a cell decides where the chain starts, not what follows it. -/
theorem start_append_cons (before : List (Nat × β)) (p : Nat) (v v' : β)
    (after after' : List (Nat × β)) :
    start (before ++ (p, v) :: after) = start (before ++ (p, v') :: after') := by
  cases before with
  | nil => rfl
  | cons node rest => rfl

theorem finish_eq_none {nodes : List (Nat × β)} : finish nodes = none ↔ nodes = [] := by
  simp [finish]

def addresses (nodes : List (Nat × β)) : List Nat := nodes.map Prod.fst

@[simp] theorem addresses_nil : addresses ([] : List (Nat × β)) = [] := rfl

@[simp] theorem addresses_cons (p : Nat) (v : β) (rest : List (Nat × β)) :
    addresses ((p, v) :: rest) = p :: addresses rest := rfl

@[simp] theorem addresses_append (before after : List (Nat × β)) :
    addresses (before ++ after) = addresses before ++ addresses after := List.map_append

def Holds (heap : Heap β) : List (Nat × β) → Prop
  | [] => True
  | (p, v) :: rest => heap p = some ⟨v, start rest⟩ ∧ Holds heap rest

variable {heap : Heap β} {nodes before after : List (Nat × β)} {p n c : Nat} {v w : β}

theorem Holds.set_other (holds : Holds heap nodes) (cell : Option (Cell β))
    (outside : p ∉ addresses nodes) : Holds (set heap p cell) nodes := by
  induction nodes with
  | nil => trivial
  | cons node rest ih =>
    obtain ⟨q, u⟩ := node
    simp only [addresses_cons, List.mem_cons, not_or] at outside
    obtain ⟨here, behind⟩ := holds
    exact ⟨(Linked.set_other heap cell (Ne.symm outside.1)).trans here,
      ih behind outside.2⟩

theorem Holds.lookup (holds : Holds heap (before ++ (p, v) :: after)) :
    heap p = some ⟨v, start after⟩ := by
  induction before with
  | nil => exact holds.1
  | cons node rest ih => exact ih holds.2

theorem Holds.behind (holds : Holds heap (before ++ after)) : Holds heap after := by
  induction before with
  | nil => exact holds
  | cons node rest ih => exact ih holds.2

/-- A chain is changed from one cell on: the cells before only have to keep pointing to it. -/
theorem Holds.replace {heap' : Heap β} {after' : List (Nat × β)}
    (holds : Holds heap (before ++ (p, v) :: after))
    (same : ∀ q ∈ addresses before, heap' q = heap q)
    (changed : Holds heap' ((p, w) :: after')) : Holds heap' (before ++ (p, w) :: after') := by
  induction before with
  | nil => exact changed
  | cons node rest ih =>
    obtain ⟨q, u⟩ := node
    obtain ⟨here, behind⟩ := holds
    refine ⟨?_, ih behind fun r member =>
      same r (List.mem_cons_of_mem _ member)⟩
    rw [same q List.mem_cons_self, here]
    exact congrArg (fun next => some (Cell.mk u next)) (start_append_cons rest p v w after after')

theorem Holds.insertFront (holds : Holds heap nodes) (fresh : n ∉ addresses nodes) :
    Holds (set heap n (some ⟨w, start nodes⟩)) ((n, w) :: nodes) :=
  ⟨set_same .., holds.set_other _ fresh⟩

theorem Holds.insertAfter (holds : Holds heap (before ++ (p, v) :: after))
    (distinct : (addresses (before ++ (p, v) :: after)).Nodup)
    (fresh : n ∉ addresses (before ++ (p, v) :: after)) :
    Holds (set (set heap n (some ⟨w, start after⟩)) p (some ⟨v, some n⟩))
      (before ++ (p, v) :: (n, w) :: after) := by
  simp only [addresses_append, addresses_cons, List.mem_append, List.mem_cons, not_or] at fresh
  simp only [addresses_append, addresses_cons, List.nodup_append, List.nodup_cons] at distinct
  obtain ⟨notBefore, notHere, notAfter⟩ := fresh
  have rest : Holds heap after := (holds.behind).2
  apply holds.replace
  · intro q member
    have notP : q ≠ p := distinct.2.2 q member p List.mem_cons_self
    have notN : q ≠ n := fun same => notBefore (same ▸ member)
    rw [Linked.set_other _ _ notP, Linked.set_other _ _ notN]
  · refine ⟨set_same .., ?_, (rest.set_other _ notAfter).set_other _ distinct.2.1.1⟩
    rw [Linked.set_other _ _ notHere]
    exact set_same ..

theorem Holds.removeAfter (holds : Holds heap (before ++ (p, v) :: (c, w) :: after))
    (distinct : (addresses (before ++ (p, v) :: (c, w) :: after)).Nodup) :
    Holds (set (set heap p (some ⟨v, start after⟩)) c none) (before ++ (p, v) :: after) := by
  simp only [addresses_append, addresses_cons, List.nodup_append, List.nodup_cons, List.mem_cons,
    not_or] at distinct
  obtain ⟨-, ⟨⟨notSame, notAfter⟩, removed, -⟩, apart⟩ := distinct
  have rest : Holds heap after := (holds.behind).2.2
  apply holds.replace
  · intro q member
    have notP : q ≠ p := apart q member p (Or.inl rfl)
    have notC : q ≠ c := apart q member c (Or.inr (Or.inl rfl))
    rw [Linked.set_other _ _ notC, Linked.set_other _ _ notP]
  · refine ⟨?_, (rest.set_other _ notAfter).set_other _ removed⟩
    rw [Linked.set_other _ _ notSame]
    exact set_same ..

theorem length_le_of_bounded {bound : Nat} (distinct : (addresses nodes).Nodup)
    (bounded : ∀ q ∈ addresses nodes, q < bound) : nodes.length ≤ bound := by
  have inside : addresses nodes ⊆ List.range bound := by
    intro q member
    exact List.mem_range.mpr (bounded q member)
  have counted := (List.subperm_of_subset distinct inside).length_le
  simpa [addresses] using counted

end Linked
