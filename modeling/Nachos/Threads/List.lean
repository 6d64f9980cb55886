import Mathlib.Data.List.Basic
import Nachos.Threads.Utility

/-!
# Lists sorted by key

`list.cc`: the singly linked list of the thread package, with the routines that
`class PCB` uses on the list of its children.  The list is the sequence of its elements
from `first` on; `last` is the last of them.
-/

namespace Nachos

structure ListElement (α : Type) where
  key : Int
  item : α
  deriving DecidableEq, Repr

variable {α σ : Type}

def sortedInsert (item : α) (sortKey : Int) : List (ListElement α) → List (ListElement α)
  | [] => [⟨sortKey, item⟩]
  | first :: rest =>
    if sortKey < first.key then ⟨sortKey, item⟩ :: first :: rest
    else first :: sortedInsert item sortKey rest

/-- `List::SortedRemove`: the first element, whatever the key, and the rest of the list.
The C++ routine returns its item and stores its key through `keyPtr`. -/
def sortedRemove : List (ListElement α) → Option (ListElement α) × List (ListElement α)
  | [] => (none, [])
  | first :: rest => (some first, rest)

def search (sortKey : Int) : List (ListElement α) → Option α
  | [] => none
  | cur :: rest => if cur.key = sortKey then some cur.item else search sortKey rest

def mapcar (func : α → σ → Except Fault σ) : List (ListElement α) → σ → Except Fault σ
  | [], s => .ok s
  | cur :: rest, s => do
    let s ← func cur.item s
    mapcar func rest s

def SortedByKey (list : List (ListElement α)) : Prop :=
  list.Pairwise fun earlier later => earlier.key < later.key

variable {item : α} {sortKey : Int} {list : List (ListElement α)}

theorem mem_sortedInsert {element : ListElement α} :
    element ∈ sortedInsert item sortKey list ↔ element = ⟨sortKey, item⟩ ∨ element ∈ list := by
  induction list with
  | nil => simp [sortedInsert]
  | cons first rest ih =>
    simp only [sortedInsert]
    split
    next => simp
    next => rw [List.mem_cons, ih, List.mem_cons, or_left_comm]

theorem sortedInsert_sorted (sorted : SortedByKey list)
    (new : ∀ element ∈ list, element.key ≠ sortKey) :
    SortedByKey (sortedInsert item sortKey list) := by
  induction list with
  | nil => exact List.pairwise_singleton _ _
  | cons first rest ih =>
    obtain ⟨least, restSorted⟩ := List.pairwise_cons.mp sorted
    simp only [sortedInsert]
    split
    next before =>
      -- the new element comes before the first one, so before all
      refine List.pairwise_cons.mpr ⟨fun later member => ?_, sorted⟩
      obtain rfl | member := List.mem_cons.mp member
      · exact before
      · exact Int.lt_trans before (least later member)
    next notBefore =>
      have after : first.key < sortKey := by
        have different := new first List.mem_cons_self
        omega
      refine List.pairwise_cons.mpr ⟨fun later member => ?_, ?_⟩
      · obtain rfl | member := mem_sortedInsert.mp member
        · exact after
        · exact least later member
      · exact ih restSorted fun element member =>
          new element (List.mem_cons_of_mem _ member)

theorem search_eq_some (sorted : SortedByKey list) :
    search sortKey list = some item ↔ (⟨sortKey, item⟩ : ListElement α) ∈ list := by
  induction list with
  | nil => simp [search]
  | cons first rest ih =>
    obtain ⟨least, restSorted⟩ := List.pairwise_cons.mp sorted
    simp only [search]
    split
    next found =>
      constructor
      · intro isFirst
        cases isFirst
        exact List.mem_cons.mpr (Or.inl (by rw [← found]))
      · intro member
        obtain same | later := List.mem_cons.mp member
        · rw [← same]
        · exact absurd found (Int.ne_of_lt (least _ later))
    next other =>
      rw [ih restSorted, List.mem_cons]
      constructor
      · exact Or.inr
      · intro member
        obtain same | later := member
        · rw [← same] at other
          exact absurd rfl other
        · exact later

end Nachos
