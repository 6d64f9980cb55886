import Nachos.Verified.ListRepresentation

/-!
# Sorted lists

A list that is changed by `SortedInsert` and `SortedRemove` only is a priority queue: the keys do
not decrease along it, an element of least key is removed first, and elements of the same key are
removed in the order in which they were inserted.
-/

namespace Nachos

open Linked Loops

variable {α : Type}

/-! ## Rearrangements that keep equal keys in order -/

def withKey (k : Int) (list : List (ListElement α)) : List (ListElement α) :=
  list.filter fun element => element.key = k

/-- The same elements, and those of each key in the same order. -/
structure SameOrder (list list' : List (ListElement α)) : Prop where
  perm : list.Perm list'
  withKey (k : Int) : withKey k list = withKey k list'

def Ascending (list : List (ListElement α)) : Prop :=
  list.Pairwise fun earlier later => earlier.key ≤ later.key

variable {item : α} {sortKey : Int} {list list' list'' : List (ListElement α)}

theorem SameOrder.refl (list : List (ListElement α)) : SameOrder list list := ⟨.refl _, fun _ => rfl⟩

theorem SameOrder.trans (first : SameOrder list list') (second : SameOrder list' list'') :
    SameOrder list list'' :=
  ⟨first.perm.trans second.perm, fun k => (first.withKey k).trans (second.withKey k)⟩

theorem SameOrder.append {more more' : List (ListElement α)} (first : SameOrder list list')
    (second : SameOrder more more') : SameOrder (list ++ more) (list' ++ more') :=
  ⟨first.perm.append second.perm, fun k => by
    simp only [Nachos.withKey, List.filter_append]
    exact congrArg₂ _ (first.withKey k) (second.withKey k)⟩

theorem sortedInsert_ascending (ascending : Ascending list) :
    Ascending (sortedInsert item sortKey list) := by
  induction list with
  | nil => exact List.pairwise_singleton _ _
  | cons first rest ih =>
    obtain ⟨least, others⟩ := List.pairwise_cons.mp ascending
    rw [sortedInsert]
    split
    next before =>
      refine List.pairwise_cons.mpr ⟨fun later member => ?_, ascending⟩
      cases List.mem_cons.mp member with
      | inl isFirst => rw [isFirst]; exact Int.le_of_lt before
      | inr isLater => exact Int.le_trans (Int.le_of_lt before) (least later isLater)
    next notBefore =>
      refine List.pairwise_cons.mpr ⟨fun later member => ?_, ih others⟩
      cases mem_sortedInsert.mp member with
      | inl isNew => rw [isNew]; exact Int.not_lt.mp notBefore
      | inr isLater => exact least later isLater

theorem sortedInsert_sameOrder (ascending : Ascending list) :
    SameOrder (sortedInsert item sortKey list) (list ++ [⟨sortKey, item⟩]) := by
  induction list with
  | nil => exact .refl _
  | cons first rest ih =>
    obtain ⟨least, others⟩ := List.pairwise_cons.mp ascending
    rw [sortedInsert]
    split
    next before =>
      refine ⟨(List.perm_append_singleton _ _).symm, fun k => ?_⟩
      simp only [withKey, List.filter_append]
      by_cases isKey : sortKey = k
      · -- the others have greater keys
        have none : withKey k (first :: rest) = [] := by
          apply List.filter_eq_nil_iff.mpr
          intro element member
          cases List.mem_cons.mp member with
          | inl isFirst => simp only [isFirst, decide_eq_true_eq]; omega
          | inr isLater =>
            have greater := least element isLater
            simp only [decide_eq_true_eq]
            omega
        rw [show List.filter _ (first :: rest) = [] from none, List.filter_cons,
          show List.filter _ (first :: rest) = [] from none]
        simp [isKey]
      · simp [isKey]
    next => exact (SameOrder.refl [first]).append (ih others)

/-! ## Sequences of insertions and removals -/

inductive SortedOp (α : Type) where
  | insert (item : α) (sortKey : Int)
  | remove
  deriving DecidableEq, Repr

def SortedOp.inserted : SortedOp α → Option (ListElement α)
  | .insert item sortKey => some ⟨sortKey, item⟩
  | .remove => none

def SortedOp.apply (s : LinkedList α) :
    SortedOp α → Except Fault (Option (ListElement α) × LinkedList α)
  | .insert item sortKey => do return (none, ← s.sortedInsert item sortKey)
  | .remove => s.sortedRemove

def performSorted : List (SortedOp α) → LinkedList α →
    Except Fault (List (ListElement α) × LinkedList α)
  | [], s => .ok ([], s)
  | op :: ops, s => do
    let (removed, s) ← op.apply s
    let (others, s) ← performSorted ops s
    return (removed.toList ++ others, s)

variable {s : LinkedList α} {nodes : List (Nat × ListElement α)}

theorem SortedOp.apply_ok (layout : Layout s nodes) (ascending : Ascending (elementsOf nodes))
    (op : SortedOp α) :
    ∃ removed s' nodes', op.apply s = .ok (removed, s') ∧ Layout s' nodes' ∧
      Ascending (elementsOf nodes') ∧ SameOrder (removed.toList ++ elementsOf nodes')
        (elementsOf nodes ++ op.inserted.toList) := by
  cases op with
  | insert item sortKey =>
    obtain ⟨s', nodes', run, layout', elements⟩ := sortedInsert_refines layout item sortKey
    refine ⟨none, s', nodes', bind_eq_ok.mpr ⟨s', run, rfl⟩, layout', ?_, ?_⟩
    · exact elements ▸ sortedInsert_ascending ascending
    · exact elements ▸ sortedInsert_sameOrder ascending
  | remove =>
    obtain ⟨s', nodes', run, layout', elements⟩ := sortedRemove_refines layout
    refine ⟨_, s', nodes', run, layout', ?_, ?_⟩
    · exact elements ▸ List.Pairwise.tail ascending
    · rw [elements, show (remove : SortedOp α).inserted.toList = [] from rfl, List.append_nil]
      cases elementsOf nodes with
      | nil | cons => exact .refl _

theorem performSorted_ok (ops : List (SortedOp α)) (layout : Layout s nodes)
    (ascending : Ascending (elementsOf nodes)) :
    ∃ removed s' nodes', performSorted ops s = .ok (removed, s') ∧ Layout s' nodes' ∧
      Ascending (elementsOf nodes') ∧ SameOrder (removed ++ elementsOf nodes')
        (elementsOf nodes ++ ops.filterMap SortedOp.inserted) := by
  induction ops generalizing s nodes with
  | nil => exact ⟨[], s, nodes, rfl, layout, ascending, by simpa using SameOrder.refl _⟩
  | cons op ops ih =>
    obtain ⟨removed, s₁, nodes₁, first, layout₁, ascending₁, same₁⟩ := op.apply_ok layout ascending
    obtain ⟨others, s₂, nodes₂, rest, layout₂, ascending₂, same₂⟩ :=
      ih layout₁ ascending₁
    refine ⟨removed.toList ++ others, s₂, nodes₂, ?_, layout₂, ascending₂, ?_⟩
    · exact bind_eq_ok.mpr ⟨_, first, bind_eq_ok.mpr ⟨_, rest, rfl⟩⟩
    · -- what is removed first stays in front of what happens to the rest
      have front : SameOrder (removed.toList ++ (others ++ elementsOf nodes₂))
          (removed.toList ++ (elementsOf nodes₁ ++ ops.filterMap SortedOp.inserted)) :=
        (SameOrder.refl _).append same₂
      have inserted : (op :: ops).filterMap SortedOp.inserted =
          op.inserted.toList ++ ops.filterMap SortedOp.inserted := by
        cases op with
        | insert | remove => rfl
      rw [inserted, List.append_assoc, ← List.append_assoc (elementsOf nodes)]
      exact front.trans (List.append_assoc .. ▸ same₁.append (.refl _))

/-- After every sequence of operations the keys ascend, and what was removed and what is left are
the elements that were inserted, those of each key in the order of insertion.  The next removal
gives an element of least key. -/
theorem sorted_list_is_stable_queue (ops : List (SortedOp α)) :
    ∃ removed s elements, performSorted ops .empty = .ok (removed, s) ∧ Represents s elements ∧
      Ascending elements ∧ SameOrder (removed ++ elements) (ops.filterMap SortedOp.inserted) ∧
      ∃ s', s.sortedRemove = .ok (elements.head?, s') ∧
        ∀ first ∈ elements.head?, ∀ element ∈ elements, first.key ≤ element.key := by
  obtain ⟨removed, s, nodes, run, layout, ascending, same⟩ :=
    performSorted_ok ops (empty_layout (α := α)) List.Pairwise.nil
  obtain ⟨s', _, next, _, _⟩ := sortedRemove_refines layout
  refine ⟨removed, s, elementsOf nodes, run, layout.represents, ascending, same, s', next, ?_⟩
  intro first isFirst element member
  cases elements : elementsOf nodes with
  | nil => simp [elements] at member
  | cons least rest =>
    rw [elements] at isFirst member ascending
    cases isFirst
    cases List.mem_cons.mp member with
    | inl isFirst => exact Int.le_of_eq (congrArg _ isFirst.symm)
    | inr later => exact (List.pairwise_cons.mp ascending).1 element later

end Nachos
