import Nachos.Lib.Runs
import Nachos.Threads.LinkedList

/-!
# The representation of lists

The pointers of a `List` stand for a sequence of elements: a chain of cells from `first` to
`last`.  Each routine does to the chain what the function of the same name does to the
sequence, with one exception: `RemoveByElement` sets `last` to `NULL` when it takes out the
last element, also when others are left.
-/

namespace Nachos

open Linked Loops Runs

variable {α : Type}

/-! ## Operations on sequences -/

inductive ListOp (α : Type) where
  | append (item : α)
  | prepend (item : α)
  | sortedInsert (item : α) (sortKey : Int)
  | remove
  | sortedRemove
  | removeByElement (e : α)
  deriving DecidableEq, Repr

def ListOp.onSequence [DecidableEq α] (elements : List (ListElement α)) :
    ListOp α → Option α × List (ListElement α)
  | .append item => (none, elements ++ [⟨0, item⟩])
  | .prepend item => (none, ⟨0, item⟩ :: elements)
  | .sortedInsert item sortKey => (none, Nachos.sortedInsert item sortKey elements)
  | .remove | .sortedRemove => (elements.head?.map ListElement.item, elements.tail)
  | .removeByElement e => (some e, elements.eraseP fun element => element.item = e)

def ListOp.Applies (elements : List (ListElement α)) : ListOp α → Prop
  | .removeByElement e => ∃ element ∈ elements, element.item = e
  | _ => True

instance [DecidableEq α] (elements : List (ListElement α)) (op : ListOp α) :
    Decidable (op.Applies elements) := by
  cases op <;> simp only [ListOp.Applies] <;> infer_instance

def ListOp.apply [DecidableEq α] (s : LinkedList α) :
    ListOp α → Except Fault (Option α × LinkedList α)
  | .append item => do return (none, ← s.append item)
  | .prepend item => do return (none, ← s.prepend item)
  | .sortedInsert item sortKey => do return (none, ← s.sortedInsert item sortKey)
  | .remove => s.remove
  | .sortedRemove => do
    let (removed, s) ← s.sortedRemove
    return (removed.map ListElement.item, s)
  | .removeByElement e => do
    let (item, s) ← s.removeByElement e
    return (some item, s)

/-! ## Chains of cells -/

structure Layout (s : LinkedList α) (nodes : List (Nat × ListElement α)) : Prop where
  first : s.first = start nodes
  last : s.last = finish nodes
  holds : Linked.Holds s.heap nodes
  distinct : (addresses nodes).Nodup
  bounded : ∀ p ∈ addresses nodes, p < s.nextRef

def elementsOf (nodes : List (Nat × ListElement α)) : List (ListElement α) := nodes.map Prod.snd

@[simp] theorem elementsOf_nil : elementsOf ([] : List (Nat × ListElement α)) = [] := rfl

@[simp] theorem elementsOf_cons (p : Nat) (v : ListElement α) (rest : List (Nat × ListElement α)) :
    elementsOf ((p, v) :: rest) = v :: elementsOf rest := rfl

@[simp] theorem elementsOf_append (before after : List (Nat × ListElement α)) :
    elementsOf (before ++ after) = elementsOf before ++ elementsOf after := List.map_append

/-- The chain from `first` is finite, ends at `last`, and holds the elements; one of the two
pointers is `NULL` if and only if the other is. -/
def Represents (s : LinkedList α) (elements : List (ListElement α)) : Prop :=
  (s.first = none ↔ s.last = none) ∧
    ∃ nodes, s.first = start nodes ∧ s.last = finish nodes ∧ Linked.Holds s.heap nodes ∧
      elementsOf nodes = elements

variable {s : LinkedList α} {nodes before after : List (Nat × ListElement α)} {p c : Nat}
  {v : ListElement α}

theorem Layout.represents (layout : Layout s nodes) : Represents s (elementsOf nodes) := by
  refine ⟨?_, nodes, layout.first, layout.last, layout.holds, rfl⟩
  rw [layout.first, layout.last, start_eq_none, finish_eq_none]

theorem empty_layout : Layout (.empty : LinkedList α) [] :=
  ⟨rfl, rfl, trivial, List.nodup_nil, by simp⟩

theorem Layout.fresh (layout : Layout s nodes) : s.nextRef ∉ addresses nodes := by
  intro member
  exact Nat.lt_irrefl _ (layout.bounded _ member)

theorem Layout.isEmpty (layout : Layout s nodes) : s.isEmpty = true ↔ nodes = [] := by
  rw [LinkedList.isEmpty, layout.first, Option.isNone_iff_eq_none, start_eq_none]

theorem deref_eq_ok {cell : Cell (ListElement α)} (found : s.heap p = some cell) :
    s.deref (some p) = .ok (p, cell) := by
  simp [LinkedList.deref, found]

theorem setNext_eq_ok {cell : Cell (ListElement α)} (found : s.heap p = some cell)
    (next : Option Nat) :
    s.setNext (some p) next =
      .ok { s with heap := set s.heap p (some { cell with next := next }) } := by
  simp [LinkedList.setNext, deref_eq_ok found, ok_bind, pure_eq]

/-! ## Putting an element in -/

section Insertion

variable {s : LinkedList α} {nodes : List (Nat × ListElement α)}

theorem Layout.grown (layout : Layout s nodes) {grown : List Nat}
    (inserted : grown.Perm (s.nextRef :: addresses nodes)) :
    grown.Nodup ∧ ∀ p ∈ grown, p < s.nextRef + 1 := by
  refine ⟨inserted.nodup_iff.mpr (List.nodup_cons.mpr ⟨layout.fresh, layout.distinct⟩), ?_⟩
  intro p member
  obtain rfl | old := List.mem_cons.mp (inserted.mem_iff.mp member)
  · exact Nat.lt_succ_self _
  · exact Nat.lt_succ_of_lt (layout.bounded p old)

theorem Layout.single (item : α) (sortKey : Int) :
    Layout { s.newElement item sortKey with first := some s.nextRef, last := some s.nextRef }
      [(s.nextRef, ⟨sortKey, item⟩)] := by
  refine ⟨rfl, rfl, ⟨set_same .., trivial⟩, by simp, ?_⟩
  intro p member
  simp only [addresses_cons, addresses_nil, List.mem_singleton] at member
  simp [LinkedList.newElement, member]

theorem Layout.front (layout : Layout s nodes) (item : α) (sortKey : Int) (nonempty : nodes ≠ []) :
    Layout
      { s.newElement item sortKey with
        heap := set (s.newElement item sortKey).heap s.nextRef (some ⟨⟨sortKey, item⟩, s.first⟩)
        first := some s.nextRef }
      ((s.nextRef, ⟨sortKey, item⟩) :: nodes) := by
  obtain ⟨distinct, bounded⟩ := layout.grown (.refl _)
  refine ⟨rfl, ?_, ?_, distinct, bounded⟩
  · obtain ⟨node, rest, rfl⟩ := List.exists_cons_of_ne_nil nonempty
    rw [finish_cons_cons]
    exact layout.last
  · simp only [LinkedList.newElement, set_set, layout.first]
    exact layout.holds.insertFront layout.fresh

theorem Layout.behind (layout : Layout s (before ++ (p, v) :: after)) (item : α) (sortKey : Int)
    (last : Option Nat) (isLast : last = finish ((s.nextRef, ⟨sortKey, item⟩) :: after)) :
    Layout
      { s.newElement item sortKey with
        heap := set (set s.heap s.nextRef (some ⟨⟨sortKey, item⟩, start after⟩)) p
          (some ⟨v, some s.nextRef⟩)
        last := last }
      (before ++ (p, v) :: (s.nextRef, ⟨sortKey, item⟩) :: after) := by
  have inserted : (addresses (before ++ (p, v) :: (s.nextRef, ⟨sortKey, item⟩) :: after)).Perm
      (s.nextRef :: addresses (before ++ (p, v) :: after)) := by
    have middle := @List.perm_middle _ s.nextRef (addresses before ++ [p]) (addresses after)
    simpa using middle
  obtain ⟨distinct, bounded⟩ := layout.grown inserted
  refine ⟨?_, ?_, layout.holds.insertAfter layout.distinct layout.fresh, distinct, bounded⟩
  · show s.first = _
    rw [layout.first]
    exact start_append_cons before p v v _ _
  · show last = _
    rw [finish_append_cons, finish_cons_cons]
    exact isLast

theorem Layout.newElement_holds (layout : Layout s nodes) (item : α) (sortKey : Int) :
    Linked.Holds (s.newElement item sortKey).heap nodes :=
  layout.holds.set_other _ layout.fresh

theorem Layout.atEnd (layout : Layout s (before ++ [(p, v)])) (item : α) (sortKey : Int) :
    ∃ s', (do
        let t ← (s.newElement item sortKey).setNext (s.newElement item sortKey).last
          (some s.nextRef)
        return { t with last := some s.nextRef }) = .ok s' ∧
      Layout s' (before ++ [(p, v), (s.nextRef, ⟨sortKey, item⟩)]) := by
  have found := (layout.newElement_holds item sortKey).lookup
  have isLast : (s.newElement item sortKey).last = some p := by
    show s.last = some p
    rw [layout.last, finish_concat]
  refine ⟨_, ?_, layout.behind item sortKey (some s.nextRef) rfl⟩
  rw [isLast, setNext_eq_ok found]
  rfl

theorem append_refines (layout : Layout s nodes) (item : α) :
    ∃ s' nodes', s.append item = .ok s' ∧ Layout s' nodes' ∧
      elementsOf nodes' = elementsOf nodes ++ [⟨0, item⟩] := by
  obtain rfl | ⟨before, ⟨p, v⟩, rfl⟩ := List.eq_nil_or_concat nodes
  · have isNull : s.first = none := layout.first
    refine ⟨_, _, ?_, Layout.single (s := s) item 0, rfl⟩
    simp [LinkedList.append, LinkedList.isEmpty, LinkedList.newElement, isNull, pure_eq]
  · rw [List.concat_eq_append] at layout ⊢
    have notEmpty : (s.newElement item 0).isEmpty ≠ true := by
      intro isEmpty
      simpa using layout.isEmpty.mp isEmpty
    obtain ⟨s', run, after⟩ := layout.atEnd item 0
    refine ⟨s', _, ?_, after, by simp⟩
    simp only [LinkedList.append, if_neg notEmpty]
    exact run

theorem Layout.atFront (layout : Layout s nodes) (item : α) (sortKey : Int) (nonempty : nodes ≠ []) :
    ∃ s', (do
        let t ← (s.newElement item sortKey).setNext (some s.nextRef)
          (s.newElement item sortKey).first
        return { t with first := some s.nextRef }) = .ok s' ∧
      Layout s' ((s.nextRef, ⟨sortKey, item⟩) :: nodes) := by
  have found : (s.newElement item sortKey).heap s.nextRef = some ⟨⟨sortKey, item⟩, none⟩ :=
    set_same ..
  refine ⟨_, ?_, layout.front item sortKey nonempty⟩
  rw [setNext_eq_ok found]
  rfl

theorem prepend_refines (layout : Layout s nodes) (item : α) :
    ∃ s' nodes', s.prepend item = .ok s' ∧ Layout s' nodes' ∧
      elementsOf nodes' = ⟨0, item⟩ :: elementsOf nodes := by
  by_cases isNil : nodes = []
  · subst isNil
    have isNull : s.first = none := layout.first
    refine ⟨_, _, ?_, Layout.single (s := s) item 0, rfl⟩
    simp [LinkedList.prepend, LinkedList.isEmpty, LinkedList.newElement, isNull, pure_eq]
  · have notEmpty : (s.newElement item 0).isEmpty ≠ true := by
      intro isEmpty
      exact isNil (layout.isEmpty.mp isEmpty)
    obtain ⟨s', run, after⟩ := layout.atFront item 0 isNil
    refine ⟨s', _, ?_, after, rfl⟩
    simp only [LinkedList.prepend, if_neg notEmpty]
    exact run

/-- The loop of `SortedInsert`, from a cell on whose element does not come after the new one:
it finds the cell that the new element goes behind, unless that is the last one. -/
theorem seek_spec {t : LinkedList α} (item : α) (sortKey : Int) {fuel p : Nat}
    {rest : List (Nat × ListElement α)} (holds : Linked.Holds t.heap ((p, v) :: rest))
    (enough : rest.length < fuel) (notBefore : ¬ sortKey < v.key) :
    (t.seek sortKey fuel (some p) = .ok none ∧
      sortedInsert item sortKey (elementsOf ((p, v) :: rest)) =
        elementsOf ((p, v) :: rest) ++ [⟨sortKey, item⟩]) ∨
    ∃ before q u after, (p, v) :: rest = before ++ (q, u) :: after ∧ after ≠ [] ∧
      t.seek sortKey fuel (some p) = .ok (some q) ∧
      sortedInsert item sortKey (elementsOf ((p, v) :: rest)) =
        elementsOf before ++ u :: ⟨sortKey, item⟩ :: elementsOf after := by
  induction rest generalizing fuel p v with
  | nil =>
    left
    obtain ⟨fuel, rfl⟩ := Nat.exists_eq_succ_of_ne_zero (Nat.ne_of_gt enough)
    refine ⟨?_, by simp [sortedInsert, notBefore]⟩
    simp [LinkedList.seek, deref_eq_ok holds.1, ok_bind, pure_eq]
  | cons node rest ih =>
    obtain ⟨q, u⟩ := node
    obtain ⟨fuel, rfl⟩ := Nat.exists_eq_succ_of_ne_zero (Nat.ne_of_gt (Nat.lt_of_le_of_lt
      (Nat.zero_le _) enough))
    obtain ⟨here, behind⟩ := holds
    by_cases before : sortKey < u.key
    · right
      refine ⟨[], p, v, (q, u) :: rest, rfl, by simp, ?_, by simp [sortedInsert, notBefore, before]⟩
      simp [LinkedList.seek, deref_eq_ok here, deref_eq_ok behind.1, before, ok_bind, pure_eq]
    · have onward : t.seek sortKey (fuel + 1) (some p) = t.seek sortKey fuel (some q) := by
        simp [LinkedList.seek, deref_eq_ok here, deref_eq_ok behind.1, before, ok_bind]
      have step : sortedInsert item sortKey (elementsOf ((p, v) :: (q, u) :: rest)) =
          v :: sortedInsert item sortKey (elementsOf ((q, u) :: rest)) := by
        simp [sortedInsert, notBefore]
      rw [onward, step]
      obtain ⟨run, inserted⟩ | ⟨earlier, r, w, after, split, more, run, inserted⟩ :=
        ih behind (Nat.lt_of_succ_lt_succ enough) before
      · left
        exact ⟨run, by rw [inserted]; rfl⟩
      · right
        refine ⟨(p, v) :: earlier, r, w, after, by rw [split]; rfl, more, run, ?_⟩
        rw [inserted]
        rfl

theorem Layout.between (layout : Layout s (before ++ (p, v) :: after)) (item : α) (sortKey : Int)
    (more : after ≠ []) :
    ∃ s', (do
        let (_, cell) ← (s.newElement item sortKey).deref (some p)
        let t ← (s.newElement item sortKey).setNext (some s.nextRef) cell.next
        t.setNext (some p) (some s.nextRef)) = .ok s' ∧
      Layout s' (before ++ (p, v) :: (s.nextRef, ⟨sortKey, item⟩) :: after) := by
  have found := (layout.newElement_holds item sortKey).lookup
  have isNew : (s.newElement item sortKey).heap s.nextRef = some ⟨⟨sortKey, item⟩, none⟩ :=
    set_same ..
  have other : p ≠ s.nextRef := by
    intro same
    exact layout.fresh (by simp [← same])
  have kept : set (s.newElement item sortKey).heap s.nextRef (some ⟨⟨sortKey, item⟩, start after⟩) p =
      some ⟨v, start after⟩ := (set_other _ _ other).trans found
  have isLast : s.last = finish ((s.nextRef, ⟨sortKey, item⟩) :: after) := by
    obtain ⟨node, rest, rfl⟩ := List.exists_cons_of_ne_nil more
    rw [layout.last, finish_append_cons, finish_cons_cons, finish_cons_cons]
  refine ⟨_, ?_, layout.behind item sortKey s.last isLast⟩
  simp only [deref_eq_ok found, setNext_eq_ok isNew, ok_bind]
  rw [setNext_eq_ok (s := { s.newElement item sortKey with
    heap := set (s.newElement item sortKey).heap s.nextRef _ }) kept]
  simp only [LinkedList.newElement, set_set]

theorem sortedInsert_refines (layout : Layout s nodes) (item : α) (sortKey : Int) :
    ∃ s' nodes', s.sortedInsert item sortKey = .ok s' ∧ Layout s' nodes' ∧
      elementsOf nodes' = sortedInsert item sortKey (elementsOf nodes) := by
  have holds := layout.newElement_holds item sortKey
  cases nodes with
  | nil =>
    have isNull : s.first = none := layout.first
    refine ⟨_, _, ?_, Layout.single (s := s) item sortKey, rfl⟩
    simp [LinkedList.sortedInsert, LinkedList.isEmpty, LinkedList.newElement, isNull, pure_eq]
  | cons node rest =>
    obtain ⟨p, v⟩ := node
    have isFirst : (s.newElement item sortKey).first = some p := layout.first
    have notEmpty : (s.newElement item sortKey).isEmpty ≠ true := by
      simp [LinkedList.isEmpty, isFirst]
    simp only [LinkedList.sortedInsert, if_neg notEmpty, isFirst, deref_eq_ok holds.1]
    by_cases before : sortKey < v.key
    · obtain ⟨s', run, after⟩ := layout.atFront item sortKey (by simp)
      rw [isFirst] at run
      refine ⟨s', _, ?_, after, by simp [sortedInsert, before]⟩
      simp only [ok_bind, if_pos before] at run ⊢
      exact run
    · -- there are no more cells than addresses in use, so the loop ends
      have enough : rest.length < (s.newElement item sortKey).nextRef := by
        have counted := length_le_of_bounded layout.distinct layout.bounded
        simp only [List.length_cons] at counted
        show rest.length < s.nextRef + 1
        omega
      obtain ⟨sought, inserted⟩ | ⟨earlier, q, u, after, split, more, sought, inserted⟩ :=
        seek_spec item sortKey holds enough before
      · obtain ⟨initial, ⟨q, u⟩, ends⟩ := (List.eq_nil_or_concat ((p, v) :: rest)).resolve_left
          (by simp)
        rw [List.concat_eq_append] at ends
        rw [ends] at layout
        obtain ⟨s', run, after⟩ := layout.atEnd item sortKey
        refine ⟨s', _, ?_, after, ?_⟩
        · simp only [ok_bind, if_neg before, sought] at run ⊢
          exact run
        · rw [inserted, ends]
          simp
      · rw [split] at layout
        obtain ⟨s', run, after⟩ := layout.between item sortKey more
        refine ⟨s', _, ?_, after, ?_⟩
        · simp only [ok_bind, if_neg before, sought] at run ⊢
          exact run
        · rw [inserted]
          simp

end Insertion

/-! ## Taking an element out -/

section Removal

variable {s : LinkedList α} {nodes : List (Nat × ListElement α)}

theorem finish_eq_some (before : List (Nat × ListElement α))
    (distinct : (addresses (before ++ (c, v) :: after)).Nodup) :
    finish (before ++ (c, v) :: after) = some c ↔ after = [] := by
  rw [finish_append_cons]
  constructor
  · intro isLast
    obtain rfl | ⟨initial, ⟨p, u⟩, rfl⟩ := List.eq_nil_or_concat after
    · rfl
    · exfalso
      rw [List.concat_eq_append, ← List.cons_append, finish_concat] at isLast
      simp only [List.concat_eq_append, addresses_append, addresses_cons, addresses_nil,
        List.nodup_append, List.nodup_cons, List.mem_append, List.mem_singleton, not_or] at distinct
      exact distinct.2.1.1.2 (Option.some.inj isLast).symm
  · rintro rfl
    rfl

theorem Layout.isLast (layout : Layout s (before ++ (c, v) :: after)) :
    s.last = some c ↔ after = [] := by
  rw [layout.last]
  exact finish_eq_some before layout.distinct

theorem Layout.withoutFirst (layout : Layout s ((c, v) :: after)) :
    Layout
      { s with
        heap := set s.heap c none
        first := start after
        last := if after = [] then none else s.last } after := by
  have distinct := layout.distinct
  rw [addresses_cons, List.nodup_cons] at distinct
  refine ⟨rfl, ?_, layout.holds.2.set_other _ distinct.1, distinct.2, ?_⟩
  · by_cases isNil : after = []
    · simp [isNil]
    · obtain ⟨node, rest, rfl⟩ := List.exists_cons_of_ne_nil isNil
      simp only [if_neg isNil, layout.last]
      rfl
  · intro p member
    exact layout.bounded p (List.mem_cons_of_mem _ member)

theorem sortedRemove_refines (layout : Layout s nodes) :
    ∃ s' nodes', s.sortedRemove = .ok ((elementsOf nodes).head?, s') ∧ Layout s' nodes' ∧
      elementsOf nodes' = (elementsOf nodes).tail := by
  cases nodes with
  | nil =>
    have isNull : s.first = none := layout.first
    refine ⟨s, [], ?_, layout, rfl⟩
    simp [LinkedList.sortedRemove, LinkedList.isEmpty, isNull, pure_eq]
  | cons node after =>
    obtain ⟨c, v⟩ := node
    have isFirst : s.first = some c := layout.first
    have split : Layout s ([] ++ (c, v) :: after) := layout
    have isLast : s.first = s.last ↔ after = [] := by
      rw [isFirst, eq_comm]
      exact split.isLast
    refine ⟨_, after, ?_, layout.withoutFirst, rfl⟩
    simp only [LinkedList.sortedRemove, LinkedList.isEmpty, isLast]
    simp only [isFirst, deref_eq_ok layout.holds.1, ok_bind, pure_eq]
    by_cases isNil : after = []
    · simp [isNil]
    · simp [isNil]

/-- The chain without a cell that is neither the first nor the last. -/
theorem Layout.withoutMiddle {u v : ListElement α}
    (layout : Layout s (before ++ (p, u) :: (c, v) :: after)) (more : after ≠ []) :
    Layout { s with heap := set (set s.heap p (some ⟨u, start after⟩)) c none }
      (before ++ (p, u) :: after) := by
  have removed : (addresses (before ++ (p, u) :: after)).Sublist
      (addresses (before ++ (p, u) :: (c, v) :: after)) := by
    simp
  refine ⟨?_, ?_, layout.holds.removeAfter layout.distinct, layout.distinct.sublist removed,
    fun q member => layout.bounded q (removed.subset member)⟩
  · show s.first = _
    rw [layout.first]
    exact start_append_cons before p u u _ _
  · show s.last = _
    obtain ⟨node, rest, rfl⟩ := List.exists_cons_of_ne_nil more
    rw [layout.last, finish_append_cons, finish_append_cons]
    rfl

variable [DecidableEq α]

/-- The loop of `RemoveByElement` stops at the first cell with the item, and remembers the
cell before it. -/
theorem walk_spec {t : LinkedList α} {e : α} {fuel : Nat} {pcur : Option Nat}
    (holds : Linked.Holds t.heap (before ++ (c, v) :: after)) (enough : before.length < fuel)
    (skipped : ∀ node ∈ before, node.2.item ≠ e) (found : v.item = e) :
    t.walk e fuel pcur (start (before ++ (c, v) :: after)) =
      .ok (if before = [] then pcur else finish before, some c) := by
  induction before generalizing fuel pcur with
  | nil =>
    obtain ⟨fuel, rfl⟩ := Nat.exists_eq_succ_of_ne_zero (Nat.ne_of_gt enough)
    simp [LinkedList.walk, deref_eq_ok holds.1, found, ok_bind, pure_eq]
  | cons node rest ih =>
    obtain ⟨p, u⟩ := node
    obtain ⟨fuel, rfl⟩ := Nat.exists_eq_succ_of_ne_zero (Nat.ne_of_gt (Nat.lt_of_le_of_lt
      (Nat.zero_le _) enough))
    have other : u.item ≠ e := skipped (p, u) List.mem_cons_self
    have onward : t.walk e fuel (some p) (start (rest ++ (c, v) :: after)) =
        .ok (if rest = [] then some p else finish rest, some c) :=
      ih holds.2 (Nat.lt_of_succ_lt_succ enough)
        fun node member => skipped node (List.mem_cons_of_mem _ member)
    have here : t.heap p = some ⟨u, start (rest ++ (c, v) :: after)⟩ := holds.1
    simp only [List.cons_append, start_cons, LinkedList.walk, deref_eq_ok here, Option.isNone_some,
      Bool.false_eq_true, if_false, ok_bind, if_neg other, onward]
    cases rest with
    | nil => rfl
    | cons node' rest' => rfl

variable {e : α} {before after : List (Nat × ListElement α)} {c p : Nat} {u v : ListElement α}

theorem Layout.walk (layout : Layout s (before ++ (c, v) :: after))
    (skipped : ∀ node ∈ before, node.2.item ≠ e) (found : v.item = e) :
    s.walk e (s.nextRef + 1) none s.first =
      .ok (if before = [] then none else finish before, some c) := by
  rw [layout.first]
  apply walk_spec layout.holds _ skipped found
  have counted := length_le_of_bounded layout.distinct layout.bounded
  rw [List.length_append] at counted
  omega

theorem removeByElement_first (layout : Layout s ((c, v) :: after)) (found : v.item = e) :
    s.removeByElement e = .ok (e,
      { s with
        heap := set s.heap c none
        first := start after
        last := if after = [] then none else s.last }) := by
  have asSplit : Layout s ([] ++ (c, v) :: after) := layout
  have walked := asSplit.walk (by simp) found
  have isFirst : s.first = some c := layout.first
  rw [isFirst] at walked
  simp only [if_true] at walked
  simp only [LinkedList.removeByElement, isFirst, walked, assert, Option.isSome_some, if_true,
    deref_eq_ok layout.holds.1, Option.isNone_none, asSplit.isLast, found, ok_bind,
    pure_eq]
  by_cases isNil : after = []
  · simp [isNil]
  · simp [isNil]

theorem removeByElement_behind (layout : Layout s (before ++ (p, u) :: (c, v) :: after))
    (skipped : ∀ node ∈ before ++ [(p, u)], node.2.item ≠ e) (found : v.item = e) :
    s.removeByElement e = .ok (e,
      { s with
        heap := set (set s.heap p (some ⟨u, start after⟩)) c none
        last := if after = [] then none else s.last }) := by
  have regroup : before ++ (p, u) :: (c, v) :: after = (before ++ [(p, u)]) ++ (c, v) :: after := by
    simp
  have foundPrevious := layout.holds.lookup
  rw [regroup] at layout
  have walked := layout.walk skipped found
  have foundCell := layout.holds.lookup
  have notNull : s.first.isSome = true := by
    rw [layout.first, Option.isSome_iff_ne_none, ne_eq, start_eq_none]
    simp
  rw [finish_concat, if_neg (by simp)] at walked
  simp only [LinkedList.removeByElement, walked, assert, notNull, Option.isSome_some, if_true,
    deref_eq_ok foundCell, Option.isNone_some, Bool.false_eq_true, if_false,
    setNext_eq_ok foundPrevious, layout.isLast, found, ok_bind, pure_eq]
  by_cases isNil : after = []
  · simp [isNil]
  · simp [isNil]

theorem split_at_item (present : ∃ element ∈ elementsOf nodes, element.item = e) :
    ∃ before c v after, nodes = before ++ (c, v) :: after ∧ v.item = e ∧
      ∀ node ∈ before, node.2.item ≠ e := by
  induction nodes with
  | nil => simp at present
  | cons node rest ih =>
    obtain ⟨p, u⟩ := node
    by_cases here : u.item = e
    · exact ⟨[], p, u, rest, rfl, here, by simp⟩
    · have later : ∃ element ∈ elementsOf rest, element.item = e := by
        simpa [here] using present
      obtain ⟨before, c, v, after, rfl, found, skipped⟩ := ih later
      refine ⟨(p, u) :: before, c, v, after, rfl, found, ?_⟩
      intro node member
      obtain rfl | member := List.mem_cons.mp member
      · exact here
      · exact skipped node member

theorem not_earlier (skipped : ∀ node ∈ before, node.2.item ≠ e) :
    ∀ element ∈ elementsOf before, decide (element.item = e) = false := by
  intro element member
  obtain ⟨node, inBefore, rfl⟩ := List.mem_map.mp member
  simpa using skipped node inBefore

theorem eraseP_split (skipped : ∀ node ∈ before, node.2.item ≠ e) (found : v.item = e) :
    (elementsOf (before ++ (c, v) :: after)).eraseP (fun element => element.item = e) =
      elementsOf (before ++ after) := by
  have notEarlier : ∀ element ∈ elementsOf before, ¬ decide (element.item = e) = true := by
    simpa using not_earlier skipped
  rw [elementsOf_append, elementsOf_cons, List.eraseP_append_right _ notEarlier,
    List.eraseP_cons_of_pos (by simpa using found), elementsOf_append]

end Removal

/-! ## One operation -/

/-- `RemoveByElement` takes out the last element, and others are left. -/
def ListOp.RemovesTail [DecidableEq α] (elements : List (ListElement α)) : ListOp α → Prop
  | .removeByElement e =>
    2 ≤ elements.length ∧ elements.findIdx (fun element => element.item = e) + 1 = elements.length
  | _ => False

instance [DecidableEq α] (elements : List (ListElement α)) (op : ListOp α) :
    Decidable (op.RemovesTail elements) := by
  cases op <;> simp only [ListOp.RemovesTail] <;> infer_instance

section Operation

variable [DecidableEq α] {s : LinkedList α} {nodes before after : List (Nat × ListElement α)}
  {e : α} {c : Nat} {v : ListElement α}

theorem removesTail_split (skipped : ∀ node ∈ before, node.2.item ≠ e) (found : v.item = e) :
    (ListOp.removeByElement e).RemovesTail (elementsOf (before ++ (c, v) :: after)) ↔
      before ≠ [] ∧ after = [] := by
  have position : (elementsOf (before ++ (c, v) :: after)).findIdx
      (fun element => decide (element.item = e)) = before.length := by
    rw [elementsOf_append, elementsOf_cons, List.findIdx_append, List.findIdx_cons]
    simp only [found, decide_true, cond_true]
    rw [List.findIdx_eq_length_of_false (not_earlier skipped), if_neg (Nat.lt_irrefl _)]
    simp [elementsOf]
  simp only [ListOp.RemovesTail, position]
  simp only [elementsOf, List.length_map, List.length_append, List.length_cons,
    ← List.length_pos_iff, ← List.length_eq_zero_iff]
  omega

/-- The operations do to the pointers what they do to the sequence. -/
theorem ListOp.refines (layout : Layout s nodes) (op : ListOp α)
    (applies : op.Applies (elementsOf nodes)) (keeps : ¬ op.RemovesTail (elementsOf nodes)) :
    ∃ s' nodes', op.apply s = .ok ((op.onSequence (elementsOf nodes)).1, s') ∧ Layout s' nodes' ∧
      elementsOf nodes' = (op.onSequence (elementsOf nodes)).2 := by
  cases op with
  | append item =>
    obtain ⟨s', nodes', run, after, elements⟩ := append_refines layout item
    exact ⟨s', nodes', by simp only [ListOp.apply, run]; rfl, after, elements⟩
  | prepend item =>
    obtain ⟨s', nodes', run, after, elements⟩ := prepend_refines layout item
    exact ⟨s', nodes', by simp only [ListOp.apply, run]; rfl, after, elements⟩
  | sortedInsert item sortKey =>
    obtain ⟨s', nodes', run, after, elements⟩ := sortedInsert_refines layout item sortKey
    exact ⟨s', nodes', by simp only [ListOp.apply, run]; rfl, after, elements⟩
  | remove =>
    obtain ⟨s', nodes', run, after, elements⟩ := sortedRemove_refines layout
    exact ⟨s', nodes', by simp only [ListOp.apply, LinkedList.remove, run]; rfl, after, elements⟩
  | sortedRemove =>
    obtain ⟨s', nodes', run, after, elements⟩ := sortedRemove_refines layout
    exact ⟨s', nodes', by simp only [ListOp.apply, run]; rfl, after, elements⟩
  | removeByElement e =>
    obtain ⟨before, c, v, after, rfl, found, skipped⟩ := split_at_item applies
    rw [removesTail_split skipped found] at keeps
    simp only [ListOp.onSequence, eraseP_split skipped found]
    obtain rfl | ⟨initial, ⟨p, u⟩, rfl⟩ := List.eq_nil_or_concat before
    · refine ⟨_, after, ?_, Layout.withoutFirst layout, rfl⟩
      simp only [ListOp.apply, removeByElement_first layout found]
      rfl
    · simp only [List.concat_eq_append, List.append_assoc, List.singleton_append] at *
      have more : after ≠ [] := fun isNil => keeps ⟨by simp, isNil⟩
      refine ⟨_, initial ++ (p, u) :: after, ?_, layout.withoutMiddle more, rfl⟩
      simp only [ListOp.apply, removeByElement_behind layout (by simpa using skipped) found,
        if_neg more]
      rfl

/-- Taking out the last of several elements goes through, but leaves `last` at `NULL` and not
`first`. -/
theorem ListOp.loses_last (layout : Layout s nodes) {op : ListOp α}
    (applies : op.Applies (elementsOf nodes)) (tail : op.RemovesTail (elementsOf nodes)) :
    ∃ s', op.apply s = .ok ((op.onSequence (elementsOf nodes)).1, s') ∧
      s'.first ≠ none ∧ s'.last = none := by
  cases op with
  | removeByElement e =>
    obtain ⟨before, c, v, after, rfl, found, skipped⟩ := split_at_item applies
    obtain ⟨several, rfl⟩ := (removesTail_split skipped found).mp tail
    obtain ⟨initial, ⟨p, u⟩, rfl⟩ := (List.eq_nil_or_concat before).resolve_left several
    simp only [List.concat_eq_append, List.append_assoc, List.singleton_append] at layout skipped
    refine ⟨{ s with heap := set (set s.heap p (some ⟨u, none⟩)) c none, last := none },
      ?_, ?_, rfl⟩
    · simp only [ListOp.apply, removeByElement_behind layout (by simpa using skipped) found]
      rfl
    · show s.first ≠ none
      rw [layout.first, ne_eq, start_eq_none]
      simp
  | append _ | prepend _ | sortedInsert _ _ | remove | sortedRemove => exact tail.elim

omit [DecidableEq α] in
/-- After that, `Append` goes through a null pointer. -/
theorem append_without_last (notNull : s.first ≠ none) (isNull : s.last = none) (item : α) :
    s.append item = .error .nullPointer := by
  have notEmpty : (s.newElement item 0).isEmpty ≠ true := by
    simpa [LinkedList.isEmpty, LinkedList.newElement] using notNull
  have nothing : (s.newElement item 0).last = none := isNull
  simp only [LinkedList.append, if_neg notEmpty, nothing]
  rfl

/-- From a list with the right layout every operation goes through, and returns what it
should. -/
theorem ListOp.returns (layout : Layout s nodes) (op : ListOp α)
    (applies : op.Applies (elementsOf nodes)) :
    ∃ s', op.apply s = .ok ((op.onSequence (elementsOf nodes)).1, s') := by
  by_cases tail : op.RemovesTail (elementsOf nodes)
  · obtain ⟨s', run, -⟩ := ListOp.loses_last layout applies tail
    exact ⟨s', run⟩
  · obtain ⟨s', -, run, -⟩ := op.refines layout applies tail
    exact ⟨s', run⟩

end Operation

/-! ## Sequences of operations -/

section Sequences

variable [DecidableEq α]

abbrev Lists (α : Type) := LinkedList α × List (ListElement α)

inductive ListStep : Lists α → ListOp α → Lists α → Prop where
  | apply {s s' : LinkedList α} {elements : List (ListElement α)} {op : ListOp α}
      {returned : Option α} : op.Applies elements → op.apply s = .ok (returned, s') →
      ListStep (s, elements) op (s', (op.onSequence elements).2)

def performList (op : ListOp α) (lists : Lists α) : Option (Lists α) :=
  if op.Applies lists.2 then
    (op.apply lists.1).toOption.map fun result => (result.2, (op.onSequence lists.2).2)
  else none

theorem performList_step {op : ListOp α} {lists lists' : Lists α}
    (performed : performList op lists = some lists') : ListStep lists op lists' := by
  obtain ⟨applies, mapped⟩ := Option.ite_none_right_eq_some.mp performed
  obtain ⟨⟨returned, s'⟩, applied, rfl⟩ := Option.map_eq_some_iff.mp mapped
  exact .apply applies (toOption_eq_some applied)

/-- The pointers stand for the sequence, and every operation goes through from there, and
returns what it should. -/
def ListsAgree (lists : Lists α) : Prop :=
  Represents lists.1 lists.2 ∧ ∀ op : ListOp α, op.Applies lists.2 →
    ∃ s', op.apply lists.1 = .ok ((op.onSequence lists.2).1, s')

/-- A `List` stands for the right sequence in every state if and only if `RemoveByElement`
never takes out the last of several elements. -/
theorem list_representation_iff {history : List (Lists α × ListOp α)} {lists : Lists α}
    (run : Run ListStep (LinkedList.empty, []) history lists) :
    Throughout ListsAgree history lists ↔
      Guarded (fun before op => ¬ op.RemovesTail before.2) history := by
  apply run.throughout_iff_guarded
    (I := fun t => ∃ nodes, Layout t.1 nodes ∧ elementsOf nodes = t.2)
  · exact ⟨[], empty_layout, rfl⟩
  · intro t op t' invariant keeps step
    obtain ⟨applies, applied⟩ := step
    obtain ⟨nodes, layout, rfl⟩ := invariant
    obtain ⟨s', nodes', run, after, elements⟩ := op.refines layout applies keeps
    rw [applied] at run
    cases run
    exact ⟨nodes', after, elements⟩
  · intro t invariant
    obtain ⟨s, elements⟩ := t
    obtain ⟨nodes, layout, rfl⟩ := invariant
    exact ⟨layout.represents, fun op => op.returns layout⟩
  · intro t op t' invariant against step agree
    obtain ⟨applies, applied⟩ := step
    obtain ⟨nodes, layout, rfl⟩ := invariant
    obtain ⟨s', run, notNull, isNull⟩ :=
      ListOp.loses_last layout applies (not_not.mp against)
    rw [applied] at run
    cases run
    exact notNull (agree.1.1.mpr isNull)

end Sequences

/-- Taking out elements that are not last, and the last one when it is the only one. -/
theorem list_representation_after_removals : ∃ history lists,
    Run ListStep ((LinkedList.empty, []) : Lists Nat) history lists ∧
      history.map Prod.snd = [.append 4, .removeByElement 3, .remove, .sortedInsert 3 5,
        .removeByElement 2, .prepend 2, .append 1] ∧
      Throughout ListsAgree history lists := by
  refine labelled_run performList_step (fun history _ =>
      Guarded (fun before op => ¬ op.RemovesTail before.2) history) (by decide +kernel)
    fun history lists run kept => ?_
  exact (list_representation_iff run).mpr kept

/-- Two elements are appended, and the second is taken out: `last` is `NULL`, `first` is not,
and the next `Append` goes through a null pointer. -/
theorem removal_of_last_breaks_list : ∃ history lists,
    Run ListStep ((LinkedList.empty, []) : Lists Nat) history lists ∧
      history.map Prod.snd = [.removeByElement 2, .append 2, .append 1] ∧
      lists.1.first ≠ none ∧ lists.1.last = none ∧
      lists.1.append 3 = .error .nullPointer ∧
      ¬ Throughout ListsAgree history lists := by
  refine labelled_run performList_step (fun _ lists => lists.1.first ≠ none ∧ lists.1.last = none)
    (by decide +kernel) fun history lists _ checked => ?_
  obtain ⟨notNull, isNull⟩ := checked
  refine ⟨notNull, isNull, append_without_last notNull isNull 3, ?_⟩
  intro agree
  exact notNull (agree.2.1.1.mpr isNull)

end Nachos
