import Nachos.Lib.Linked
import Nachos.Threads.List

/-!
# Linked lists

`class List` of `list.cc` with its pointers: `first`, `last`, and the `next` of each
`ListElement` on the heap.  `new` takes an address that was never used before.  A loop that
walks along the list is cut off after as many rounds as there were elements ever made; a loop
that is cut off never ends.
-/

namespace Nachos

open Linked Loops

variable {α : Type}

structure LinkedList (α : Type) where
  heap : Heap (ListElement α)
  nextRef : Nat
  first : Option Nat
  last : Option Nat

namespace LinkedList

def empty : LinkedList α := ⟨fun _ => none, 0, none, none⟩

def deref (s : LinkedList α) (ptr : Option Nat) : Except Fault (Nat × Cell (ListElement α)) :=
  match ptr with
  | none => .error .nullPointer
  | some p =>
    match s.heap p with
    | some cell => .ok (p, cell)
    | none => .error .danglingPointer

def setNext (s : LinkedList α) (ptr next : Option Nat) : Except Fault (LinkedList α) := do
  let (p, cell) ← s.deref ptr
  return { s with heap := set s.heap p (some { cell with next := next }) }

def newElement (s : LinkedList α) (item : α) (sortKey : Int) : LinkedList α :=
  { s with
    heap := set s.heap s.nextRef (some ⟨⟨sortKey, item⟩, none⟩)
    nextRef := s.nextRef + 1 }

def isEmpty (s : LinkedList α) : Bool := s.first.isNone

def append (item : α) (s : LinkedList α) : Except Fault (LinkedList α) := do
  let element := some s.nextRef
  let s := s.newElement item 0
  if s.isEmpty then
    return { s with first := element, last := element }
  else
    let s ← s.setNext s.last element
    return { s with last := element }

def prepend (item : α) (s : LinkedList α) : Except Fault (LinkedList α) := do
  let element := some s.nextRef
  let s := s.newElement item 0
  if s.isEmpty then
    return { s with first := element, last := element }
  else
    let s ← s.setNext element s.first
    return { s with first := element }

/-- The loop of `SortedInsert`: the element that the new one goes behind, or `none` when the
end of the list is reached. -/
def seek (s : LinkedList α) (sortKey : Int) : Nat → Option Nat → Except Fault (Option Nat)
  | 0, _ => .error .endlessLoop
  | fuel + 1, ptr => do
    let (p, cell) ← s.deref ptr
    if cell.next.isNone then return none
    else
      let (_, nextCell) ← s.deref cell.next
      if sortKey < nextCell.value.key then return some p
      else s.seek sortKey fuel cell.next

def sortedInsert (item : α) (sortKey : Int) (s : LinkedList α) : Except Fault (LinkedList α) := do
  let element := some s.nextRef
  let s := s.newElement item sortKey
  if s.isEmpty then
    return { s with first := element, last := element }
  else
    let (_, firstCell) ← s.deref s.first
    if sortKey < firstCell.value.key then
      let s ← s.setNext element s.first
      return { s with first := element }
    else
      match ← s.seek sortKey s.nextRef s.first with
      | some ptr =>
        let (_, cell) ← s.deref (some ptr)
        let s ← s.setNext element cell.next
        s.setNext (some ptr) element
      | none =>
        let s ← s.setNext s.last element
        return { s with last := element }

/-- `List::SortedRemove`: the item it returns, with the key it stores through `keyPtr`. -/
def sortedRemove (s : LinkedList α) : Except Fault (Option (ListElement α) × LinkedList α) := do
  if s.isEmpty then
    return (none, s)
  else
    let (element, cell) ← s.deref s.first
    let s :=
      if s.first = s.last then { s with first := none, last := none }
      else { s with first := cell.next }
    return (some cell.value, { s with heap := set s.heap element none })

def remove (s : LinkedList α) : Except Fault (Option α × LinkedList α) := do
  let (removed, s) ← s.sortedRemove
  return (removed.map ListElement.item, s)

variable [DecidableEq α]

def walk (s : LinkedList α) (e : α) :
    Nat → Option Nat → Option Nat → Except Fault (Option Nat × Option Nat)
  | 0, _, _ => .error .endlessLoop
  | fuel + 1, pcur, cur =>
    if cur.isNone then .ok (pcur, cur)
    else do
      let (_, cell) ← s.deref cur
      if cell.value.item = e then return (pcur, cur)
      else s.walk e fuel cur cell.next

def removeByElement (e : α) (s : LinkedList α) : Except Fault (α × LinkedList α) := do
  assert s.first.isSome
  let (pcur, cur) ← s.walk e (s.nextRef + 1) none s.first
  assert cur.isSome
  let (c, cell) ← s.deref cur
  let s ←
    if pcur.isNone then .ok { s with first := cell.next }
    else s.setNext pcur cell.next
  -- `last` is set to `NULL` also when elements are left
  let s := if s.last = cur then { s with last := none } else s
  return (cell.value.item, { s with heap := set s.heap c none })

end LinkedList

end Nachos
