import Nachos.Threads.Thread

/-!
# `class SynchList`

A list with a lock and a condition variable of its own.  A thread may lose the CPU between any
two statements of `Append` and `Remove`, so each statement is a step; the statements that call a
routine of the lock or of the condition are the steps of that routine.
-/

namespace Nachos

open Runs

structure SynchList where
  lock : Nat
  listEmpty : Nat

inductive Position (α : Type) where
  | outside
  /-- In `Append`, in or after its `Acquire`. -/
  | appending (item : α)
  /-- The item is on the list. -/
  | appended
  | signalled
  /-- In `Remove`, in or after its `Acquire` or `Wait`: the next statement is the test of the
  loop. -/
  | testing
  /-- The list was not empty. -/
  | removing
  | removed (item : α)
  deriving DecidableEq, Repr

structure Channel (α : Type) where
  threads : Threads
  list : List α
  position : Nat → Position α

namespace Channel

variable {α : Type}

def here (s : Channel α) : Position α := s.position s.threads.currentThread

def goTo (place : Position α) (threads : Threads) (s : Channel α) : Channel α :=
  { s with
    threads := threads
    position := Function.update s.position s.threads.currentThread place }

/-- The next statement of `Append` or `Remove`.  `List::Remove` returns `NULL` for an empty
list, and then the `ASSERT` of `Remove` fails. -/
def statement (sync : SynchList) (s : Channel α) : Except Fault (Channel α) :=
  match s.here with
  | .outside => .ok s
  | .appending item => .ok (goTo .appended s.threads { s with list := s.list ++ [item] })
  | .appended => .ok (s.goTo .signalled (s.threads.signal sync.listEmpty sync.lock))
  | .signalled => .ok (s.goTo .outside (s.threads.release sync.lock))
  | .testing =>
    if s.list.isEmpty then
      (s.threads.wait sync.listEmpty sync.lock).map fun threads => s.goTo .testing threads
    else .ok (s.goTo .removing s.threads)
  | .removing =>
    match s.list with
    | [] => .error .assertion
    | item :: rest => .ok (goTo (.removed item) s.threads { s with list := rest })
  | .removed _ => .ok (s.goTo .outside (s.threads.release sync.lock))

def boot (values : Nat → BitVec 32) : Channel α := ⟨.boot values, [], fun _ => .outside⟩

end Channel

inductive ChannelEvent (α : Type) where
  /-- The current thread calls `Append`. -/
  | append (item : α)
  /-- The current thread calls `Remove`. -/
  | remove
  /-- The current thread runs its next statement. -/
  | statement
  /-- Everything else that may happen. -/
  | other (event : ThreadEvent)
  deriving DecidableEq, Repr

def Routine.Foreign (sync : SynchList) : Routine → Prop
  | .acquire l | .release l => l ≠ sync.lock
  | .wait c l | .signal c l | .broadcast c l => l ≠ sync.lock ∧ c ≠ sync.listEmpty
  | .fork | .yield | .finish | .p _ | .v _ => True

instance (sync : SynchList) : DecidablePred (Routine.Foreign sync)
  | .acquire l | .release l => inferInstanceAs (Decidable (l ≠ sync.lock))
  | .wait c l | .signal c l | .broadcast c l =>
    inferInstanceAs (Decidable (l ≠ sync.lock ∧ c ≠ sync.listEmpty))
  | .fork | .yield | .finish | .p _ | .v _ => inferInstanceAs (Decidable True)

def Channel.Allows {α : Type} (sync : SynchList) (s : Channel α) : ThreadEvent → Prop
  | .call c => c = .yield ∨ (s.here = .outside ∧ c.Foreign sync)
  | .resume | .handler _ | .idleReturn => True

instance {α : Type} [DecidableEq α] (sync : SynchList) (s : Channel α) :
    DecidablePred (s.Allows sync)
  | .call c => inferInstanceAs (Decidable (c = .yield ∨ (s.here = .outside ∧ c.Foreign sync)))
  | .resume | .handler _ | .idleReturn => inferInstanceAs (Decidable True)

inductive ChannelStep {α : Type} (sync : SynchList) :
    Channel α → ChannelEvent α → Channel α → Prop where
  | append {s : Channel α} {item : α} {threads : Threads} (user : s.threads.InUser)
      (outside : s.here = .outside)
      (done : (Routine.acquire sync.lock).apply s.threads = .ok threads) :
      ChannelStep sync s (.append item) (s.goTo (.appending item) threads)
  | remove {s : Channel α} {threads : Threads} (user : s.threads.InUser)
      (outside : s.here = .outside)
      (done : (Routine.acquire sync.lock).apply s.threads = .ok threads) :
      ChannelStep sync s .remove (s.goTo .testing threads)
  | statement {s s' : Channel α} (user : s.threads.InUser) (inside : s.here ≠ .outside)
      (done : s.statement sync = .ok s') : ChannelStep sync s .statement s'
  | other {s : Channel α} {event : ThreadEvent} {threads : Threads}
      (allowed : s.Allows sync event) (taken : ThreadStep s.threads event threads) :
      ChannelStep sync s (.other event) { s with threads := threads }

def performChannel {α : Type} [DecidableEq α] (sync : SynchList) (event : ChannelEvent α)
    (s : Channel α) : Option (Channel α) :=
  match event with
  | .append item =>
    if s.threads.InUser ∧ s.here = .outside then
      ((Routine.acquire sync.lock).apply s.threads).toOption.map (s.goTo (.appending item))
    else none
  | .remove =>
    if s.threads.InUser ∧ s.here = .outside then
      ((Routine.acquire sync.lock).apply s.threads).toOption.map (s.goTo .testing)
    else none
  | .statement =>
    if s.threads.InUser ∧ s.here ≠ .outside then (s.statement sync).toOption else none
  | .other event =>
    if s.Allows sync event then
      (performThread event s.threads).map fun threads => { s with threads := threads }
    else none

theorem performChannel_step {α : Type} [DecidableEq α] {sync : SynchList} {event : ChannelEvent α}
    {s s' : Channel α} (performed : performChannel sync event s = some s') :
    ChannelStep sync s event s' := by
  cases event with
  | append item =>
    obtain ⟨can, mapped⟩ := Option.ite_none_right_eq_some.mp performed
    obtain ⟨threads, done, rfl⟩ := Option.map_eq_some_iff.mp mapped
    exact .append can.1 can.2 (toOption_eq_some done)
  | remove =>
    obtain ⟨can, mapped⟩ := Option.ite_none_right_eq_some.mp performed
    obtain ⟨threads, done, rfl⟩ := Option.map_eq_some_iff.mp mapped
    exact .remove can.1 can.2 (toOption_eq_some done)
  | statement =>
    obtain ⟨can, done⟩ := Option.ite_none_right_eq_some.mp performed
    exact .statement can.1 can.2 (toOption_eq_some done)
  | other event =>
    obtain ⟨allowed, mapped⟩ := Option.ite_none_right_eq_some.mp performed
    obtain ⟨threads, done, rfl⟩ := Option.map_eq_some_iff.mp mapped
    exact .other allowed (performThread_step done)

end Nachos
