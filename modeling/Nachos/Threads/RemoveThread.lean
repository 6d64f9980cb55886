import Nachos.Threads.Thread

/-!
# `Scheduler::RemoveThread`

`KillSystemcall` ends with `RemoveThread`, which takes the victim off the ready list and leaves
it in `threadToBeDestroyed`.  `List::RemoveByElement` asserts that the item is on the list, and
when it removes the last element of several it sets `last` to `NULL`; the next `Append` then
writes through that pointer.
-/

namespace Nachos

open Queues Runs

structure Scheduling extends Threads where
  /-- `last` of the ready list is `NULL`, but `first` is not. -/
  lastIsNull : Bool

/-- The step calls `Append` for the ready list while there are threads on it.  `Yield` takes
the first thread off before it appends the current one; `Sleep` only takes threads off. -/
def Threads.appendsBehind (k : Threads) : ThreadEvent → Bool
  | .call .fork => k.queue .readyList ≠ []
  | .call .yield => 2 ≤ (k.queue .readyList).length
  | .call (.v s) | .handler s => k.queue (.semaphore s) ≠ [] ∧ k.queue .readyList ≠ []
  | .call (.release l) | .call (.wait _ l) =>
    k.isHeldByCurrentThread l ∧ k.queue (.lock l) ≠ [] ∧ k.queue .readyList ≠ []
  | .call (.signal c l) | .call (.broadcast c l) =>
    k.isHeldByCurrentThread l ∧ k.queue (.condition c) ≠ [] ∧ k.queue .readyList ≠ []
  | .call .finish | .call (.p _) | .call (.acquire _) | .resume | .idleReturn => false

namespace Scheduling

/-- `Scheduler::RemoveThread`.  The thread never goes on: its place is that of a finished one. -/
def removeThread (inputThread : Nat) (s : Scheduling) : Except Fault Scheduling :=
  let list := s.queue .readyList
  if inputThread ∈ list then
    .ok { s with
      queue := discard .readyList inputThread s.queue
      control := Function.update s.control inputThread .inFinish
      threadToBeDestroyed := some inputThread
      lastIsNull := (s.lastIsNull || decide (list.idxOf inputThread + 1 = list.length)) &&
        decide (list.erase inputThread ≠ []) }
  else .error .assertion

/-- The list has its `last` again once it was empty, and `Yield` that survives has emptied it. -/
def afterStep (s : Scheduling) (event : ThreadEvent) (k : Threads) : Scheduling :=
  { k with lastIsNull :=
      s.lastIsNull && decide (event ≠ .call .yield) && decide (k.queue .readyList ≠ []) }

def boot (values : Nat → BitVec 32) : Scheduling := { Threads.boot values with lastIsNull := false }

end Scheduling

inductive SchedulingEvent where
  | thread (event : ThreadEvent)
  /-- The current thread calls `RemoveThread`. -/
  | removeThread (inputThread : Nat)
  deriving DecidableEq, Repr

inductive SchedulingStep : Scheduling → SchedulingEvent → Scheduling → Prop where
  | thread {s : Scheduling} {event : ThreadEvent} {k : Threads}
      (taken : ThreadStep s.toThreads event k)
      (linked : ¬ (s.lastIsNull = true ∧ s.appendsBehind event = true)) :
      SchedulingStep s (.thread event) (s.afterStep event k)
  | removeThread {s s' : Scheduling} {inputThread : Nat} (user : s.InUser)
      (done : s.removeThread inputThread = .ok s') :
      SchedulingStep s (.removeThread inputThread) s'

def performScheduling (event : SchedulingEvent) (s : Scheduling) : Option Scheduling :=
  match event with
  | .thread event =>
    if s.lastIsNull = true ∧ s.appendsBehind event = true then none
    else (performThread event s.toThreads).map (s.afterStep event)
  | .removeThread inputThread =>
    if s.InUser then (s.removeThread inputThread).toOption else none

theorem performScheduling_step {event : SchedulingEvent} {s s' : Scheduling}
    (performed : performScheduling event s = some s') : SchedulingStep s event s' := by
  cases event with
  | thread event =>
    obtain ⟨linked, mapped⟩ := Option.ite_none_left_eq_some.mp performed
    obtain ⟨k, done, rfl⟩ := Option.map_eq_some_iff.mp mapped
    exact .thread (performThread_step done) linked
  | removeThread inputThread =>
    obtain ⟨user, done⟩ := Option.ite_none_right_eq_some.mp performed
    exact .removeThread user (toOption_eq_some done)

end Nachos
