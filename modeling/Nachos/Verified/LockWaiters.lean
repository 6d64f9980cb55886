import Nachos.Verified.Monitor

/-!
# No stranded waiter

`Release` frees the lock and makes one waiter ready; that thread has to test the lock again,
and another may take it first.  While the lock is free, a thread that `Release` has woken and
that has not tested again is still on its way.
-/

namespace Nachos

open Queues Runs

namespace Threads

variable {k k' : Threads} {l t : Nat} {event : ThreadEvent}
  {history : List (Threads × ThreadEvent)}

/-- `Release`, called by the holder or by its `Wait`, takes `t` from the list of the lock. -/
def WakesFromLock (l t : Nat) (step : Threads × ThreadEvent × Threads) : Prop :=
  LeavesLock l step.2.1 ∧ step.1.lockHolder l = some step.1.currentThread ∧
    (step.1.queue (.lock l)).head? = some t

/-- In the steps of a run, the latest first, `Release` has taken `t` from the list of the lock,
and `t` has not tested `isHeld` since. -/
def Woken (l t : Nat) : List (Threads × ThreadEvent × Threads) → Prop
  | [] => False
  | step :: earlier => WakesFromLock l t step ∨
      (Woken l t earlier ∧ ¬ (step.1.currentThread = t ∧ TestsLock l step.1 step.2.1))

structure Contended (l : Nat) (history : List (Threads × ThreadEvent)) (k : Threads) : Prop where
  waiters : ∀ t, t ∈ k.queue (.lock l) → (k.control t).acquires = some l
  woken : ∀ t, Woken l t (transitions history k) →
    t < k.created ∧ k.Coming t ∧ (k.control t).acquires = some l
  free : k.isHeld l = false → k.queue (.lock l) ≠ [] → ∃ t, Woken l t (transitions history k)

/-- The step of a run that wakes a thread is one that frees the lock. -/
theorem WakesFromLock.coming (wakes : WakesFromLock l t (k, event, k'))
    (effect : LockEffect l k event k') : k'.Coming t := by
  obtain ⟨leaves, holder, front⟩ := wakes
  cases effect with
  | taken tests free held holder returned queue =>
    rcases tests with rfl | ⟨rfl, _⟩ <;> simp [LeavesLock] at leaves
  | queued tests held stays holder asleep queue =>
    rcases tests with rfl | ⟨rfl, _⟩ <;> simp [LeavesLock] at leaves
  | freed leaves holder free nobody queue woken => exact woken t front
  | same untested stays isHeld sameHolder queue => exact absurd holder (stays leaves)

theorem Contended.step (contended : Contended l history k) (placement : k.Placement)
    (taken : ThreadStep k event k') : Contended l ((k, event) :: history) k' := by
  have effect := placement.lockEffect (l := l) taken
  -- the threads in the list do not act
  have kept : ∀ t, t ∈ k.queue (.lock l) → (k'.control t).acquires = some l := by
    intro t member
    exact acquires_kept taken (placement.created_of_mem member)
      (contended.waiters t member) (placement.not_resumed_of_mem member taken)
  refine ⟨?_, ?_, ?_⟩
  · intro t member
    cases effect with
    | taken tests free held holder returned queue => exact kept t (queue ▸ member)
    | queued tests held stays holder asleep queue =>
      rw [queue] at member
      rcases List.mem_append.mp member with earlier | last
      · exact kept t earlier
      · rw [List.mem_singleton.mp last]
        exact asleep
    | freed leaves holder free nobody queue woken =>
      rw [queue] at member
      exact kept t (List.mem_of_mem_tail member)
    | same untested stays isHeld holder queue => exact kept t (queue ▸ member)
  · intro t woken
    rcases woken with wakes | ⟨earlier, untested⟩
    · have member : t ∈ k.queue (.lock l) := List.mem_of_mem_head? wakes.2.2
      exact ⟨Nat.lt_of_lt_of_le (placement.created_of_mem member) taken.created_le,
        wakes.coming effect, kept t member⟩
    · obtain ⟨older, coming, place⟩ := contended.woken t earlier
      have waits : ¬ (event = .resume ∧ k.currentThread = t) := by
        rintro ⟨rfl, rfl⟩
        exact untested ⟨rfl, .inr ⟨rfl, place⟩⟩
      refine ⟨Nat.lt_of_lt_of_le older taken.created_le, coming.step taken ?_ waits,
        acquires_kept taken older place waits⟩
      intro user
      simp [user, Continuation.acquires] at place
  · intro free waiting
    cases effect with
    | taken tests wasFree held holder returned queue =>
      rw [held] at free
      cases free
    | queued tests held stays holder asleep queue =>
      rw [stays] at free
      cases free
    | freed leaves holder isFree nobody queue woken =>
      -- the first thread was taken off the list in this step
      cases shape : k.queue (.lock l) with
      | nil => simp [queue, shape] at waiting
      | cons first rest => exact ⟨first, .inl ⟨leaves, holder, by simp [shape]⟩⟩
    | same untested stays isHeld holder queue =>
      obtain ⟨t, woken⟩ := contended.free (isHeld ▸ free) (queue ▸ waiting)
      exact ⟨t, .inr ⟨woken, fun tests => untested tests.2⟩⟩

theorem reachable_contended {values : Nat → BitVec 32}
    (run : Run ThreadStep (boot values) history k) (l : Nat) : Contended l history k := by
  induction run with
  | start => exact ⟨by simp [boot], fun t woken => woken.elim, by simp [boot]⟩
  | next earlier taken ih =>
    exact ih.step (reachable_placement earlier) taken

end Threads

/-- A free lock never has all its contenders asleep. -/
theorem free_lock_has_woken_thread {values : Nat → BitVec 32}
    {history : List (Threads × ThreadEvent)} {k : Threads}
    (run : Run ThreadStep (Threads.boot values) history k) {l : Nat}
    (free : k.isHeld l = false) (waiting : k.queue (.lock l) ≠ []) :
    ∃ t, Threads.Woken l t (transitions history k) ∧ k.Coming t := by
  have contended := Threads.reachable_contended run l
  obtain ⟨t, woken⟩ := contended.free free waiting
  exact ⟨t, woken, (contended.woken t woken).2.1⟩

/-- Two threads wait for a lock that the main thread releases. -/
theorem free_lock_with_two_contenders : ∃ history k,
    Run ThreadStep (Threads.boot fun _ => 0#32) history k ∧
      history.map Prod.snd = [.call (.release 0), .call (.acquire 0), .call (.acquire 0),
        .call .yield, .call (.acquire 0), .call .fork, .call .fork] ∧
      (k.isHeld 0 = false ∧ k.queue (.lock 0) = [2]) ∧
      ∃ t, Threads.Woken 0 t (transitions history k) ∧ k.Coming t := by
  refine labelled_run performThread_step (fun _ k => k.isHeld 0 = false ∧ k.queue (.lock 0) = [2])
    (by decide +kernel) fun history k run shape => ?_
  exact ⟨shape, free_lock_has_woken_thread run shape.1 (by simp [shape.2])⟩

end Nachos
