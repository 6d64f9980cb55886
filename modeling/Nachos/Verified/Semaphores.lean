import Nachos.Verified.Monitor

/-!
# Semaphore accounting

`V` adds one to the value and makes one waiter ready, which has to test the value again.  The
value counts the calls that completed, and as long as threads wait, it is at most the number
of threads that are on their way to take a unit.  `value` is an `int`: one `V` too many makes
it negative.
-/

namespace Nachos

open Queues Runs

variable {values : Nat → BitVec 32}

namespace Threads

variable {k k' : Threads} {s t : Nat} {event : ThreadEvent}
  {history : List (Threads × ThreadEvent)}

def completedVs (s : Nat) : List (Threads × ThreadEvent × Threads) → Nat
  | [] => 0
  | (_, event, _) :: earlier => completedVs s earlier + if RaisesValue s event then 1 else 0

def completedPs (s : Nat) : List (Threads × ThreadEvent × Threads) → Nat
  | [] => 0
  | (k, event, k') :: earlier => completedPs s earlier +
      if TestsValue s k event ∧ k'.control k.currentThread = .user then 1 else 0

/-- The threads that a `V` has taken from the list and that have not tested the value since. -/
def awakened (s : Nat) : List (Threads × ThreadEvent × Threads) → List Nat
  | [] => []
  | (k, event, _) :: earlier =>
    if RaisesValue s event then (k.queue (.semaphore s)).head?.toList ++ awakened s earlier
    else if TestsValue s k event then (awakened s earlier).erase k.currentThread
    else awakened s earlier

/-! ## One step -/

inductive SemaphoreEffect (s : Nat) (k : Threads) (event : ThreadEvent) (k' : Threads) :
    Prop where
  | raised (raises : RaisesValue s event) (value : k'.value s = k.value s + 1)
      (queue : k'.queue (.semaphore s) = (k.queue (.semaphore s)).tail)
      (woken : ∀ t, (k.queue (.semaphore s)).head? = some t → k'.Coming t)
  | lowered (tests : TestsValue s k event) (positive : k.value s ≠ 0)
      (value : k'.value s = k.value s - 1) (returned : k'.control k.currentThread = .user)
      (queue : k'.queue (.semaphore s) = k.queue (.semaphore s))
  | queued (tests : TestsValue s k event) (zero : k.value s = 0) (value : k'.value s = k.value s)
      (asleep : k'.control k.currentThread = .inP s)
      (queue : k'.queue (.semaphore s) = k.queue (.semaphore s) ++ [k.currentThread])
  | same (unraised : ¬ RaisesValue s event) (untested : ¬ TestsValue s k event)
      (value : k'.value s = k.value s)
      (queue : k'.queue (.semaphore s) = k.queue (.semaphore s))

theorem SemaphoreEffect.value_same (effect : SemaphoreEffect s k event k')
    (unraised : ¬ RaisesValue s event) (untested : ¬ TestsValue s k event) :
    k'.value s = k.value s := by
  cases effect with
  | raised raises => exact absurd raises unraised
  | lowered tests | queued tests => exact absurd tests untested
  | same _ _ value => exact value

theorem TestsValue.unique {m : Nat} (tests : TestsValue s k event) (again : TestsValue m k event) :
    s = m := by
  rcases tests with rfl | ⟨rfl, place⟩
  · simpa [TestsValue] using again
  · simpa [TestsValue, place] using again

theorem TestsValue.not_raises {m : Nat} (tests : TestsValue m k event) : ¬ RaisesValue s event := by
  rcases tests with rfl | ⟨rfl, _⟩ <;> simp [RaisesValue]

/-- The routines of the locks and conditions are not about a semaphore. -/
theorem TestsLock.apart {l : Nat} (tests : TestsLock l k event) :
    ¬ RaisesValue s event ∧ ¬ TestsValue s k event := by
  rcases tests with rfl | ⟨rfl, place⟩
  · simp [RaisesValue, TestsValue]
  · refine ⟨by simp [RaisesValue], ?_⟩
    rintro (other | ⟨_, inP⟩)
    · cases other
    · simp [inP, Continuation.acquires] at place

theorem NeedsLock.apart {l : Nat} (needs : NeedsLock l event) (k : Threads) :
    ¬ RaisesValue s event ∧ ¬ TestsValue s k event := by
  rcases needs with rfl | ⟨c, rfl | rfl | rfl⟩ <;> simp [RaisesValue, TestsValue]

theorem Switched.sameSemaphore {m : Threads} (switched : Switched m k')
    (value : m.value s = k.value s) (queue : m.queue (.semaphore s) = k.queue (.semaphore s))
    (apart : ¬ RaisesValue s event ∧ ¬ TestsValue s k event) : SemaphoreEffect s k event k' := by
  refine .same apart.1 apart.2 ?_ ?_
  · rw [switched.value, value]
  · rw [switched.queue _ (by simp), queue]

theorem Placement.semaphoreEffect (placement : k.Placement) (taken : ThreadStep k event k') :
    SemaphoreEffect s k event k' := by
  obtain ⟨m, touch, switched⟩ := taken.effect
  cases touch with
  | none nothing =>
    refine switched.sameSemaphore rfl rfl ?_
    rcases nothing with rfl | rfl | rfl <;> simp [RaisesValue, TestsValue]
  | finish awake => exact switched.sameSemaphore rfl rfl (by simp [RaisesValue, TestsValue])
  | @lowered _ j awake tests positive =>
    by_cases same : s = j
    · subst same
      refine .lowered tests positive ?_ ?_ ?_
      · simp [switched.value, lowered, setControl]
      · exact switched.own (placement.awake awake).alive.1 (by simp)
      · rw [switched.queue _ (by simp)]
        rfl
    · exact switched.sameSemaphore (by simp [lowered, setControl, same]) rfl
        ⟨tests.not_raises, fun again => same (again.unique tests)⟩
  | @parkedInP _ j awake tests zero =>
    by_cases same : s = j
    · subst same
      refine .queued tests zero ?_ ?_ ?_
      · rw [switched.value]
        rfl
      · exact switched.own (m := k.append (.semaphore s)) (placement.awake awake).alive.1 (by simp)
      · rw [switched.queue _ (by simp)]
        simp [parked, append, setControl]
    · exact switched.sameSemaphore rfl (by simp [parked, append, setControl, same])
        ⟨tests.not_raises, fun again => same (again.unique tests)⟩
  | @raised _ j raises =>
    by_cases same : s = j
    · subst same
      refine .raised raises ?_ ?_ fun t front => switched.ready t ?_
      · simp [switched.value, Threads.semaphoreV]
      · rw [switched.queue _ (by simp)]
        exact wakeFirst_queue_self (by simp)
      · exact wakeFirst_front _ k (by simp) front
    · have apart : ¬ RaisesValue s event ∧ ¬ TestsValue s k event := by
        rcases raises with rfl | rfl <;> simp [RaisesValue, TestsValue, Ne.symm same]
      exact switched.sameSemaphore (by simp [Threads.semaphoreV, same])
        (wakeFirst_queue_of_ne (by simp) (by simpa using same)) apart
  | locked awake tests free => exact switched.sameSemaphore rfl rfl tests.apart
  | parkedInAcquire awake tests held here =>
    exact switched.sameSemaphore rfl (by simp [parked, append, setControl]) tests.apart
  | @parkedInWait c l awake holder =>
    have queue : (k.released l).queue (.semaphore s) = k.queue (.semaphore s) :=
      wakeFirst_queue_of_ne (by simp) (by simp)
    exact switched.sameSemaphore (congrFun wakeFirst_same.value s)
      (by simpa [parked, append, setControl] using queue) (by simp [RaisesValue, TestsValue])
  | released | signalled =>
    exact switched.sameSemaphore (congrFun wakeFirst_same.value s)
      (wakeFirst_queue_of_ne (by simp) (by simp)) (by simp [RaisesValue, TestsValue])
  | broadcast holder =>
    exact switched.sameSemaphore (congrFun (broadcastLoop_same _ k).value s)
      (broadcastLoop_queue_of_ne (by simp) (by simp) _ k) (by simp [RaisesValue, TestsValue])
  | refused needs other => exact switched.sameSemaphore rfl rfl (needs.apart k)

/-! ## Every run -/

theorem toInt_add_one {x : BitVec 32} (small : x.toInt < 2 ^ 31 - 1) :
    (x + 1).toInt = x.toInt + 1 := by
  rw [BitVec.toInt_eq_toNat_cond] at small ⊢
  rw [BitVec.toInt_eq_toNat_cond, BitVec.toNat_add]
  split at small <;> split <;> simp at * <;> omega

theorem toInt_sub_one {x : BitVec 32} (positive : 0 < x.toInt) :
    (x - 1).toInt = x.toInt - 1 := by
  rw [BitVec.toInt_eq_toNat_cond] at positive ⊢
  rw [BitVec.toInt_eq_toNat_cond, BitVec.toNat_sub]
  split at positive <;> split <;> simp at * <;> omega

theorem lowered_toInt (nonneg : 0 ≤ (k.value s).toInt) (positive : k.value s ≠ 0)
    (lowered : k'.value s = k.value s - 1) :
    0 < (k.value s).toInt ∧ (k'.value s).toInt = (k.value s).toInt - 1 := by
  have above : 0 < (k.value s).toInt := by
    rcases Int.lt_or_eq_of_le nonneg with above | zero
    · exact above
    · exact absurd (BitVec.toInt_inj.mp zero.symm) positive
  exact ⟨above, by rw [lowered, toInt_sub_one above]⟩

def NoOverflow (s : Nat) (k : Threads) (event : ThreadEvent) : Prop :=
  RaisesValue s event → (k.value s).toInt < 2 ^ 31 - 1

instance (s : Nat) (k : Threads) (event : ThreadEvent) : Decidable (NoOverflow s k event) :=
  inferInstanceAs (Decidable (_ → _))

structure Counted (s : Nat) (initial : Int) (history : List (Threads × ThreadEvent))
    (k : Threads) : Prop where
  value : (k.value s).toInt =
    initial + completedVs s (transitions history k) - completedPs s (transitions history k)
  nonneg : 0 ≤ (k.value s).toInt

/-- The threads in the list are in `P`; the awakened ones are different threads that are on
their way to test the value. -/
structure Awaited (s : Nat) (history : List (Threads × ThreadEvent)) (k : Threads) : Prop where
  waiters : ∀ t, t ∈ k.queue (.semaphore s) → k.control t = .inP s
  distinct : (awakened s (transitions history k)).Nodup
  coming : ∀ t, t ∈ awakened s (transitions history k) →
    t < k.created ∧ k.Coming t ∧ k.control t = .inP s

section Awakened

variable {earlier : List (Threads × ThreadEvent × Threads)}

theorem awakened_of_raises (raises : RaisesValue s event) :
    awakened s ((k, event, k') :: earlier) =
      (k.queue (.semaphore s)).head?.toList ++ awakened s earlier := by
  simp [awakened, raises]

theorem awakened_of_tests (tests : TestsValue s k event) :
    awakened s ((k, event, k') :: earlier) = (awakened s earlier).erase k.currentThread := by
  have unraised : ¬ RaisesValue s event := tests.not_raises
  simp [awakened, unraised, tests]

theorem awakened_of_apart (apart : ¬ RaisesValue s event ∧ ¬ TestsValue s k event) :
    awakened s ((k, event, k') :: earlier) = awakened s earlier := by
  simp [awakened, apart]

end Awakened

theorem Counted.step {initial : Int} (counted : Counted s initial history k)
    (guard : NoOverflow s k event) (effect : SemaphoreEffect s k event k') :
    Counted s initial ((k, event) :: history) k' := by
  obtain ⟨value, nonneg⟩ := counted
  cases effect with
  | raised raises raised queue woken =>
    have untested : ¬ TestsValue s k event := fun tests => tests.not_raises raises
    have now : (k'.value s).toInt = (k.value s).toInt + 1 := by
      rw [raised, toInt_add_one (guard raises)]
    refine ⟨?_, by omega⟩
    simp only [transitions_cons, completedVs, completedPs, raises, untested, false_and, if_true,
      if_false]
    omega
  | lowered tests positive lowered returned queue =>
    have unraised : ¬ RaisesValue s event := tests.not_raises
    obtain ⟨above, now⟩ := lowered_toInt nonneg positive lowered
    refine ⟨?_, by omega⟩
    simp only [transitions_cons, completedVs, completedPs, unraised, tests, returned, and_self,
      if_true, if_false]
    omega
  | queued tests zero same asleep queue =>
    have unraised : ¬ RaisesValue s event := tests.not_raises
    refine ⟨?_, same ▸ nonneg⟩
    simp only [transitions_cons, completedVs, completedPs, unraised, tests, asleep, reduceCtorEq,
      and_false, if_false, same]
    omega
  | same unraised untested same queue =>
    refine ⟨?_, same ▸ nonneg⟩
    simp only [transitions_cons, completedVs, completedPs, unraised, untested, false_and,
      if_false, same]
    omega

theorem inP_kept (taken : ThreadStep k event k') (older : t < k.created)
    (place : k.control t = .inP s) (waits : ¬ (event = .resume ∧ k.currentThread = t)) :
    k'.control t = .inP s :=
  (taken.control_eq older (by simp [place]) (by simp [place]) waits).trans place

theorem Awaited.waiters_kept (awaited : Awaited s history k) (placement : k.Placement)
    (taken : ThreadStep k event k') (member : t ∈ k.queue (.semaphore s)) :
    k'.control t = .inP s :=
  inP_kept taken (placement.created_of_mem member) (awaited.waiters t member)
    (placement.not_resumed_of_mem member taken)

/-- Threads that are on their way stay so, except the one that tests. -/
theorem Awaited.still_coming (awaited : Awaited s history k)
    (taken : ThreadStep k event k') (member : t ∈ awakened s (transitions history k))
    (untested : ¬ (TestsValue s k event ∧ k.currentThread = t)) :
    t < k'.created ∧ k'.Coming t ∧ k'.control t = .inP s := by
  obtain ⟨older, coming, place⟩ := awaited.coming t member
  have waits : ¬ (event = .resume ∧ k.currentThread = t) := by
    rintro ⟨rfl, rfl⟩
    exact untested ⟨.inr ⟨rfl, place⟩, rfl⟩
  exact ⟨Nat.lt_of_lt_of_le older taken.created_le, coming.step taken (by simp [place]) waits,
    inP_kept taken older place waits⟩

/-- The current thread tests the value and is no longer on its way. -/
theorem Awaited.tested (awaited : Awaited s history k) (taken : ThreadStep k event k')
    (tests : TestsValue s k event) :
    (awakened s (transitions ((k, event) :: history) k')).Nodup ∧
      ∀ t, t ∈ awakened s (transitions ((k, event) :: history) k') →
        t < k'.created ∧ k'.Coming t ∧ k'.control t = .inP s := by
  rw [transitions_cons, awakened_of_tests tests]
  refine ⟨awaited.distinct.erase _, fun t member => ?_⟩
  have both := (awaited.distinct.mem_erase_iff).mp member
  exact awaited.still_coming taken both.2 fun again => both.1 again.2.symm

theorem Awaited.step (awaited : Awaited s history k) (placement : k.Placement)
    (taken : ThreadStep k event k') : Awaited s ((k, event) :: history) k' := by
  have kept := fun t => awaited.waiters_kept (t := t) placement taken
  cases placement.semaphoreEffect (s := s) taken with
  | raised raises raised queue woken =>
    refine ⟨?_, ?_, ?_⟩
    · intro t member
      rw [queue] at member
      exact kept t (List.mem_of_mem_tail member)
    · rw [transitions_cons, awakened_of_raises raises]
      cases shape : k.queue (.semaphore s) with
      | nil => simpa [shape] using awaited.distinct
      | cons first rest =>
        -- the first thread waits, and the awakened ones do not
        have fresh : first ∉ awakened s (transitions history k) := fun member =>
          placement.not_coming_of_mem (q := .semaphore s) (by simp) (by simp [shape])
            (awaited.coming first member).2.1
        simpa [fresh] using awaited.distinct
    · intro t member
      rw [transitions_cons, awakened_of_raises raises] at member
      rcases List.mem_append.mp member with first | earlier
      · have front : (k.queue (.semaphore s)).head? = some t := by simpa using first
        have waits : t ∈ k.queue (.semaphore s) := List.mem_of_mem_head? front
        exact ⟨Nat.lt_of_lt_of_le (placement.created_of_mem waits) taken.created_le, woken t front,
          kept t waits⟩
      · exact awaited.still_coming taken earlier fun tests => tests.1.not_raises raises
  | lowered tests positive lowered returned queue =>
    obtain ⟨distinct, coming⟩ := awaited.tested taken tests
    exact ⟨fun t member => kept t (queue ▸ member), distinct, coming⟩
  | queued tests zero same asleep queue =>
    obtain ⟨distinct, coming⟩ := awaited.tested taken tests
    refine ⟨fun t member => ?_, distinct, coming⟩
    rw [queue] at member
    rcases List.mem_append.mp member with earlier | last
    · exact kept t earlier
    · rw [List.mem_singleton.mp last]
      exact asleep
  | same unraised untested same queue =>
    have list : awakened s ((k, event, k') :: transitions history k) =
        awakened s (transitions history k) := awakened_of_apart ⟨unraised, untested⟩
    refine ⟨fun t member => kept t (queue ▸ member), ?_, fun t member => ?_⟩
    · rw [transitions_cons, list]
      exact awaited.distinct
    · rw [transitions_cons, list] at member
      exact awaited.still_coming taken member fun tests => untested tests.1

/-- While threads wait, there are as many awakened threads as units. -/
theorem enough_awakened (effect : SemaphoreEffect s k event k')
    (enough : k.queue (.semaphore s) ≠ [] →
      (k.value s).toNat ≤ (awakened s (transitions history k)).length)
    (waiting : k'.queue (.semaphore s) ≠ []) :
    (k'.value s).toNat ≤ (awakened s (transitions ((k, event) :: history) k')).length := by
  cases effect with
  | raised raises raised queue woken =>
    rw [transitions_cons, awakened_of_raises raises, raised]
    cases shape : k.queue (.semaphore s) with
    | nil => simp [queue, shape] at waiting
    | cons first rest =>
      have before := enough (by simp [shape])
      simp only [List.head?_cons, Option.toList_some, List.singleton_append, List.length_cons]
      bv_omega
  | lowered tests positive lowered returned queue =>
    have before := enough (queue ▸ waiting)
    rw [transitions_cons, awakened_of_tests tests, List.length_erase, lowered]
    split <;> bv_omega
  | queued tests zero same asleep queue => simp [same, zero]
  | same unraised untested same queue =>
    rw [transitions_cons, awakened_of_apart ⟨unraised, untested⟩, same]
    exact enough (queue ▸ waiting)

theorem reachable_awaited (run : Run ThreadStep (boot values) history k) (s : Nat) :
    Awaited s history k := by
  induction run with
  | start => exact ⟨by simp [boot], by simp [awakened], by simp [awakened]⟩
  | next earlier taken ih =>
    exact ih.step (reachable_placement earlier) taken

theorem reachable_enough (run : Run ThreadStep (boot values) history k) (s : Nat)
    (waiting : k.queue (.semaphore s) ≠ []) :
    (k.value s).toNat ≤ (awakened s (transitions history k)).length := by
  induction run with
  | start => simp [boot] at waiting
  | next earlier taken ih =>
    exact enough_awakened ((reachable_placement earlier).semaphoreEffect taken) ih
      waiting

theorem reachable_counted (initial : 0 ≤ (values s).toInt)
    (run : Run ThreadStep (boot values) history k) (guarded : Guarded (NoOverflow s) history) :
    Counted s (values s).toInt history k := by
  induction run with
  | start => exact ⟨by simp [boot, completedVs, completedPs], initial⟩
  | next earlier taken ih =>
    exact (ih guarded.tail).step guarded.head
      ((reachable_placement earlier).semaphoreEffect taken)

end Threads

open Threads in
/-- The value of a semaphore is what the completed calls leave, and while threads wait it is at
most the number of threads that were awakened and are on their way to test it. -/
theorem semaphore_accounting {values : Nat → BitVec 32} {s : Nat}
    (initial : 0 ≤ (values s).toInt) {history : List (Threads × ThreadEvent)} {k : Threads}
    (run : Run ThreadStep (Threads.boot values) history k)
    (guarded : Guarded (NoOverflow s) history) :
    (k.value s).toInt = (values s).toInt + completedVs s (transitions history k) -
        completedPs s (transitions history k) ∧
      0 ≤ (k.value s).toInt ∧
      (k.queue (.semaphore s) ≠ [] →
        (k.value s).toInt ≤ (awakened s (transitions history k)).length) ∧
      (awakened s (transitions history k)).Nodup ∧
      ∀ t, t ∈ awakened s (transitions history k) → k.Coming t ∧ k.control t = .inP s := by
  have counted := reachable_counted initial run guarded
  have awaited := reachable_awaited run s
  refine ⟨counted.value, counted.nonneg, fun waiting => ?_, awaited.distinct,
    fun t member => (awaited.coming t member).2⟩
  have enough := reachable_enough run s waiting
  have unsigned : (k.value s).toInt ≤ (k.value s).toNat := by
    rw [BitVec.toInt_eq_toNat_cond]
    split <;> omega
  omega

open Threads in
/-- A `V` awakens one of two waiting threads. -/
theorem semaphore_with_two_waiters : ∃ history k,
    Run ThreadStep (Threads.boot fun _ => 0#32) history k ∧
      history.map Prod.snd = [.handler 0, .call (.p 0), .call (.p 0), .call .fork] ∧
      k.queue (.semaphore 0) = [1] ∧ (k.value 0).toInt = 1 ∧
      1 ≤ (awakened 0 (transitions history k)).length := by
  refine labelled_run performThread_step (fun history k => k.queue (.semaphore 0) = [1] ∧
      (k.value 0).toInt = 1 ∧ Guarded (NoOverflow 0) history)
    (by decide +kernel) fun history k run shape => ?_
  obtain ⟨waiting, one, guarded⟩ := shape
  have accounting := semaphore_accounting (s := 0) (by simp) run guarded
  refine ⟨waiting, one, ?_⟩
  have enough := accounting.2.2.1 (by simp [waiting])
  omega

/-- `V` on a semaphore that was created with the greatest `int` makes its value negative. -/
theorem semaphore_value_overflows : ∃ history k,
    Run ThreadStep (Threads.boot fun _ => 2147483647#32) history k ∧
      history.map Prod.snd = [.call (.v 0)] ∧ (k.value 0).toInt = -2147483648 := by
  exact labelled_run performThread_step _ (by decide +kernel) fun _ _ _ checked => checked

end Nachos
