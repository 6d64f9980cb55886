import Nachos.Verified.ThreadPlacement

/-!
# Locks and condition variables as a monitor

`LockEffect` lists what one step can do to one lock.  From it: the thread that `lockHolder`
names is the one that is past `Acquire` or `Wait` and has not left, so there is at most one.
-/

namespace Nachos

open Queues Runs

variable {m c : Nat}

namespace Threads

def LeavesLock (l : Nat) (event : ThreadEvent) : Prop :=
  event = .call (.release l) ∨ ∃ c, event = .call (.wait c l)

inductive LockEffect (l : Nat) (k : Threads) (event : ThreadEvent) (k' : Threads) : Prop where
  /-- `Acquire` or `Wait` returns. -/
  | taken (tests : TestsLock l k event) (free : k.isHeld l = false) (held : k'.isHeld l = true)
      (holder : k'.lockHolder l = some k.currentThread)
      (returned : k'.control k.currentThread = .user)
      (queue : k'.queue (.lock l) = k.queue (.lock l))
  /-- The lock is held, and the current thread sleeps. -/
  | queued (tests : TestsLock l k event) (held : k.isHeld l = true)
      (stays : k'.isHeld l = true) (holder : k'.lockHolder l = k.lockHolder l)
      (asleep : (k'.control k.currentThread).acquires = some l)
      (queue : k'.queue (.lock l) = k.queue (.lock l) ++ [k.currentThread])
  /-- The holder leaves and wakes the first thread. -/
  | freed (leaves : LeavesLock l event) (holder : k.lockHolder l = some k.currentThread)
      (free : k'.isHeld l = false) (nobody : k'.lockHolder l = none)
      (queue : k'.queue (.lock l) = (k.queue (.lock l)).tail)
      (woken : ∀ t, (k.queue (.lock l)).head? = some t → k'.Coming t)
  | same (untested : ¬ TestsLock l k event)
      (stays : LeavesLock l event → k.lockHolder l ≠ some k.currentThread)
      (isHeld : k'.isHeld l = k.isHeld l) (holder : k'.lockHolder l = k.lockHolder l)
      (queue : k'.queue (.lock l) = k.queue (.lock l))

variable {k k' : Threads} {l : Nat} {t : Nat} {event : ThreadEvent}

/-! ## One step -/

theorem TestsLock.unique (tests : TestsLock l k event) (again : TestsLock m k event) :
    l = m := by
  rcases tests with rfl | ⟨rfl, place⟩
  · simpa [TestsLock] using again
  · simpa [TestsLock, place] using again

theorem TestsLock.not_leaves (tests : TestsLock m k event) : ¬ LeavesLock l event := by
  rcases tests with rfl | ⟨rfl, _⟩ <;> simp [LeavesLock]

theorem LeavesLock.not_tests (leaves : LeavesLock m event) : ¬ TestsLock l k event := by
  rcases leaves with rfl | ⟨c, rfl⟩ <;> simp [TestsLock]

theorem NeedsLock.not_tests (needs : NeedsLock m event) : ¬ TestsLock l k event := by
  rcases needs with rfl | ⟨c, rfl | rfl | rfl⟩ <;> simp [TestsLock]

theorem LeavesLock.needs (leaves : LeavesLock l event) : NeedsLock l event := by
  rcases leaves with rfl | ⟨c, rfl⟩
  · exact .inl rfl
  · exact .inr ⟨c, .inl rfl⟩

theorem LeavesLock.lock_eq (leaves : LeavesLock l event) (needs : NeedsLock m event) :
    l = m := by
  rcases leaves with rfl | ⟨c, rfl⟩ <;> simpa [NeedsLock] using needs

theorem TestsValue.apart {s : Nat} (tests : TestsValue s k event) :
    ¬ TestsLock l k event ∧ ¬ LeavesLock l event := by
  rcases tests with rfl | ⟨rfl, place⟩
  · simp [TestsLock, LeavesLock]
  · simp [TestsLock, LeavesLock, place, Continuation.acquires]

theorem RaisesValue.apart {s : Nat} (raises : RaisesValue s event) (k : Threads) :
    ¬ TestsLock l k event ∧ ¬ LeavesLock l event := by
  rcases raises with rfl | rfl <;> simp [TestsLock, LeavesLock]

theorem Switched.sameLock {m : Threads} (switched : Switched m k')
    (isHeld : m.isHeld l = k.isHeld l) (holder : m.lockHolder l = k.lockHolder l)
    (queue : m.queue (.lock l) = k.queue (.lock l)) (untested : ¬ TestsLock l k event)
    (stays : LeavesLock l event → k.lockHolder l ≠ some k.currentThread) :
    LockEffect l k event k' := by
  refine .same untested stays ?_ ?_ ?_
  · rw [switched.isHeld, isHeld]
  · rw [switched.lockHolder, holder]
  · rw [switched.queue _ (by simp), queue]

theorem released_lock (l : Nat) (k : Threads) :
    (k.released l).isHeld l = false ∧ (k.released l).lockHolder l = none ∧
      (k.released l).queue (.lock l) = (k.queue (.lock l)).tail ∧
      ∀ t, (k.queue (.lock l)).head? = some t → t ∈ (k.released l).queue .readyList :=
  ⟨by simp [released], by simp [released], wakeFirst_queue_self (by simp),
    fun _ front => wakeFirst_front _ k (by simp) front⟩

theorem released_other (other : l ≠ m) (k : Threads) :
    (k.released m).isHeld l = k.isHeld l ∧ (k.released m).lockHolder l = k.lockHolder l ∧
      (k.released m).queue (.lock l) = k.queue (.lock l) :=
  ⟨by simp [released, other], by simp [released, other],
    wakeFirst_queue_of_ne (by simp) (by simpa using other)⟩

theorem released_lockEffect {j : Nat} {m : Threads} (switched : Switched m k')
    (leaves : LeavesLock j event) (holder : k.lockHolder j = some k.currentThread)
    (isHeld : m.isHeld = (k.released j).isHeld)
    (lockHolder : m.lockHolder = (k.released j).lockHolder)
    (queue : m.queue (.lock l) = (k.released j).queue (.lock l))
    (ready : m.queue .readyList = (k.released j).queue .readyList) : LockEffect l k event k' := by
  by_cases same : l = j
  · subst same
    obtain ⟨free, nobody, tail, woken⟩ := released_lock l k
    refine .freed leaves holder ?_ ?_ ?_ fun t front => switched.ready t ?_
    · rw [switched.isHeld, isHeld, free]
    · rw [switched.lockHolder, lockHolder, nobody]
    · rw [switched.queue _ (by simp), queue, tail]
    · rw [ready]
      exact woken t front
  · obtain ⟨sameHeld, sameHolder, sameQueue⟩ := released_other same k
    exact switched.sameLock (isHeld ▸ sameHeld) (lockHolder ▸ sameHolder) (queue.trans sameQueue)
      leaves.not_tests fun again => absurd (again.lock_eq leaves.needs) same

theorem Placement.lockEffect (placement : k.Placement) (taken : ThreadStep k event k') :
    LockEffect l k event k' := by
  obtain ⟨m, touch, switched⟩ := taken.effect
  cases touch with
  | none nothing =>
    refine switched.sameLock rfl rfl rfl ?_ ?_ <;>
      rcases nothing with rfl | rfl | rfl <;> simp [TestsLock, LeavesLock]
  | finish awake =>
    exact switched.sameLock rfl rfl rfl (by simp [TestsLock]) (by simp [LeavesLock])
  | lowered awake tests _ | parkedInP awake tests _ =>
    exact switched.sameLock rfl rfl (by simp [lowered, parked, append, setControl]) tests.apart.1
      fun leaves => absurd leaves tests.apart.2
  | raised raises =>
    exact switched.sameLock (congrFun wakeFirst_same.isHeld l) (congrFun wakeFirst_same.lockHolder l)
      (wakeFirst_queue_of_ne (by simp) (by simp)) (raises.apart k).1
      fun leaves => absurd leaves (raises.apart k).2
  | @locked _ j awake tests free =>
    by_cases same : l = j
    · subst same
      have returned : k'.control k.currentThread = .user :=
        switched.own (placement.awake awake).alive.1 (by simp)
      refine .taken tests free ?_ ?_ returned ?_
      · simp [switched.isHeld, locked, setControl]
      · simp [switched.lockHolder, locked, setControl]
      · rw [switched.queue _ (by simp)]
        rfl
    · exact switched.sameLock (by simp [locked, setControl, same])
        (by simp [locked, setControl, same]) rfl (fun again => same (again.unique tests))
        fun leaves => absurd leaves tests.not_leaves
  | @parkedInAcquire _ j place awake tests held here =>
    by_cases same : l = j
    · subst same
      have asleep : k'.control k.currentThread = place := by
        refine switched.own (m := k.append (.lock l)) (placement.awake awake).alive.1 ?_
        intro starts
        simp [starts, Continuation.acquires] at here
      refine .queued tests held ?_ ?_ (asleep ▸ here) ?_
      · rw [switched.isHeld]
        exact held
      · rw [switched.lockHolder]
        rfl
      · rw [switched.queue _ (by simp)]
        simp [parked, append, setControl]
    · exact switched.sameLock rfl rfl (by simp [parked, append, setControl, same])
        (fun again => same (again.unique tests)) fun leaves => absurd leaves tests.not_leaves
  | released holder => exact released_lockEffect switched (.inl rfl) holder rfl rfl rfl rfl
  | parkedInWait awake holder =>
    exact released_lockEffect switched (.inr ⟨_, rfl⟩) holder rfl rfl
      (by simp [parked, append, setControl]) (by simp [parked, append, setControl])
  | signalled holder =>
    exact switched.sameLock (congrFun wakeFirst_same.isHeld l) (congrFun wakeFirst_same.lockHolder l)
      (wakeFirst_queue_of_ne (by simp) (by simp)) (by simp [TestsLock]) (by simp [LeavesLock])
  | @broadcast c _ holder =>
    have same := broadcastLoop_same (k.queue (.condition c)).length k (c := c)
    exact switched.sameLock (congrFun same.isHeld l) (congrFun same.lockHolder l)
      (broadcastLoop_queue_of_ne (by simp) (by simp) _ k) (by simp [TestsLock])
      (by simp [LeavesLock])
  | refused needs other =>
    refine switched.sameLock rfl rfl rfl needs.not_tests fun leaves => ?_
    rw [leaves.lock_eq needs]
    exact other

/-! ### The holder -/

theorem LockEffect.isHeld_iff (effect : LockEffect l k event k')
    (before : k.isHeld l = true ↔ k.lockHolder l ≠ none) :
    k'.isHeld l = true ↔ k'.lockHolder l ≠ none := by
  cases effect with
  | taken tests free held holder returned queue => simp [held, holder]
  | queued tests held stays holder asleep queue => simp [stays, holder, before.mp held]
  | freed leaves holder free nobody queue woken => simp [free, nobody]
  | same untested stays isHeld holder queue =>
    rw [isHeld, holder]
    exact before

theorem LockEffect.holder_from (effect : LockEffect l k event k')
    (holds : k'.lockHolder l = some t) : k.lockHolder l = some t ∨
      (t = k.currentThread ∧ TestsLock l k event ∧ k'.control t = .user) := by
  cases effect with
  | taken tests free held holder returned queue =>
    cases holds.symm.trans holder
    exact .inr ⟨rfl, tests, returned⟩
  | queued tests held stays holder asleep queue => exact .inl (holder ▸ holds)
  | freed leaves holder free nobody queue woken =>
    rw [nobody] at holds
    cases holds
  | same untested stays isHeld holder queue => exact .inl (holder ▸ holds)

theorem LockEffect.holder_kept (effect : LockEffect l k event k')
    (known : k.isHeld l = true ↔ k.lockHolder l ≠ none) (holds : k.lockHolder l = some t)
    (stays : t = k.currentThread → ¬ LeavesLock l event) : k'.lockHolder l = some t := by
  cases effect with
  | taken tests free held holder returned queue =>
    have held : k.isHeld l = true := known.mpr (by simp [holds])
    rw [free] at held
    cases held
  | queued tests held stays holder asleep queue => exact holder.trans holds
  | freed leaves holder free nobody queue woken =>
    exact absurd leaves (stays (Option.some.inj (holds.symm.trans holder)))
  | same untested stays isHeld holder queue => exact holder.trans holds

/-- A thread that is to test a lock stays at its place until it does. -/
theorem acquires_kept (taken : ThreadStep k event k') (older : t < k.created)
    (place : (k.control t).acquires = some l) (waits : ¬ (event = .resume ∧ k.currentThread = t)) :
    (k'.control t).acquires = some l := by
  have same : k'.control t = k.control t := by
    refine taken.control_eq older ?_ ?_ waits
    · intro user
      simp [user, Continuation.acquires] at place
    · intro starts
      simp [starts, Continuation.acquires] at place
  rw [same]
  exact place

/-- A thread that wants the lock keeps asking for it until it has it. -/
theorem Placement.acquiring_step (placement : k.Placement) (taken : ThreadStep k event k')
    (older : t < k.created) (place : (k.control t).acquires = some l) :
    ((k'.control t).acquires = some l ∧ (k'.lockHolder l = some t → k.lockHolder l = some t)) ∨
      (k'.control t = .user ∧ k'.lockHolder l = some t) := by
  have effect := placement.lockEffect (l := l) taken
  by_cases resumes : event = .resume ∧ k.currentThread = t
  · obtain ⟨rfl, rfl⟩ := resumes
    have tests : TestsLock l k .resume := .inr ⟨rfl, place⟩
    cases effect with
    | taken _ free held holder returned queue => exact .inr ⟨returned, holder⟩
    | queued _ held stays holder asleep queue => exact .inl ⟨asleep, fun holds => holder ▸ holds⟩
    | freed leaves holder free nobody queue woken => simp [LeavesLock] at leaves
    | same untested stays isHeld holder queue => exact absurd tests untested
  · have still := acquires_kept taken older place resumes
    refine .inl ⟨still, fun holds => ?_⟩
    rcases effect.holder_from holds with before | ⟨_, _, user⟩
    · exact before
    · simp [user, Continuation.acquires] at still

/-! ## Every run -/

def EntersLock (l t : Nat) (step : Threads × ThreadEvent × Threads) : Prop :=
  step.1.currentThread = t ∧ TestsLock l step.1 step.2.1 ∧ step.2.2.control t = .user

/-- In the steps of a run, the latest first, `t` is past an `Acquire` or `Wait` on `l` and has
not called `Release` or `Wait` since. -/
def Inside (l t : Nat) : List (Threads × ThreadEvent × Threads) → Prop
  | [] => False
  | step :: earlier => EntersLock l t step ∨
      (Inside l t earlier ∧ ¬ (step.1.currentThread = t ∧ LeavesLock l step.2.1))

structure Monitored (l : Nat) (history : List (Threads × ThreadEvent)) (k : Threads) : Prop where
  isHeld : k.isHeld l = true ↔ k.lockHolder l ≠ none
  holder : ∀ t, k.lockHolder l = some t ↔ Inside l t (transitions history k)

theorem Monitored.step {history : List (Threads × ThreadEvent)} (monitored : Monitored l history k)
    (effect : LockEffect l k event k') : Monitored l ((k, event) :: history) k' := by
  refine ⟨effect.isHeld_iff monitored.isHeld, fun t => ?_⟩
  simp only [transitions_cons, Inside, EntersLock, ← monitored.holder]
  cases effect with
  | taken tests free held holder returned queue =>
    have nobody : k.lockHolder l = none := by
      by_contra somebody
      rw [monitored.isHeld.mpr somebody] at free
      cases free
    rw [nobody, holder]
    constructor
    · rintro ⟨⟩
      exact .inl ⟨rfl, tests, returned⟩
    · rintro (⟨same, _⟩ | ⟨impossible, _⟩)
      · rw [same]
      · cases impossible
  | queued tests held stays holder asleep queue =>
    rw [holder]
    constructor
    · intro held
      exact .inr ⟨held, fun leaves => tests.not_leaves leaves.2⟩
    · rintro (⟨rfl, _, returned⟩ | ⟨held, _⟩)
      · simp [returned, Continuation.acquires] at asleep
      · exact held
  | freed leaves holder free nobody queue woken =>
    rw [nobody, holder]
    constructor
    · rintro ⟨⟩
    · rintro (⟨_, tests, _⟩ | ⟨same, stays⟩)
      · exact absurd tests leaves.not_tests
      · exact absurd ⟨Option.some.inj same, leaves⟩ stays
  | same untested stays isHeld holder queue =>
    rw [holder]
    constructor
    · intro held
      refine .inr ⟨held, ?_⟩
      rintro ⟨rfl, leaves⟩
      exact stays leaves held
    · rintro (⟨_, tests, _⟩ | ⟨held, _⟩)
      · exact absurd tests untested
      · exact held

theorem reachable_monitored {values : Nat → BitVec 32} {history : List (Threads × ThreadEvent)}
    (run : Run ThreadStep (boot values) history k) (l : Nat) : Monitored l history k := by
  induction run with
  | start => exact ⟨by simp [boot], fun t => by simp [boot, Inside]⟩
  | next earlier taken ih =>
    exact ih.step ((reachable_placement earlier).lockEffect taken)

/-! ## `Wait` -/

theorem waiting_until_holder (taken : ThreadStep k event k') (older : t < k.created)
    (waits : k.control t = .inWait c l ∨ k.control t = .inReacquire c l) :
    (k'.control t = .inWait c l ∨ k'.control t = .inReacquire c l) ∨
      (k'.control t = .user ∧ k'.lockHolder l = some t) := by
  by_cases resumes : event = .resume ∧ k.currentThread = t
  · obtain ⟨rfl, rfl⟩ := resumes
    have done : k.acquire (.inReacquire c l) l = .ok k' := by
      cases taken with
      | resume awake done =>
        rcases waits with place | place <;> simpa [Threads.resume, place] using done
    simp only [acquire] at done
    split at done
    next held =>
      exact .inl (.inr ((sleep_switched done).own (m := k.append (.lock l)) older (by simp)))
    next free =>
      cases done
      exact .inr ⟨by simp [setControl], by simp [setControl]⟩
  · have same : k'.control t = k.control t := by
      refine taken.control_eq older ?_ ?_ resumes <;>
        rcases waits with place | place <;> simp [place]
    rw [same]
    exact .inl waits

theorem Placement.wait_sleeps (placement : k.Placement)
    (taken : ThreadStep k (.call (.wait c l)) k') (holder : k.lockHolder l = some k.currentThread) :
    k'.control k.currentThread = .inWait c l := by
  cases taken with
  | call user done =>
    have slept := (wait_of_holder holder).symm.trans done
    rw [← released_current (l := l)]
    refine (sleep_switched slept).own (m := (k.released l).append (.condition c)) ?_ (by simp)
    change (k.released l).currentThread < (k.wakeFirst (.lock l)).created
    rw [released_current, wakeFirst_same.created]
    exact (placement.awake user.1).alive.1

theorem unchanged_of_not_holder (taken : ThreadStep k event k') (calls : event = .call (.release l)
      ∨ event = .call (.wait c l) ∨ event = .call (.signal c l) ∨ event = .call (.broadcast c l))
    (other : k.lockHolder l ≠ some k.currentThread) : k' = k := by
  have outside : k.isHeldByCurrentThread l = false := by simp [isHeldByCurrentThread, other]
  rcases calls with rfl | rfl | rfl | rfl
  all_goals cases taken with
    | call user done =>
      simpa [Routine.apply, release, wait, signal, broadcast, outside, eq_comm] using done

end Threads

open Threads in
/-- Mutual exclusion in the monitors: at most one thread is inside a lock, it is the one that
`lockHolder` names, `Wait` returns only to the holder, and other threads change nothing. -/
theorem monitor_mutual_exclusion {values : Nat → BitVec 32}
    {history : List (Threads × ThreadEvent)} {k : Threads}
    (run : Run ThreadStep (Threads.boot values) history k) (l : Nat) :
    (∀ t u, Inside l t (transitions history k) → Inside l u (transitions history k) → t = u) ∧
    (k.isHeld l = true ↔ k.lockHolder l ≠ none) ∧
    (∀ t, k.lockHolder l = some t ↔ Inside l t (transitions history k)) ∧
    (∀ c k', ThreadStep k (.call (.wait c l)) k' → k.lockHolder l = some k.currentThread →
      k'.control k.currentThread = .inWait c l) ∧
    (∀ c t, t < k.created → k.control t = .inWait c l ∨ k.control t = .inReacquire c l →
      ∀ event k', ThreadStep k event k' →
        (k'.control t = .inWait c l ∨ k'.control t = .inReacquire c l) ∨
          (k'.control t = .user ∧ k'.lockHolder l = some t)) ∧
    (∀ c event k', ThreadStep k event k' → k.lockHolder l ≠ some k.currentThread →
      (event = .call (.release l) ∨ event = .call (.wait c l) ∨ event = .call (.signal c l) ∨
        event = .call (.broadcast c l)) → k' = k) := by
  have placement := reachable_placement run
  have monitored := reachable_monitored run l
  refine ⟨?_, monitored.isHeld, monitored.holder, ?_, ?_, ?_⟩
  · intro t u first second
    have same := ((monitored.holder t).mpr first).symm.trans ((monitored.holder u).mpr second)
    exact Option.some.inj same
  · intro c k' taken holder
    exact placement.wait_sleeps taken holder
  · intro c t older waits event k' taken
    exact waiting_until_holder taken older waits
  · intro c event k' taken other calls
    exact unchanged_of_not_holder taken calls other

open Threads in
/-- The main thread waits; another enters, signals and leaves; the main thread is inside
again. -/
theorem monitor_reentered_after_wait : ∃ history k,
    Run ThreadStep (Threads.boot fun _ => 0#32) history k ∧
      history.map Prod.snd = [.resume, .call .yield, .call (.release 0), .resume, .call .yield,
        .call (.signal 0 0), .call (.acquire 0), .call (.wait 0 0), .call (.acquire 0),
        .call .fork] ∧
      Inside 0 0 (transitions history k) ∧ ¬ Inside 0 1 (transitions history k) := by
  refine labelled_run performThread_step (fun _ k => k.lockHolder 0 = some 0) (by decide +kernel)
    fun history k run holder => ?_
  obtain ⟨exclusive, _, inside, _⟩ := monitor_mutual_exclusion run 0
  have main := (inside 0).mp holder
  refine ⟨main, fun second => ?_⟩
  exact absurd (exclusive 0 1 main second) (by simp)

end Nachos
