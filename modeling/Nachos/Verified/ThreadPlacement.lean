import Nachos.Verified.ThreadSteps

/-!
# Every thread is in one place

A thread that was forked and has not finished has the CPU or is once in one list, and its
status says which.  A thread changes places only as the current one or as the first of a
list, so it is enough to follow one thread at a time.
-/

namespace Nachos

open Queues Runs

def Queue.status : Queue → ThreadStatus
  | .readyList => .ready
  | .semaphore _ | .lock _ | .condition _ => .blocked

theorem Queue.status_of_ne {q : Queue} (waiting : q ≠ .readyList) : q.status = .blocked := by
  cases q with
  | readyList => exact absurd rfl waiting
  | semaphore | lock | condition => rfl

variable {c l : Nat} {place : Continuation}

namespace Threads

def Alive (k : Threads) (t : Nat) : Prop :=
  t < k.created ∧ k.control t ≠ .inFinish

instance (k : Threads) (t : Nat) : Decidable (k.Alive t) := inferInstanceAs (Decidable (_ ∧ _))

def Placed (k : Threads) (t : Nat) : Prop :=
  (k.currentThread = t ∧ k.status t = .running ∧ ∀ q, t ∉ k.queue q) ∨
    ∃ q, (k.queue q).count t = 1 ∧ k.status t = q.status ∧ ∀ p, p ≠ q → t ∉ k.queue p

def Stored (k : Threads) (t : Nat) : Prop :=
  (k.Alive t → ∃ q, Located k.queue t (some q) ∧ k.status t = q.status) ∧
    (¬ k.Alive t → Located k.queue t none)

structure Running (k : Threads) : Prop where
  alive : k.Alive k.currentThread
  status : k.status k.currentThread = .running
  nowhere : Located k.queue k.currentThread none

def CarcassFinished (k : Threads) : Prop :=
  ∀ carcass, k.threadToBeDestroyed = some carcass →
    carcass < k.created ∧ k.control carcass = .inFinish

structure Placement (k : Threads) : Prop where
  others : ∀ t, t ≠ k.currentThread → k.Stored t
  asleep : k.idling = true → k.Stored k.currentThread
  awake : k.idling = false → k.Running
  carcass : k.CarcassFinished

def Completes (result : Except Fault Threads) : Prop :=
  ∃ k', result = .ok k' ∧ k'.Placement

variable {k k' : Threads} {q : Queue} {t nextThread : Nat}

theorem Stored.located (stored : k.Stored t) : ∃ place, Located k.queue t place := by
  by_cases alive : k.Alive t
  · obtain ⟨q, located, _⟩ := stored.1 alive
    exact ⟨some q, located⟩
  · exact ⟨none, stored.2 alive⟩

theorem Stored.alive_of_mem (stored : k.Stored t) (member : t ∈ k.queue q) : k.Alive t := by
  by_contra dead
  exact stored.2 dead q member

theorem Stored.frame (stored : k.Stored t) (created : t < k'.created ↔ t < k.created)
    (control : k'.control t = .inFinish ↔ k.control t = .inFinish)
    (status : k'.status t = k.status t)
    (places : ∀ place, Located k.queue t place → Located k'.queue t place) : k'.Stored t := by
  have alive : k'.Alive t ↔ k.Alive t := by simp only [Alive, created, ne_eq, control]
  constructor
  · intro lives
    obtain ⟨q, located, right⟩ := stored.1 (alive.mp lives)
    exact ⟨q, places _ located, status.trans right⟩
  · intro dead
    exact places _ (stored.2 (fun lives => dead (alive.mpr lives)))

/-! ## Wake-ups -/

theorem Stored.wakeFirst (stored : k.Stored t) : (k.wakeFirst q).Stored t := by
  rcases wakeFirst_cases q k with ⟨_, same⟩ | ⟨thread, rest, shape, woken⟩
  · rwa [same]
  · have front : (k.queue q).head? = some thread := by simp [shape]
    rw [woken]
    by_cases moved : t = thread
    · subst moved
      have alive : k.Alive t := stored.alive_of_mem (q := q) (by simp [shape])
      obtain ⟨place, located⟩ := stored.located
      constructor
      · intro _
        refine ⟨.readyList, (located.pop front).2.push, ?_⟩
        simp [readyToRun, setStatus, Queue.status]
      · intro dead
        exact absurd alive dead
    · refine stored.frame Iff.rfl Iff.rfl ?_ ?_
      · simp [readyToRun, setStatus, moved]
      · intro place located
        exact (located_push_of_ne moved).mpr ((located_pop_of_ne front moved).mpr located)

theorem Running.wakeFirst (running : k.Running) : (k.wakeFirst q).Running := by
  rcases wakeFirst_cases q k with ⟨_, same⟩ | ⟨thread, rest, shape, woken⟩
  · rwa [same]
  · have front : (k.queue q).head? = some thread := by simp [shape]
    have other : k.currentThread ≠ thread := by
      intro same
      exact running.nowhere q (by simp [shape, same])
    rw [woken]
    refine ⟨running.alive, ?_, ?_⟩
    · simpa [readyToRun, setStatus, other] using running.status
    · exact (located_push_of_ne other).mpr ((located_pop_of_ne front other).mpr running.nowhere)

theorem Placement.wakeFirst (placement : k.Placement) : (k.wakeFirst q).Placement := by
  have same := wakeFirst_same (k := k) (q := q)
  constructor
  · intro t other
    exact (placement.others t (same.current ▸ other)).wakeFirst
  · intro idle
    rw [same.current]
    exact (placement.asleep (same.idling ▸ idle)).wakeFirst
  · intro awake
    exact (placement.awake (same.idling ▸ awake)).wakeFirst
  · intro carcass found
    rw [same.control, same.created]
    exact placement.carcass carcass (same.carcass ▸ found)

theorem Placement.broadcastLoop (turns : Nat) (placement : k.Placement) :
    (k.broadcastLoop c turns).Placement := by
  induction turns generalizing k with
  | zero => exact placement
  | succ turns ih => exact ih placement.wakeFirst

/-! ## Changes that move no thread -/

/-- Values, locks and places in the routines do not matter. -/
theorem Placement.congr (placement : k.Placement) (current : k'.currentThread = k.currentThread)
    (idling : k'.idling = k.idling) (created : k'.created = k.created)
    (status : k'.status = k.status) (queue : k'.queue = k.queue)
    (carcass : k'.threadToBeDestroyed = k.threadToBeDestroyed)
    (control : ∀ t, k'.control t = .inFinish ↔ k.control t = .inFinish) : k'.Placement := by
  have keeps : ∀ t, k.Stored t → k'.Stored t := by
    intro t stored
    refine stored.frame (by rw [created]) (control t) (by rw [status]) ?_
    intro place located
    rwa [queue]
  constructor
  · intro t other
    exact keeps t (placement.others t (current ▸ other))
  · intro idle
    rw [current]
    exact keeps _ (placement.asleep (idling ▸ idle))
  · intro awake
    have running := placement.awake (idling ▸ awake)
    refine ⟨?_, ?_, ?_⟩
    · rw [current, Alive, created, ne_eq, control]
      exact running.alive
    · rw [current, status]
      exact running.status
    · rw [current, queue]
      exact running.nowhere
  · intro thread found
    rw [created, control]
    exact placement.carcass thread (carcass ▸ found)

theorem Placement.setUser (placement : k.Placement) (awake : k.idling = false) :
    (k.setControl k.currentThread .user).Placement := by
  refine placement.congr rfl rfl rfl rfl rfl rfl fun t => ?_
  by_cases same : t = k.currentThread
  · subst same
    simpa [setControl] using (placement.awake awake).alive.2
  · simp [setControl, same]

/-! ## Context switches -/

/-- When all threads but `nextThread` are stored, it may take the CPU. -/
theorem RunTo.placement (runs : RunTo nextThread k k') (alive : k.Alive nextThread)
    (nowhere : Located k.queue nextThread none)
    (others : ∀ t, t ≠ nextThread → k.Stored t) (carcass : k.CarcassFinished) :
    k'.Placement := by
  have control : ∀ t, k'.control t = .inFinish ↔ k.control t = .inFinish := by
    intro t
    rw [runs.control]
    split
    next starts =>
      by_cases same : t = nextThread
      · subst same
        simp [starts]
      · simp [same]
    next => exact Iff.rfl
  constructor
  · intro t other
    rw [runs.current] at other
    refine (others t other).frame (by rw [runs.created]) (control t) (by simp [runs.status, other]) ?_
    intro place located
    rwa [runs.queue]
  · intro idle
    rw [runs.idling] at idle
    cases idle
  · intro _
    refine ⟨?_, ?_, ?_⟩
    · rw [runs.current, Alive, runs.created, ne_eq, control]
      exact alive
    · simp [runs.current, runs.status]
    · rw [runs.current, runs.queue]
      exact nowhere
  · intro thread found
    rw [runs.created, control]
    refine carcass thread ?_
    rcases runs.carcass with same | nothing
    · rwa [same] at found
    · rw [nothing] at found
      cases found

theorem dequeue_stored {rest : List Nat} (ready : k.queue .readyList = nextThread :: rest)
    (stored : k.Stored nextThread) :
    k.dequeued.Alive nextThread ∧ Located k.dequeued.queue nextThread none ∧
      ∀ t, t ≠ nextThread → k.Stored t → k.dequeued.Stored t := by
  have front : (k.queue .readyList).head? = some nextThread := by simp [ready]
  refine ⟨stored.alive_of_mem (q := .readyList) (by simp [ready]), ?_, ?_⟩
  · obtain ⟨place, located⟩ := stored.located
    exact (located.pop front).2
  · intro t other at_rest
    exact at_rest.frame Iff.rfl Iff.rfl rfl fun place located =>
      (located_pop_of_ne front other).mpr located

theorem run_completes (alive : k.Alive nextThread) (nowhere : Located k.queue nextThread none)
    (others : ∀ t, t ≠ nextThread → k.Stored t) (carcass : k.CarcassFinished) :
    Completes (k.run nextThread) := by
  obtain ⟨k', done⟩ : ∃ k', k.run nextThread = .ok k' := by
    refine run_total fun thread found same => ?_
    exact alive.2 (same ▸ (carcass thread found).2)
  exact ⟨k', done, (run_ok done).placement alive nowhere others carcass⟩

theorem sleepLoop_completes (stored : ∀ t, k.Stored t) (carcass : k.CarcassFinished) :
    Completes k.sleepLoop := by
  rcases sleepLoop_eq k with ⟨_, idles⟩ | ⟨nextThread, rest, ready, runs⟩
  · exact ⟨_, idles, fun t _ => stored t, fun _ => stored _, by simp, carcass⟩
  · obtain ⟨alive, nowhere, keeps⟩ := dequeue_stored ready (stored nextThread)
    rw [runs]
    exact run_completes alive nowhere (fun t other => keeps t other (stored t)) carcass

theorem sleep_completes (unfinished : place ≠ .inFinish)
    (others : ∀ t, t ≠ k.currentThread → k.Stored t) (alive : k.Alive k.currentThread)
    (waiting : q ≠ .readyList) (located : Located k.queue k.currentThread (some q))
    (carcass : k.CarcassFinished) : Completes (k.sleep place) := by
  refine sleepLoop_completes (fun t => ?_) ?_
  · by_cases same : t = k.currentThread
    · subst same
      have lives : Alive ((k.setStatus k.currentThread .blocked).setControl k.currentThread place)
          k.currentThread := ⟨alive.1, by simpa [setControl] using unfinished⟩
      refine ⟨fun _ => ⟨q, located, ?_⟩, fun dead => absurd lives dead⟩
      simp [setControl, setStatus, Queue.status_of_ne waiting]
    · exact (others t same).frame Iff.rfl (by simp [setControl, setStatus, same])
        (by simp [setControl, setStatus, same]) fun _ located => located
  · intro thread found
    obtain ⟨older, finished⟩ := carcass thread found
    have other : thread ≠ k.currentThread := by
      intro same
      exact alive.2 (same ▸ finished)
    exact ⟨older, by simpa [setControl, setStatus, other] using finished⟩

section

variable (placement : k.Placement) (awake : k.idling = false)

include placement awake

/-- A running thread that appends itself to a list and sleeps. -/
theorem Placement.append_sleep (unfinished : place ≠ .inFinish) (waiting : q ≠ .readyList) :
    Completes ((k.append q).sleep place) := by
  have running := placement.awake awake
  refine sleep_completes (k := k.append q) unfinished (fun t other => ?_) running.alive waiting
    running.nowhere.push placement.carcass
  exact (placement.others t other).frame Iff.rfl Iff.rfl rfl fun _ located =>
    (located_push_of_ne other).mpr located

/-! ## The routines -/

theorem Placement.fork : k.fork.Placement := by
  have running := placement.awake awake
  have older : k.currentThread ≠ k.created := Nat.ne_of_lt running.alive.1
  have keeps : ∀ t, t ≠ k.created → k.Stored t → k.fork.Stored t := by
    intro t other stored
    refine stored.frame ?_ ?_ ?_ fun _ located => (located_push_of_ne other).mpr located
    · simp only [Threads.fork, readyToRun, setStatus, setControl]
      omega
    · simp [Threads.fork, readyToRun, setStatus, setControl, other]
    · simp [Threads.fork, readyToRun, setStatus, setControl, other]
  constructor
  · intro t other
    by_cases new : t = k.created
    · subst new
      -- nothing was known of the new thread, so it was in no list
      have nowhere : Located k.queue k.created none :=
        (placement.others _ other).2 fun alive => Nat.lt_irrefl _ alive.1
      have lives : k.fork.Alive k.created :=
        ⟨Nat.lt_succ_self _, by simp [Threads.fork, readyToRun, setStatus, setControl]⟩
      refine ⟨fun _ => ⟨.readyList, nowhere.push, ?_⟩, fun dead => absurd lives dead⟩
      simp [Threads.fork, readyToRun, setStatus, setControl, Queue.status]
    · exact keeps t new (placement.others t other)
  · intro idle
    have idle : k.idling = true := idle
    rw [awake] at idle
    cases idle
  · intro _
    refine ⟨⟨Nat.lt_succ_of_lt running.alive.1, ?_⟩, ?_, ?_⟩
    · simpa [Threads.fork, readyToRun, setStatus, setControl, older] using running.alive.2
    · simpa [Threads.fork, readyToRun, setStatus, setControl, older] using running.status
    · exact (located_push_of_ne older).mpr running.nowhere
  · intro thread found
    obtain ⟨earlier, finished⟩ := placement.carcass thread found
    refine ⟨Nat.lt_succ_of_lt earlier, ?_⟩
    simpa [Threads.fork, readyToRun, setStatus, setControl, Nat.ne_of_lt earlier] using finished

theorem Placement.yield : Completes k.yield := by
  have running := placement.awake awake
  rcases yield_eq k with ⟨_, returns⟩ | ⟨nextThread, rest, ready, runs⟩
  · exact ⟨k, returns, placement⟩
  · have other : nextThread ≠ k.currentThread := by
      intro same
      exact running.nowhere .readyList (by simp [ready, same])
    obtain ⟨alive, nowhere, keeps⟩ := dequeue_stored ready (placement.others nextThread other)
    rw [runs]
    refine run_completes alive ((located_push_of_ne other).mpr nowhere) (fun t distinct => ?_)
      placement.carcass
    by_cases same : t = k.currentThread
    · -- the current thread goes to the end of the ready list
      subst same
      have front : (k.queue .readyList).head? = some nextThread := by simp [ready]
      have lives : (k.dequeued.readyToRun k.currentThread).Alive k.currentThread := running.alive
      refine ⟨fun _ => ⟨.readyList, ?_, ?_⟩, fun dead => absurd lives dead⟩
      · exact ((located_pop_of_ne front distinct).mpr running.nowhere).push
      · simp [readyToRun, setStatus, Queue.status]
    · exact (keeps t distinct (placement.others t same)).frame Iff.rfl Iff.rfl
        (by simp [readyToRun, setStatus, same]) fun _ located =>
          (located_push_of_ne same).mpr located

theorem Placement.finish : Completes k.finish := by
  have running := placement.awake awake
  refine sleepLoop_completes (fun t => ?_) ?_
  · by_cases same : t = k.currentThread
    · subst same
      refine ⟨fun alive => ?_, fun _ => running.nowhere⟩
      simp [Alive, setControl, setStatus] at alive
    · exact (placement.others t same).frame Iff.rfl (by simp [setControl, setStatus, same])
        (by simp [setControl, setStatus, same]) fun _ located => located
  · intro thread found
    have itself : k.currentThread = thread := by simpa [setControl, setStatus] using found
    subst itself
    exact ⟨running.alive.1, by simp [setControl, setStatus]⟩

theorem Placement.semaphoreP {s : Nat} : Completes (k.semaphoreP s) := by
  simp only [Threads.semaphoreP]
  split
  next => exact placement.append_sleep awake (by simp) (by simp)
  next =>
    exact ⟨_, rfl, (placement.setUser awake).congr rfl rfl rfl rfl rfl rfl fun _ => Iff.rfl⟩

end

theorem Placement.semaphoreV {s : Nat} (placement : k.Placement) : (k.semaphoreV s).Placement :=
  (placement.wakeFirst (q := .semaphore s)).congr rfl rfl rfl rfl rfl rfl fun _ => Iff.rfl

theorem Placement.acquire (placement : k.Placement) (awake : k.idling = false)
    (unfinished : place ≠ .inFinish) :
    Completes (k.acquire place l) := by
  simp only [Threads.acquire]
  split
  next => exact placement.append_sleep awake unfinished (by simp)
  next =>
    exact ⟨_, rfl, (placement.setUser awake).congr rfl rfl rfl rfl rfl rfl fun _ => Iff.rfl⟩

theorem Placement.release (placement : k.Placement) : (k.release l).Placement := by
  simp only [Threads.release]
  split
  next =>
    exact (placement.wakeFirst (q := .lock l)).congr rfl rfl rfl rfl rfl rfl fun _ => Iff.rfl
  next => exact placement

theorem release_idling : (k.release l).idling = k.idling := by
  simp only [Threads.release]
  split
  next => exact wakeFirst_same.idling
  next => rfl

theorem Placement.wait (placement : k.Placement) (awake : k.idling = false) :
    Completes (k.wait c l) := by
  simp only [Threads.wait]
  split
  next => exact placement.release.append_sleep (release_idling.trans awake) (by simp) (by simp)
  next => exact ⟨k, rfl, placement⟩

theorem Placement.signal (placement : k.Placement) : (k.signal c l).Placement := by
  simp only [Threads.signal]
  split
  next => exact placement.wakeFirst
  next => exact placement

theorem Placement.broadcast (placement : k.Placement) :
    (k.broadcast c l).Placement := by
  simp only [Threads.broadcast]
  split
  next => exact placement.broadcastLoop _
  next => exact placement

theorem Placement.apply (placement : k.Placement) (awake : k.idling = false) (c : Routine) :
    Completes (c.apply k) := by
  cases c with
  | fork => exact ⟨_, rfl, placement.fork awake⟩
  | yield => exact placement.yield awake
  | finish => exact placement.finish awake
  | p s => exact placement.semaphoreP awake
  | v s => exact ⟨_, rfl, placement.semaphoreV⟩
  | acquire l => exact placement.acquire awake (by simp)
  | release l => exact ⟨_, rfl, placement.release⟩
  | wait c l => exact placement.wait awake
  | signal c l => exact ⟨_, rfl, placement.signal⟩
  | broadcast c l => exact ⟨_, rfl, placement.broadcast⟩

theorem Placement.resume {result : Except Fault Threads} (placement : k.Placement)
    (awake : k.idling = false) (resumed : k.resume = some result) : Completes result := by
  simp only [Threads.resume] at resumed
  cases position : k.control k.currentThread with
  | inP s =>
    simp only [position, Option.some.injEq] at resumed
    exact resumed ▸ placement.semaphoreP awake
  | inAcquire l | inWait c l | inReacquire c l =>
    simp only [position, Option.some.injEq] at resumed
    exact resumed ▸ placement.acquire awake (by simp)
  | unborn | start | user | inFinish =>
    simp [position] at resumed

theorem Placement.idleReturn (placement : k.Placement) (idle : k.idling = true) :
    Completes k.sleepLoop := by
  refine sleepLoop_completes (fun t => ?_) placement.carcass
  by_cases same : t = k.currentThread
  · exact same ▸ placement.asleep idle
  · exact placement.others t same

theorem Completes.placement {result : Except Fault Threads} (completes : Completes result)
    (done : result = .ok k') : k'.Placement := by
  obtain ⟨_, returned, placement⟩ := completes
  rw [done] at returned
  cases returned
  exact placement

theorem Placement.step {event : ThreadEvent} (placement : k.Placement)
    (taken : ThreadStep k event k') : k'.Placement := by
  cases taken with
  | call user done => exact (placement.apply user.1 _).placement done
  | resume awake done => exact (placement.resume awake done).placement rfl
  | handler enabled => exact placement.semaphoreV
  | idleReturn idle done => exact (placement.idleReturn idle).placement done

theorem Placement.cases (placement : k.Placement) (t : Nat) :
    k.Stored t ∨ (t = k.currentThread ∧ k.Running) := by
  by_cases same : t = k.currentThread
  · subst same
    cases idle : k.idling with
    | true => exact .inl (placement.asleep idle)
    | false => exact .inr ⟨rfl, placement.awake idle⟩
  · exact .inl (placement.others t same)

theorem Placement.created_of_mem (placement : k.Placement) (member : t ∈ k.queue q) :
    t < k.created := by
  rcases placement.cases t with stored | ⟨rfl, running⟩
  · exact (stored.alive_of_mem member).1
  · exact absurd member (running.nowhere q)

theorem Placement.located (placement : k.Placement) (t : Nat) :
    ∃ place, Located k.queue t place := by
  rcases placement.cases t with stored | ⟨rfl, running⟩
  · exact stored.located
  · exact ⟨none, running.nowhere⟩

theorem Placement.not_coming_of_mem (placement : k.Placement) (waiting : q ≠ .readyList)
    (member : t ∈ k.queue q) : ¬ k.Coming t := by
  rintro (ready | ⟨rfl, awake⟩)
  · obtain ⟨place, located⟩ := placement.located t
    have here := (located.eq_of_mem member).symm.trans (located.eq_of_mem ready)
    exact waiting (Option.some.inj here)
  · exact (placement.awake awake).nowhere q member

theorem Placement.not_resumed_of_mem {event : ThreadEvent} (placement : k.Placement)
    (member : t ∈ k.queue q) (taken : ThreadStep k event k') :
    ¬ (event = .resume ∧ k.currentThread = t) := by
  rintro ⟨rfl, rfl⟩
  cases taken with
  | resume awake done => exact (placement.awake awake).nowhere q member

theorem boot_placement (values : Nat → BitVec 32) : (boot values).Placement := by
  constructor
  · intro t other
    have other : t ≠ 0 := other
    refine ⟨fun alive => ?_, fun _ q => by simp [boot]⟩
    have := alive.1
    simp only [boot] at this
    omega
  · intro idle
    cases idle
  · intro _
    exact ⟨⟨by simp [boot], by simp [boot]⟩, by simp [boot], fun q => by simp [boot]⟩
  · intro carcass found
    cases found

theorem Placement.placed (placement : k.Placement) (alive : k.Alive t) : k.Placed t := by
  rcases placement.cases t with stored | ⟨rfl, running⟩
  · obtain ⟨q, located, status⟩ := stored.1 alive
    exact .inr ⟨q, located.1, status, located.2⟩
  · exact .inl ⟨rfl, running.status, running.nowhere⟩

theorem reachable_placement {values : Nat → BitVec 32} {history : List (Threads × ThreadEvent)}
    (run : Run ThreadStep (boot values) history k) : k.Placement :=
  run.always (boot_placement values) fun _ _ _ placement taken => placement.step taken

end Threads

/-- No thread is lost, and none is in two places. -/
theorem thread_in_one_place {values : Nat → BitVec 32} {history : List (Threads × ThreadEvent)}
    {k : Threads} (run : Run ThreadStep (Threads.boot values) history k) :
    (∀ t, k.Alive t → k.Placed t) ∧
      ((∃ q, k.currentThread ∈ k.queue q) → k.idling = true) := by
  have placement := Threads.reachable_placement run
  refine ⟨fun t alive => placement.placed alive, ?_⟩
  rintro ⟨q, member⟩
  by_contra awake
  exact (placement.awake (by simpa using awake)).nowhere q member

/-- The main thread and a new one wait for a semaphore; the second idles in its list. -/
theorem idling_thread_in_one_place : ∃ history k,
    Run ThreadStep (Threads.boot fun _ => 0#32) history k ∧
      history.map Prod.snd = [.call (.p 0), .call (.p 0), .call .fork] ∧
      (k.idling = true ∧ k.currentThread = 1 ∧ k.queue (.semaphore 0) = [0, 1]) ∧
      k.Placed 0 ∧ k.Placed 1 := by
  refine labelled_run performThread_step (fun _ k => (k.idling = true ∧ k.currentThread = 1 ∧
      k.queue (.semaphore 0) = [0, 1]) ∧ k.Alive 0 ∧ k.Alive 1)
    (by decide +kernel) fun history k run checked => ?_
  obtain ⟨shape, main, forked⟩ := checked
  have placed := (thread_in_one_place run).1
  exact ⟨shape, placed 0 main, placed 1 forked⟩

end Nachos
