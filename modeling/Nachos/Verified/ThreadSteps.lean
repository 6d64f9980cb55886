import Nachos.Threads.Thread

/-!
# What the thread routines do

`RunTo` and `sleepLoop_eq` say what a context switch does, `wakeFirst_cases` what a wake-up
does.  A step touches the objects first (`Touch`) and then may give up the CPU (`Switched`); the
invariants of the locks, conditions and semaphores start from these two.
-/

namespace Nachos

open Queues Runs

def Continuation.acquires : Continuation → Option Nat
  | .inAcquire l | .inWait _ l | .inReacquire _ l => some l
  | .unborn | .start | .user | .inP _ | .inFinish => none

variable {m : Threads} {place : Continuation} {c s l : Nat}

namespace Threads

variable {k k' : Threads} {q : Queue} {t nextThread : Nat}

/-! ## Taking the CPU -/

structure RunTo (nextThread : Nat) (k k' : Threads) : Prop where
  current : k'.currentThread = nextThread
  idling : k'.idling = false
  status : k'.status = Function.update k.status nextThread .running
  control : k'.control =
    if k.control nextThread = .start then Function.update k.control nextThread .user
    else k.control
  queue : k'.queue = k.queue
  created : k'.created = k.created
  value : k'.value = k.value
  isHeld : k'.isHeld = k.isHeld
  lockHolder : k'.lockHolder = k.lockHolder
  carcass : k'.threadToBeDestroyed = k.threadToBeDestroyed ∨ k'.threadToBeDestroyed = none

theorem run_ok (done : k.run nextThread = .ok k') : RunTo nextThread k k' := by
  by_cases starts : k.control nextThread = .start
  · have started : k' = { k with
        currentThread := nextThread
        idling := false
        status := Function.update k.status nextThread .running
        control := Function.update k.control nextThread .user } := by
      simpa [run, setStatus, setControl, starts, eq_comm] using done
    subst started
    constructor <;> simp [starts]
  · cases found : k.threadToBeDestroyed with
    | none =>
      simp only [run, setStatus, starts, if_false, found] at done
      cases done
      constructor <;> simp [starts, found]
    | some carcass =>
      simp only [run, setStatus, starts, if_false, found] at done
      by_cases itself : carcass = nextThread
      · simp [itself] at done
      · rw [if_neg itself] at done
        cases done
        constructor <;> simp [starts, found]

theorem run_total (other : ∀ carcass, k.threadToBeDestroyed = some carcass → carcass ≠ nextThread) :
    ∃ k', k.run nextThread = .ok k' := by
  by_cases starts : k.control nextThread = .start
  · simp [run, setStatus, setControl, starts]
  · cases found : k.threadToBeDestroyed with
    | none => simp [run, setStatus, starts, found]
    | some carcass => simp [run, setStatus, starts, found, other carcass found]

def dequeued (k : Threads) : Threads := { k with queue := pop .readyList k.queue }

/-- `Sleep` idles when nobody is ready, and otherwise runs the first ready thread. -/
theorem sleepLoop_eq (k : Threads) :
    (k.queue .readyList = [] ∧ k.sleepLoop = .ok { k with idling := true }) ∨
      ∃ nextThread rest, k.queue .readyList = nextThread :: rest ∧
        k.sleepLoop = k.dequeued.run nextThread := by
  simp only [sleepLoop, findNextToRun, remove]
  cases ready : k.queue .readyList with
  | nil => simp [pop_of_empty ready]
  | cons nextThread rest => simp [dequeued]

theorem yield_eq (k : Threads) :
    (k.queue .readyList = [] ∧ k.yield = .ok k) ∨
      ∃ nextThread rest, k.queue .readyList = nextThread :: rest ∧
        k.yield = (k.dequeued.readyToRun k.currentThread).run nextThread := by
  simp only [yield, findNextToRun, remove]
  cases ready : k.queue .readyList with
  | nil => simp [pop_of_empty ready]
  | cons nextThread rest => simp [dequeued]

def Coming (k : Threads) (t : Nat) : Prop :=
  t ∈ k.queue .readyList ∨ (k.currentThread = t ∧ k.idling = false)

/-- The CPU may have changed hands.  Objects and waiting threads are as before; a ready thread
is still ready, or has the CPU, and only a new thread that starts is at another place. -/
structure Switched (k k' : Threads) : Prop where
  created : k.created ≤ k'.created
  value : k'.value = k.value
  isHeld : k'.isHeld = k.isHeld
  lockHolder : k'.lockHolder = k.lockHolder
  queue : ∀ q, q ≠ .readyList → k'.queue q = k.queue q
  ready : ∀ t, t ∈ k.queue .readyList → k'.Coming t
  control : ∀ t, t < k.created →
    k'.control t = k.control t ∨ (k.control t = .start ∧ k'.control t = .user)
  acquires : ∀ t l, (k'.control t).acquires = some l → (k.control t).acquires = some l

theorem Switched.refl : Switched k k :=
  ⟨Nat.le_refl _, rfl, rfl, rfl, fun _ _ => rfl, fun _ ready => .inl ready, fun _ _ => .inl rfl,
    fun _ _ same => same⟩

/-- `m` is the state in which `Run` was called: `nextThread` is off the ready list. -/
theorem RunTo.switched (runs : RunTo nextThread m k') (created : m.created = k.created)
    (value : m.value = k.value) (isHeld : m.isHeld = k.isHeld)
    (lockHolder : m.lockHolder = k.lockHolder) (control : m.control = k.control)
    (queue : ∀ q, q ≠ .readyList → m.queue q = k.queue q)
    (ready : ∀ t, t ∈ k.queue .readyList → t = nextThread ∨ t ∈ m.queue .readyList) :
    Switched k k' := by
  refine ⟨?_, runs.value.trans value, runs.isHeld.trans isHeld,
    runs.lockHolder.trans lockHolder, ?_, ?_, ?_, ?_⟩
  · exact Nat.le_of_eq (runs.created.trans created).symm
  · intro q waiting
    rw [runs.queue, queue q waiting]
  · intro t member
    rcases ready t member with first | later
    · exact .inr ⟨runs.current.trans first.symm, runs.idling⟩
    · exact .inl (runs.queue ▸ later)
  · intro t _
    rw [runs.control, control]
    split
    next starts =>
      by_cases same : t = nextThread
      · subst same
        exact .inr ⟨starts, by simp⟩
      · exact .inl (by simp [same])
    next => exact .inl rfl
  · intro t l acquires
    rw [runs.control, control] at acquires
    split at acquires
    next =>
      by_cases same : t = nextThread
      · simp [same, Continuation.acquires] at acquires
      · simpa [same] using acquires
    next => exact acquires

theorem sleepLoop_switched (done : k.sleepLoop = .ok k') : Switched k k' := by
  rcases sleepLoop_eq k with ⟨_, idles⟩ | ⟨nextThread, rest, ready, runs⟩
  · rw [idles] at done
    cases done
    exact ⟨Nat.le_refl _, rfl, rfl, rfl, fun _ _ => rfl, fun _ ready => .inl ready,
      fun _ _ => .inl rfl, fun _ _ same => same⟩
  · rw [runs] at done
    refine (run_ok done).switched rfl rfl rfl rfl rfl ?_ ?_
    · intro q waiting
      simp [dequeued, waiting]
    · intro t member
      simpa [dequeued, ready] using member

theorem sleep_switched (done : k.sleep place = .ok k') :
    Switched (k.setControl k.currentThread place) k' := by
  have switched := sleepLoop_switched done
  exact ⟨switched.created, switched.value, switched.isHeld, switched.lockHolder, switched.queue,
    switched.ready, switched.control, switched.acquires⟩

theorem yield_switched (done : k.yield = .ok k') : Switched k k' := by
  rcases yield_eq k with ⟨_, returns⟩ | ⟨nextThread, rest, ready, runs⟩
  · rw [returns] at done
    cases done
    exact .refl
  · rw [runs] at done
    refine (run_ok done).switched rfl rfl rfl rfl rfl ?_ ?_
    · intro q waiting
      simp [readyToRun, dequeued, waiting]
    · intro t member
      rw [ready] at member
      rcases List.mem_cons.mp member with first | later
      · exact .inl first
      · exact .inr (by simp [readyToRun, dequeued, ready, later])

theorem fork_switched : Switched k k.fork := by
  refine ⟨Nat.le_succ _, rfl, rfl, rfl, ?_, ?_, ?_, ?_⟩
  · intro q waiting
    simp [fork, readyToRun, setStatus, setControl, waiting]
  · intro t member
    exact .inl (by simp [fork, readyToRun, setStatus, setControl, member])
  · intro t earlier
    exact .inl (by simp [fork, readyToRun, setStatus, setControl, Nat.ne_of_lt earlier])
  · intro t l acquires
    by_cases new : t = k.created
    · simp [fork, readyToRun, setStatus, setControl, new, Continuation.acquires] at acquires
    · simpa [fork, readyToRun, setStatus, setControl, new] using acquires

/-! ## Waking up -/

theorem wakeFirst_cases (q : Queue) (k : Threads) :
    (k.queue q = [] ∧ k.wakeFirst q = k) ∨
      ∃ thread rest, k.queue q = thread :: rest ∧
        k.wakeFirst q = readyToRun thread { k with queue := pop q k.queue } := by
  simp only [wakeFirst, remove]
  cases shape : k.queue q with
  | nil => simp [pop_of_empty shape]
  | cons thread rest => simp

structure SameObjects (k k' : Threads) : Prop where
  current : k'.currentThread = k.currentThread
  created : k'.created = k.created
  control : k'.control = k.control
  value : k'.value = k.value
  isHeld : k'.isHeld = k.isHeld
  lockHolder : k'.lockHolder = k.lockHolder
  idling : k'.idling = k.idling
  carcass : k'.threadToBeDestroyed = k.threadToBeDestroyed

theorem SameObjects.refl : SameObjects k k := by constructor <;> rfl

theorem wakeFirst_same : SameObjects k (k.wakeFirst q) := by
  rcases wakeFirst_cases q k with ⟨_, same⟩ | ⟨thread, rest, _, woken⟩
  · rw [same]
    exact .refl
  · rw [woken]
    constructor <;> rfl

theorem wakeFirst_queue_of_ne {p : Queue} (waiting : p ≠ .readyList) (other : p ≠ q) :
    (k.wakeFirst q).queue p = k.queue p := by
  rcases wakeFirst_cases q k with ⟨_, same⟩ | ⟨thread, rest, _, woken⟩
  · rw [same]
  · simp [woken, readyToRun, setStatus, waiting, other]

theorem wakeFirst_queue_self (waiting : q ≠ .readyList) :
    (k.wakeFirst q).queue q = (k.queue q).tail := by
  rcases wakeFirst_cases q k with ⟨empty, same⟩ | ⟨thread, rest, _, woken⟩
  · simp [same, empty]
  · simp [woken, readyToRun, setStatus, waiting]

theorem wakeFirst_readyList (waiting : q ≠ .readyList) :
    (k.wakeFirst q).queue .readyList = k.queue .readyList ++ (k.queue q).head?.toList := by
  rcases wakeFirst_cases q k with ⟨empty, same⟩ | ⟨thread, rest, shape, woken⟩
  · simp [same, empty]
  · simp [woken, readyToRun, setStatus, waiting.symm, shape]

theorem broadcastLoop_same (turns : Nat) (k : Threads) :
    SameObjects k (k.broadcastLoop c turns) := by
  induction turns generalizing k with
  | zero => exact .refl
  | succ turns ih =>
    have first := wakeFirst_same (k := k) (q := .condition c)
    have rest := ih (k.wakeFirst (.condition c))
    simp only [broadcastLoop]
    exact ⟨rest.current.trans first.current, rest.created.trans first.created,
      rest.control.trans first.control, rest.value.trans first.value,
      rest.isHeld.trans first.isHeld, rest.lockHolder.trans first.lockHolder,
      rest.idling.trans first.idling, rest.carcass.trans first.carcass⟩

theorem broadcastLoop_queue_of_ne {p : Queue} (waiting : p ≠ .readyList) (other : p ≠ .condition c)
    (turns : Nat) (k : Threads) :
    (k.broadcastLoop c turns).queue p = k.queue p := by
  induction turns generalizing k with
  | zero => rfl
  | succ turns ih =>
    simp only [broadcastLoop]
    rw [ih, wakeFirst_queue_of_ne waiting other]

theorem broadcastLoop_ready (turns : Nat) (k : Threads) (member : t ∈ k.queue .readyList) :
    t ∈ (k.broadcastLoop c turns).queue .readyList := by
  induction turns generalizing k with
  | zero => exact member
  | succ turns ih =>
    refine ih (k.wakeFirst (.condition c)) ?_
    rw [wakeFirst_readyList (by simp)]
    exact List.mem_append_left _ member

theorem wakeFirst_ready (q : Queue) (k : Threads) (waiting : q ≠ .readyList) :
    ∀ t, t ∈ k.queue .readyList → t ∈ (k.wakeFirst q).queue .readyList := by
  intro t member
  rw [wakeFirst_readyList waiting]
  exact List.mem_append_left _ member

theorem wakeFirst_front (q : Queue) (k : Threads) (waiting : q ≠ .readyList)
    (front : (k.queue q).head? = some t) : t ∈ (k.wakeFirst q).queue .readyList := by
  rw [wakeFirst_readyList waiting]
  simp [front]

theorem Switched.own {thread : Nat} (switched : Switched (m.setControl thread place) k')
    (older : thread < m.created) (started : place ≠ .start) : k'.control thread = place := by
  rcases switched.control thread older with same | ⟨starts, _⟩
  · simpa [setControl] using same
  · exact absurd (by simpa [setControl] using starts) started

/-! ## What a step does to the objects -/

def TestsLock (l : Nat) (k : Threads) (event : ThreadEvent) : Prop :=
  event = .call (.acquire l) ∨
    (event = .resume ∧ (k.control k.currentThread).acquires = some l)

def TestsValue (s : Nat) (k : Threads) (event : ThreadEvent) : Prop :=
  event = .call (.p s) ∨ (event = .resume ∧ k.control k.currentThread = .inP s)

instance (s : Nat) (k : Threads) (event : ThreadEvent) : Decidable (TestsValue s k event) :=
  inferInstanceAs (Decidable (_ ∨ _))

def RaisesValue (s : Nat) (event : ThreadEvent) : Prop :=
  event = .call (.v s) ∨ event = .handler s

instance (s : Nat) (event : ThreadEvent) : Decidable (RaisesValue s event) :=
  inferInstanceAs (Decidable (_ ∨ _))

def NeedsLock (l : Nat) (event : ThreadEvent) : Prop :=
  event = .call (.release l) ∨ ∃ c, event = .call (.wait c l) ∨ event = .call (.signal c l) ∨
    event = .call (.broadcast c l)

def lowered (s : Nat) (k : Threads) : Threads :=
  { k with value := Function.update k.value s (k.value s - 1) }.setControl k.currentThread .user

def locked (l : Nat) (k : Threads) : Threads :=
  { k with
    isHeld := Function.update k.isHeld l true
    lockHolder := Function.update k.lockHolder l (some k.currentThread) }.setControl
      k.currentThread .user

def released (l : Nat) (k : Threads) : Threads :=
  { k.wakeFirst (.lock l) with
    isHeld := Function.update k.isHeld l false
    lockHolder := Function.update k.lockHolder l none }

def parked (q : Queue) (place : Continuation) (k : Threads) : Threads :=
  (k.append q).setControl k.currentThread place

inductive Touch (k : Threads) : ThreadEvent → Threads → Prop where
  | none {event : ThreadEvent}
      (nothing : event = .call .fork ∨ event = .call .yield ∨ event = .idleReturn) :
      Touch k event k
  | finish (awake : k.idling = false) : Touch k (.call .finish)
      ({ k with threadToBeDestroyed := some k.currentThread }.setControl k.currentThread .inFinish)
  | lowered {event : ThreadEvent} {s : Nat} (awake : k.idling = false)
      (tests : TestsValue s k event) (positive : k.value s ≠ 0) : Touch k event (k.lowered s)
  | parkedInP {event : ThreadEvent} {s : Nat} (awake : k.idling = false)
      (tests : TestsValue s k event) (zero : k.value s = 0) :
      Touch k event (k.parked (.semaphore s) (.inP s))
  | raised {event : ThreadEvent} {s : Nat} (raises : RaisesValue s event) :
      Touch k event (k.semaphoreV s)
  | locked {event : ThreadEvent} {l : Nat} (awake : k.idling = false)
      (tests : TestsLock l k event) (free : k.isHeld l = false) : Touch k event (k.locked l)
  | parkedInAcquire {event : ThreadEvent} {l : Nat} {place : Continuation}
      (awake : k.idling = false) (tests : TestsLock l k event) (held : k.isHeld l = true)
      (here : place.acquires = some l) : Touch k event (k.parked (.lock l) place)
  | released {l : Nat} (holder : k.lockHolder l = some k.currentThread) :
      Touch k (.call (.release l)) (k.released l)
  | parkedInWait {c l : Nat} (awake : k.idling = false)
      (holder : k.lockHolder l = some k.currentThread) :
      Touch k (.call (.wait c l)) ((k.released l).parked (.condition c) (.inWait c l))
  | signalled {c l : Nat} (holder : k.lockHolder l = some k.currentThread) :
      Touch k (.call (.signal c l)) (k.wakeFirst (.condition c))
  | broadcast {c l : Nat} (holder : k.lockHolder l = some k.currentThread) :
      Touch k (.call (.broadcast c l))
        (k.broadcastLoop c (k.queue (.condition c)).length)
  | refused {event : ThreadEvent} {l : Nat} (needs : NeedsLock l event)
      (other : k.lockHolder l ≠ some k.currentThread) : Touch k event k

def Effect (k : Threads) (event : ThreadEvent) (k' : Threads) : Prop :=
  ∃ m, Touch k event m ∧ Switched m k'

theorem release_of_holder (holder : k.lockHolder l = some k.currentThread) :
    k.release l = k.released l := by
  simp [release, isHeldByCurrentThread, holder, released]

theorem wait_of_holder {c : Nat} (holder : k.lockHolder l = some k.currentThread) :
    k.wait c l = ((k.released l).append (.condition c)).sleep (.inWait c l) := by
  simp [wait, isHeldByCurrentThread, holder, release_of_holder holder]

theorem wait_of_not_holder {c : Nat} (other : k.lockHolder l ≠ some k.currentThread) :
    k.wait c l = .ok k := by
  simp [wait, isHeldByCurrentThread, other]

theorem released_current : (k.released l).currentThread = k.currentThread :=
  wakeFirst_same.current

structure Switches (R : Threads → Threads → Prop) : Prop where
  stays : ∀ k, R k k
  fork : ∀ k : Threads, R k k.fork
  yield : ∀ {k k' : Threads}, k.yield = .ok k' → R k k'
  sleep : ∀ {k k' : Threads} {place : Continuation}, k.sleep place = .ok k' →
    R (k.setControl k.currentThread place) k'
  idle : ∀ {k k' : Threads}, k.sleepLoop = .ok k' → R k k'

theorem switched : Switches Switched :=
  ⟨fun _ => .refl, fun _ => fork_switched, yield_switched, sleep_switched, sleepLoop_switched⟩

variable {event : ThreadEvent}

section Effects

variable {R : Threads → Threads → Prop} (switches : Switches R)

include switches

theorem semaphoreP_effect (awake : k.idling = false) (tests : TestsValue s k event)
    (done : k.semaphoreP s = .ok k') : ∃ m, Touch k event m ∧ R m k' := by
  simp only [semaphoreP] at done
  split at done
  next zero => exact ⟨_, .parkedInP awake tests zero, switches.sleep done⟩
  next positive =>
    cases done
    exact ⟨_, .lowered awake tests positive, switches.stays _⟩

theorem acquire_effect (awake : k.idling = false) (tests : TestsLock l k event)
    (here : place.acquires = some l) (done : k.acquire place l = .ok k') :
    ∃ m, Touch k event m ∧ R m k' := by
  simp only [acquire] at done
  split at done
  next held => exact ⟨_, .parkedInAcquire awake tests held here, switches.sleep done⟩
  next free =>
    cases done
    exact ⟨_, .locked awake tests (by simpa using free), switches.stays _⟩

theorem apply_effect {c : Routine} (awake : k.idling = false) (done : c.apply k = .ok k') :
    ∃ m, Touch k (.call c) m ∧ R m k' := by
  have stays := switches.stays
  cases c with
  | fork =>
    cases done
    exact ⟨_, .none (.inl rfl), switches.fork k⟩
  | yield => exact ⟨_, .none (.inr (.inl rfl)), switches.yield done⟩
  | finish => exact ⟨_, .finish awake, switches.sleep done⟩
  | p s => exact semaphoreP_effect switches awake (.inl rfl) done
  | v s =>
    cases done
    exact ⟨_, .raised (.inl rfl), stays _⟩
  | acquire l => exact acquire_effect switches awake (.inl rfl) rfl done
  | release l =>
    cases done
    by_cases holder : k.lockHolder l = some k.currentThread
    · rw [release_of_holder holder]
      exact ⟨_, .released holder, stays _⟩
    · simp only [release, isHeldByCurrentThread, holder, decide_false, Bool.false_eq_true, if_false]
      exact ⟨_, .refused (.inl rfl) holder, stays _⟩
  | wait c l =>
    by_cases holder : k.lockHolder l = some k.currentThread
    · exact ⟨_, .parkedInWait awake holder,
        switches.sleep ((wait_of_holder holder).symm.trans done)⟩
    · cases (wait_of_not_holder holder).symm.trans done
      exact ⟨_, .refused (.inr ⟨c, .inl rfl⟩) holder, stays _⟩
  | signal c l =>
    cases done
    by_cases holder : k.lockHolder l = some k.currentThread
    · simp only [signal, isHeldByCurrentThread, holder, decide_true, if_true]
      exact ⟨_, .signalled holder, stays _⟩
    · simp only [signal, isHeldByCurrentThread, holder, decide_false, Bool.false_eq_true, if_false]
      exact ⟨_, .refused (.inr ⟨c, .inr (.inl rfl)⟩) holder, stays _⟩
  | broadcast c l =>
    cases done
    by_cases holder : k.lockHolder l = some k.currentThread
    · simp only [broadcast, isHeldByCurrentThread, holder, decide_true, if_true]
      exact ⟨_, .broadcast holder, stays _⟩
    · simp only [broadcast, isHeldByCurrentThread, holder, decide_false, Bool.false_eq_true,
        if_false]
      exact ⟨_, .refused (.inr ⟨c, .inr (.inr rfl)⟩) holder, stays _⟩

theorem resume_effect (awake : k.idling = false) (done : k.resume = some (.ok k')) :
    ∃ m, Touch k .resume m ∧ R m k' := by
  simp only [resume] at done
  cases place : k.control k.currentThread with
  | inP s =>
    simp only [place, Option.some.injEq] at done
    exact semaphoreP_effect switches awake (.inr ⟨rfl, place⟩) done
  | inAcquire l | inWait c l | inReacquire c l =>
    simp only [place, Option.some.injEq] at done
    refine acquire_effect switches awake (.inr ⟨rfl, ?_⟩) rfl done
    rw [place]
    rfl
  | unborn | start | user | inFinish => simp [place] at done

end Effects

end Threads

open Threads

variable {k k' : Threads} {t : Nat} {event : ThreadEvent}

/-- A step touches the objects, and is followed by what all switches do. -/
theorem ThreadStep.touches {R : Threads → Threads → Prop} (switches : Switches R)
    (taken : ThreadStep k event k') : ∃ m, Touch k event m ∧ R m k' := by
  cases taken with
  | call user done => exact apply_effect switches user.1 done
  | resume awake done => exact resume_effect switches awake done
  | handler enabled => exact ⟨_, .raised (.inr rfl), switches.stays _⟩
  | idleReturn idle done => exact ⟨_, .none (.inr (.inr rfl)), switches.idle done⟩

theorem ThreadStep.effect (taken : ThreadStep k event k') : Threads.Effect k event k' :=
  taken.touches switched

/-! ## What a step does to the other threads -/

namespace Threads

/-- What `Touch` leaves alone: threads that are ready, and the places of the threads that do
not act. -/
structure Kept (k m : Threads) : Prop where
  created : m.created = k.created
  ready : ∀ t, t ∈ k.queue .readyList → t ∈ m.queue .readyList
  control : ∀ t, t ≠ k.currentThread ∨ k.idling = true → m.control t = k.control t

theorem Kept.refl : Kept k k := ⟨rfl, fun _ member => member, fun _ _ => rfl⟩

theorem ne_of_apart (awake : k.idling = false)
    (apart : t ≠ k.currentThread ∨ k.idling = true) : t ≠ k.currentThread := by
  rcases apart with other | idle
  · exact other
  · rw [awake] at idle
    cases idle

theorem SameObjects.kept (same : SameObjects k m)
    (ready : ∀ t, t ∈ k.queue .readyList → t ∈ m.queue .readyList) : Kept k m :=
  ⟨same.created, ready, fun t _ => by rw [same.control]⟩

theorem parked_kept {q : Queue} (awake : k.idling = false) (waiting : q ≠ .readyList) :
    Kept k (k.parked q place) := by
  refine ⟨rfl, ?_, fun t apart => ?_⟩
  · intro t member
    simpa [parked, append, setControl, waiting.symm] using member
  · simp [parked, append, setControl, ne_of_apart awake apart]

theorem released_kept : Kept k (k.released l) :=
  ⟨wakeFirst_same.created, wakeFirst_ready _ k (by simp),
    fun t _ => congrFun wakeFirst_same.control t⟩

theorem Touch.kept (touch : Touch k event m) : Kept k m := by
  cases touch with
  | none | refused => exact .refl
  | finish awake | lowered awake _ _ | locked awake _ _ =>
    refine ⟨rfl, fun _ member => member, fun t apart => ?_⟩
    simp [Threads.lowered, Threads.locked, setControl, ne_of_apart awake apart]
  | parkedInP awake _ _ | parkedInAcquire awake _ _ _ => exact parked_kept awake (by simp)
  | raised raises =>
    exact ⟨wakeFirst_same.created, wakeFirst_ready _ k (by simp),
      fun t _ => congrFun wakeFirst_same.control t⟩
  | released holder => exact released_kept
  | @parkedInWait c l awake holder =>
    have released := released_kept (k := k) (l := l)
    have parked : Kept (k.released l) ((k.released l).parked (.condition c) (.inWait c l)) :=
      parked_kept (wakeFirst_same.idling.trans awake) (by simp)
    refine ⟨parked.created.trans released.created, ?_, fun t apart => ?_⟩
    · intro t member
      exact parked.ready t (released.ready t member)
    · have other := ne_of_apart awake apart
      rw [← released.control t apart]
      exact parked.control t (.inl (by rwa [released_current]))
  | signalled holder => exact wakeFirst_same.kept (wakeFirst_ready _ k (by simp))
  | broadcast holder =>
    exact (broadcastLoop_same _ k).kept fun t member => broadcastLoop_ready _ k member

end Threads

theorem ThreadStep.created_le (taken : ThreadStep k event k') : k.created ≤ k'.created := by
  obtain ⟨m, touch, switched⟩ := taken.effect
  exact touch.kept.created ▸ switched.created

theorem ThreadStep.apart (taken : ThreadStep k event k')
    (inside : k.control t ≠ .user) (waits : ¬ (event = .resume ∧ k.currentThread = t)) :
    t ≠ k.currentThread ∨ k.idling = true := by
  by_cases same : t = k.currentThread
  · subst same
    cases taken with
    | call user done => exact absurd user.2 inside
    | resume awake done => exact absurd ⟨rfl, rfl⟩ waits
    | handler enabled =>
      rcases enabled with idle | user
      · exact .inr idle
      · exact absurd user.2 inside
    | idleReturn idle done => exact .inr idle
  · exact .inl same

theorem Threads.Coming.step (coming : k.Coming t) (taken : ThreadStep k event k')
    (inside : k.control t ≠ .user) (waits : ¬ (event = .resume ∧ k.currentThread = t)) :
    k'.Coming t := by
  obtain ⟨m, touch, switched⟩ := taken.effect
  rcases coming with ready | ⟨same, awake⟩
  · exact switched.ready t (touch.kept.ready t ready)
  · rcases taken.apart inside waits with other | idle
    · exact absurd same.symm other
    · rw [awake] at idle
      cases idle

theorem ThreadStep.control_eq (taken : ThreadStep k event k')
    (older : t < k.created) (inside : k.control t ≠ .user) (started : k.control t ≠ .start)
    (waits : ¬ (event = .resume ∧ k.currentThread = t)) : k'.control t = k.control t := by
  obtain ⟨m, touch, switched⟩ := taken.effect
  have kept := touch.kept.control t (taken.apart inside waits)
  rcases switched.control t (touch.kept.created ▸ older) with same | ⟨starts, _⟩
  · exact same.trans kept
  · exact absurd (kept ▸ starts) started

/-- A thread is at a lock because it was there before, or because it calls `Acquire` or
`Wait`. -/
theorem ThreadStep.acquires_from (taken : ThreadStep k event k')
    (acquires : (k'.control t).acquires = some l) : (k.control t).acquires = some l ∨
      (t = k.currentThread ∧ (event = .call (.acquire l) ∨ ∃ c, event = .call (.wait c l))) := by
  obtain ⟨m, touch, switched⟩ := taken.effect
  have before := switched.acquires t l acquires
  by_cases same : t = k.currentThread
  · subst same
    cases touch with
    | none | refused => exact .inl before
    | finish | lowered | parkedInP | locked =>
      simp [lowered, parked, locked, setControl, Continuation.acquires] at before
    | raised | released | signalled => exact .inl (congrFun wakeFirst_same.control _ ▸ before)
    | parkedInAcquire awake tests held here =>
      simp only [parked, setControl, Function.update_self] at before
      cases here.symm.trans before
      rcases tests with rfl | ⟨rfl, place⟩
      · exact .inr ⟨rfl, .inl rfl⟩
      · exact .inl place
    | @parkedInWait c j awake holder =>
      have own : ((k.released j).parked (.condition c) (.inWait c j)).control k.currentThread =
          .inWait c j := by
        simp [parked, setControl, released_current]
      rw [own] at before
      cases before
      exact .inr ⟨rfl, .inr ⟨c, rfl⟩⟩
    | broadcast => exact .inl (congrFun (broadcastLoop_same _ k).control _ ▸ before)
  · exact .inl (touch.kept.control t (.inl same) ▸ before)

theorem Threads.Switched.user (switched : Switched m k') (older : t < m.created)
    (user : m.control t = .user) : k'.control t = .user := by
  rcases switched.control t older with same | ⟨_, starts⟩
  · exact same.trans user
  · exact starts

theorem ThreadStep.user_kept (taken : ThreadStep k event k') (older : t < k.created)
    (user : k.control t = .user)
    (quiet : t = k.currentThread → ∀ c, event = .call c → c = .yield) :
    k'.control t = .user := by
  by_cases same : t = k.currentThread
  · subst same
    cases taken with
    | call inUser done =>
      cases quiet rfl _ rfl
      exact (yield_switched done).user older user
    | resume awake done => simp [Threads.resume, user] at done
    | handler enabled => exact (congrFun wakeFirst_same.control _).trans user
    | idleReturn idle done => exact (sleepLoop_switched done).user older user
  · obtain ⟨m, touch, switched⟩ := taken.effect
    exact switched.user (touch.kept.created ▸ older)
      ((touch.kept.control t (.inl same)).trans user)

/-! ## Where a thread can be after a step -/

namespace Threads

variable {nextThread : Nat}

def PlaceKept (k k' : Threads) (t : Nat) : Prop :=
  k'.control t = k.control t ∨ k'.control t = .user ∨ k'.control t = .start

theorem run_place (done : k.run nextThread = .ok k') : PlaceKept k k' t := by
  unfold PlaceKept
  rw [(run_ok done).control]
  split
  next =>
    by_cases same : t = nextThread
    · exact .inr (.inl (by simp [same]))
    · exact .inl (by simp [same])
  next => exact .inl rfl

theorem sleepLoop_place (done : k.sleepLoop = .ok k') : PlaceKept k k' t := by
  cases sleepLoop_eq k with
  | inl idles =>
    rw [idles.2] at done
    cases done
    exact .inl rfl
  | inr runs =>
    obtain ⟨nextThread, rest, _, runs⟩ := runs
    rw [runs] at done
    exact run_place (k := k.dequeued) done

theorem yield_place (done : k.yield = .ok k') : PlaceKept k k' t := by
  cases yield_eq k with
  | inl returns =>
    rw [returns.2] at done
    cases done
    exact .inl rfl
  | inr runs =>
    obtain ⟨nextThread, rest, _, runs⟩ := runs
    rw [runs] at done
    exact run_place (k := k.dequeued.readyToRun k.currentThread) done

theorem fork_place : PlaceKept k k.fork t := by
  by_cases new : t = k.created
  · exact .inr (.inr (by simp [fork, readyToRun, setStatus, setControl, new]))
  · exact .inl (by simp [fork, readyToRun, setStatus, setControl, new])

theorem placed : Switches fun m k' => ∀ t, PlaceKept m k' t :=
  ⟨fun _ _ => .inl rfl, fun _ _ => fork_place, fun done _ => yield_place done,
    fun {k _ place} done _ => sleepLoop_place
      (k := (k.setStatus k.currentThread .blocked).setControl k.currentThread place) done,
    fun done _ => sleepLoop_place done⟩

end Threads

theorem ThreadStep.place_kept (taken : ThreadStep k event k')
    (other : t ≠ k.currentThread ∨ k.idling = true) : PlaceKept k k' t := by
  obtain ⟨m, touch, kept⟩ := taken.touches placed
  have place := kept t
  rwa [PlaceKept, touch.kept.control t other] at place

/-- A thread is in `P` because it was there before, or because it calls `P`. -/
theorem ThreadStep.inP_from (taken : ThreadStep k event k')
    (older : k.idling = false → k.currentThread < k.created) (asleep : k'.control t = .inP s) :
    k.control t = .inP s ∨ (t = k.currentThread ∧ event = .call (.p s)) := by
  by_cases acts : t ≠ k.currentThread ∨ k.idling = true
  · cases taken.place_kept acts with
    | inl same => exact .inl (same ▸ asleep)
    | inr moved => simp [asleep] at moved
  · obtain ⟨rfl, awake⟩ : t = k.currentThread ∧ k.idling = false := by
      simpa only [not_or, ne_eq, Decidable.not_not, Bool.not_eq_true] using acts
    obtain ⟨m, touch, switched⟩ := taken.effect
    have before : m.control k.currentThread = .inP s := by
      cases switched.control _ (touch.kept.created ▸ older awake) with
      | inl same => exact same ▸ asleep
      | inr starts => simp [asleep] at starts
    cases touch with
    | none | refused => exact .inl before
    | finish | lowered | locked | parkedInWait =>
      simp [lowered, locked, parked, setControl, released_current] at before
    | raised | released | signalled => exact .inl (congrFun wakeFirst_same.control _ ▸ before)
    | @parkedInP _ j awake tests zero =>
      have same : j = s := by simpa [parked, setControl] using before
      subst same
      cases tests with
      | inl calls => exact .inr ⟨rfl, calls⟩
      | inr resumes => exact .inl resumes.2
    | @parkedInAcquire _ l place awake tests held here =>
      have inP : place = .inP s := by simpa [parked, setControl] using before
      simp [inP, Continuation.acquires] at here
    | broadcast => exact .inl (congrFun (broadcastLoop_same _ k).control _ ▸ before)

def ThreadEvent.ApartFrom (c : Nat) (event : ThreadEvent) : Prop :=
  ∀ l, event ≠ .call (.wait c l) ∧ event ≠ .call (.signal c l) ∧ event ≠ .call (.broadcast c l)

theorem ThreadStep.condition_same (taken : ThreadStep k event k') (apart : event.ApartFrom c) :
    k'.queue (.condition c) = k.queue (.condition c) := by
  obtain ⟨m, touch, switched⟩ := taken.effect
  rw [switched.queue _ (by simp)]
  cases touch with
  | none | finish | lowered | locked | refused => rfl
  | parkedInP | parkedInAcquire => simp [parked, append, setControl]
  | raised | released => exact wakeFirst_queue_of_ne (by simp) (by simp)
  | @parkedInWait j l awake holder =>
    have other : c ≠ j := by
      rintro rfl
      exact (apart l).1 rfl
    have queue : (k.released l).queue (.condition c) = k.queue (.condition c) :=
      wakeFirst_queue_of_ne (by simp) (by simp)
    simpa [parked, append, setControl, other] using queue
  | @signalled j l holder =>
    have other : c ≠ j := by
      rintro rfl
      exact (apart l).2.1 rfl
    exact wakeFirst_queue_of_ne (by simp) (by simpa using other)
  | @broadcast j l holder =>
    have other : c ≠ j := by
      rintro rfl
      exact (apart l).2.2 rfl
    exact broadcastLoop_queue_of_ne (by simp) (by simpa using other) _ k

end Nachos
