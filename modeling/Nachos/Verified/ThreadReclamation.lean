import Nachos.Threads.RemoveThread
import Nachos.Verified.ThreadPlacement

/-!
# Finished threads are deleted

`Finish` and `RemoveThread` leave a thread in `threadToBeDestroyed`, and the thread that
returns from `SWITCH` next deletes it.  A thread that starts at `ThreadRoot` does not return
from `SWITCH`, so it deletes nothing, and nothing keeps the next `Finish` or `RemoveThread` from
overwriting the variable.
-/

namespace Nachos

open Queues Runs

namespace Threads

variable {k k' : Threads} {nextThread : Nat} {event : ThreadEvent}

/-! ## Giving up the CPU -/

def carcass (k : Threads) : ThreadEvent → Option Nat
  | .call .finish => some k.currentThread
  | _ => k.threadToBeDestroyed

def givesUp (k : Threads) : ThreadEvent → Bool
  | .call .yield | .call .finish | .idleReturn => true
  | .call (.p s) => k.value s = 0
  | .call (.acquire l) => k.isHeld l
  | .call (.wait _ l) => k.isHeldByCurrentThread l
  | .resume =>
    match k.control k.currentThread with
    | .inP s => k.value s = 0
    | .inAcquire l | .inWait _ l | .inReacquire _ l => k.isHeld l
    | .unborn | .start | .user | .inFinish => false
  | .call .fork | .call (.v _) | .call (.release _) | .call (.signal _ _) |
    .call (.broadcast _ _) | .handler _ => false

/-- The first ready thread when the CPU is given up; `Wait` has released the lock by then. -/
def nextToRun (k : Threads) : ThreadEvent → Option Nat
  | .call (.wait _ l) => (k.queue .readyList ++ (k.queue (.lock l)).head?.toList).head?
  | _ => (k.queue .readyList).head?

structure Stays (event : ThreadEvent) (k k' : Threads) : Prop where
  quiet : k.givesUp event = true → k.nextToRun event = none
  slot : k'.threadToBeDestroyed = k.carcass event
  destroyed : k'.destroyed = k.destroyed
  current : k'.currentThread = k.currentThread
  idling : k'.idling = false → k.idling = false

structure Gets (nextThread : Nat) (event : ThreadEvent) (k k' : Threads) : Prop where
  gives : k.givesUp event = true
  next : k.nextToRun event = some nextThread
  current : k'.currentThread = nextThread
  idling : k'.idling = false

inductive SlotEffect (k : Threads) (event : ThreadEvent) (k' : Threads) : Prop where
  | stays (stays : Stays event k k')
  | starts {nextThread : Nat} (gets : Gets nextThread event k k')
      (new : k.control nextThread = .start) (slot : k'.threadToBeDestroyed = k.carcass event)
      (destroyed : k'.destroyed = k.destroyed)
  | returns {nextThread : Nat} (gets : Gets nextThread event k k')
      (old : k.control nextThread ≠ .start) (slot : k'.threadToBeDestroyed = none)
      (destroyed : k'.destroyed = (k.carcass event).toList ++ k.destroyed)

theorem run_slot (done : k.run nextThread = .ok k') :
    (k.control nextThread = .start ∧ k'.threadToBeDestroyed = k.threadToBeDestroyed ∧
        k'.destroyed = k.destroyed) ∨
      (k.control nextThread ≠ .start ∧ k'.threadToBeDestroyed = none ∧
        k'.destroyed = k.threadToBeDestroyed.toList ++ k.destroyed) := by
  by_cases starts : k.control nextThread = .start
  · simp only [run, setStatus, starts, if_true, Except.ok.injEq] at done
    subst done
    exact .inl ⟨starts, rfl, rfl⟩
  · cases found : k.threadToBeDestroyed with
    | none =>
      simp only [run, setStatus, starts, if_false, found, Except.ok.injEq] at done
      subst done
      exact .inr ⟨starts, rfl, rfl⟩
    | some thread =>
      simp only [run, setStatus, starts, if_false, found] at done
      by_cases itself : thread = nextThread
      · simp [itself] at done
      · rw [if_neg itself] at done
        cases done
        exact .inr ⟨starts, rfl, rfl⟩

/-- `m` is the state in which the loop of `Sleep` looks for the next thread. -/
theorem sleepLoop_slot {m : Threads} (done : m.sleepLoop = .ok k')
    (gives : k.givesUp event = true) (next : (m.queue .readyList).head? = k.nextToRun event)
    (slot : m.threadToBeDestroyed = k.carcass event) (destroyed : m.destroyed = k.destroyed)
    (current : m.currentThread = k.currentThread)
    (control : ∀ t, t ∈ m.queue .readyList → m.control t = k.control t) :
    SlotEffect k event k' := by
  cases sleepLoop_eq m with
  | inl idles =>
    obtain ⟨empty, idles⟩ := idles
    rw [idles] at done
    cases done
    refine .stays ⟨fun _ => ?_, slot, destroyed, current, by simp⟩
    rw [← next, empty]
    rfl
  | inr runs =>
    obtain ⟨nextThread, rest, ready, runs⟩ := runs
    rw [runs] at done
    have runTo := run_ok done
    have gets : Gets nextThread event k k' :=
      ⟨gives, by rw [← next, ready]; rfl, runTo.current, runTo.idling⟩
    have place : m.dequeued.control nextThread = k.control nextThread :=
      control nextThread (by simp [ready])
    cases run_slot done with
    | inl starts =>
      obtain ⟨starts, sameSlot, sameDestroyed⟩ := starts
      exact .starts gets (place ▸ starts) (sameSlot.trans slot) (sameDestroyed.trans destroyed)
    | inr returns =>
      obtain ⟨old, noSlot, deleted⟩ := returns
      refine .returns gets (place ▸ old) noSlot ?_
      rw [deleted]
      simp only [dequeued, slot, destroyed]

theorem sleep_slot {m : Threads} {place : Continuation} (done : m.sleep place = .ok k')
    (gives : k.givesUp event = true) (next : (m.queue .readyList).head? = k.nextToRun event)
    (slot : m.threadToBeDestroyed = k.carcass event) (destroyed : m.destroyed = k.destroyed)
    (current : m.currentThread = k.currentThread) (control : m.control = k.control)
    (nowhere : k.currentThread ∉ m.queue .readyList) : SlotEffect k event k' := by
  refine sleepLoop_slot done gives next slot destroyed current fun t member => ?_
  have other : t ≠ m.currentThread := by
    intro same
    exact nowhere (by rwa [← current, ← same])
  simp [setControl, setStatus, other, control]

theorem slot_stays (quiet : k.givesUp event = false)
    (slot : k'.threadToBeDestroyed = k.carcass event) (destroyed : k'.destroyed = k.destroyed)
    (current : k'.currentThread = k.currentThread) (idling : k'.idling = k.idling) :
    SlotEffect k event k' :=
  .stays ⟨by simp [quiet], slot, destroyed, current, fun awake => idling ▸ awake⟩

theorem wakeFirst_destroyed {q : Queue} : (k.wakeFirst q).destroyed = k.destroyed := by
  cases wakeFirst_cases q k with
  | inl same => rw [same.2]
  | inr woken =>
    obtain ⟨thread, rest, _, woken⟩ := woken
    rw [woken]
    rfl

theorem wakeFirst_slot {q : Queue} (quiet : k.givesUp event = false)
    (same : k.carcass event = k.threadToBeDestroyed) : SlotEffect k event (k.wakeFirst q) :=
  slot_stays quiet (wakeFirst_same.carcass.trans same.symm) wakeFirst_destroyed
    wakeFirst_same.current wakeFirst_same.idling

theorem broadcastLoop_destroyed {c : Nat} (turns : Nat) (k : Threads) :
    (k.broadcastLoop c turns).destroyed = k.destroyed := by
  induction turns generalizing k with
  | zero => rfl
  | succ turns ih =>
    rw [broadcastLoop, ih, wakeFirst_destroyed]

theorem yield_slot (done : k.yield = .ok k') : SlotEffect k (.call .yield) k' := by
  cases yield_eq k with
  | inl returns =>
    obtain ⟨empty, returns⟩ := returns
    rw [returns] at done
    cases done
    exact .stays ⟨fun _ => congrArg List.head? empty, rfl, rfl, rfl, id⟩
  | inr runs =>
    obtain ⟨nextThread, rest, ready, runs⟩ := runs
    rw [runs] at done
    have runTo := run_ok done
    have gets : Gets nextThread (.call .yield) k k' :=
      ⟨rfl, congrArg List.head? ready, runTo.current, runTo.idling⟩
    cases run_slot done with
    | inl starts => exact .starts gets starts.1 starts.2.1 starts.2.2
    | inr returns => exact .returns gets returns.1 returns.2.1 returns.2.2

theorem semaphoreP_slot {s : Nat} (nowhere : k.currentThread ∉ k.queue .readyList)
    (gives : k.givesUp event = decide (k.value s = 0)) (same : k.carcass event = k.threadToBeDestroyed)
    (next : k.nextToRun event = (k.queue .readyList).head?) (done : k.semaphoreP s = .ok k') :
    SlotEffect k event k' := by
  simp only [semaphoreP] at done
  split at done
  next zero =>
    refine sleep_slot done (by simp [gives, zero]) ?_ same.symm rfl rfl rfl ?_
    · simp [append, next]
    · simpa [append] using nowhere
  next positive =>
    cases done
    exact slot_stays (gives.trans (decide_eq_false positive)) same.symm rfl rfl rfl

theorem acquire_slot {place : Continuation} {l : Nat}
    (nowhere : k.currentThread ∉ k.queue .readyList) (gives : k.givesUp event = k.isHeld l)
    (same : k.carcass event = k.threadToBeDestroyed)
    (next : k.nextToRun event = (k.queue .readyList).head?) (done : k.acquire place l = .ok k') :
    SlotEffect k event k' := by
  simp only [acquire] at done
  split at done
  next held =>
    refine sleep_slot done (by simp [gives, held]) ?_ same.symm rfl rfl rfl ?_
    · simp [append, next]
    · simpa [append] using nowhere
  next free =>
    cases done
    exact slot_stays (by simpa [gives] using free) same.symm rfl rfl rfl

theorem wait_slot {c l : Nat} (nowhere : Located k.queue k.currentThread none)
    (done : k.wait c l = .ok k') : SlotEffect k (.call (.wait c l)) k' := by
  by_cases holder : k.lockHolder l = some k.currentThread
  · have gives : k.givesUp (.call (.wait c l)) = true := by
      simp [givesUp, isHeldByCurrentThread, holder]
    rw [wait_of_holder holder] at done
    have ready : (k.released l).queue .readyList =
        k.queue .readyList ++ (k.queue (.lock l)).head?.toList := wakeFirst_readyList (by simp)
    refine sleep_slot done gives ?_ wakeFirst_same.carcass wakeFirst_destroyed released_current
      wakeFirst_same.control ?_
    · simp [append, ready, nextToRun]
    · simp only [append, ne_eq, reduceCtorEq, not_false_eq_true, push_of_ne, ready,
        List.mem_append, not_or]
      refine ⟨nowhere .readyList, fun member => nowhere (.lock l) ?_⟩
      exact List.mem_of_mem_head? (by simpa using member)
  · cases (wait_of_not_holder holder).symm.trans done
    exact slot_stays (by simp [givesUp, isHeldByCurrentThread, holder]) rfl rfl rfl rfl

theorem apply_slot {c : Routine} (nowhere : Located k.queue k.currentThread none)
    (done : c.apply k = .ok k') : SlotEffect k (.call c) k' := by
  cases c with
  | fork =>
    cases done
    exact slot_stays rfl rfl rfl rfl rfl
  | yield => exact yield_slot done
  | finish => exact sleep_slot done rfl rfl rfl rfl rfl rfl (nowhere _)
  | p s => exact semaphoreP_slot (nowhere _) rfl rfl rfl done
  | v s =>
    cases done
    exact slot_stays rfl wakeFirst_same.carcass wakeFirst_destroyed wakeFirst_same.current
      wakeFirst_same.idling
  | acquire l => exact acquire_slot (nowhere _) rfl rfl rfl done
  | release l =>
    cases done
    by_cases holder : k.lockHolder l = some k.currentThread
    · rw [release_of_holder holder]
      exact slot_stays rfl wakeFirst_same.carcass wakeFirst_destroyed wakeFirst_same.current
        wakeFirst_same.idling
    · simp only [release, isHeldByCurrentThread, holder, decide_false, Bool.false_eq_true, if_false]
      exact slot_stays rfl rfl rfl rfl rfl
  | wait c l => exact wait_slot nowhere done
  | signal c l =>
    cases done
    simp only [signal]
    split
    next => exact wakeFirst_slot rfl rfl
    next => exact slot_stays rfl rfl rfl rfl rfl
  | broadcast c l =>
    cases done
    simp only [broadcast]
    split
    next =>
      have same := broadcastLoop_same (k.queue (.condition c)).length k (c := c)
      exact slot_stays rfl same.carcass (broadcastLoop_destroyed _ k) same.current same.idling
    next => exact slot_stays rfl rfl rfl rfl rfl

theorem resume_slot (nowhere : Located k.queue k.currentThread none)
    (done : k.resume = some (.ok k')) : SlotEffect k .resume k' := by
  simp only [resume] at done
  cases place : k.control k.currentThread with
  | inP s =>
    simp only [place, Option.some.injEq] at done
    exact semaphoreP_slot (nowhere _) (by simp [givesUp, place]) rfl rfl done
  | inAcquire l | inWait c l | inReacquire c l =>
    simp only [place, Option.some.injEq] at done
    exact acquire_slot (nowhere _) (by simp [givesUp, place]) rfl rfl done
  | unborn | start | user | inFinish => simp [place] at done

theorem Placement.slotEffect (placement : k.Placement) (taken : ThreadStep k event k') :
    SlotEffect k event k' := by
  cases taken with
  | call user done => exact apply_slot (placement.awake user.1).nowhere done
  | resume awake done => exact resume_slot (placement.awake awake).nowhere done
  | handler enabled =>
    exact slot_stays rfl wakeFirst_same.carcass wakeFirst_destroyed wakeFirst_same.current
      wakeFirst_same.idling
  | idleReturn idle done => exact sleepLoop_slot done rfl rfl rfl rfl rfl fun _ _ => rfl

end Threads

/-! ## Threads that are terminated -/

variable {call : ThreadEvent} {k k' : Threads}

namespace Scheduling

variable {s s' : Scheduling} {event : SchedulingEvent} {t : Nat}
  {history : List (Scheduling × SchedulingEvent)}

theorem removeThread_ok (done : s.removeThread t = .ok s') : t ∈ s.queue .readyList ∧
    s' = { s with
      queue := discard .readyList t s.queue
      control := Function.update s.control t .inFinish
      threadToBeDestroyed := some t
      lastIsNull := (s.lastIsNull ||
        decide ((s.queue .readyList).idxOf t + 1 = (s.queue .readyList).length)) &&
          decide ((s.queue .readyList).erase t ≠ []) } := by
  simp only [removeThread] at done
  split at done
  next member =>
    cases done
    exact ⟨member, rfl⟩
  next => cases done

theorem ready_located (placement : s.Placement) (user : s.InUser)
    (member : t ∈ s.queue .readyList) :
    t ≠ s.currentThread ∧ s.Alive t ∧ Located s.queue t (some .readyList) := by
  have other : t ≠ s.currentThread := by
    intro same
    exact (placement.awake user.1).nowhere .readyList (same ▸ member)
  have stored := placement.others t other
  obtain ⟨place, located⟩ := stored.located
  exact ⟨other, stored.alive_of_mem member, located.eq_of_mem member ▸ located⟩

theorem removeThread_placement (placement : s.Placement) (user : s.InUser)
    (done : s.removeThread t = .ok s') : s'.Placement := by
  obtain ⟨member, rfl⟩ := removeThread_ok done
  obtain ⟨other, alive, located⟩ := ready_located placement user member
  have running := placement.awake user.1
  constructor
  · intro u notCurrent
    by_cases removed : u = t
    · subst removed
      exact ⟨fun lives => absurd (Function.update_self ..) lives.2, fun _ => located.discard⟩
    · refine (placement.others u notCurrent).frame Iff.rfl ?_ rfl fun place at_rest => ?_
      · simp [removed]
      · exact (located_discard_of_ne removed).mpr at_rest
  · intro idle
    have idle : s.idling = true := idle
    rw [user.1] at idle
    cases idle
  · intro _
    refine ⟨⟨running.alive.1, ?_⟩, running.status, ?_⟩
    · simpa [other.symm] using running.alive.2
    · exact (located_discard_of_ne other.symm).mpr running.nowhere
  · intro carcass found
    cases found
    exact ⟨alive.1, by simp⟩

def terminates (s : Scheduling) : SchedulingEvent → Option Nat
  | .thread (.call .finish) => some s.currentThread
  | .removeThread inputThread => some inputThread
  | _ => none

def terminated : List (Scheduling × SchedulingEvent) → List Nat
  | [] => []
  | (s, event) :: earlier => (s.terminates event).toList ++ terminated earlier

def Dispatched (s s' : Scheduling) : Prop :=
  s'.idling = false ∧ (s.idling = true ∨ s'.currentThread ≠ s.currentThread)

/-- What a step must do for terminated threads: they are deleted once, not while they run, and
all of them when a thread gets the CPU; `threadToBeDestroyed` is overwritten only when its
thread is deleted. -/
structure Deletes (history : List (Scheduling × SchedulingEvent)) (s : Scheduling)
    (event : SchedulingEvent) (s' : Scheduling) : Prop where
  once : s'.destroyed.Nodup
  stopped : ∀ t, t ∈ s'.destroyed → t ∈ terminated ((s, event) :: history) ∧ t ≠ s'.currentThread
  prompt : Dispatched s s' → ∀ t, t ∈ terminated ((s, event) :: history) → t ∈ s'.destroyed
  kept : s.terminates event ≠ none → ∀ t, s.threadToBeDestroyed = some t → t ∈ s.destroyed

def Reclaims : List (Scheduling × SchedulingEvent) → Scheduling → Prop
  | [], _ => True
  | (s, event) :: history, s' => Reclaims history s ∧ Deletes history s event s'

/-- The variable is free when a thread is put there, and holds no thread when a new thread
starts. -/
def Timely (s : Scheduling) (event : SchedulingEvent) : Prop :=
  (s.terminates event ≠ none → s.threadToBeDestroyed = none) ∧
    match event with
    | .thread call => s.givesUp call = true →
        ∀ t ∈ s.nextToRun call, s.control t = .start → s.carcass call = none
    | .removeThread _ => True

instance (s : Scheduling) : DecidablePred (Timely s)
  | .thread call => inferInstanceAs (Decidable ((s.terminates (.thread call) ≠ none →
      s.threadToBeDestroyed = none) ∧ (s.givesUp call = true →
        ∀ t ∈ s.nextToRun call, s.control t = .start → s.carcass call = none)))
  | .removeThread t => inferInstanceAs (Decidable ((s.terminates (.removeThread t) ≠ none →
      s.threadToBeDestroyed = none) ∧ True))

structure Slotted (history : List (Scheduling × SchedulingEvent)) (s : Scheduling) : Prop where
  placement : s.Placement
  slotted : (s.threadToBeDestroyed.toList ++ s.destroyed).Sublist (terminated history)
  distinct : (terminated history).Nodup
  dead : ∀ t, t ∈ terminated history → t < s.created ∧ s.control t = .inFinish
  stopped : ∀ t, t ∈ s.destroyed → t ≠ s.currentThread

/-- No thread was overwritten in `threadToBeDestroyed`. -/
def Kept (history : List (Scheduling × SchedulingEvent)) (s : Scheduling) : Prop :=
  terminated history = s.threadToBeDestroyed.toList ++ s.destroyed

theorem finished_kept {k k' : Threads} (taken : ThreadStep k call k') (older : t < k.created)
    (finished : k.control t = .inFinish) : k'.control t = .inFinish := by
  have same : k'.control t = k.control t := by
    apply taken.control_eq older (by simp [finished]) (by simp [finished])
    intro ⟨resumes, current⟩
    subst resumes current
    cases taken with
    | resume awake done => simp [Threads.resume, finished] at done
  rw [same, finished]

theorem finish_control {k k' : Threads} (placement : k.Placement)
    (taken : ThreadStep k (.call .finish) k') : k'.control k.currentThread = .inFinish := by
  cases taken with
  | call user done =>
    exact (Threads.sleep_switched done).own
      (m := { k with threadToBeDestroyed := some k.currentThread })
      (placement.awake user.1).alive.1 (by simp)

theorem Slotted.fresh (slotted : Slotted history s) (alive : s.Alive t) :
    t ∉ terminated history :=
  fun member => alive.2 (slotted.dead t member).2

theorem Slotted.not_destroyed (slotted : Slotted history s)
    (found : s.threadToBeDestroyed = some t) : t ∉ s.destroyed := by
  have distinct := slotted.distinct.sublist slotted.slotted
  rw [found] at distinct
  exact (List.nodup_cons.mp distinct).1

/-- Of the routines only `Finish` terminates a thread, the current one. -/
theorem terminates_thread (s : Scheduling) (call : ThreadEvent) :
    (call = .call .finish ∧ s.terminates (.thread call) = some s.currentThread ∧
        s.carcass call = some s.currentThread) ∨
      (s.terminates (.thread call) = none ∧ s.carcass call = s.threadToBeDestroyed) := by
  by_cases finishes : call = .call .finish
  · subst finishes
    exact .inl ⟨rfl, rfl, rfl⟩
  · right
    unfold terminates Threads.carcass
    constructor
    · split <;> simp_all
    · split <;> simp_all

/-- With a free variable, `Finish` adds the current thread to it. -/
theorem carcass_toList (free : s.terminates (.thread call) ≠ none → s.threadToBeDestroyed = none) :
    (s.carcass call).toList =
      (s.terminates (.thread call)).toList ++ s.threadToBeDestroyed.toList := by
  cases terminates_thread s call with
  | inl finishes =>
    obtain ⟨_, current, carcass⟩ := finishes
    rw [free (by simp [current]), current, carcass]
    rfl
  | inr others =>
    rw [others.1, others.2]
    rfl

theorem carcass_sublist (s : Scheduling) (call : ThreadEvent) : (s.carcass call).toList.Sublist
    ((s.terminates (.thread call)).toList ++ s.threadToBeDestroyed.toList) := by
  cases terminates_thread s call with
  | inl finishes =>
    rw [finishes.2.1, finishes.2.2]
    exact List.sublist_append_left ..
  | inr others =>
    rw [others.2]
    exact List.sublist_append_right ..

theorem slotEffect_toList (effect : k.SlotEffect call k') :
    k'.threadToBeDestroyed.toList ++ k'.destroyed = (k.carcass call).toList ++ k.destroyed := by
  cases effect with
  | stays stays => rw [stays.slot, stays.destroyed]
  | starts gets new slot destroyed => rw [slot, destroyed]
  | returns gets old slot destroyed => simp [slot, destroyed]

/-- The thread that the CPU is given to is another one, unless the machine was idle. -/
theorem next_ne_current (placement : k.Placement) (awake : k.idling = false)
    (next : k.nextToRun call = some t) : t ≠ k.currentThread := by
  intro same
  subst same
  have nowhere := (placement.awake awake).nowhere
  unfold Threads.nextToRun at next
  split at next
  next c l =>
    cases List.mem_append.mp (List.mem_of_mem_head? next) with
    | inl ready => exact nowhere _ ready
    | inr first => exact nowhere (.lock l) (List.mem_of_mem_head? (by simpa using first))
  next => exact nowhere _ (List.mem_of_mem_head? next)

theorem Slotted.thread (slotted : Slotted history s) (taken : ThreadStep s.toThreads call k) :
    Slotted ((s, .thread call) :: history) (s.afterStep call k) := by
  have effect := slotted.placement.slotEffect taken
  have placement : k.Placement := slotted.placement.step taken
  have list : (k.threadToBeDestroyed.toList ++ k.destroyed).Sublist
      (terminated ((s, .thread call) :: history)) := by
    rw [slotEffect_toList effect, terminated]
    refine ((carcass_sublist s call).append_right _).trans ?_
    rw [List.append_assoc]
    exact slotted.slotted.append_left _
  have still : ∀ t, t ∈ terminated history → t < k.created ∧ k.control t = .inFinish := by
    intro t earlier
    obtain ⟨older, finished⟩ := slotted.dead t earlier
    exact ⟨Nat.lt_of_lt_of_le older taken.created_le, finished_kept taken older finished⟩
  obtain ⟨distinct, dead⟩ : (terminated ((s, .thread call) :: history)).Nodup ∧
      ∀ t, t ∈ terminated ((s, .thread call) :: history) →
        t < k.created ∧ k.control t = .inFinish := by
    cases terminates_thread s call with
    | inl finishes =>
      obtain ⟨isFinish, current, _⟩ := finishes
      subst isFinish
      have alive : s.Alive s.currentThread := by
        cases taken with
        | call user done => exact (slotted.placement.awake user.1).alive
      simp only [terminated, current, Option.toList_some, List.singleton_append, List.nodup_cons,
        List.mem_cons, forall_eq_or_imp]
      exact ⟨⟨slotted.fresh alive, slotted.distinct⟩,
        ⟨Nat.lt_of_lt_of_le alive.1 taken.created_le, finish_control slotted.placement taken⟩, still⟩
    | inr others =>
      simp only [terminated, others.1, Option.toList_none, List.nil_append]
      exact ⟨slotted.distinct, still⟩
  refine ⟨placement, list, distinct, dead, ?_⟩
  intro t deleted
  have finished := (dead t (list.subset (List.mem_append_right _ deleted))).2
  by_cases awake : k.idling = false
  · intro current
    exact (placement.awake awake).alive.2 (current ▸ finished)
  · cases effect with
    | stays stays =>
      have before := slotted.stopped t (stays.destroyed ▸ deleted)
      exact fun current => before (current.trans stays.current)
    | starts gets => exact absurd gets.idling awake
    | returns gets => exact absurd gets.idling awake

theorem Slotted.removeThread (slotted : Slotted history s) (user : s.InUser)
    (done : s.removeThread t = .ok s') : Slotted ((s, .removeThread t) :: history) s' := by
  have placement := removeThread_placement slotted.placement user done
  obtain ⟨member, rfl⟩ := removeThread_ok done
  obtain ⟨other, alive, _⟩ := ready_located slotted.placement user member
  refine ⟨placement, ?_, ?_, ?_, slotted.stopped⟩
  · exact ((List.sublist_append_right ..).trans slotted.slotted).cons_cons t
  · simpa [terminated, terminates, slotted.distinct] using slotted.fresh alive
  · simp only [terminated, terminates, Option.toList_some, List.singleton_append, List.mem_cons,
      forall_eq_or_imp]
    refine ⟨⟨alive.1, Function.update_self ..⟩, fun u earlier => ?_⟩
    have different : u ≠ t := by
      intro same
      exact slotted.fresh alive (same ▸ earlier)
    obtain ⟨older, finished⟩ := slotted.dead u earlier
    exact ⟨older, by simpa [different] using finished⟩

section

variable (slotted : Slotted history s) (taken : SchedulingStep s event s')

include slotted taken

theorem Slotted.step : Slotted ((s, event) :: history) s' := by
  cases taken with
  | thread taken linked => exact slotted.thread taken
  | removeThread user done => exact slotted.removeThread user done

variable (guard : Timely s event)

include guard

theorem Slotted.kept (kept : Kept history s) : Kept ((s, event) :: history) s' := by
  rw [Kept, terminated, kept]
  cases taken with
  | @thread call k taken linked =>
    rw [← List.append_assoc, ← carcass_toList guard.1]
    exact (slotEffect_toList (slotted.placement.slotEffect taken)).symm
  | removeThread user done =>
    rw [guard.1 (by simp [terminates]), (removeThread_ok done).2]
    rfl

/-- When a thread gets the CPU in a timely step, the variable is free afterwards. -/
theorem Slotted.slot_free (dispatched : Dispatched s s') :
    s'.threadToBeDestroyed = none := by
  cases taken with
  | thread taken linked =>
    cases slotted.placement.slotEffect taken with
    | stays stays =>
      cases dispatched.2 with
      | inl idle =>
        rw [stays.idling dispatched.1] at idle
        cases idle
      | inr changed => exact absurd stays.current changed
    | starts gets new slot destroyed =>
      exact slot.trans (guard.2 gets.gives _ gets.next new)
    | returns gets old slot destroyed => exact slot
  | removeThread user done =>
    obtain ⟨_, rfl⟩ := removeThread_ok done
    cases dispatched.2 with
    | inl idle =>
      rw [user.1] at idle
      cases idle
    | inr changed => exact absurd rfl changed

theorem Slotted.deletes (kept : Kept history s) : Deletes history s event s' := by
  have after := slotted.step taken
  refine ⟨(after.distinct.sublist after.slotted).of_append_right, fun t deleted =>
    ⟨after.slotted.subset (List.mem_append_right _ deleted), after.stopped t deleted⟩,
    fun dispatched t member => ?_, ?_⟩
  · rwa [slotted.kept taken guard kept, slotted.slot_free taken guard dispatched] at member
  · intro ends t found
    rw [guard.1 ends] at found
    cases found

end

/-- A step against the condition leaves a thread undeleted. -/
theorem Slotted.timely (slotted : Slotted history s) (kept : Kept history s)
    (taken : SchedulingStep s event s') (deletes : Deletes history s event s') : Timely s event := by
  have free : s.terminates event ≠ none → s.threadToBeDestroyed = none := by
    intro ends
    cases found : s.threadToBeDestroyed with
    | none => rfl
    | some t => exact absurd (deletes.kept ends t found) (slotted.not_destroyed found)
  cases taken with
  | removeThread user done => exact ⟨free, trivial⟩
  | @thread call k taken linked =>
    refine ⟨free, fun gives t next starts => ?_⟩
    cases slotted.placement.slotEffect taken with
    | stays stays =>
      rw [stays.quiet gives] at next
      cases next
    | returns gets old slot destroyed =>
      cases gets.next.symm.trans next
      exact absurd starts old
    | starts gets new slot destroyed =>
      cases gets.next.symm.trans next
      have dispatched : Dispatched s (s.afterStep call k) := by
        refine ⟨gets.idling, ?_⟩
        cases idle : s.idling with
        | true => exact .inl rfl
        | false =>
          have other := next_ne_current slotted.placement idle next
          exact .inr (gets.current.symm ▸ other)
      cases found : s.carcass call with
      | none => rfl
      | some c =>
        -- the thread is in the variable, and was not deleted
        have isTerminated : c ∈ terminated ((s, .thread call) :: history) := by
          rw [terminated, kept, ← List.append_assoc, ← carcass_toList free, found]
          simp
        have deleted : c ∈ s.destroyed := by
          have here := deletes.prompt dispatched c isTerminated
          rwa [show (s.afterStep call k).destroyed = s.destroyed from destroyed] at here
        cases terminates_thread s call with
        | inl finishes =>
          obtain ⟨_, _, current⟩ := finishes
          cases found.symm.trans current
          exact absurd rfl (slotted.stopped _ deleted)
        | inr others => exact absurd deleted (slotted.not_destroyed (others.2.symm.trans found))

theorem boot_slotted (values : Nat → BitVec 32) : Slotted [] (boot values) :=
  ⟨Threads.boot_placement values, .slnil, List.nodup_nil, by simp [terminated],
    by simp [boot, Threads.boot]⟩

theorem reachable_slotted {values : Nat → BitVec 32}
    (run : Run SchedulingStep (boot values) history s) : Slotted history s := by
  induction run with
  | start => exact boot_slotted values
  | next earlier taken slotted => exact slotted.step taken

theorem reachable_kept {values : Nat → BitVec 32}
    (run : Run SchedulingStep (boot values) history s) (guarded : Guarded Timely history) :
    Kept history s := by
  induction run with
  | start => rfl
  | next earlier taken kept =>
    obtain ⟨guard, guarded⟩ := guarded_cons.mp guarded
    exact (reachable_slotted earlier).kept taken guard (kept guarded)

theorem reclaims_iff {values : Nat → BitVec 32} (run : Run SchedulingStep (boot values) history s) :
    Reclaims history s ↔ Guarded Timely history := by
  induction run with
  | start => simp [Reclaims, Guarded]
  | next earlier taken ih =>
    rw [Reclaims, ih, guarded_cons, and_comm]
    apply and_congr_left
    intro guarded
    have slotted := reachable_slotted earlier
    have kept := reachable_kept earlier guarded
    exact ⟨fun deletes => slotted.timely kept taken deletes,
      fun guard => slotted.deletes taken guard kept⟩

/-- A deleted thread is not used again: it does not have the CPU, is in no list and is
not deleted twice. -/
theorem deleted_thread_unused {values : Nat → BitVec 32}
    (run : Run SchedulingStep (boot values) history s) (deleted : t ∈ s.destroyed) :
    t ≠ s.currentThread ∧ s.threadToBeDestroyed ≠ some t ∧ ∀ q, t ∉ s.queue q := by
  have slotted := reachable_slotted run
  have stopped := slotted.stopped t deleted
  have finished :=
    (slotted.dead t (slotted.slotted.subset (List.mem_append_right _ deleted))).2
  exact ⟨stopped, fun found => slotted.not_destroyed found deleted,
    (slotted.placement.others t stopped).2 fun alive => alive.2 finished⟩

theorem first_deleted_thread_unused : ∃ history s,
    Run SchedulingStep (boot fun _ => 0#32) history s ∧
      history.map Prod.snd = [.thread (.call .finish), .thread (.call .yield),
        .thread (.call .fork)] ∧ 1 ∈ s.destroyed ∧ 1 ∉ s.queue .readyList :=
  labelled_run performScheduling_step
    (fun _ s => 1 ∈ s.destroyed) (by decide +kernel)
    fun _ _ run deleted => ⟨deleted, (deleted_thread_unused run deleted).2.2 _⟩

end Scheduling

open Scheduling in
/-- Every terminated thread is deleted once and in time if and only if `Finish` and `RemoveThread`
find `threadToBeDestroyed` free, and no new thread starts while it holds a thread. -/
theorem terminated_threads_reclaimed_iff {values : Nat → BitVec 32}
    {history : List (Scheduling × SchedulingEvent)} {s : Scheduling}
    (run : Run SchedulingStep (Scheduling.boot values) history s) :
    Reclaims history s ↔ Guarded Timely history :=
  reclaims_iff run

open Scheduling in
/-- A thread that has started before the other one finishes deletes it. -/
theorem finished_thread_reclaimed : ∃ history s,
    Run SchedulingStep (Scheduling.boot fun _ => 0#32) history s ∧
      history.map Prod.snd = [.thread (.call .finish), .thread (.call .yield),
        .thread (.call .fork)] ∧ s.destroyed = [1] ∧ Reclaims history s := by
  refine labelled_run performScheduling_step
    (fun history s => s.destroyed = [1] ∧ Guarded Timely history) (by decide +kernel)
    fun history s run shape => ?_
  exact ⟨shape.1, (terminated_threads_reclaimed_iff run).mpr shape.2⟩

open Scheduling in
/-- The main thread finishes and a new thread starts; when that finishes as well, its place in
`threadToBeDestroyed` was still taken, and the main thread is never deleted. -/
theorem main_thread_not_reclaimed : ∃ history s,
    Run SchedulingStep (Scheduling.boot fun _ => 0#32) history s ∧
      history.map Prod.snd = [.thread (.call .finish), .thread (.call .finish),
        .thread (.call .fork), .thread (.call .fork)] ∧
      (terminated history = [1, 0] ∧ s.threadToBeDestroyed = some 1 ∧ s.destroyed = [] ∧
        s.currentThread = 2) ∧ ¬ Reclaims history s := by
  refine labelled_run performScheduling_step (fun history s => (terminated history = [1, 0] ∧
      s.threadToBeDestroyed = some 1 ∧ s.destroyed = [] ∧ s.currentThread = 2) ∧
      ¬ Guarded Timely history)
    (by decide +kernel) fun history s run checked => ?_
  obtain ⟨shape, untimely⟩ := checked
  exact ⟨shape, fun reclaims => untimely ((reclaims_iff run).mp reclaims)⟩

end Nachos
