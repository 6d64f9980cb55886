import Nachos.Lib.Queues
import Nachos.Lib.Runs
import Nachos.Threads.Utility

/-!
# Threads, the scheduler and the synchronization routines

`thread.cc`, `scheduler.cc` and `synch.cc`.  A routine disables interrupts and keeps the CPU
until it returns or calls `Sleep`, so what runs between two such points is one step.  Threads,
semaphores, locks and conditions are numbered; every object exists from the start, in the
state its constructor gives it.
-/

namespace Nachos

open Queues Runs

inductive ThreadStatus where
  | justCreated
  | running
  | ready
  | blocked
  deriving DecidableEq, Repr

inductive Queue where
  | readyList
  | semaphore (s : Nat)
  | lock (l : Nat)
  | condition (c : Nat)
  deriving DecidableEq, Repr

inductive Continuation where
  /-- There is no such thread yet. -/
  | unborn
  /-- At `ThreadRoot`: forked, but it has not run. -/
  | start
  /-- Outside the routines. -/
  | user
  | inP (s : Nat)
  | inAcquire (l : Nat)
  /-- In the `Sleep` of `Wait`. -/
  | inWait (c l : Nat)
  /-- In the `Acquire` of `Wait`. -/
  | inReacquire (c l : Nat)
  | inFinish
  deriving DecidableEq, Repr

structure Threads where
  created : Nat
  currentThread : Nat
  status : Nat → ThreadStatus
  control : Nat → Continuation
  queue : Queue → List Nat
  /-- `int value` of the semaphores. -/
  value : Nat → BitVec 32
  isHeld : Nat → Bool
  lockHolder : Nat → Option Nat
  threadToBeDestroyed : Option Nat
  destroyed : List Nat
  /-- The current thread is in `Interrupt::Idle`, called by `Sleep`. -/
  idling : Bool

namespace Threads

def setStatus (thread : Nat) (status : ThreadStatus) (k : Threads) : Threads :=
  { k with status := Function.update k.status thread status }

def setControl (thread : Nat) (control : Continuation) (k : Threads) : Threads :=
  { k with control := Function.update k.control thread control }

def append (q : Queue) (k : Threads) : Threads :=
  { k with queue := push q k.currentThread k.queue }

def remove (q : Queue) (k : Threads) : Option Nat × Threads :=
  ((k.queue q).head?, { k with queue := pop q k.queue })

/-! ## `class Scheduler` -/

def readyToRun (thread : Nat) (k : Threads) : Threads :=
  { k.setStatus thread .ready with queue := push .readyList thread k.queue }

def findNextToRun (k : Threads) : Option Nat × Threads := k.remove .readyList

/-- `Scheduler::Run`, to the point where `nextThread` goes on.  A thread that has run before
returns from `SWITCH` into its own call of `Run` and deletes the finished thread there; a new
one starts at `ThreadRoot`. -/
def run (nextThread : Nat) (k : Threads) : Except Fault Threads :=
  let k := { k.setStatus nextThread .running with currentThread := nextThread, idling := false }
  if k.control nextThread = .start then .ok (k.setControl nextThread .user)
  else
    match k.threadToBeDestroyed with
    | none => .ok k
    | some carcass =>
      -- ASSERT(this != currentThread) in the destructor
      if carcass = nextThread then .error .assertion
      else .ok { k with threadToBeDestroyed := none, destroyed := carcass :: k.destroyed }

/-! ## `class Thread` -/

def fork (k : Threads) : Threads :=
  readyToRun k.created
    { k.setControl k.created .start with created := k.created + 1 }

def sleepLoop (k : Threads) : Except Fault Threads :=
  match k.findNextToRun with
  | (none, k) => .ok { k with idling := true }
  | (some nextThread, k) => k.run nextThread

def sleep (place : Continuation) (k : Threads) : Except Fault Threads :=
  ((k.setStatus k.currentThread .blocked).setControl k.currentThread place).sleepLoop

def yield (k : Threads) : Except Fault Threads :=
  match k.findNextToRun with
  | (none, k) => .ok k
  | (some nextThread, k) => (k.readyToRun k.currentThread).run nextThread

def finish (k : Threads) : Except Fault Threads :=
  sleep .inFinish { k with threadToBeDestroyed := some k.currentThread }

/-! ## `class Semaphore` -/

def wakeFirst (q : Queue) (k : Threads) : Threads :=
  match k.remove q with
  | (none, k) => k
  | (some thread, k) => k.readyToRun thread

def semaphoreP (s : Nat) (k : Threads) : Except Fault Threads :=
  if k.value s = 0 then (k.append (.semaphore s)).sleep (.inP s)
  else .ok ({ k with value := Function.update k.value s (k.value s - 1) }.setControl
    k.currentThread .user)

def semaphoreV (s : Nat) (k : Threads) : Threads :=
  { k.wakeFirst (.semaphore s) with value := Function.update k.value s (k.value s + 1) }

/-! ## `class Lock` -/

def isHeldByCurrentThread (l : Nat) (k : Threads) : Bool :=
  k.lockHolder l = some k.currentThread

def acquire (place : Continuation) (l : Nat) (k : Threads) : Except Fault Threads :=
  if k.isHeld l then (k.append (.lock l)).sleep place
  else .ok ({ k with
    isHeld := Function.update k.isHeld l true
    lockHolder := Function.update k.lockHolder l (some k.currentThread) }.setControl
      k.currentThread .user)

def release (l : Nat) (k : Threads) : Threads :=
  if k.isHeldByCurrentThread l then
    { k.wakeFirst (.lock l) with
      isHeld := Function.update k.isHeld l false
      lockHolder := Function.update k.lockHolder l none }
  else k

/-! ## `class Condition` -/

def wait (c l : Nat) (k : Threads) : Except Fault Threads :=
  if k.isHeldByCurrentThread l then ((k.release l).append (.condition c)).sleep (.inWait c l)
  else .ok k

def signal (c l : Nat) (k : Threads) : Threads :=
  if k.isHeldByCurrentThread l then k.wakeFirst (.condition c) else k

def broadcastLoop (c : Nat) : Nat → Threads → Threads
  | 0, k => k
  | turns + 1, k => broadcastLoop c turns (k.wakeFirst (.condition c))

def broadcast (c l : Nat) (k : Threads) : Threads :=
  if k.isHeldByCurrentThread l then k.broadcastLoop c (k.queue (.condition c)).length else k

def resume (k : Threads) : Option (Except Fault Threads) :=
  match k.control k.currentThread with
  | .inP s => some (k.semaphoreP s)
  | .inAcquire l => some (k.acquire (.inAcquire l) l)
  | .inWait c l => some (k.acquire (.inReacquire c l) l)
  | .inReacquire c l => some (k.acquire (.inReacquire c l) l)
  | .unborn | .start | .user | .inFinish => none

def boot (values : Nat → BitVec 32) : Threads where
  created := 1
  currentThread := 0
  status thread := if thread = 0 then .running else .justCreated
  control thread := if thread = 0 then .user else .unborn
  queue _ := []
  value := values
  isHeld _ := false
  lockHolder _ := none
  threadToBeDestroyed := none
  destroyed := []
  idling := false

def InUser (k : Threads) : Prop :=
  k.idling = false ∧ k.control k.currentThread = .user

instance (k : Threads) : Decidable k.InUser := inferInstanceAs (Decidable (_ ∧ _))

end Threads

/-! ## Steps -/

inductive Routine where
  | fork
  | yield
  | finish
  | p (s : Nat)
  | v (s : Nat)
  | acquire (l : Nat)
  | release (l : Nat)
  | wait (c l : Nat)
  | signal (c l : Nat)
  | broadcast (c l : Nat)
  deriving DecidableEq, Repr

def Routine.apply : Routine → Threads → Except Fault Threads
  | .fork, k => .ok k.fork
  | .yield, k => k.yield
  | .finish, k => k.finish
  | .p s, k => k.semaphoreP s
  | .v s, k => .ok (k.semaphoreV s)
  | .acquire l, k => k.acquire (.inAcquire l) l
  | .release l, k => .ok (k.release l)
  | .wait c l, k => k.wait c l
  | .signal c l, k => .ok (k.signal c l)
  | .broadcast c l, k => .ok (k.broadcast c l)

inductive ThreadEvent where
  /-- The current thread calls a routine. -/
  | call (c : Routine)
  /-- The current thread goes on in the routine where it slept. -/
  | resume
  /-- An interrupt handler calls `V`. -/
  | handler (s : Nat)
  /-- `Idle` returns to the loop of `Sleep`. -/
  | idleReturn
  deriving DecidableEq, Repr

/-- Interrupts are enabled, and so handlers run, while the current thread is outside the
routines or the machine idles. -/
inductive ThreadStep : Threads → ThreadEvent → Threads → Prop where
  | call {k k' : Threads} {c : Routine} (user : k.InUser) (done : c.apply k = .ok k') :
      ThreadStep k (.call c) k'
  | resume {k k' : Threads} (awake : k.idling = false) (done : k.resume = some (.ok k')) :
      ThreadStep k .resume k'
  | handler {k : Threads} {s : Nat} (enabled : k.idling = true ∨ k.InUser) :
      ThreadStep k (.handler s) (k.semaphoreV s)
  | idleReturn {k k' : Threads} (idle : k.idling = true) (done : k.sleepLoop = .ok k') :
      ThreadStep k .idleReturn k'

def performThread (event : ThreadEvent) (k : Threads) : Option Threads :=
  match event with
  | .call c => if k.InUser then (c.apply k).toOption else none
  | .resume => if k.idling then none else k.resume.bind Except.toOption
  | .handler s => if k.idling ∨ k.InUser then some (k.semaphoreV s) else none
  | .idleReturn => if k.idling then k.sleepLoop.toOption else none

theorem performThread_step {event : ThreadEvent} {k k' : Threads}
    (performed : performThread event k = some k') : ThreadStep k event k' := by
  cases event with
  | call c =>
    obtain ⟨user, done⟩ := Option.ite_none_right_eq_some.mp performed
    exact .call user (toOption_eq_some done)
  | resume =>
    obtain ⟨awake, bound⟩ := Option.ite_none_left_eq_some.mp performed
    obtain ⟨result, resumed, done⟩ := Option.bind_eq_some_iff.mp bound
    rw [toOption_eq_some done] at resumed
    exact .resume (by simpa using awake) resumed
  | handler s =>
    obtain ⟨enabled, same⟩ := Option.ite_none_right_eq_some.mp performed
    cases same
    exact .handler enabled
  | idleReturn =>
    obtain ⟨idle, done⟩ := Option.ite_none_right_eq_some.mp performed
    exact .idleReturn idle (toOption_eq_some done)

end Nachos
