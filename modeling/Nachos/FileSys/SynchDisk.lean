import Nachos.FileSys.Disk
import Nachos.Threads.Thread

/-!
# `class SynchDisk`

`synchdisk.cc` over the `Disk` of `disk.cc`, for any number of threads.  A request moves the
data at once and schedules an interrupt; the interrupt handler calls `V`, and the thread that
made the request waits for that in `P`.  A thread may lose the CPU between any two statements, so
each statement is a step.
-/

namespace Nachos

open Runs

structure SynchDisk where
  lock : Nat
  semaphore : Nat

inductive DiskRequest where
  | read (sectorNumber : Int)
  | write (sectorNumber : Int) (data : Nat → Byte)

def DiskRequest.sectorNumber : DiskRequest → Int
  | .read sectorNumber | .write sectorNumber _ => sectorNumber

inductive DiskPosition where
  | outside
  /-- In or after `Acquire`: the next statement is the request. -/
  | requesting (request : DiskRequest)
  /-- The request is made, and has left `data` in the buffer of a `ReadSector`. -/
  | requested (data : Option (Nat → Byte))
  /-- In or after `P`. -/
  | waiting (data : Option (Nat → Byte))

def DiskPosition.isOutside : DiskPosition → Bool
  | .outside => true
  | .requesting _ | .requested _ | .waiting _ => false

structure DiskUsers where
  threads : Threads
  disk : Disk
  active : Bool
  /-- The calls of `DiskDone` that are scheduled. -/
  pending : Nat
  position : Nat → DiskPosition

namespace DiskUsers

def here (s : DiskUsers) : DiskPosition := s.position s.threads.currentThread

def goTo (place : DiskPosition) (threads : Threads) (s : DiskUsers) : DiskUsers :=
  { s with
    threads := threads
    position := Function.update s.position s.threads.currentThread place }

def request (s : DiskUsers) (r : DiskRequest) : Except Fault (Option (Nat → Byte) × DiskUsers) := do
  assert (!s.active)
  match r with
  | .read sectorNumber =>
    let data ← s.disk.readSector sectorNumber
    return (some data, { s with active := true, pending := s.pending + 1 })
  | .write sectorNumber data =>
    let disk ← s.disk.writeSector sectorNumber data
    return (none, { s with disk := disk, active := true, pending := s.pending + 1 })

def statement (sync : SynchDisk) (s : DiskUsers) : Except Fault DiskUsers :=
  match s.here with
  | .outside => .ok s
  | .requesting r => do
    let (data, s) ← s.request r
    return s.goTo (.requested data) s.threads
  | .requested data =>
    (s.threads.semaphoreP sync.semaphore).map fun threads => s.goTo (.waiting data) threads
  | .waiting _ => .ok (s.goTo .outside (s.threads.release sync.lock))

def handleInterrupt (sync : SynchDisk) (s : DiskUsers) : DiskUsers :=
  { s with
    active := false
    pending := s.pending - 1
    threads := s.threads.semaphoreV sync.semaphore }

def boot (values : Nat → BitVec 32) (disk : Disk) : DiskUsers where
  threads := .boot values
  disk := disk
  active := false
  pending := 0
  position _ := .outside

end DiskUsers

inductive DiskEvent where
  /-- The current thread calls `ReadSector` or `WriteSector`. -/
  | call (request : DiskRequest)
  /-- The current thread runs its next statement. -/
  | statement
  | interrupt
  /-- Everything else that may happen. -/
  | other (event : ThreadEvent)

def Routine.ApartFromDisk (sync : SynchDisk) : Routine → Prop
  | .acquire l | .release l | .wait _ l | .signal _ l | .broadcast _ l => l ≠ sync.lock
  | .p s | .v s => s ≠ sync.semaphore
  | .fork | .yield | .finish => True

instance (sync : SynchDisk) : DecidablePred (Routine.ApartFromDisk sync)
  | .acquire l | .release l | .wait _ l | .signal _ l | .broadcast _ l =>
    inferInstanceAs (Decidable (l ≠ sync.lock))
  | .p s | .v s => inferInstanceAs (Decidable (s ≠ sync.semaphore))
  | .fork | .yield | .finish => inferInstanceAs (Decidable True)

def DiskUsers.Allows (sync : SynchDisk) (s : DiskUsers) : ThreadEvent → Prop
  | .call c => c = .yield ∨ (s.here.isOutside = true ∧ c.ApartFromDisk sync)
  | .handler semaphore => semaphore ≠ sync.semaphore
  | .resume | .idleReturn => True

instance (sync : SynchDisk) (s : DiskUsers) : DecidablePred (s.Allows sync)
  | .call c =>
    inferInstanceAs (Decidable (c = .yield ∨ (s.here.isOutside = true ∧ c.ApartFromDisk sync)))
  | .handler semaphore => inferInstanceAs (Decidable (semaphore ≠ sync.semaphore))
  | .resume | .idleReturn => inferInstanceAs (Decidable True)

inductive DiskStep (sync : SynchDisk) : DiskUsers → DiskEvent → DiskUsers → Prop where
  | call {s : DiskUsers} {request : DiskRequest} {threads : Threads} (user : s.threads.InUser)
      (outside : s.here.isOutside = true)
      (done : (Routine.acquire sync.lock).apply s.threads = .ok threads) :
      DiskStep sync s (.call request) (s.goTo (.requesting request) threads)
  | statement {s s' : DiskUsers} (user : s.threads.InUser) (inside : s.here.isOutside = false)
      (done : s.statement sync = .ok s') : DiskStep sync s .statement s'
  | interrupt {s : DiskUsers} (enabled : s.threads.idling = true ∨ s.threads.InUser)
      (scheduled : s.pending ≠ 0) : DiskStep sync s .interrupt (s.handleInterrupt sync)
  | other {s : DiskUsers} {event : ThreadEvent} {threads : Threads}
      (allowed : s.Allows sync event) (taken : ThreadStep s.threads event threads) :
      DiskStep sync s (.other event) { s with threads := threads }

def performDisk (sync : SynchDisk) (event : DiskEvent) (s : DiskUsers) : Option DiskUsers :=
  match event with
  | .call request =>
    if s.threads.InUser ∧ s.here.isOutside = true then
      ((Routine.acquire sync.lock).apply s.threads).toOption.map (s.goTo (.requesting request))
    else none
  | .statement =>
    if s.threads.InUser ∧ s.here.isOutside = false then (s.statement sync).toOption else none
  | .interrupt =>
    if (s.threads.idling = true ∨ s.threads.InUser) ∧ s.pending ≠ 0 then
      some (s.handleInterrupt sync)
    else none
  | .other event =>
    if s.Allows sync event then
      (performThread event s.threads).map fun threads => { s with threads := threads }
    else none

theorem performDisk_step {sync : SynchDisk} {event : DiskEvent} {s s' : DiskUsers}
    (performed : performDisk sync event s = some s') : DiskStep sync s event s' := by
  cases event with
  | call request =>
    obtain ⟨can, mapped⟩ := Option.ite_none_right_eq_some.mp performed
    obtain ⟨threads, done, rfl⟩ := Option.map_eq_some_iff.mp mapped
    exact .call can.1 can.2 (toOption_eq_some done)
  | statement =>
    obtain ⟨can, done⟩ := Option.ite_none_right_eq_some.mp performed
    exact .statement can.1 can.2 (toOption_eq_some done)
  | interrupt =>
    obtain ⟨can, same⟩ := Option.ite_none_right_eq_some.mp performed
    cases same
    exact .interrupt can.1 can.2
  | other event =>
    obtain ⟨allowed, mapped⟩ := Option.ite_none_right_eq_some.mp performed
    obtain ⟨threads, done, rfl⟩ := Option.map_eq_some_iff.mp mapped
    exact .other allowed (performThread_step done)

end Nachos
