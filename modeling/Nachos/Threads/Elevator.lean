import Nachos.Threads.Program

/-!
# The elevator

`ElevatorThread`, `PassengerThread` and what they use, of `threadtest.cc`.  The floors are
numbers; the counters are `unsigned int`s.  A `Passenger` structure is on the heap, and its
address is passed as an `int`, so it is a number of 32 bits that no other structure has at the
time.
-/

namespace Nachos

open Loops Runs

inductive Direction where
  | up
  | down
  | idle
  | close
  deriving DecidableEq, Repr

structure Passenger where
  atFloor : Nat
  toFloor : Nat
  direction : Direction
  deriving DecidableEq, Repr

/-! ## The variables -/

def elevatorLk : Nat := 0

def passengerOutCd : Nat := 0

def passengerInCd : Nat := 1

def elevatorActiveCd : Nat := 2

def finishBroadcastCd : Nat := 3

def capacity : BitVec 32 := 5

structure Building where
  maxFloors : Nat
  currentFloor : Nat
  room : BitVec 32
  direction : Direction
  /-- `none` when the array is deleted. -/
  waitingList : Option (Nat → BitVec 32)
  goingList : Option (Nat → BitVec 32)
  broadcastCount : BitVec 32
  /-- The addresses of the `Passenger` structures. -/
  passengers : List (BitVec 32)

namespace Building

def size (g : Building) : Nat := 2 * g.maxFloors - 1

def entry (g : Building) (list : Option (Nat → BitVec 32)) (j : Nat) : Except Fault (BitVec 32) :=
  match list with
  | none => .error .danglingPointer
  | some list => if j < g.size then .ok (list j) else .error .outOfRange

def changeEntry (g : Building) (list : Option (Nat → BitVec 32)) (j : Nat)
    (change : BitVec 32 → BitVec 32) : Except Fault (Option (Nat → BitVec 32)) := do
  let before ← g.entry list j
  return list.map fun list => Function.update list j (change before)

/-! ## The next floor -/

def mapFloor (maxFloors : Nat) (d : Direction) (f : Nat) : Nat :=
  if d = .up ∨ f = 1 then f else 2 * maxFloors - f

def realNextFloor (maxFloors nextFloor : Nat) : Nat :=
  if nextFloor > maxFloors - 1 then 2 * maxFloors - nextFloor else nextFloor

def stops (g : Building) (j : Nat) : Except Fault Bool := do
  let waiting ← (if g.room ≠ 0 then g.entry g.waitingList j else .ok 0)
  if waiting ≠ 0 then return true
  let going ← g.entry g.goingList j
  return going ≠ 0

def searchLoop (g : Building) (i : Nat) : Nat → Nat → Except Fault Nat
  | 0, _ => .error .endlessLoop
  | turns + 1, j => do
    if ← g.stops j then return j
    let j := (j + 1) % g.size
    if j = i then return j
    g.searchLoop i turns j

def searchNextFloor (g : Building) (d : Direction) (f : Nat) : Except Fault Nat :=
  let i := mapFloor g.maxFloors d f
  g.searchLoop i g.size i

def sumOfWaiting (g : Building) : Except Fault (BitVec 32) :=
  forUpToM (fun z count => do return count + (← g.entry g.waitingList z)) g.size 0

end Building

/-! ## Places -/

inductive ElevatorPlace where
  | start
  /-- In or after the first `Acquire`. -/
  | activating
  | activated
  | yielding
  | looping
  /-- In or after the `Acquire` of the loop. -/
  | searching
  /-- After `passenger_out_cd.Broadcast`. -/
  | lettingOut
  /-- In or after the first `finish_broadcast_cd.Wait`. -/
  | letOut
  /-- After `passenger_in_cd.Broadcast`. -/
  | lettingIn
  /-- In or after the second `finish_broadcast_cd.Wait`. -/
  | letIn
  | closed
  deriving DecidableEq, Repr

inductive PassengerPlace where
  | start
  /-- In or after `Acquire`. -/
  | arriving
  /-- In or after `elevator_active_cd.Wait`, or past the test of `direction`. -/
  | registering
  /-- In or after `passenger_in_cd.Wait`. -/
  | waiting
  /-- Behind the first acknowledgement. -/
  | entering
  /-- In or after `passenger_out_cd.Wait`. -/
  | riding
  /-- Behind the second acknowledgement. -/
  | leaving
  /-- Out of the elevator on this floor, before `delete p`. -/
  | out (floor : Nat)
  | gone (floor : Nat)
  /-- The elevator was closed. -/
  | refused
  deriving DecidableEq, Repr

/-- What a thread does: other things, `ElevatorThread`, or `PassengerThread` with the structure
at `address`. -/
inductive Place where
  | elsewhere
  | elevator (place : ElevatorPlace)
  | passenger (address : BitVec 32) (p : Passenger) (place : PassengerPlace)
  deriving DecidableEq, Repr

/-! ## `ElevatorThread` -/

namespace Building

def service (g : Building) : Except Fault (Building × Option Routine × ElevatorPlace) := do
  let nextFloor ← g.searchNextFloor g.direction g.currentFloor
  let floor := realNextFloor g.maxFloors nextFloor
  let numWaiting ← g.entry g.waitingList nextFloor
  let numGoing ← g.entry g.goingList nextFloor
  if floor = g.currentFloor ∧ numWaiting = 0 ∧ numGoing = 0 then
    return ({ g with direction := .close, waitingList := none, goingList := none },
      some (.release elevatorLk), .closed)
  else if floor = g.currentFloor ∧ (numWaiting ≠ 0 ∨ numGoing ≠ 0) then
    return ({ g with broadcastCount := capacity - g.room },
      some (.broadcast passengerOutCd elevatorLk), .lettingOut)
  else if floor > g.currentFloor then
    return ({ g with direction := .up, currentFloor := g.currentFloor + 1 },
      some (.release elevatorLk), .looping)
  else
    return ({ g with direction := .down, currentFloor := g.currentFloor - 1 },
      some (.release elevatorLk), .looping)

def elevatorThread (g : Building) :
    ElevatorPlace → Except Fault (Building × Option Routine × ElevatorPlace)
  | .start => .ok (g, some (.acquire elevatorLk), .activating)
  | .activating => .ok (g, some (.signal elevatorActiveCd elevatorLk), .activated)
  | .activated => .ok ({ g with direction := .up }, some (.release elevatorLk), .yielding)
  | .yielding => .ok (g, some .yield, .looping)
  | .looping => .ok (g, some (.acquire elevatorLk), .searching)
  | .searching => g.service
  | .lettingOut =>
    if g.broadcastCount ≠ 0 then .ok (g, some (.wait finishBroadcastCd elevatorLk), .letOut)
    else .ok (g, none, .letOut)
  | .letOut => do
    let count ← g.sumOfWaiting
    return ({ g with broadcastCount := count }, some (.broadcast passengerInCd elevatorLk),
      .lettingIn)
  | .lettingIn =>
    if g.broadcastCount ≠ 0 then .ok (g, some (.wait finishBroadcastCd elevatorLk), .letIn)
    else .ok (g, none, .letIn)
  | .letIn => .ok (g, some (.release elevatorLk), .looping)
  | .closed => .ok (g, none, .closed)

/-! ## `PassengerThread` -/

def acknowledge (g : Building) (place : PassengerPlace) :
    Building × Option Routine × PassengerPlace :=
  let g := { g with broadcastCount := g.broadcastCount - 1 }
  (g, if g.broadcastCount = 0 then some (.signal finishBroadcastCd elevatorLk) else none, place)

def passengerThread (g : Building) (address : BitVec 32) (p : Passenger) :
    PassengerPlace → Except Fault (Building × Option Routine × PassengerPlace)
  | .start => .ok (g, some (.acquire elevatorLk), .arriving)
  | .arriving =>
    if g.direction = .idle then
      .ok (g, some (.wait elevatorActiveCd elevatorLk), .registering)
    else if g.direction = .close then .ok (g, some (.release elevatorLk), .refused)
    else .ok (g, none, .registering)
  | .registering => do
    let waiting ← g.changeEntry g.waitingList (mapFloor g.maxFloors p.direction p.atFloor) (· + 1)
    return ({ g with waitingList := waiting }, some (.wait passengerInCd elevatorLk), .waiting)
  | .waiting => .ok (g.acknowledge .entering)
  | .entering =>
    if g.currentFloor = p.atFloor ∧ 0 < g.room then do
      let waiting ← g.changeEntry g.waitingList (mapFloor g.maxFloors p.direction p.atFloor) (· - 1)
      let going ← g.changeEntry g.goingList (mapFloor g.maxFloors p.direction p.toFloor) (· + 1)
      return ({ g with room := g.room - 1, waitingList := waiting, goingList := going },
        some (.wait passengerOutCd elevatorLk), .riding)
    else .ok (g, some (.wait passengerInCd elevatorLk), .waiting)
  | .riding => .ok (g.acknowledge .leaving)
  | .leaving =>
    if g.currentFloor = p.toFloor then do
      let going ← g.changeEntry g.goingList (mapFloor g.maxFloors p.direction p.toFloor) (· - 1)
      return ({ g with room := g.room + 1, goingList := going }, some (.release elevatorLk),
        .out g.currentFloor)
    else .ok (g, some (.wait passengerOutCd elevatorLk), .riding)
  | .out floor => .ok ({ g with passengers := g.passengers.erase address }, none, .gone floor)
  | .gone floor => .ok (g, none, .gone floor)
  | .refused => .ok (g, none, .refused)

end Building

def elevatorCode : Code Building Place := fun g here =>
  match here with
  | .elsewhere => .ok (g, none, .elsewhere)
  | .elevator place => do
    let (g, routine, place) ← g.elevatorThread place
    return (g, routine, .elevator place)
  | .passenger address p place => do
    let (g, routine, place) ← g.passengerThread address p place
    return (g, routine, .passenger address p place)

/-! ## Steps -/

def Place.isElsewhere : Place → Bool
  | .elsewhere | .elevator .closed | .passenger _ _ (.gone _) | .passenger _ _ .refused => true
  | .elevator _ | .passenger _ _ _ => false

def elevator (numFloors : Nat) (values : Nat → BitVec 32) : Programs Building Place where
  threads := (Threads.boot values).fork
  globals :=
    { maxFloors := numFloors
      currentFloor := 1
      room := capacity
      direction := .idle
      waitingList := some fun _ => 0
      goingList := some fun _ => 0
      broadcastCount := 0
      passengers := [] }
  position := Function.update (fun _ => .elsewhere) (Threads.boot values).created (.elevator .start)

def theElevator : Nat := 1

def arrivingGoingFromTo (address : BitVec 32) (atFloor toFloor : Int)
    (s : Programs Building Place) : Programs Building Place :=
  if atFloor < 1 ∨ atFloor > s.globals.maxFloors ∨ toFloor < 1 ∨ toFloor > s.globals.maxFloors ∨
      atFloor = toFloor then s
  else
    let p : Passenger :=
      { atFloor := atFloor.toNat
        toFloor := toFloor.toNat
        direction := if atFloor < toFloor then .up else .down }
    { threads := s.threads.fork
      globals := { s.globals with passengers := address :: s.globals.passengers }
      position := Function.update s.position s.threads.created (.passenger address p .start) }

inductive ElevatorEvent where
  /-- The current thread calls `ArrivingGoingFromTo`. -/
  | arrive (address : BitVec 32) (atFloor toFloor : Int)
  /-- The current thread goes on in `ElevatorThread` or `PassengerThread`. -/
  | statement
  /-- Everything else that may happen. -/
  | other (event : ThreadEvent)
  deriving DecidableEq, Repr

def Routine.ApartFromElevator : Routine → Prop
  | .acquire l | .release l => l ≠ elevatorLk
  | .wait c l | .signal c l | .broadcast c l => l ≠ elevatorLk ∧ finishBroadcastCd < c
  | .p _ | .v _ | .fork | .yield | .finish => True

instance : DecidablePred Routine.ApartFromElevator
  | .acquire l | .release l => inferInstanceAs (Decidable (l ≠ elevatorLk))
  | .wait c l | .signal c l | .broadcast c l =>
    inferInstanceAs (Decidable (l ≠ elevatorLk ∧ finishBroadcastCd < c))
  | .p _ | .v _ | .fork | .yield | .finish => inferInstanceAs (Decidable True)

def ElevatorAllows (s : Programs Building Place) : ThreadEvent → Prop
  | .call c => c = .yield ∨ (s.here.isElsewhere = true ∧ c.ApartFromElevator)
  | .handler _ | .resume | .idleReturn => True

instance (s : Programs Building Place) : DecidablePred (ElevatorAllows s)
  | .call c =>
    inferInstanceAs (Decidable (c = .yield ∨ (s.here.isElsewhere = true ∧ c.ApartFromElevator)))
  | .handler _ | .resume | .idleReturn => inferInstanceAs (Decidable True)

inductive ElevatorStep :
    Programs Building Place → ElevatorEvent → Programs Building Place → Prop where
  | arrive {s : Programs Building Place} {address : BitVec 32} {atFloor toFloor : Int}
      (user : s.threads.InUser) (elsewhere : s.here.isElsewhere = true) (notNull : address ≠ 0)
      (fresh : address ∉ s.globals.passengers) :
      ElevatorStep s (.arrive address atFloor toFloor) (arrivingGoingFromTo address atFloor toFloor s)
  | statement {s s' : Programs Building Place} (user : s.threads.InUser)
      (inside : s.here.isElsewhere = false) (done : s.statement elevatorCode = .ok s') :
      ElevatorStep s .statement s'
  | other {s : Programs Building Place} {event : ThreadEvent} {threads : Threads}
      (allowed : ElevatorAllows s event) (taken : ThreadStep s.threads event threads) :
      ElevatorStep s (.other event) { s with threads := threads }

def performElevator (event : ElevatorEvent) (s : Programs Building Place) :
    Option (Programs Building Place) :=
  match event with
  | .arrive address atFloor toFloor =>
    if s.threads.InUser ∧ s.here.isElsewhere = true ∧ address ≠ 0 ∧
        address ∉ s.globals.passengers then
      some (arrivingGoingFromTo address atFloor toFloor s)
    else none
  | .statement =>
    if s.threads.InUser ∧ s.here.isElsewhere = false then (s.statement elevatorCode).toOption
    else none
  | .other event =>
    if ElevatorAllows s event then
      (performThread event s.threads).map fun threads => { s with threads := threads }
    else none

theorem performElevator_step {event : ElevatorEvent} {s s' : Programs Building Place}
    (performed : performElevator event s = some s') : ElevatorStep s event s' := by
  cases event with
  | arrive address atFloor toFloor =>
    obtain ⟨can, same⟩ := Option.ite_none_right_eq_some.mp performed
    cases same
    exact .arrive can.1 can.2.1 can.2.2.1 can.2.2.2
  | statement =>
    obtain ⟨can, done⟩ := Option.ite_none_right_eq_some.mp performed
    exact .statement can.1 can.2 (toOption_eq_some done)
  | other event =>
    obtain ⟨allowed, mapped⟩ := Option.ite_none_right_eq_some.mp performed
    obtain ⟨threads, done, rfl⟩ := Option.map_eq_some_iff.mp mapped
    exact .other allowed (performThread_step done)

end Nachos
