import Nachos.Threads.Elevator
import Nachos.Verified.Programs

/-!
# The code of the elevator and its passengers

What the statements of `ElevatorThread` and `PassengerThread` can do, as one relation for each, and
what follows for the lock: every statement keeps to it, and a thread that waits for a condition is
at the place for it.
-/

namespace Nachos

open Loops Threads

/-! ## What a place says -/

def ElevatorPlace.stage : ElevatorPlace → Stage
  | .start | .yielding | .looping | .closed => .outside
  | .activating | .searching | .letOut | .letIn => .entering
  | .activated | .lettingOut | .lettingIn => .inside

def PassengerPlace.stage : PassengerPlace → Stage
  | .start | .out _ | .gone _ | .refused => .outside
  | .arriving | .registering | .waiting | .riding => .entering
  | .entering | .leaving => .inside

namespace Place

def stage : Place → Stage
  | .elsewhere => .outside
  | .elevator place => place.stage
  | .passenger _ _ place => place.stage

def waitsFor : Place → Option Nat
  | .elevator .letOut | .elevator .letIn => some finishBroadcastCd
  | .passenger _ _ .registering => some elevatorActiveCd
  | .passenger _ _ .waiting => some passengerInCd
  | .passenger _ _ .riding => some passengerOutCd
  | .elsewhere | .elevator _ | .passenger _ _ _ => none

/-- The condition whose broadcast the thread has to acknowledge. -/
def answers : Place → Option Nat
  | .passenger _ _ .waiting => some passengerInCd
  | .passenger _ _ .riding => some passengerOutCd
  | .elsewhere | .elevator _ | .passenger _ _ _ => none

def waitsAt (maxFloors : Nat) : Place → Option Nat
  | .passenger _ p .waiting | .passenger _ p .entering =>
    some (Building.mapFloor maxFloors p.direction p.atFloor)
  | .elsewhere | .elevator _ | .passenger _ _ _ => none

def ridesTo (maxFloors : Nat) : Place → Option Nat
  | .passenger _ p .riding | .passenger _ p .leaving =>
    some (Building.mapFloor maxFloors p.direction p.toFloor)
  | .elsewhere | .elevator _ | .passenger _ _ _ => none

end Place

def ElevatorPlace.announces : ElevatorPlace → Option Nat
  | .lettingOut | .letOut => some passengerOutCd
  | .lettingIn | .letIn => some passengerInCd
  | .start | .activating | .activated | .yielding | .looping | .searching | .closed => none

structure Passenger.Valid (maxFloors : Nat) (p : Passenger) : Prop where
  atFloor : 1 ≤ p.atFloor ∧ p.atFloor ≤ maxFloors
  toFloor : 1 ≤ p.toFloor ∧ p.toFloor ≤ maxFloors

variable {j : Nat} {place : ElevatorPlace} {address : BitVec 32} {p : Passenger}

namespace ElevatorSystem

/-! ## The statements -/

variable {g g' : Building} {routine : Option Routine}

inductive Serves (g : Building) : Building → Option Routine → ElevatorPlace → Prop where
  | close (nobody : ∀ j < g.size, g.stops j = .ok false) :
      Serves g { g with direction := .close, waitingList := none, goingList := none }
        (some (.release elevatorLk)) .closed
  | opens : Serves g { g with broadcastCount := capacity - g.room }
      (some (.broadcast passengerOutCd elevatorLk)) .lettingOut
  | moves {direction : Direction} {floor : Nat} (runs : direction ≠ .close)
      (inRange : 1 ≤ floor ∧ floor ≤ g.maxFloors) :
      Serves g { g with direction := direction, currentFloor := floor }
        (some (.release elevatorLk)) .looping

theorem mapFloor_inRange {maxFloors f : Nat} (d : Direction) (many : 2 ≤ maxFloors)
    (floor : 1 ≤ f ∧ f ≤ maxFloors) :
    1 ≤ Building.mapFloor maxFloors d f ∧ Building.mapFloor maxFloors d f < 2 * maxFloors - 1 := by
  simp only [Building.mapFloor]
  split
  next => omega
  next notGround =>
    omega

theorem entry_eq_ok {list : Option (Nat → BitVec 32)} {value : BitVec 32} :
    g.entry list j = .ok value ↔ ∃ entries, list = some entries ∧ j < g.size ∧ entries j = value := by
  cases list with
  | none => simp [Building.entry]
  | some entries =>
    simp only [Building.entry]
    split
    next small => simp [small]
    next large => simp [large]

def ringDistance (size i j : Nat) : Nat := if i ≤ j then j - i else j + size - i

theorem ringDistance_next {size i j : Nat} (first : i < size) (second : j < size)
    (notBack : (j + 1) % size ≠ i) :
    (j + 1) % size < size ∧ ringDistance size i ((j + 1) % size) = ringDistance size i j + 1 := by
  unfold ringDistance
  by_cases last : j + 1 = size
  · rw [last, Nat.mod_self] at notBack ⊢
    split <;> split <;> omega
  · rw [Nat.mod_eq_of_lt (show j + 1 < size by omega)] at notBack ⊢
    split <;> split <;> omega

theorem ringDistance_le_last {size i j k : Nat} (bound : k < size)
    (second : j < size) (back :
    (j + 1) % size = i) : ringDistance size i k ≤ ringDistance size i j := by
  unfold ringDistance
  by_cases last : j + 1 = size
  · rw [last, Nat.mod_self] at back
    split <;> split <;> omega
  · rw [Nat.mod_eq_of_lt (show j + 1 < size by omega)] at back
    split <;> split <;> omega

theorem ringDistance_inj {size i j k : Nat} (start : i < size) (first : j < size) (second : k < size)
    (same : ringDistance size i j = ringDistance size i k) : j = k := by
  unfold ringDistance at same
  split at same <;> split at same <;> omega

def FirstStop (g : Building) (i result : Nat) : Prop :=
  (g.stops result = .ok true ∧ ∀ k < g.size,
    ringDistance g.size i k < ringDistance g.size i result → g.stops k = .ok false) ∨
  (result = i ∧ ∀ k < g.size, g.stops k = .ok false)

theorem searchLoop_spec {i result turns j : Nat} (start : i < g.size) (inRange : j < g.size)
    (checked : ∀ k < g.size, ringDistance g.size i k < ringDistance g.size i j →
      g.stops k = .ok false) (found : g.searchLoop i turns j = .ok result) :
    result < g.size ∧ FirstStop g i result := by
  induction turns generalizing j with
  | zero => cases found
  | succ turns ih =>
    obtain ⟨stopped, tested, rest⟩ := bind_eq_ok.mp found
    cases stopped with
    | true =>
      cases rest
      exact ⟨inRange, .inl ⟨tested, checked⟩⟩
    | false =>
      have upTo : ∀ k < g.size, ringDistance g.size i k ≤ ringDistance g.size i j →
          g.stops k = .ok false := by
        intro k bound near
        by_cases here : k = j
        · exact here ▸ tested
        · exact checked k bound (Nat.lt_of_le_of_ne near fun same =>
            here (ringDistance_inj start bound inRange same))
      simp only [Bool.false_eq_true, if_false] at rest
      by_cases around : (j + 1) % g.size = i
      · rw [if_pos around] at rest
        cases rest
        exact ⟨around ▸ start, .inr ⟨around, fun k bound =>
          upTo k bound (ringDistance_le_last bound inRange around)⟩⟩
      · obtain ⟨inside, next⟩ := ringDistance_next start inRange around
        rw [if_neg around] at rest
        refine ih inside (fun k bound near => upTo k bound ?_) rest
        omega

theorem searchNextFloor_first {d : Direction} {f result : Nat} (many : 2 ≤ g.maxFloors)
    (floor : 1 ≤ f ∧ f ≤ g.maxFloors) (found : g.searchNextFloor d f = .ok result) :
    result < g.size ∧ FirstStop g (Building.mapFloor g.maxFloors d f) result := by
  have inRange : Building.mapFloor g.maxFloors d f < g.size := (mapFloor_inRange d many floor).2
  refine searchLoop_spec inRange inRange (fun k _ nearer => ?_) found
  simp only [ringDistance, Nat.le_refl, if_true] at nearer
  omega

theorem searchNextFloor_spec {d : Direction} {f result : Nat} (many : 2 ≤ g.maxFloors)
    (floor : 1 ≤ f ∧ f ≤ g.maxFloors) (found : g.searchNextFloor d f = .ok result) :
    result < g.size ∧ (g.stops result = .ok true ∨
      (1 ≤ result ∧ ∀ j < g.size, g.stops j = .ok false)) := by
  obtain ⟨small, first⟩ := searchNextFloor_first many floor found
  refine ⟨small, ?_⟩
  cases first with
  | inl stops => exact .inl stops.1
  | inr all => exact .inr ⟨all.1 ▸ (mapFloor_inRange d many floor).1, all.2⟩

theorem realNextFloor_mapFloor {maxFloors f : Nat} (d : Direction) (floor : 1 ≤ f ∧ f ≤ maxFloors) :
    Building.realNextFloor maxFloors (Building.mapFloor maxFloors d f) = f := by
  simp only [Building.mapFloor, Building.realNextFloor]
  split <;> split <;> omega

theorem realNextFloor_inRange {maxFloors j : Nat} (positive : 1 ≤ j) (small : j < 2 * maxFloors - 1) :
    1 ≤ Building.realNextFloor maxFloors j ∧ Building.realNextFloor maxFloors j ≤ maxFloors := by
  simp only [Building.realNextFloor]
  split <;> omega

theorem stops_of_zero (waiting : g.entry g.waitingList j = .ok 0)
    (going : g.entry g.goingList j = .ok 0) : g.stops j = .ok false := by
  simp only [Building.stops, waiting, going, bind, Except.bind, pure_eq]
  split <;> simp_all

theorem stops_cases {stopped : Bool} (stops : g.stops j = .ok stopped) :
    (stopped = true ∧ ((∃ value, g.entry g.waitingList j = .ok value ∧ value ≠ 0) ∨
      ∃ value, g.entry g.goingList j = .ok value ∧ value ≠ 0)) ∨
    (stopped = false ∧ g.entry g.goingList j = .ok 0 ∧
      (g.room ≠ 0 → g.entry g.waitingList j = .ok 0)) := by
  obtain ⟨waiting, found, rest⟩ := bind_eq_ok.mp stops
  by_cases somebody : waiting ≠ 0
  · rw [if_pos somebody] at rest
    cases rest
    split at found
    next space => exact .inl ⟨rfl, .inl ⟨waiting, found, somebody⟩⟩
    next full =>
      cases found
      exact absurd rfl somebody
  · rw [if_neg somebody] at rest
    obtain ⟨going, found', rest⟩ := bind_eq_ok.mp rest
    obtain rfl : waiting = 0 := by simpa using somebody
    by_cases rides : going = 0
    · subst rides
      cases rest
      refine .inr ⟨rfl, found', fun space => ?_⟩
      rwa [if_pos space] at found
    · have result : stopped = true := by
        cases rest
        simpa using rides
      exact .inl ⟨result, .inr ⟨going, found', rides⟩⟩

theorem service_serves (many : 2 ≤ g.maxFloors)
    (floor : 1 ≤ g.currentFloor ∧ g.currentFloor ≤ g.maxFloors) (ground : g.stops 0 ≠ .ok true)
    (done : g.service = .ok (g', routine, place)) : Serves g g' routine place := by
  obtain ⟨nextFloor, found, done⟩ := bind_eq_ok.mp done
  obtain ⟨numWaiting, waiting, done⟩ := bind_eq_ok.mp done
  obtain ⟨numGoing, going, done⟩ := bind_eq_ok.mp done
  obtain ⟨small, stops⟩ := searchNextFloor_spec many floor found
  have positive : 1 ≤ nextFloor := by
    cases stops with
    | inl stops =>
      by_contra zero
      obtain rfl : nextFloor = 0 := by omega
      exact ground stops
    | inr all => exact all.1
  have real := realNextFloor_inRange positive small
  split at done
  next nobody =>
    cases done
    refine .close fun j inside => ?_
    cases stops with
    | inl stops =>
      rw [stops_of_zero (nobody.2.1 ▸ waiting) (nobody.2.2 ▸ going)] at stops
      cases stops
    | inr all => exact all.2 j inside
  next somebody =>
    split at done
    next here =>
      cases done
      exact .opens
    next away =>
      have other : Building.realNextFloor g.maxFloors nextFloor ≠ g.currentFloor := by
        intro same
        by_cases nothing : numWaiting = 0 ∧ numGoing = 0
        · exact somebody ⟨same, nothing⟩
        · exact away ⟨same, by simpa only [not_and_or, ne_eq] using nothing⟩
      split at done
      next above =>
        cases done
        exact .moves (by simp) (by omega)
      next below =>
        cases done
        exact .moves (by simp) (by omega)

inductive ElevatorRuns (g : Building) :
    ElevatorPlace → Building → Option Routine → ElevatorPlace → Prop where
  | start : ElevatorRuns g .start g (some (.acquire elevatorLk)) .activating
  | activate : ElevatorRuns g .activating g (some (.signal elevatorActiveCd elevatorLk)) .activated
  | begins : ElevatorRuns g .activated { g with direction := .up } (some (.release elevatorLk))
      .yielding
  | yields : ElevatorRuns g .yielding g (some .yield) .looping
  | loops : ElevatorRuns g .looping g (some (.acquire elevatorLk)) .searching
  | serves {g' : Building} {routine : Option Routine} {place : ElevatorPlace}
      (serves : Serves g g' routine place) : ElevatorRuns g .searching g' routine place
  | waitOut (pending : g.broadcastCount ≠ 0) :
      ElevatorRuns g .lettingOut g (some (.wait finishBroadcastCd elevatorLk)) .letOut
  | passOut (nobody : g.broadcastCount = 0) : ElevatorRuns g .lettingOut g none .letOut
  | letsIn {count : BitVec 32} (sum : g.sumOfWaiting = .ok count) :
      ElevatorRuns g .letOut { g with broadcastCount := count }
        (some (.broadcast passengerInCd elevatorLk)) .lettingIn
  | waitIn (pending : g.broadcastCount ≠ 0) :
      ElevatorRuns g .lettingIn g (some (.wait finishBroadcastCd elevatorLk)) .letIn
  | passIn (nobody : g.broadcastCount = 0) : ElevatorRuns g .lettingIn g none .letIn
  | leaves : ElevatorRuns g .letIn g (some (.release elevatorLk)) .looping

theorem elevatorThread_runs {place place' : ElevatorPlace} (many : 2 ≤ g.maxFloors)
    (floor : 1 ≤ g.currentFloor ∧ g.currentFloor ≤ g.maxFloors) (ground : g.stops 0 ≠ .ok true)
    (runs : place ≠ .closed) (done : g.elevatorThread place = .ok (g', routine, place')) :
    ElevatorRuns g place g' routine place' := by
  cases place with
  | start => cases done; exact .start
  | activating => cases done; exact .activate
  | activated => cases done; exact .begins
  | yielding => cases done; exact .yields
  | looping => cases done; exact .loops
  | searching => exact .serves (service_serves many floor ground done)
  | lettingOut =>
    simp only [Building.elevatorThread] at done
    split at done
    next pending => cases done; exact .waitOut pending
    next nobody => cases done; exact .passOut (by simpa using nobody)
  | letOut =>
    obtain ⟨count, sum, done⟩ := bind_eq_ok.mp done
    cases done
    exact .letsIn sum
  | lettingIn =>
    simp only [Building.elevatorThread] at done
    split at done
    next pending => cases done; exact .waitIn pending
    next nobody => cases done; exact .passIn (by simpa using nobody)
  | letIn => cases done; exact .leaves
  | closed => exact absurd rfl runs

inductive PassengerRuns (g : Building) (address : BitVec 32) (p : Passenger) :
    PassengerPlace → Building → Option Routine → PassengerPlace → Prop where
  | start : PassengerRuns g address p .start g (some (.acquire elevatorLk)) .arriving
  | waits (idle : g.direction = .idle) : PassengerRuns g address p .arriving g
      (some (.wait elevatorActiveCd elevatorLk)) .registering
  | refused (closed : g.direction = .close) : PassengerRuns g address p .arriving g
      (some (.release elevatorLk)) .refused
  | finds (open' : g.direction ≠ .idle ∧ g.direction ≠ .close) :
      PassengerRuns g address p .arriving g none .registering
  | registers {list : Nat → BitVec 32} (lists : g.waitingList = some list) :
      PassengerRuns g address p .registering
        { g with waitingList := some (Function.update list
            (Building.mapFloor g.maxFloors p.direction p.atFloor)
            (list (Building.mapFloor g.maxFloors p.direction p.atFloor) + 1)) }
        (some (.wait passengerInCd elevatorLk)) .waiting
  | acknowledges {place place' : PassengerPlace}
      (here : (place = .waiting ∧ place' = .entering) ∨ (place = .riding ∧ place' = .leaving)) :
      PassengerRuns g address p place { g with broadcastCount := g.broadcastCount - 1 }
        (if g.broadcastCount - 1 = 0 then some (.signal finishBroadcastCd elevatorLk) else none)
        place'
  | boards {waiting going : Nat → BitVec 32} (space : 0 < g.room)
      (lists : g.waitingList = some waiting ∧ g.goingList = some going) :
      PassengerRuns g address p .entering
        { g with
          room := g.room - 1
          waitingList := some (Function.update waiting
            (Building.mapFloor g.maxFloors p.direction p.atFloor)
            (waiting (Building.mapFloor g.maxFloors p.direction p.atFloor) - 1))
          goingList := some (Function.update going
            (Building.mapFloor g.maxFloors p.direction p.toFloor)
            (going (Building.mapFloor g.maxFloors p.direction p.toFloor) + 1)) }
        (some (.wait passengerOutCd elevatorLk)) .riding
  | again : PassengerRuns g address p .entering g (some (.wait passengerInCd elevatorLk)) .waiting
  | leaves {going : Nat → BitVec 32} (there : g.currentFloor = p.toFloor)
      (lists : g.goingList = some going) :
      PassengerRuns g address p .leaving
        { g with
          room := g.room + 1
          goingList := some (Function.update going
            (Building.mapFloor g.maxFloors p.direction p.toFloor)
            (going (Building.mapFloor g.maxFloors p.direction p.toFloor) - 1)) }
        (some (.release elevatorLk)) (.out g.currentFloor)
  | rides : PassengerRuns g address p .leaving g (some (.wait passengerOutCd elevatorLk)) .riding
  | deletes {floor : Nat} : PassengerRuns g address p (.out floor)
      { g with passengers := g.passengers.erase address } none (.gone floor)

theorem changeEntry_ok {list : Option (Nat → BitVec 32)} {change : BitVec 32 → BitVec 32}
    {list' : Option (Nat → BitVec 32)} (done : g.changeEntry list j change = .ok list') :
    ∃ entries, list = some entries ∧ list' = some (Function.update entries j (change (entries j))) := by
  obtain ⟨before, found, done⟩ := bind_eq_ok.mp done
  obtain ⟨entries, rfl, _, rfl⟩ := entry_eq_ok.mp found
  cases done
  exact ⟨entries, rfl, rfl⟩

theorem passengerThread_runs {place place' : PassengerPlace}
    (inside : place ≠ .refused ∧ ∀ floor, place ≠ .gone floor)
    (done : g.passengerThread address p place = .ok (g', routine, place')) :
    PassengerRuns g address p place g' routine place' := by
  cases place with
  | start => cases done; exact .start
  | arriving =>
    simp only [Building.passengerThread] at done
    split at done
    next idle => cases done; exact .waits idle
    next notIdle =>
      split at done
      next closed => cases done; exact .refused closed
      next notClosed => cases done; exact .finds ⟨notIdle, notClosed⟩
  | registering =>
    obtain ⟨waiting, changed, done⟩ := bind_eq_ok.mp done
    obtain ⟨list, lists, rfl⟩ := changeEntry_ok changed
    cases done
    exact .registers lists
  | waiting => cases done; exact .acknowledges (.inl ⟨rfl, rfl⟩)
  | entering =>
    simp only [Building.passengerThread] at done
    split at done
    next enters =>
      obtain ⟨waiting, changed, done⟩ := bind_eq_ok.mp done
      obtain ⟨going, changed', done⟩ := bind_eq_ok.mp done
      obtain ⟨list, lists, rfl⟩ := changeEntry_ok changed
      obtain ⟨list', lists', rfl⟩ := changeEntry_ok changed'
      cases done
      exact .boards enters.2 ⟨lists, lists'⟩
    next => cases done; exact .again
  | riding => cases done; exact .acknowledges (.inr ⟨rfl, rfl⟩)
  | leaving =>
    simp only [Building.passengerThread] at done
    split at done
    next there =>
      obtain ⟨going, changed, done⟩ := bind_eq_ok.mp done
      obtain ⟨list, lists, rfl⟩ := changeEntry_ok changed
      cases done
      exact .leaves there lists
    next => cases done; exact .rides
  | out floor => cases done; exact .deletes
  | gone floor => exact absurd rfl (inside.2 floor)
  | refused => exact absurd rfl inside.1

/-! ### The code keeps to the lock -/

theorem not_aboutLock_signal (c : Nat) : ¬ AboutLock elevatorLk (.call (.signal c elevatorLk)) := by
  simp [AboutLock, LeavesLock]

theorem not_aboutLock_broadcast (c : Nat) :
    ¬ AboutLock elevatorLk (.call (.broadcast c elevatorLk)) := by
  simp [AboutLock, LeavesLock]

theorem ElevatorRuns.moves {place place' : ElevatorPlace}
    (runs : ElevatorRuns g place g' routine place') :
    Moves elevatorLk routine place.stage place'.stage := by
  cases runs with
  | start | loops => exact .acquire
  | activate =>
    exact .works (not_aboutLock_signal _) (by simp [ElevatorPlace.stage])
      (by simp [ElevatorPlace.stage])
  | begins | leaves => exact .release (by simp [ElevatorPlace.stage])
  | yields => exact .stays (by simp [AboutLock, LeavesLock])
  | serves serves =>
    cases serves with
    | close | moves => exact .release (by simp [ElevatorPlace.stage])
    | opens =>
      exact .works (not_aboutLock_broadcast _) (by simp [ElevatorPlace.stage])
        (by simp [ElevatorPlace.stage])
  | waitOut | waitIn => exact .wait (by simp [ElevatorPlace.stage])
  | passOut | passIn => exact .quiet (by simp [ElevatorPlace.stage])
  | letsIn =>
    exact .works (not_aboutLock_broadcast _) (by simp [ElevatorPlace.stage])
      (by simp [ElevatorPlace.stage])

theorem PassengerRuns.moves {place place' : PassengerPlace}
    (runs : PassengerRuns g address p place g' routine place') :
    Moves elevatorLk routine place.stage place'.stage := by
  cases runs with
  | start => exact .acquire
  | waits | registers | boards | again | rides => exact .wait (by simp [PassengerPlace.stage])
  | refused | leaves => exact .release (by simp [PassengerPlace.stage])
  | finds | deletes => exact .quiet (by simp [PassengerPlace.stage])
  | acknowledges here =>
    have stages : place.stage = .entering ∧ place'.stage = .inside := by
      obtain ⟨rfl, rfl⟩ | ⟨rfl, rfl⟩ := here <;> exact ⟨rfl, rfl⟩
    rw [stages.1, stages.2]
    split
    next => exact .works (not_aboutLock_signal _) (by simp) (by simp)
    next => exact .quiet (by simp)

/-! ### A thread that waits is at the place for it -/

theorem ElevatorRuns.waits {place place' : ElevatorPlace} {c l : Nat}
    (runs : ElevatorRuns g place g' routine place') (calls : routine = some (.wait c l)) :
    (Place.elevator place').waitsFor = some c := by
  cases runs with
  | serves serves => cases serves <;> cases calls
  | waitOut | waitIn => cases calls; rfl
  | start | activate | begins | yields | loops | passOut | letsIn | passIn | leaves => cases calls

theorem PassengerRuns.waits_for {place place' : PassengerPlace} {c l : Nat}
    (runs : PassengerRuns g address p place g' routine place') (calls : routine = some (.wait c l)) :
    (Place.passenger address p place').waitsFor = some c := by
  cases runs with
  | waits | registers | boards | again | rides => cases calls; rfl
  | acknowledges here => split at calls <;> cases calls
  | start | refused | finds | leaves | deletes => cases calls

/-! ### What a statement leaves alone -/

section Elevator

variable {place place' : ElevatorPlace}

section

variable (runs : ElevatorRuns g place g' routine place')

include runs

theorem ElevatorRuns.frame :
    g'.maxFloors = g.maxFloors ∧ g'.passengers = g.passengers ∧ g'.room = g.room := by
  cases runs with
  | serves serves => cases serves <;> exact ⟨rfl, rfl, rfl⟩
  | start | activate | begins | yields | loops | waitOut | passOut | letsIn | waitIn | passIn
  | leaves => exact ⟨rfl, rfl, rfl⟩

theorem ElevatorRuns.floors (floors : 1 ≤ g.currentFloor ∧ g.currentFloor ≤ g.maxFloors) :
    1 ≤ g'.currentFloor ∧ g'.currentFloor ≤ g'.maxFloors := by
  cases runs with
  | serves serves =>
    cases serves with
    | close | opens => exact floors
    | moves _ inRange => exact inRange
  | start | activate | begins | yields | loops | waitOut | passOut | letsIn | waitIn | passIn
  | leaves => exact floors

theorem ElevatorRuns.direction
    (opened : g.direction ≠ .close) : g'.direction = .close ↔ place' = .closed := by
  cases runs with
  | begins => simp
  | serves serves =>
    cases serves with
    | close => simp
    | opens => simp [opened]
    | moves runs => simp [runs]
  | start | activate | yields | loops | waitOut | passOut | letsIn | waitIn | passIn | leaves =>
    simp [opened]

theorem ElevatorRuns.lists :
    (g'.waitingList = g.waitingList ∧ g'.goingList = g.goingList ∧ place' ≠ .closed) ∨
      (g'.waitingList = none ∧ g'.goingList = none ∧ place' = .closed ∧
        ∀ j < g.size, g.stops j = .ok false) := by
  cases runs with
  | serves serves =>
    cases serves with
    | close nobody => exact .inr ⟨rfl, rfl, rfl, nobody⟩
    | opens | moves => exact .inl ⟨rfl, rfl, by simp⟩
  | start | activate | begins | yields | loops | waitOut | passOut | letsIn | waitIn | passIn
  | leaves => exact .inl ⟨rfl, rfl, by simp⟩

theorem ElevatorRuns.floor_kept
    (stands : place ≠ .searching) : g'.currentFloor = g.currentFloor := by
  cases runs with
  | serves => exact absurd rfl stands
  | start | activate | begins | yields | loops | waitOut | passOut | letsIn | waitIn | passIn
  | leaves => rfl

end

end Elevator

theorem PassengerRuns.frame {place place' : PassengerPlace}
    (runs : PassengerRuns g address p place g' routine place') :
    g'.maxFloors = g.maxFloors ∧ g'.currentFloor = g.currentFloor ∧ g'.direction = g.direction := by
  cases runs with
  | start | waits | refused | finds | registers | acknowledges | boards | again | leaves | rides
  | deletes => exact ⟨rfl, rfl, rfl⟩

end ElevatorSystem

end Nachos
