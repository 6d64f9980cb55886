import Nachos.Verified.ElevatorCode

/-!
# The scan for the next floor

The lists of the elevator are a ring: the way up, and the way down again.  The scan begins at the floor
of the elevator, on the side of its direction, and takes the first index with a demand.
-/

namespace Nachos

open Loops

namespace ElevatorSystem

variable {g : Building} {waiting going : Nat → BitVec 32}

/-- The elevator has to stop for this index: someone is waiting there who may enter, or someone is
going there. -/
def Demand (g : Building) (waiting going : Nat → BitVec 32) (j : Nat) : Prop :=
  (g.room ≠ 0 ∧ waiting j ≠ 0) ∨ going j ≠ 0

instance : DecidablePred (Demand g waiting going) := fun j =>
  inferInstanceAs (Decidable ((g.room ≠ 0 ∧ waiting j ≠ 0) ∨ going j ≠ 0))

section

variable (isWaiting : g.waitingList = some waiting) (isGoing : g.goingList = some going)

include isWaiting isGoing

theorem stops_eq {j : Nat} (small : j < g.size) : g.stops j = .ok (decide (Demand g waiting going j)) := by
  simp only [Building.stops, Building.entry, isWaiting, isGoing, if_pos small, bind, Except.bind,
    pure_eq, Demand]
  by_cases space : g.room = 0#32
  · simp [space]
  · by_cases somebody : waiting j = 0#32
    · simp [space, somebody]
    · simp [space, somebody]

/-- The scan ends before it comes to its start a second time. -/
theorem searchLoop_ok {i j turns : Nat} (start : i < g.size) (inRange : j < g.size)
    (enough : g.size ≤ ringDistance g.size i j + turns) :
    ∃ result, g.searchLoop i turns j = .ok result := by
  induction turns generalizing j with
  | zero =>
    unfold ringDistance at enough
    split at enough <;> omega
  | succ turns ih =>
    simp only [Building.searchLoop, stops_eq isWaiting isGoing inRange, ok_bind]
    by_cases stops : Demand g waiting going j
    · exact ⟨j, by simp [stops, pure_eq]⟩
    · by_cases around : (j + 1) % g.size = i
      · exact ⟨i, by simp [stops, around, pure_eq]⟩
      · obtain ⟨inside, next⟩ := ringDistance_next start inRange around
        obtain ⟨result, run⟩ := ih inside (by omega)
        exact ⟨result, by simpa [stops, around] using run⟩

def ScanResult (g : Building) (waiting going : Nat → BitVec 32) (i result : Nat) : Prop :=
  (Demand g waiting going result ∧ ∀ k < g.size,
    ringDistance g.size i k < ringDistance g.size i result → ¬ Demand g waiting going k) ∨
  (result = i ∧ ∀ k < g.size, ¬ Demand g waiting going k)

theorem FirstStop.scanResult {i result : Nat} (small : result < g.size)
    (first : FirstStop g i result) : ScanResult g waiting going i result := by
  have none : ∀ k < g.size, g.stops k = .ok false → ¬ Demand g waiting going k := by
    intro k bound stops
    rw [stops_eq isWaiting isGoing bound] at stops
    simpa using stops
  cases first with
  | inl stops =>
    have demand := stops.1
    rw [stops_eq isWaiting isGoing small] at demand
    exact .inl ⟨by simpa using demand, fun k bound near => none k bound (stops.2 k bound near)⟩
  | inr all => exact .inr ⟨all.1, fun k bound => none k bound (all.2 k bound)⟩

theorem searchNextFloor_result (many : 2 ≤ g.maxFloors) (d : Direction) {f : Nat}
    (floor : 1 ≤ f ∧ f ≤ g.maxFloors) :
    ∃ result, g.searchNextFloor d f = .ok result ∧ result < g.size ∧
      ScanResult g waiting going (Building.mapFloor g.maxFloors d f) result := by
  have inRange : Building.mapFloor g.maxFloors d f < g.size := (mapFloor_inRange d many floor).2
  obtain ⟨result, run⟩ := searchLoop_ok isWaiting isGoing inRange inRange
    (Nat.le_add_left g.size _)
  obtain ⟨small, first⟩ := searchNextFloor_first many floor run
  exact ⟨result, run, small, first.scanResult isWaiting isGoing small⟩

end

end ElevatorSystem

open ElevatorSystem

/-- The index of a floor is inside the lists and belongs to that floor; the scan ends, and gives the
first index with a demand in cyclic order, or its start when there is no demand. -/
theorem next_floor_scan (g : Building) {waiting going : Nat → BitVec 32} (many : 2 ≤ g.maxFloors)
    (isWaiting : g.waitingList = some waiting) (isGoing : g.goingList = some going)
    (d : Direction) {f : Nat} (floor : 1 ≤ f ∧ f ≤ g.maxFloors) :
    (1 ≤ Building.mapFloor g.maxFloors d f ∧
      Building.mapFloor g.maxFloors d f ≤ 2 * g.maxFloors - 2) ∧
    Building.realNextFloor g.maxFloors (Building.mapFloor g.maxFloors d f) = f ∧
    ∃ result, g.searchNextFloor d f = .ok result ∧ result < g.size ∧
      ScanResult g waiting going (Building.mapFloor g.maxFloors d f) result := by
  have inRange := mapFloor_inRange d many floor
  exact ⟨⟨inRange.1, by omega⟩, realNextFloor_mapFloor d floor,
    searchNextFloor_result isWaiting isGoing many d floor⟩

def callOnThird : Building where
  maxFloors := 4
  currentFloor := 2
  room := 5
  direction := .up
  waitingList := some fun j => if j = 5 then 1 else 0
  goingList := some fun _ => 0
  broadcastCount := 0
  passengers := []

theorem next_floor_scan_finds_call : ∃ result,
    callOnThird.searchNextFloor .up 2 = .ok result ∧ result = 5 ∧
      ScanResult callOnThird (fun j => if j = 5 then 1 else 0) (fun _ => 0) 2 result := by
  obtain ⟨_, _, result, run, _, first⟩ := next_floor_scan callOnThird (by decide) rfl rfl .up
    (f := 2) (by decide)
  have found : callOnThird.searchNextFloor .up 2 = .ok 5 := by decide +kernel
  exact ⟨result, run, by simpa [found, eq_comm] using run, first⟩

end Nachos
