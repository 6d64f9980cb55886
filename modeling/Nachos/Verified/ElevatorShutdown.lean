import Nachos.Verified.ElevatorProtocol

/-!
# The elevator closes

The elevator closes when it finds no passenger in its lists.  A passenger that comes before the
elevator runs waits for `elevator_active_cd` first and is in no list; `ElevatorThread` signals that
condition once, so it wakes one of them, and none of them looks at `direction` again.  Whoever has
not registered by the time the elevator closes is left behind; everybody else is served.
-/

namespace Nachos

open Census Loops Runs Threads

def PassengerPlace.hasRegistered : PassengerPlace → Bool
  | .waiting | .entering | .riding | .leaving | .out _ | .gone _ => true
  | .start | .arriving | .registering | .refused => false

def Place.isArriving : Place → Bool
  | .passenger _ _ .arriving => true
  | .elsewhere | .elevator _ | .passenger _ _ _ => false

variable {numFloors : Nat}

namespace ElevatorSystem

variable {s s' : Programs Building Place} {t : Nat} {event : ElevatorEvent}

def NobodyComing (s : Programs Building Place) : Prop :=
  ∀ t address p, s.position t ≠ .passenger address p .registering

structure Unstranded (s : Programs Building Place) : Prop where
  active : s.threads.queue (.condition elevatorActiveCd) = []
  boarding : s.threads.queue (.condition passengerInCd) = []
  riding : s.threads.queue (.condition passengerOutCd) = []
  coming : NobodyComing s
  left : ∀ t address p place, s.position t = .passenger address p place →
    place.hasRegistered = true → place = .out p.toFloor ∨ place = .gone p.toFloor

def ClosesWell (s : Programs Building Place) : Prop :=
  s.globals.direction = .close → Unstranded s

/-- When the elevator looks for passengers and all of them have left, nobody is coming. -/
def ClosesLast (s : Programs Building Place) (event : ElevatorEvent) : Prop :=
  event = .statement → s.here = .elevator .searching → registered s = 0 → boarded s = 0 →
    NobodyComing s

def FindsRunning (s : Programs Building Place) (event : ElevatorEvent) : Prop :=
  event = .statement → s.here.isArriving = true → s.globals.direction ≠ .idle

instance (s : Programs Building Place) (event : ElevatorEvent) : Decidable (FindsRunning s event) :=
  inferInstanceAs (Decidable (_ → _ → _ ≠ _))

/-! ## What a step does to a passenger and to the direction -/

theorem Inv.passenger_from {address : BitVec 32} {p : Passenger} {place' : PassengerPlace}
    (inv : Inv s) (taken : ElevatorStep s event s')
    (found : s'.position t = .passenger address p place') :
    s.position t = .passenger address p place' ∨ place' = .start ∨
      ∃ place routine, s.position t = .passenger address p place ∧
        PassengerRuns s.globals address p place s'.globals routine place' := by
  cases taken with
  | arrive user elsewhere notNull fresh =>
    simp only [arrivingGoingFromTo] at found
    split at found
    next => exact .inl found
    next =>
      by_cases new : t = s.threads.created
      · subst new
        cases (Function.update_self ..).symm.trans found
        exact .inr (.inl rfl)
      · exact .inl ((Function.update_of_ne new ..).symm.trans found)
  | other allowed taken => exact .inl found
  | statement user inside done =>
    cases statement_runs inv inside done with
    | elevator here runs performed =>
      by_cases same : t = s.threads.currentThread
      · rw [same, Programs.goTo_position_self] at found
        cases found
      · rw [Programs.goTo_position_of_ne same] at found
        exact .inl found
    | passenger here live runs performed =>
      by_cases same : t = s.threads.currentThread
      · rw [same, Programs.goTo_position_self] at found
        cases found
        rw [same]
        exact .inr (.inr ⟨_, _, here, runs⟩)
      · rw [Programs.goTo_position_of_ne same] at found
        exact .inl found

theorem Inv.closed_from (inv : Inv s) (taken : ElevatorStep s event s')
    (closed : s'.globals.direction = .close) : s.globals.direction = .close ∨
      (event = .statement ∧ s.here = .elevator .searching ∧ registered s = 0 ∧ boarded s = 0) := by
  cases taken with
  | arrive user elsewhere notNull fresh =>
    simp only [arrivingGoingFromTo] at closed
    split at closed <;> exact .inl closed
  | other allowed taken => exact .inl closed
  | statement user inside done =>
    cases statement_runs inv inside done with
    | passenger here live runs performed => exact .inl (runs.frame.2.2.symm.trans closed)
    | elevator here runs performed =>
      cases runs with
      | serves serves =>
        cases serves with
        | close nobody => exact .inr ⟨rfl, here, inv.nobody nobody⟩
        | opens => exact .inl closed
        | moves runs => exact absurd closed runs
      | begins => cases closed
      | start | activate | yields | loops | waitOut | passOut | letsIn | waitIn | passIn | leaves =>
        exact .inl closed

/-! ## The elevator closes when nobody is in its lists -/

theorem service_closes {g g' : Building} {routine : Option Routine} {place : ElevatorPlace}
    (many : 2 ≤ g.maxFloors) (floor : 1 ≤ g.currentFloor ∧ g.currentFloor ≤ g.maxFloors)
    (empty : ∀ j < g.size, g.entry g.waitingList j = .ok 0 ∧ g.entry g.goingList j = .ok 0)
    (done : g.service = .ok (g', routine, place)) : g'.direction = .close := by
  obtain ⟨nextFloor, found, done⟩ := bind_eq_ok.mp done
  have spec := searchNextFloor_first many floor found
  have around : nextFloor = Building.mapFloor g.maxFloors g.direction g.currentFloor := by
    cases spec.2 with
    | inl stops =>
      obtain ⟨waiting, going⟩ := empty nextFloor spec.1
      rw [stops_of_zero waiting going] at stops
      cases stops.1
    | inr around => exact around.1
  obtain ⟨waiting, going⟩ := empty nextFloor spec.1
  rw [waiting, going, around, realNextFloor_mapFloor g.direction floor] at done
  obtain ⟨numWaiting, nobody, done⟩ := bind_eq_ok.mp done
  obtain ⟨numGoing, nobody', done⟩ := bind_eq_ok.mp done
  cases nobody
  cases nobody'
  rw [if_pos ⟨rfl, rfl, rfl⟩] at done
  cases done
  rfl

theorem Inv.entries_zero (inv : Inv s) (opened : s.globals.direction ≠ .close)
    (nobodyWaits : registered s = 0) (nobodyRides : boarded s = 0) (j : Nat)
    (small : j < s.globals.size) :
    s.globals.entry s.globals.waitingList j = .ok 0 ∧
      s.globals.entry s.globals.goingList j = .ok 0 := by
  obtain ⟨waits, rides⟩ := inv.books.kept opened
  obtain ⟨waiting, lists⟩ := Option.ne_none_iff_exists'.mp waits
  obtain ⟨going, lists'⟩ := Option.ne_none_iff_exists'.mp rides
  have zero : ∀ {list : Nat → BitVec 32},
      ∑ j ∈ Finset.range s.globals.size, (list j).toNat = 0 → list j = 0 := by
    intro list sum
    have entry := Finset.sum_eq_zero_iff.mp sum j (Finset.mem_range.mpr small)
    exact BitVec.eq_of_toNat_eq entry
  refine ⟨entry_eq_ok.mpr ⟨waiting, lists, small, zero ?_⟩,
    entry_eq_ok.mpr ⟨going, lists', small, zero ?_⟩⟩
  · rw [(inv.waiting_sum lists).2, nobodyWaits]
  · rw [(inv.going_sum lists').2, nobodyRides]

/-- A search of an elevator whose passengers have all left. -/
theorem Inv.closes_now (inv : Inv s) (taken : ElevatorStep s .statement s')
    (here : s.here = .elevator .searching) (nobodyWaits : registered s = 0)
    (nobodyRides : boarded s = 0) :
    s'.globals.direction = .close ∧ ∀ t, t ≠ s.threads.currentThread →
      s'.position t = s.position t := by
  have opened : s.globals.direction ≠ .close := by
    intro closed
    have elevator := inv.closes.mp closed
    rw [← inv.alone _ _ here] at elevator
    cases here.symm.trans elevator
  cases taken with
  | statement user inside done =>
    cases Programs.statement_advance done with
    | intro ran performed =>
      rw [here] at ran
      obtain ⟨⟨globals, routine, place⟩, computed, result⟩ := bind_eq_ok.mp ran
      cases result
      refine ⟨?_, fun t other => Programs.goTo_position_of_ne other⟩
      exact service_closes inv.floors.1 inv.floors.2
        (inv.entries_zero opened nobodyWaits nobodyRides) computed

/-! ## Whole runs -/

structure Settled (s : Programs Building Place) : Prop where
  inv : Inv s
  floors : ∀ t address p floor, s.position t = .passenger address p (.out floor) ∨
    s.position t = .passenger address p (.gone floor) → floor = p.toFloor
  coming : s.globals.direction = .close → NobodyComing s

theorem Settled.floors_step (settled : Settled s) (taken : ElevatorStep s event s') (t : Nat)
    (address : BitVec 32) (p : Passenger) (floor : Nat)
    (found : s'.position t = .passenger address p (.out floor) ∨
      s'.position t = .passenger address p (.gone floor)) : floor = p.toFloor := by
  cases found with
  | inl out =>
    obtain same | new | ⟨place, routine, before, runs⟩ := settled.inv.passenger_from taken out
    · exact settled.floors t address p floor (.inl same)
    · cases new
    · generalize s'.globals = globals at runs
      cases runs with
      | leaves there => exact there
      | acknowledges here => simp at here
  | inr gone =>
    obtain same | new | ⟨place, routine, before, runs⟩ := settled.inv.passenger_from taken gone
    · exact settled.floors t address p floor (.inr same)
    · cases new
    · generalize s'.globals = globals at runs
      cases runs with
      | deletes => exact settled.floors t address p floor (.inl before)
      | acknowledges here => simp at here

theorem Settled.coming_step (settled : Settled s) (last : ClosesLast s event)
    (taken : ElevatorStep s event s') (closed : s'.globals.direction = .close) :
    NobodyComing s' := by
  intro t address p found
  obtain same | new | ⟨place, routine, before, runs⟩ := settled.inv.passenger_from taken found
  · cases settled.inv.closed_from taken closed with
    | inl already => exact settled.coming already t address p same
    | inr now =>
      obtain ⟨calls, here, nobodyWaits, nobodyRides⟩ := now
      exact last calls here nobodyWaits nobodyRides t address p same
  · cases new
  · -- the passenger would have found the elevator idle or running
    have unchanged := runs.frame.2.2
    generalize s'.globals = globals at runs unchanged closed
    rw [unchanged] at closed
    cases runs with
    | waits idle => cases idle.symm.trans closed
    | finds open' => exact open'.2 closed
    | acknowledges here => simp at here

theorem Settled.step (settled : Settled s) (last : ClosesLast s event)
    (taken : ElevatorStep s event s') : Settled s' :=
  ⟨settled.inv.step taken, settled.floors_step taken, settled.coming_step last taken⟩

theorem boot_settled (many : 2 ≤ numFloors) (values : Nat → BitVec 32) :
    Settled (elevator numFloors values) := by
  refine ⟨boot_inv many values, fun t address p floor found => ?_, by simp [elevator]⟩
  rw [elevator_position] at found
  split at found <;> simp at found

theorem Inv.nobody_at (inv : Inv s) {index : Place → Option Nat} (none : number s index = 0)
    (inside : ∀ place, (index place).isSome = true → place.stage ≠ .outside) (t : Nat) :
    index (s.position t) = Option.none := by
  by_contra some
  have at' : (index (s.position t)).isSome = true := Option.isSome_iff_ne_none.mpr some
  exact Nat.count_iff_forall_not.mp none t (inv.disciplined.created t (inside _ at')) at'

theorem waitsFor_cases {place : Place} {c : Nat} (waits : place.waitsFor = some c) :
    c = finishBroadcastCd ∨ (∃ address p, place = .passenger address p .registering) ∨
      place.answers = some c := by
  cases place with
  | elsewhere => cases waits
  | elevator place => cases place <;> cases waits <;> exact .inl rfl
  | passenger address p place =>
    cases place with
    | registering => exact .inr (.inl ⟨address, p, rfl⟩)
    | waiting | riding => exact .inr (.inr waits)
    | start | arriving | entering | leaving | out | gone | refused => cases waits

/-- Everybody in the lists of a closed elevator was served. -/
theorem Settled.closesWell (settled : Settled s) : ClosesWell s := by
  intro closed
  obtain ⟨_, _, nobodyWaits, nobodyRides⟩ := settled.inv.books.deleted closed
  have waits := settled.inv.nobody_at nobodyWaits waitsAt_inside
  have rides := settled.inv.nobody_at nobodyRides ridesTo_inside
  have silent : ∀ t c, (s.position t).answers ≠ some c := by
    intro t c answers
    cases answers_cases answers with
    | inl waiting =>
      obtain ⟨address, p, here, _⟩ := waiting
      have none := waits t
      rw [here] at none
      cases none
    | inr riding =>
      obtain ⟨address, p, here, _⟩ := riding
      have none := rides t
      rw [here] at none
      cases none
  have empty : ∀ c < finishBroadcastCd, s.threads.queue (.condition c) = [] := by
    refine fun c ours => List.eq_nil_iff_forall_not_mem.mpr fun t member => ?_
    obtain last | ⟨address, p, here⟩ | answers :=
      waitsFor_cases (settled.inv.blocked c (Nat.le_of_lt ours) t member)
    · exact Nat.ne_of_lt ours last
    · exact settled.coming closed t address p here
    · exact silent t c answers
  refine ⟨empty _ (by decide), empty _ (by decide), empty _ (by decide), settled.coming closed,
    fun t address p place here registered => ?_⟩
  have none := waits t
  have none' := rides t
  rw [here] at none none'
  cases place with
  | waiting | entering => cases none
  | riding | leaving => cases none'
  | out floor => exact .inl (by rw [settled.floors t address p floor (.inl here)])
  | gone floor => exact .inr (by rw [settled.floors t address p floor (.inr here)])
  | start | arriving | registering | refused => cases registered

/-- An elevator that closes while somebody is coming strands them. -/
theorem Settled.strands (settled : Settled s) (early : ¬ ClosesLast s event)
    (taken : ElevatorStep s event s') : ¬ ClosesWell s' := by
  simp only [ClosesLast, Classical.not_imp] at early
  obtain ⟨rfl, here, nobodyWaits, nobodyRides, somebody⟩ := early
  obtain ⟨closed, others⟩ := settled.inv.closes_now taken here nobodyWaits nobodyRides
  intro well
  refine somebody fun t address p coming => ?_
  have other : t ≠ s.threads.currentThread := by
    rintro rfl
    cases here.symm.trans coming
  exact (well closed).coming t address p ((others t other).trans coming)

/-! ## Passengers that come after the start -/

def promptStage : Place → Stage
  | .passenger _ _ .registering => .inside
  | place => place.stage

theorem PassengerRuns.prompt {g g' : Building} {address : BitVec 32} {p : Passenger}
    {place place' : PassengerPlace} {routine : Option Routine}
    (runs : PassengerRuns g address p place g' routine place')
    (running : place = .arriving → g.direction ≠ .idle) :
    Moves elevatorLk routine (promptStage (.passenger address p place))
      (promptStage (.passenger address p place')) := by
  have moves := runs.moves
  cases runs with
  | waits idle => exact absurd idle (running rfl)
  | finds => exact .quiet (by simp [promptStage, Place.stage, PassengerPlace.stage])
  | registers => exact .wait (by simp [promptStage])
  | acknowledges here => obtain ⟨rfl, rfl⟩ | ⟨rfl, rfl⟩ := here <;> exact moves
  | start | refused | boards | again | leaves | rides | deletes => exact moves

def Prompt (s : Programs Building Place) : Prop :=
  Disciplined elevatorLk s.threads fun t => promptStage (s.position t)

theorem Prompt.step (prompt : Prompt s) (inv : Inv s) (running : FindsRunning s event)
    (taken : ElevatorStep s event s') : Prompt s' := by
  cases taken with
  | arrive user elsewhere notNull fresh =>
    simp only [arrivingGoingFromTo]
    split
    next => exact prompt
    next =>
      have forked := prompt.other (.call (c := .fork) user rfl) (by simp [AboutLock, LeavesLock])
      have outside : promptStage (s.position s.threads.created) = .outside := by
        by_contra inside
        exact Nat.lt_irrefl _ (prompt.created _ inside)
      have stages : ∀ address p, (fun t => promptStage (s.position t)) = fun t => promptStage
          (Function.update s.position s.threads.created (.passenger address p .start) t) := by
        intro address p
        funext t
        by_cases new : t = s.threads.created
        · subst new
          rw [Function.update_self, outside]
          rfl
        · rw [Function.update_of_ne new]
      exact Eq.mp (congrArg (Disciplined elevatorLk _) (stages _ _)) forked
  | other allowed taken => exact prompt.other taken (Allows.not_aboutLock allowed)
  | statement user inside done =>
    unfold Prompt
    cases statement_runs inv inside done with
    | elevator here runs performed =>
      rw [Programs.stage_goTo promptStage]
      refine prompt.perform user ?_ performed
      show Moves _ _ (promptStage s.here) _
      rw [here]
      exact runs.moves
    | passenger here live runs performed =>
      rw [Programs.stage_goTo promptStage]
      refine prompt.perform user ?_ performed
      show Moves _ _ (promptStage s.here) _
      rw [here]
      refine runs.prompt fun arrives => running rfl ?_
      rw [here, arrives]
      rfl

theorem Prompt.closesLast (prompt : Prompt s) (taken : ElevatorStep s event s') :
    ClosesLast s event := by
  rintro rfl here _ _ t address p coming
  cases taken with
  | statement user inside done =>
    have searches : promptStage s.here ≠ .outside := by
      rw [here]
      simp [promptStage, Place.stage, ElevatorPlace.stage]
    have elevator := prompt.holds user searches
    have passenger := prompt.stands t
    simp only [coming, promptStage] at passenger
    cases elevator.symm.trans passenger
    cases here.symm.trans coming

theorem boot_prompt (numFloors : Nat) (values : Nat → BitVec 32) :
    Prompt (elevator numFloors values) := by
  have outside : (fun t => promptStage ((elevator numFloors values).position t)) =
      fun _ => .outside := by
    funext t
    rw [elevator_position]
    split <;> rfl
  unfold Prompt
  rw [outside]
  have forked : ThreadStep (Threads.boot values) (.call .fork) (Threads.boot values).fork :=
    .call ⟨rfl, rfl⟩ rfl
  exact (boot_disciplined elevatorLk values).other forked (by simp [AboutLock, LeavesLock])

theorem reachable_prompt {values : Nat → BitVec 32}
    {history : List (Programs Building Place × ElevatorEvent)} (many : 2 ≤ numFloors)
    (run : Run ElevatorStep (elevator numFloors values) history s)
    (running : Guarded FindsRunning history) : Inv s ∧ Prompt s :=
  run.invariant (I := fun s => Inv s ∧ Prompt s)
    ⟨boot_inv many values, boot_prompt numFloors values⟩
    (fun s event _ kept (runs : FindsRunning s event) taken =>
      ⟨kept.1.step taken, kept.2.step kept.1 runs taken⟩) running

theorem closesLast_of_findsRunning {values : Nat → BitVec 32}
    {history : List (Programs Building Place × ElevatorEvent)} (many : 2 ≤ numFloors)
    (run : Run ElevatorStep (elevator numFloors values) history s)
    (running : Guarded FindsRunning history) : Guarded ClosesLast history := by
  induction run with
  | start =>
    intro taken member
    cases member
  | next earlier taken ih =>
    exact guarded_cons.mpr ⟨(reachable_prompt many earlier running.tail).2.closesLast taken,
      ih running.tail⟩

end ElevatorSystem

open ElevatorSystem in
/-- In a run no passenger is stranded exactly when the elevator never finds itself empty while a
passenger is still coming; so nobody is stranded when no passenger finds it idle. -/
theorem closes_well_iff {numFloors : Nat} {values : Nat → BitVec 32}
    {history : List (Programs Building Place × ElevatorEvent)} {s : Programs Building Place}
    (many : 2 ≤ numFloors) (run : Run ElevatorStep (elevator numFloors values) history s) :
    (Throughout ClosesWell history s ↔ Guarded ClosesLast history) ∧
      (Guarded FindsRunning history → Throughout ClosesWell history s) := by
  have exact' : Throughout ClosesWell history s ↔ Guarded ClosesLast history :=
    run.throughout_iff_guarded (boot_settled many values)
      (fun _ _ _ settled last taken => settled.step last taken)
      (fun _ settled => settled.closesWell)
      fun _ _ _ settled early taken => settled.strands early taken
  exact ⟨exact', fun running => exact'.mpr (closesLast_of_findsRunning many run running)⟩

open ElevatorSystem in
/-- A passenger comes after the start, rides to its floor, and the elevator closes behind it. -/
theorem served_then_closed : ∃ history s,
    Run ElevatorStep (elevator 2 fun _ => 0#32) history s ∧ Guarded FindsRunning history ∧
      s.globals.direction = .close ∧ s.position 2 = .passenger 1 ⟨1, 2, .up⟩ (.gone 2) ∧
      Throughout ClosesWell history s := by
  refine computed_run performElevator_step (fun history s => Guarded FindsRunning history ∧
      s.globals.direction = .close ∧ s.position 2 = .passenger 1 ⟨1, 2, .up⟩ (.gone 2))
    ([.arrive 1 1 2, .other (.call .yield)] ++ .replicate 7 .statement ++
      .other (.call .finish) :: .replicate 5 .statement ++ .other .resume :: .replicate 2 .statement ++
      .other .resume :: .replicate 6 .statement ++ .other .resume :: .replicate 3 .statement ++
      [.other (.call .finish), .other .resume] ++ .replicate 5 .statement)
    (by decide +kernel) fun history s run _ shape => ?_
  exact ⟨shape.1, shape.2.1, shape.2.2, (closes_well_iff (by decide) run).2 shape.1⟩

open ElevatorSystem in
/-- Two passengers come before the elevator starts.  The signal wakes the first one; the elevator
serves it and closes, and the second one is left behind. -/
theorem second_passenger_stranded : ∃ history s,
    Run ElevatorStep (elevator 2 fun _ => 0#32) history s ∧ s.globals.direction = .close ∧
      3 ∈ s.threads.queue (.condition elevatorActiveCd) ∧ ¬ ClosesWell s := by
  refine computed_run performElevator_step (fun _ s => s.globals.direction = .close ∧
      3 ∈ s.threads.queue (.condition elevatorActiveCd))
    ([.arrive 1 1 2, .arrive 2 1 2, .other (.call .yield), .other (.call .yield)] ++
      .replicate 4 .statement ++ .other (.call .finish) :: .replicate 4 .statement ++
      .other .resume :: .replicate 6 .statement ++ .other .resume :: .replicate 2 .statement ++
      .other .resume :: .replicate 6 .statement ++ .other .resume :: .replicate 3 .statement ++
      [.other (.call .finish), .other .resume] ++ .replicate 5 .statement)
    (by decide +kernel) fun history s run _ shape => ?_
  refine ⟨shape.1, shape.2, fun well => ?_⟩
  have empty := (well shape.1).active
  rw [empty] at shape
  cases shape.2

end Nachos
