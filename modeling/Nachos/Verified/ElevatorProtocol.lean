import Nachos.Verified.ElevatorInvariant

/-!
# The elevator serves its passengers

Every run of the elevator and any number of passengers keeps the books and counts the answers to
its broadcasts.
-/

namespace Nachos

open Census Loops Runs Threads

variable {event : ThreadEvent}

namespace ElevatorSystem

variable {s s' : Programs Building Place} {t : Nat}

/-! ## Whole runs -/

theorem Inv.threads_step {threads : Threads} (inv : Inv s)
    (taken : ThreadStep s.threads event threads) (quiet : ¬ AboutLock elevatorLk event)
    (apart : ∀ c, c ≤ finishBroadcastCd → event.ApartFrom c) :
    Inv { s with threads := threads } := by
  have queues : ∀ c, c ≤ finishBroadcastCd →
      threads.queue (.condition c) = s.threads.queue (.condition c) :=
    fun c ours => taken.condition_same (apart c ours)
  have congr : ∀ u, Woken s u ↔ Woken { s with threads := threads } u := fun u =>
    woken_congr rfl fun c announced => by
      have ours : c ≤ finishBroadcastCd := by
        obtain rfl | rfl := announced <;> decide
      show u ∈ threads.queue _ ↔ _
      rw [queues c ours]
  have same : woken { s with threads := threads } = woken s := by
    have grown : woken { s with threads := threads } =
        Nat.count (Woken { s with threads := threads }) s.threads.created := by
      refine count_grow taken.created_le fun u new answers => ?_
      have known := ((congr u).mpr answers).created inv.disciplined
      omega
    rw [grown]
    exact (count_congr fun u _ => congr u).symm
  have numbers {index : Place → Option Nat}
      (inside : ∀ place, (index place).isSome = true → place.stage ≠ .outside) :
      SameNumbers s { s with threads := threads } index := fun P _ kind => by
    refine count_grow taken.created_le fun u new here => ?_
    have known := inv.disciplined.created u (inside _ (kind _ here))
    omega
  refine ⟨inv.disciplined.other taken quiet, inv.blocked.other taken apart,
    Nat.lt_of_lt_of_le inv.hired taken.created_le, inv.elevator, inv.alone, inv.valid, inv.floors,
    ⟨inv.heap.distinct, inv.heap.live, inv.heap.own⟩,
    inv.books.transfer rfl rfl rfl rfl Iff.rfl (numbers waitsAt_inside) (numbers ridesTo_inside),
    inv.closes,
    fun place here => (inv.phase place here).congr rfl same ?_,
    fun t answers => inv.kind t ((congr t).mpr answers)⟩
  · show theElevator ∈ threads.queue _ ↔ _
    rw [queues _ (Nat.le_refl _)]

theorem waitsFor_inside {place : Place} {c : Nat} (waits : place.waitsFor = some c) :
    place.stage ≠ .outside := by
  cases place with
  | elsewhere => cases waits
  | elevator place => cases place <;> cases waits <;> simp [Place.stage, ElevatorPlace.stage]
  | passenger address p place =>
    cases place <;> cases waits <;> simp [Place.stage, PassengerPlace.stage]

/-- `u` has been forked to run the passenger `p` at a new address. -/
structure NewPassenger (s s' : Programs Building Place) (u : Nat) (address : BitVec 32)
    (p : Passenger) : Prop where
  outside : (s.position u).stage = .outside
  other : theElevator ≠ u
  notNull : address ≠ 0
  fresh : address ∉ s.globals.passengers
  valid : p.Valid s.globals.maxFloors
  threads : s'.threads = s.threads
  globals : s'.globals = { s.globals with passengers := address :: s.globals.passengers }
  own : s'.position u = .passenger address p .start
  others : ∀ t, t ≠ u → s'.position t = s.position t

namespace NewPassenger

variable {u : Nat} {address : BitVec 32} {p : Passenger} (new : NewPassenger s s' u address p)

include new

theorem stages : (fun t => (s'.position t).stage) = fun t => (s.position t).stage := by
  funext t
  by_cases same : t = u
  · rw [same, new.own, new.outside]
    rfl
  · rw [new.others t same]

theorem inside_ne {t : Nat} (inside : (s.position t).stage ≠ .outside) : t ≠ u := by
  rintro rfl
  exact inside new.outside

theorem woken_iff (t : Nat) : Woken s t ↔ Woken s' t := by
  by_cases same : t = u
  · subst same
    constructor
    · rintro ⟨c, answers, _⟩
      exact absurd new.outside (answers_inside answers)
    · rintro ⟨c, answers, _⟩
      rw [new.own] at answers
      cases answers
  · exact woken_congr (new.others t same) fun c _ => by rw [new.threads]

theorem sameNumbers {index : Place → Option Nat}
    (inside : ∀ place, (index place).isSome = true → place.stage ≠ .outside) :
    SameNumbers s s' index := by
  intro P _ kind
  rw [new.threads]
  refine count_congr fun t _ => ?_
  by_cases same : t = u
  · subst same
    rw [new.own]
    exact ⟨fun here => absurd rfl (inside _ (kind _ here)),
      fun here => absurd new.outside (inside _ (kind _ here))⟩
  · rw [new.others t same]

theorem passenger_cases {t : Nat} {a : BitVec 32} {q : Passenger} {there : PassengerPlace}
    (found : s'.position t = .passenger a q there) :
    (t = u ∧ a = address ∧ q = p) ∨ s.position t = .passenger a q there := by
  by_cases same : t = u
  · subst same
    cases new.own.symm.trans found
    exact .inl ⟨rfl, rfl, rfl⟩
  · exact .inr ((new.others t same).symm.trans found)

theorem heap (heap : Heap s) : Heap s' := by
  refine ⟨?_, fun t a q there found live => ?_,
    fun t v a q r there there' found found' live live' => ?_⟩
  · rw [new.globals]
    have distinct := List.nodup_cons.mp heap.distinct
    refine List.nodup_cons.mpr ⟨fun member => ?_, List.nodup_cons.mpr ⟨new.fresh, distinct.2⟩⟩
    cases List.mem_cons.mp member with
    | inl same => exact new.notNull same.symm
    | inr again => exact distinct.1 again
  · rw [new.globals]
    obtain ⟨_, rfl, _⟩ | before := new.passenger_cases found
    · exact List.mem_cons_self
    · exact List.mem_cons_of_mem _ (heap.live t a q there before live)
  · -- the address of the new passenger is not in use
    obtain ⟨same, isNew, _⟩ | before := new.passenger_cases found <;>
      obtain ⟨same', isNew', _⟩ | before' := new.passenger_cases found'
    · exact same.trans same'.symm
    · exact absurd (heap.live v a r there' before' live') (isNew ▸ new.fresh)
    · exact absurd (heap.live t a q there before live) (isNew' ▸ new.fresh)
    · exact heap.own t v a q r there there' before before' live live'

end NewPassenger

theorem Inv.newPassenger {u : Nat} {address : BitVec 32} {p : Passenger} (inv : Inv s)
    (new : NewPassenger s s' u address p) : Inv s' := by
  obtain ⟨-, other, -, -, valid, threads, globals, own, others⟩ := id new
  refine ⟨?_, fun c ours t member => ?_, threads ▸ inv.hired, ?_, fun t place found => ?_,
    fun t a q there found => ?_, ?_, new.heap inv.heap,
    inv.books.transfer (by rw [globals]) (by rw [globals]) (by rw [globals]) (by rw [globals])
      (by rw [globals]) (new.sameNumbers waitsAt_inside) (new.sameNumbers ridesTo_inside), ?_,
    fun place found => ?_, fun t woken place found => ?_⟩
  · rw [new.stages, threads]
    exact inv.disciplined
  · have waits := inv.blocked c ours t (threads ▸ member)
    rwa [others t (new.inside_ne (waitsFor_inside waits))]
  · rw [others _ other]
    exact inv.elevator
  · by_cases same : t = u
    · subst same
      cases own.symm.trans found
    · exact inv.alone t place ((others t same).symm.trans found)
  · rw [globals]
    obtain ⟨_, _, rfl⟩ | before := new.passenger_cases found
    · exact valid
    · exact inv.valid t a q there before
  · rw [globals]
    exact inv.floors
  · rw [others _ other, globals]
    exact inv.closes
  · have before := inv.phase place ((others _ other).symm.trans found)
    refine before.congr (by rw [globals]) ?_ (by rw [threads])
    unfold woken
    rw [threads]
    exact count_congr fun t _ => (new.woken_iff t).symm
  · have before := (new.woken_iff t).mpr woken
    obtain ⟨c, answers, _⟩ := id before
    rw [others t (new.inside_ne (answers_inside answers))]
    exact inv.kind t before place ((others _ other).symm.trans found)

theorem Allows.not_aboutLock (allowed : ElevatorAllows s event) :
    ¬ AboutLock elevatorLk event := by
  cases event with
  | call c =>
    cases allowed with
    | inl yields => simp [yields, AboutLock, LeavesLock]
    | inr apart =>
      rintro (calls | calls | ⟨cond, calls⟩) <;> cases calls
      · exact apart.2 rfl
      · exact apart.2 rfl
      · exact apart.2.1 rfl
  | resume | handler _ | idleReturn => simp [AboutLock, LeavesLock]

theorem Allows.apart (allowed : ElevatorAllows s event) (c : Nat) (ours : c ≤ finishBroadcastCd) :
    event.ApartFrom c := by
  intro l
  refine ⟨?_, ?_, ?_⟩ <;> rintro rfl <;> cases allowed with
    | inl yields => cases yields
    | inr apart => exact absurd ours (Nat.not_le.mpr apart.2.2)

theorem Inv.arrive {address : BitVec 32} {atFloor toFloor : Int} (inv : Inv s)
    (user : s.threads.InUser) (notNull : address ≠ 0) (fresh : address ∉ s.globals.passengers) :
    Inv (arrivingGoingFromTo address atFloor toFloor s) := by
  simp only [arrivingGoingFromTo]
  split
  next => exact inv
  next valid =>
    have forked : Inv { s with threads := s.threads.fork } :=
      inv.threads_step (.call (c := .fork) user rfl) (by simp [AboutLock, LeavesLock])
        fun c _ => by simp [ThreadEvent.ApartFrom]
    have outside : (s.position s.threads.created).stage = .outside := by
      by_contra inside
      exact absurd (inv.disciplined.created _ inside) (Nat.lt_irrefl _)
    refine forked.newPassenger (u := s.threads.created) ⟨outside, Nat.ne_of_lt inv.hired, notNull,
      fresh, ⟨?_, ?_⟩, rfl, rfl, Function.update_self ..,
      fun t other => Function.update_of_ne other ..⟩
    · show 1 ≤ atFloor.toNat ∧ atFloor.toNat ≤ s.globals.maxFloors
      omega
    · show 1 ≤ toFloor.toNat ∧ toFloor.toNat ≤ s.globals.maxFloors
      omega

inductive StatementRuns (s : Programs Building Place) : Programs Building Place → Prop where
  | elevator {place place' : ElevatorPlace} {globals : Building} {routine : Option Routine}
      {threads : Threads} (here : s.here = .elevator place)
      (runs : ElevatorRuns s.globals place globals routine place')
      (performed : s.threads.perform routine = .ok threads) :
      StatementRuns s (s.goTo (.elevator place') threads globals)
  | passenger {address : BitVec 32} {p : Passenger} {place place' : PassengerPlace}
      {globals : Building} {routine : Option Routine} {threads : Threads}
      (here : s.here = .passenger address p place) (live : ∀ floor, place ≠ .gone floor)
      (runs : PassengerRuns s.globals address p place globals routine place')
      (performed : s.threads.perform routine = .ok threads) :
      StatementRuns s (s.goTo (.passenger address p place') threads globals)

theorem statement_runs (inv : Inv s) (inside : s.here.isElsewhere = false)
    (done : s.statement elevatorCode = .ok s') : StatementRuns s s' := by
  cases Programs.statement_advance done with
  | intro ran performed =>
    cases here : s.here with
    | elsewhere => simp [here, Place.isElsewhere] at inside
    | elevator place =>
      rw [here] at ran
      obtain ⟨⟨globals, routine, place'⟩, computed, result⟩ := bind_eq_ok.mp ran
      cases result
      have open' : place ≠ .closed := by
        rintro rfl
        simp [here, Place.isElsewhere] at inside
      exact .elevator here (elevatorThread_runs inv.floors.1 inv.floors.2 inv.ground open' computed)
        performed
    | passenger address p place =>
      rw [here] at ran
      obtain ⟨⟨globals, routine, place'⟩, computed, result⟩ := bind_eq_ok.mp ran
      cases result
      have live : place ≠ .refused ∧ ∀ floor, place ≠ .gone floor := by
        constructor
        · rintro rfl
          simp [here, Place.isElsewhere] at inside
        · rintro floor rfl
          simp [here, Place.isElsewhere] at inside
      exact .passenger here live.2 (passengerThread_runs live computed) performed

theorem Inv.step {event : ElevatorEvent} (inv : Inv s) (taken : ElevatorStep s event s') : Inv s' := by
  cases taken with
  | arrive user elsewhere notNull fresh => exact inv.arrive user notNull fresh
  | other allowed taken =>
    exact inv.threads_step taken (Allows.not_aboutLock allowed) (Allows.apart allowed)
  | statement user inside done =>
    cases statement_runs inv inside done with
    | elevator here runs performed => exact inv.elevator_step user here runs performed
    | passenger here live runs performed => exact inv.passenger_step user here live runs performed

theorem elevator_position (numFloors : Nat) (values : Nat → BitVec 32) (t : Nat) :
    (elevator numFloors values).position t =
      if t = theElevator then .elevator .start else .elsewhere :=
  Function.update_apply (fun _ => Place.elsewhere) theElevator (.elevator .start) t

theorem boot_inv {numFloors : Nat} (many : 2 ≤ numFloors) (values : Nat → BitVec 32) :
    Inv (elevator numFloors values) := by
  have outside : ∀ t, ((elevator numFloors values).position t).stage = .outside := by
    intro t
    rw [elevator_position]
    split <;> rfl
  have forked : ThreadStep (Threads.boot values) (.call .fork) (Threads.boot values).fork :=
    .call ⟨rfl, rfl⟩ rfl
  have started := (boot_disciplined elevatorLk values).other forked (by simp [AboutLock, LeavesLock])
  have counted : ∀ (P : Place → Prop) [DecidablePred P],
      (∀ place, P place → place.stage ≠ .outside) → ∀ n,
        Nat.count (fun t => P ((elevator numFloors values).position t)) n = 0 :=
    fun P _ inside n => Nat.count_iff_forall_not.mpr fun t _ here => inside _ here (outside t)
  have empty : ∀ {index : Place → Option Nat},
      (∀ place, (index place).isSome = true → place.stage ≠ .outside) →
        Counts (elevator numFloors values) (fun _ => 0) index := by
    intro index inside j _
    rw [counted (fun place => index place = some j) fun place found =>
      inside place (by simp [found])]
    rfl
  have nobodyRides : boarded (elevator numFloors values) = 0 := counted _ ridesTo_inside _
  have nobodyWoken : woken (elevator numFloors values) = 0 := by
    refine Nat.count_iff_forall_not.mpr fun t _ answers => ?_
    obtain ⟨c, answers, _⟩ := answers
    exact answers_inside answers (outside t)
  have passenger : ∀ {t address p place},
      (elevator numFloors values).position t ≠ .passenger address p place := by
    intro t address p place found
    rw [elevator_position] at found
    split at found <;> cases found
  refine ⟨?_, fun c _ t member => ?_, show 1 < 2 by decide, ⟨.start, ?_⟩, fun t place found => ?_,
    fun t a q there found => absurd found passenger, ⟨many, by simp [elevator], ?_⟩,
    ⟨by simp [elevator], fun t a q there found => absurd found passenger,
      fun t u a q r there there' found => absurd found passenger⟩, ?_, ?_, fun place found => ?_,
    fun t answers => ?_⟩
  · have stages : (fun t => ((elevator numFloors values).position t).stage) = fun _ => .outside :=
      funext outside
    rw [stages]
    exact started
  · have nothing : (Threads.boot values).fork.queue (.condition c) = [] := by
      rw [forked.condition_same (c := c) fun l => by simp]
      rfl
    rw [show (elevator numFloors values).threads = (Threads.boot values).fork from rfl,
      nothing] at member
    cases member
  · rw [elevator_position, if_pos rfl]
  · rw [elevator_position] at found
    split at found
    next same => exact same
    next => cases found
  · show 1 ≤ numFloors
    omega
  · refine .of_open (by simp [elevator]) rfl rfl (empty waitsAt_inside) (empty ridesTo_inside) ?_
    rw [nobodyRides]
    rfl
  · rw [elevator_position, if_pos rfl]
    simp [elevator]
  · rw [elevator_position, if_pos rfl] at found
    cases found
    exact nobodyWoken
  · obtain ⟨c, answers, _⟩ := answers
    exact absurd (outside t) (answers_inside answers)

theorem reachable_inv {numFloors : Nat} {values : Nat → BitVec 32}
    {history : List (Programs Building Place × ElevatorEvent)} (many : 2 ≤ numFloors)
    (run : Run ElevatorStep (elevator numFloors values) history s) : Inv s :=
  run.always (boot_inv many values) fun _ _ _ inv taken => inv.step taken

theorem Inv.floor_kept {event : ElevatorEvent} (inv : Inv s) (taken : ElevatorStep s event s')
    (answers : Woken s t) : s'.globals.currentFloor = s.globals.currentFloor := by
  cases taken with
  | arrive user elsewhere notNull fresh =>
    simp only [arrivingGoingFromTo]
    split <;> rfl
  | other allowed taken => rfl
  | statement user inside done =>
    cases statement_runs inv inside done with
    | elevator here runs performed =>
      refine runs.floor_kept ?_
      rintro rfl
      have current : s.threads.currentThread = theElevator := inv.alone _ _ here
      have nobody : woken s = 0 := inv.phase .searching (current ▸ here)
      exact Nat.count_iff_forall_not.mp nobody t (answers.created inv.disciplined) answers
    | passenger here live runs performed => exact runs.frame.2.1

structure Announcing (s : Programs Building Place) (c : Nat) : Prop where
  count : s.globals.broadcastCount.toNat = woken s
  kind : ∀ t, Woken s t → (s.position t).answers = some c
  waits : theElevator ∈ s.threads.queue (.condition finishBroadcastCd) ↔
    s.globals.broadcastCount ≠ 0

theorem Inv.broadcastCount_ne_zero (inv : Inv s) (answers : Woken s t) :
    s.globals.broadcastCount ≠ 0 := by
  have somebody := count_pos (answers.created inv.disciplined) answers
  obtain ⟨place, here⟩ := inv.elevator
  have phase := inv.phase place here
  intro zero
  have counted : woken s = 0 := by
    cases place with
    | lettingOut | lettingIn => exact phase.symm.trans (by rw [zero]; rfl)
    | letOut | letIn => exact phase.1.symm.trans (by rw [zero]; rfl)
    | start | activating | activated | yielding | looping | searching | closed => exact phase
  exact absurd counted (Nat.ne_of_gt somebody)

end ElevatorSystem

open ElevatorSystem in
/-- Until the elevator closes: the room and the lists are right in every state; while the
elevator waits for the end of a broadcast, `broadcast_count` is the number of the passengers that
this broadcast woke and that have not answered, and the elevator is blocked exactly while it is
not zero; so nobody takes one from zero, and the elevator stays where it is. -/
theorem elevator_protocol {numFloors : Nat} {values : Nat → BitVec 32}
    {history : List (Programs Building Place × ElevatorEvent)} {s : Programs Building Place}
    (many : 2 ≤ numFloors) (run : Run ElevatorStep (elevator numFloors values) history s)
    (serves : s.globals.direction ≠ .close) :
    s.globals.room.toNat ≤ capacity.toNat ∧
      (∃ waiting going, s.globals.waitingList = some waiting ∧ s.globals.goingList = some going ∧
        (capacity - s.globals.room).toNat = boarded s ∧
        ∑ j ∈ Finset.range s.globals.size, (going j).toNat = boarded s ∧
        ∑ j ∈ Finset.range s.globals.size, (waiting j).toNat = registered s) ∧
      (s.position theElevator = .elevator .letOut → Announcing s passengerOutCd) ∧
      (s.position theElevator = .elevator .letIn → Announcing s passengerInCd) ∧
      (∀ t, Woken s t → s.globals.broadcastCount ≠ 0) ∧
      ∀ t event s', Woken s t → ElevatorStep s event s' →
        s'.globals.currentFloor = s.globals.currentFloor := by
  have inv := reachable_inv many run
  obtain ⟨waits, rides⟩ := inv.books.kept serves
  obtain ⟨waiting, lists⟩ := Option.ne_none_iff_exists'.mp waits
  obtain ⟨going, lists'⟩ := Option.ne_none_iff_exists'.mp rides
  have announcing : ∀ place c, s.position theElevator = .elevator place →
      place.announces = some c → (place = .letOut ∨ place = .letIn) → Announcing s c := by
    intro place c here announces waits
    obtain ⟨count, queued⟩ := inv.pending here waits
    exact ⟨count, fun t answers => (inv.kind t answers place here).trans announces, queued⟩
  refine ⟨?_, ⟨waiting, going, lists, lists', inv.capacity_sub_room, (inv.going_sum lists').2,
    (inv.waiting_sum lists).2⟩, fun here => announcing _ _ here rfl (.inl rfl),
    fun here => announcing _ _ here rfl (.inr rfl), fun t answers => inv.broadcastCount_ne_zero answers,
    fun t event s' answers taken => inv.floor_kept taken answers⟩
  have room := inv.books.room
  omega

open ElevatorSystem in
/-- A passenger is woken to board, and the elevator waits for its answer. -/
theorem passenger_let_in : ∃ history s,
    Run ElevatorStep (elevator 3 fun _ => 0#32) history s ∧ s.globals.direction ≠ .close ∧
      (s.position theElevator = .elevator .letIn ∧ s.globals.broadcastCount = 1 ∧ woken s = 1) ∧
      Announcing s passengerInCd := by
  refine computed_run performElevator_step (fun _ s => s.globals.direction ≠ .close ∧
      s.position theElevator = .elevator .letIn ∧ s.globals.broadcastCount = 1 ∧ woken s = 1)
    ([.arrive 1 1 2, .other (.call .yield)] ++ .replicate 7 .statement ++
      .other (.call .yield) :: .replicate 5 .statement)
    (by decide +kernel) fun history s run _ shape => ?_
  obtain ⟨_, _, _, letIn, _⟩ := elevator_protocol (by decide) run shape.1
  exact ⟨shape.1, shape.2, letIn shape.2.1⟩

end Nachos