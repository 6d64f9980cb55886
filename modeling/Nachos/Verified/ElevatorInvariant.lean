import Nachos.Verified.ElevatorBooks

/-!
# What the elevator and its passengers keep

The thread with the lock is the only one that changes the variables.  A broadcast wakes all
passengers of one kind; the elevator then waits until each of them has taken one from
`broadcast_count`, so during that time the count is the number of those that have not.  `Inv` puts
this together with the lock and the books, and each statement keeps it.
-/

namespace Nachos

open Census Loops Threads

variable {place : Place} {c : Nat} {there : ElevatorPlace}

namespace ElevatorSystem

variable {s s' : Programs Building Place} {t : Nat}

def Woken (s : Programs Building Place) (t : Nat) : Prop :=
  ∃ c ∈ (s.position t).answers, t ∉ s.threads.queue (.condition c)

instance (s : Programs Building Place) : DecidablePred (Woken s) := fun t =>
  inferInstanceAs (Decidable (∃ c ∈ (s.position t).answers, t ∉ s.threads.queue (.condition c)))

def woken (s : Programs Building Place) : Nat := Nat.count (Woken s) s.threads.created

def Phase (s : Programs Building Place) : ElevatorPlace → Prop
  | .lettingOut | .lettingIn => s.globals.broadcastCount.toNat = woken s
  | .letOut | .letIn => s.globals.broadcastCount.toNat = woken s ∧
      (theElevator ∈ s.threads.queue (.condition finishBroadcastCd) ↔
        s.globals.broadcastCount ≠ 0)
  | .start | .activating | .activated | .yielding | .looping | .searching | .closed => woken s = 0

structure Inv (s : Programs Building Place) : Prop where
  disciplined : Disciplined elevatorLk s.threads fun t => (s.position t).stage
  blocked : Programs.Blocked (· ≤ finishBroadcastCd) Place.waitsFor s
  hired : theElevator < s.threads.created
  elevator : ∃ place, s.position theElevator = .elevator place
  alone : ∀ t place, s.position t = .elevator place → t = theElevator
  valid : ∀ t address p place, s.position t = .passenger address p place →
    p.Valid s.globals.maxFloors
  floors : 2 ≤ s.globals.maxFloors ∧ 1 ≤ s.globals.currentFloor ∧
    s.globals.currentFloor ≤ s.globals.maxFloors
  heap : Heap s
  books : Books s
  closes : s.globals.direction = .close ↔ s.position theElevator = .elevator .closed
  phase : ∀ place, s.position theElevator = .elevator place → Phase s place
  kind : ∀ t, Woken s t → ∀ place, s.position theElevator = .elevator place →
    (s.position t).answers = place.announces

section Sums

variable (inv : Inv s)

include inv

theorem Inv.registered_lt : registered s < 2 ^ 32 := inv.heap.number_lt waitsAt_live

theorem Inv.boarded_le : boarded s ≤ 5 := by
  have room := inv.books.room
  have five : capacity.toNat = 5 := rfl
  omega

theorem Inv.waitsAt_size (t j : Nat)
    (waits : (s.position t).waitsAt s.globals.maxFloors = some j) : 1 ≤ j ∧ j < s.globals.size :=
  waitsAt_inRange inv.floors.1 (inv.valid t) waits

theorem Inv.ridesTo_size (t j : Nat)
    (rides : (s.position t).ridesTo s.globals.maxFloors = some j) : 1 ≤ j ∧ j < s.globals.size :=
  ridesTo_inRange inv.floors.1 (inv.valid t) rides

theorem Inv.waiting_sum {list : Nat → BitVec 32} (lists : s.globals.waitingList = some list) :
    (∀ j < s.globals.size, (list j).toNat = Nat.count (fun t =>
      (s.position t).waitsAt s.globals.maxFloors = some j) s.threads.created) ∧
    ∑ j ∈ Finset.range s.globals.size, (list j).toNat = registered s :=
  (inv.books.waiting list lists).sum (fun t j waits => (inv.waitsAt_size t j waits).2)
    inv.registered_lt

theorem Inv.going_sum {list : Nat → BitVec 32} (lists : s.globals.goingList = some list) :
    (∀ j < s.globals.size, (list j).toNat = Nat.count (fun t =>
      (s.position t).ridesTo s.globals.maxFloors = some j) s.threads.created) ∧
    ∑ j ∈ Finset.range s.globals.size, (list j).toNat = boarded s :=
  (inv.books.going list lists).sum (fun t j rides => (inv.ridesTo_size t j rides).2)
    (Nat.lt_of_le_of_lt inv.boarded_le (by decide))

/-- The first entry of the lists stands for no floor. -/
theorem Inv.ground : s.globals.stops 0 ≠ .ok true := by
  have nobody {index : Place → Option Nat} (positive : ∀ t j, index (s.position t) = some j → 1 ≤ j)
      {n : Nat} : Nat.count (fun t => index (s.position t) = some 0) n = 0 :=
    Nat.count_iff_forall_not.mpr fun t _ here => absurd (positive t 0 here) (by decide)
  intro stops
  cases stops_cases stops with
  | inr none => cases none.1
  | inl some =>
    obtain ⟨value, found, nonzero⟩ | ⟨value, found, nonzero⟩ := some.2 <;>
      obtain ⟨list, lists, small, rfl⟩ := entry_eq_ok.mp found <;>
      refine nonzero (BitVec.eq_of_toNat_eq ?_)
    · rw [(inv.waiting_sum lists).1 0 small]
      exact nobody fun t j here => (inv.waitsAt_size t j here).1
    · rw [(inv.going_sum lists).1 0 small]
      exact nobody fun t j here => (inv.ridesTo_size t j here).1

theorem Inv.nobody (nobody : ∀ j < s.globals.size, s.globals.stops j = .ok false) :
    registered s = 0 ∧ boarded s = 0 := by
  have entries : ∀ j < s.globals.size, s.globals.entry s.globals.goingList j = .ok 0 ∧
      (s.globals.room ≠ 0 → s.globals.entry s.globals.waitingList j = .ok 0) := by
    intro j small
    cases stops_cases (nobody j small) with
    | inl some => cases some.1
    | inr none => exact none.2
  have many := inv.floors.1
  have positive : 0 < s.globals.size := by simp only [Building.size]; omega
  have zero {list : Option (Nat → BitVec 32)} {values : Nat → BitVec 32} (lists : list = some values)
      (none : ∀ j < s.globals.size, s.globals.entry list j = .ok 0) :
      ∑ j ∈ Finset.range s.globals.size, (values j).toNat = 0 := by
    refine Finset.sum_eq_zero fun j member => ?_
    obtain ⟨_, same, _, zero⟩ := entry_eq_ok.mp (none j (Finset.mem_range.mp member))
    cases lists.symm.trans same
    rw [zero]
    rfl
  obtain ⟨going, lists, _⟩ := entry_eq_ok.mp (entries 0 positive).1
  have nobodyRides : boarded s = 0 := by
    rw [← (inv.going_sum lists).2, zero lists fun j small => (entries j small).1]
  -- so the elevator is empty, and the test of `waiting_list` counts
  have room : s.globals.room ≠ 0 := by
    intro full
    have books := inv.books.room
    rw [nobodyRides, full] at books
    cases books
  obtain ⟨waiting, lists', _⟩ := entry_eq_ok.mp ((entries 0 positive).2 room)
  refine ⟨?_, nobodyRides⟩
  rw [← (inv.waiting_sum lists').2, zero lists' fun j small => (entries j small).2 room]

end Sums

/-! ## The acknowledgements -/

theorem answers_cases (answers : place.answers = some c) :
    (∃ address p, place = .passenger address p .waiting ∧ c = passengerInCd) ∨
      ∃ address p, place = .passenger address p .riding ∧ c = passengerOutCd := by
  cases place with
  | elsewhere | elevator place => cases answers
  | passenger address p here => cases here <;> cases answers <;> simp

def Announced (c : Nat) : Prop := c = passengerInCd ∨ c = passengerOutCd

instance : DecidablePred Announced := fun c =>
  inferInstanceAs (Decidable (c = passengerInCd ∨ c = passengerOutCd))

def Silent (routine : Option Routine) : Prop :=
  ∀ c, Announced c → ∀ l, routine ≠ some (.signal c l) ∧ routine ≠ some (.broadcast c l)

theorem silent_of_ne {routine : Option Routine}
    (other : ∀ c l, routine ≠ some (.signal c l) ∧ routine ≠ some (.broadcast c l)) :
    Silent routine :=
  fun c _ l => other c l

theorem silent_signal {c l : Nat} (other : ¬ Announced c) : Silent (some (.signal c l)) := by
  intro d announced m
  refine ⟨fun same => ?_, by simp⟩
  cases same
  exact other announced

theorem answers_announced (answers : place.answers = some c) : Announced c := by
  obtain ⟨_, _, _, rfl⟩ | ⟨_, _, _, rfl⟩ := answers_cases answers
  · exact .inl rfl
  · exact .inr rfl

theorem answers_inside (answers : place.answers = some c) : place.stage ≠ .outside := by
  obtain ⟨_, _, rfl, _⟩ | ⟨_, _, rfl, _⟩ := answers_cases answers <;>
    simp [Place.stage, PassengerPlace.stage]

theorem woken_congr (position : s'.position t = s.position t) (queues : ∀ c, Announced c →
      (t ∈ s'.threads.queue (.condition c) ↔ t ∈ s.threads.queue (.condition c))) :
    Woken s t ↔ Woken s' t := by
  unfold Woken
  rw [position]
  exact exists_congr fun c => and_congr_right fun answers =>
    not_congr (queues c (answers_announced answers)).symm

theorem Woken.created (woken : Woken s t)
    (disciplined : Disciplined elevatorLk s.threads fun t => (s.position t).stage) :
    t < s.threads.created := by
  obtain ⟨c, answers, _⟩ := woken
  exact disciplined.created t (answers_inside answers)

section Acknowledging

variable {place : Place} {threads : Threads} {globals : Building} {routine : Option Routine}
  (disciplined : Disciplined elevatorLk s.threads fun t => (s.position t).stage)
  (user : s.threads.InUser) (performed : s.threads.perform routine = .ok threads)

include disciplined user

theorem woken_here : Woken s s.threads.currentThread ↔ s.here.answers ≠ none := by
  have running := disciplined.placement.awake user.1
  constructor
  · rintro ⟨c, answers, _⟩ none
    cases answers.symm.trans none
  · intro some
    obtain ⟨c, answers⟩ := Option.ne_none_iff_exists'.mp some
    exact ⟨c, answers, running.nowhere _⟩

include performed

section

variable (place : Place) (globals : Building)

theorem woken_change (others : ∀ u, u ≠ s.threads.currentThread →
      (Woken s u ↔ Woken (s.goTo place threads globals) u)) :
    woken (s.goTo place threads globals) + (if Woken s s.threads.currentThread then 1 else 0) =
      woken s +
        (if Woken (s.goTo place threads globals) s.threads.currentThread then 1 else 0) := by
  have running := (disciplined.placement.awake user.1).alive.1
  have grown : woken (s.goTo place threads globals) =
      Nat.count (Woken (s.goTo place threads globals)) s.threads.created := by
    refine count_grow (perform_created user performed) fun u new answers => ?_
    have other : u ≠ s.threads.currentThread := by omega
    have known := ((others u other).mpr answers).created disciplined
    omega
  rw [grown]
  exact count_change running others

omit disciplined in
theorem woken_others (kept : Silent routine) {u : Nat} (other : u ≠ s.threads.currentThread) :
    Woken s u ↔ Woken (s.goTo place threads globals) u :=
  woken_congr (Programs.goTo_position_of_ne other) fun c announced =>
    perform_condition_others user performed other (kept c announced)

theorem woken_goTo (kept : Silent routine) :
    woken (s.goTo place threads globals) + (if s.here.answers ≠ none then 1 else 0) =
      woken s +
        (if Woken (s.goTo place threads globals) s.threads.currentThread then 1 else 0) := by
  have changed := woken_change disciplined user performed place globals fun u other =>
    woken_others user performed place globals kept other
  simpa only [woken_here disciplined user] using changed

/-- A thread that goes to a place where it has to answer is asleep there. -/
theorem not_woken_goTo (now : ∀ c, place.answers = some c →
      routine = some (.wait c elevatorLk) ∧ s.here.stage ≠ .outside) :
    ¬ Woken (s.goTo place threads globals) s.threads.currentThread := by
  rintro ⟨c, answers, left⟩
  rw [Programs.goTo_position_self] at answers
  obtain ⟨rfl, inside⟩ := now c answers
  refine left ?_
  show s.threads.currentThread ∈ threads.queue (.condition c)
  rw [wait_queue (disciplined.holds user inside) performed]
  exact List.mem_append_right _ (List.mem_singleton_self _)

theorem woken_from (kept : Silent routine) (now : ∀ c, place.answers = some c →
      routine = some (.wait c elevatorLk) ∧ s.here.stage ≠ .outside) {u : Nat}
    (answers : Woken (s.goTo place threads globals) u) :
    u ≠ s.threads.currentThread ∧ Woken s u := by
  have other : u ≠ s.threads.currentThread := by
    rintro rfl
    exact not_woken_goTo disciplined user performed place globals now answers
  exact ⟨other, (woken_others user performed place globals kept other).mpr answers⟩

theorem woken_stay (kept : Silent routine) (was : s.here.answers = none)
    (now : ∀ c, place.answers = some c →
      routine = some (.wait c elevatorLk) ∧ s.here.stage ≠ .outside) :
    woken (s.goTo place threads globals) = woken s := by
  have moved := woken_goTo disciplined user performed place globals kept
  simpa [was, not_woken_goTo disciplined user performed place globals now] using moved

end

omit performed

section

variable (place : Place) (globals : Building)
  (sent : s.threads.perform (some (.broadcast c elevatorLk)) = .ok threads)
  (inside : s.here.stage ≠ .outside) (quiet : woken s = 0) (was : s.here.answers = none)
  (now : place.answers = none)

include sent inside quiet was now

/-- After a broadcast the passengers that wait for the condition are the woken ones. -/
theorem woken_broadcast_iff (u : Nat) :
    Woken (s.goTo place threads globals) u ↔ (s.position u).answers = some c := by
  have taken : ThreadStep s.threads (.call (.broadcast c elevatorLk)) threads := .call user sent
  have empty : threads.queue (.condition c) = [] := by
    cases sent
    exact broadcast_queue (disciplined.holds user inside)
  have nobody : ¬ Woken s u := fun answers =>
    Nat.count_iff_forall_not.mp quiet u (answers.created disciplined) answers
  by_cases same : u = s.threads.currentThread
  · subst same
    have here : (s.position s.threads.currentThread).answers = none := was
    simp [Woken, now, here]
  · unfold Woken
    rw [Programs.goTo_position_of_ne same]
    constructor
    · rintro ⟨d, answers, left⟩
      by_cases again : d = c
      · exact again ▸ answers
      · refine absurd ⟨d, answers, fun member => left ?_⟩ nobody
        have different : c ≠ d := fun same => again same.symm
        show u ∈ threads.queue (.condition d)
        rw [taken.condition_same (c := d) fun l => by simp [different]]
        exact member
    · intro answers
      refine ⟨c, answers, ?_⟩
      show u ∉ threads.queue (.condition c)
      rw [empty]
      exact List.not_mem_nil

theorem woken_broadcast :
    woken (s.goTo place threads globals) =
      Nat.count (fun t => (s.position t).answers = some c) s.threads.created := by
  have answering :=
    woken_broadcast_iff disciplined user place globals sent inside quiet was now
  have grown : woken (s.goTo place threads globals) =
      Nat.count (Woken (s.goTo place threads globals)) s.threads.created := by
    refine count_grow (perform_created user sent) fun u new answers => ?_
    have known := disciplined.created u (answers_inside ((answering u).mp answers))
    omega
  rw [grown]
  exact count_congr fun u _ => answering u

end

end Acknowledging

theorem Phase.congr {place : ElevatorPlace} (phase : Phase s place)
    (count : s'.globals.broadcastCount = s.globals.broadcastCount) (same : woken s' = woken s)
    (queue : theElevator ∈ s'.threads.queue (.condition finishBroadcastCd) ↔
      theElevator ∈ s.threads.queue (.condition finishBroadcastCd)) : Phase s' place := by
  cases place with
  | lettingOut | lettingIn =>
    show _ = _
    rw [count, same]
    exact phase
  | letOut | letIn =>
    show _ ∧ (_ ↔ _)
    rw [count, same, queue]
    exact phase
  | start | activating | activated | yielding | looping | searching | closed =>
    show _ = _
    rw [same]
    exact phase

/-! ## The elevator runs -/

section ElevatorStatement

variable {g g' : Building} {place place' : ElevatorPlace} {routine : Option Routine}

theorem ElevatorRuns.books {threads : Threads} {globals : Building} (inv : Inv s)
    (user : s.threads.InUser) (here : s.here = .elevator place)
    (runs : ElevatorRuns s.globals place globals routine place')
    (opened : s.globals.direction ≠ .close)
    (performed : s.threads.perform routine = .ok threads) :
    Books (s.goTo (.elevator place') threads globals) := by
  obtain ⟨maxFloors, _, room⟩ := runs.frame
  have direction := runs.direction opened
  cases runs.lists with
  | inl kept =>
    obtain ⟨waiting, going, stays⟩ := kept
    refine inv.books.quiet inv.disciplined user performed _ globals maxFloors waiting going room
      ?_ (fun n => by rw [here]; rfl) fun n => by rw [here]; rfl
    simp [direction, stays, opened]
  | inr closed =>
    obtain ⟨waiting, going, closes, nobody⟩ := closed
    obtain ⟨nobodyWaits, nobodyRides⟩ := inv.nobody nobody
    have waiters : registered (s.goTo (.elevator place') threads globals) = 0 := by
      simpa [here, Place.waitsAt, nobodyWaits] using
        registered_goTo inv.disciplined user performed (.elevator place') globals maxFloors
    have riders : boarded (s.goTo (.elevator place') threads globals) = 0 := by
      simpa [here, Place.ridesTo, nobodyRides] using
        boarded_goTo inv.disciplined user performed (.elevator place') globals maxFloors
    refine ⟨fun list lists => ?_, fun list lists => ?_, ?_, fun _ => ⟨waiting, going, waiters, riders⟩,
      fun opened => absurd (direction.mpr closes) opened⟩
    · cases waiting.symm.trans lists
    · cases going.symm.trans lists
    · have before := inv.books.room
      rw [riders]
      rw [nobodyRides] at before
      exact room ▸ before

variable {threads : Threads} {globals : Building}

theorem Inv.pending (inv : Inv s) (here : s.position theElevator = .elevator place)
    (waited : place = .letOut ∨ place = .letIn) : s.globals.broadcastCount.toNat = woken s ∧
      (theElevator ∈ s.threads.queue (.condition finishBroadcastCd) ↔
        s.globals.broadcastCount ≠ 0) := by
  have phase := inv.phase place here
  obtain rfl | rfl := waited <;> exact phase

theorem Inv.all_answered (inv : Inv s) (user : s.threads.InUser)
    (here : s.position theElevator = .elevator place) (current : s.threads.currentThread = theElevator)
    (waited : place = .letOut ∨ place = .letIn) :
    s.globals.broadcastCount = 0 ∧ woken s = 0 := by
  obtain ⟨count, queued⟩ := inv.pending here waited
  have away : theElevator ∉ s.threads.queue (.condition finishBroadcastCd) :=
    current ▸ (inv.disciplined.placement.awake user.1).nowhere _
  have zero : s.globals.broadcastCount = 0 := by
    by_contra pending
    exact away (queued.mpr pending)
  refine ⟨zero, ?_⟩
  rw [← count, zero]
  rfl

section

variable (inv : Inv s) (user : s.threads.InUser)
  (here : s.position s.threads.currentThread = .elevator place) (inside : place.stage ≠ .outside)

include inv user here inside

/-- With the lock, the elevator finds all passengers in their lists. -/
theorem Inv.none_inside {address : BitVec 32} {p : Passenger} {there : PassengerPlace}
    (position : s.position t = .passenger address p there) : there.stage ≠ .inside := by
  intro acts
  have holder : s.threads.lockHolder elevatorLk = some s.threads.currentThread :=
    inv.disciplined.holds user (by rw [here]; exact inside)
  have stands := inv.disciplined.stands t
  rw [position, show (Place.passenger address p there).stage = .inside from acts] at stands
  cases Option.some.inj (stands.symm.trans holder)
  cases position.symm.trans here

/-- The passengers that are counted are those that answer. -/
theorem Inv.counted (t : Nat) :
    ((s.position t).answers = some passengerOutCd ↔
      ((s.position t).ridesTo s.globals.maxFloors).isSome = true) ∧
    ((s.position t).answers = some passengerInCd ↔
      ((s.position t).waitsAt s.globals.maxFloors).isSome = true) := by
  cases position : s.position t with
  | elsewhere | elevator place => simp [Place.answers, Place.ridesTo, Place.waitsAt]
  | passenger address p there =>
    have outside := inv.none_inside user here inside position
    cases there with
    | entering | leaving => exact absurd rfl outside
    | start | arriving | registering | waiting | riding | out | gone | refused =>
      simp [Place.answers, Place.ridesTo, Place.waitsAt, passengerInCd, passengerOutCd]

end

theorem Inv.capacity_sub_room (inv : Inv s) : (capacity - s.globals.room).toNat = boarded s := by
  have room := inv.books.room
  have below : s.globals.room ≤ capacity := BitVec.le_def.mpr (by omega)
  rw [BitVec.toNat_sub_of_le below]
  omega

theorem Phase.nobody (phase : Phase s place) (silent : place.announces = none) : woken s = 0 := by
  cases place with
  | start | activating | activated | yielding | looping | searching | closed => exact phase
  | lettingOut | letOut | lettingIn | letIn => cases silent

section

variable (inv : Inv s) (user : s.threads.InUser)
  (here : s.position theElevator = .elevator place) (current : s.threads.currentThread = theElevator)
  (runs : ElevatorRuns s.globals place globals routine place')
  (performed : s.threads.perform routine = .ok threads)

include inv user here current runs performed

theorem ElevatorRuns.phase :
    Phase (s.goTo (.elevator place') threads globals) place' := by
  have here' : s.here = .elevator place := by rw [Programs.here, current, here]
  have was : s.here.answers = none := by rw [here']; rfl
  have phase := inv.phase place here
  have away : theElevator ∉ s.threads.queue (.condition finishBroadcastCd) :=
    current ▸ (inv.disciplined.placement.awake user.1).nowhere _
  have stays : Silent routine → woken (s.goTo (.elevator place') threads globals) = woken s :=
    fun silent => woken_stay inv.disciplined user performed _ globals silent was
      fun c answers => by cases answers
  cases runs with
  | start | loops | begins | yields => exact (stays (silent_of_ne (by simp))).trans phase
  | activate => exact (stays (silent_signal (by decide))).trans phase
  | leaves =>
    exact (stays (silent_of_ne (by simp))).trans (inv.all_answered user here current (.inr rfl)).2
  | serves serves =>
    cases serves with
    | close | moves => exact (stays (silent_of_ne (by simp))).trans phase
    | opens =>
      show (capacity - s.globals.room).toNat = _
      rw [inv.capacity_sub_room, woken_broadcast inv.disciplined user _ _ performed
        (by rw [here']; simp [Place.stage, ElevatorPlace.stage]) phase was rfl]
      exact count_congr fun t _ => (inv.counted user here' (by simp [ElevatorPlace.stage]) t).1.symm
  | waitOut pending | waitIn pending =>
    have holder : s.threads.lockHolder elevatorLk = some s.threads.currentThread :=
      inv.disciplined.holds user (by
        show s.here.stage ≠ _
        rw [here']
        simp [Place.stage, ElevatorPlace.stage])
    refine ⟨phase.trans (stays (silent_of_ne (by simp))).symm, fun _ => pending, fun _ => ?_⟩
    show theElevator ∈ threads.queue _
    rw [wait_queue holder performed, current]
    exact List.mem_append_right _ (List.mem_singleton_self _)
  | passOut nobody | passIn nobody =>
    refine ⟨phase.trans (stays (silent_of_ne (by simp))).symm, fun member => ?_,
      fun pending => absurd nobody pending⟩
    cases performed
    exact absurd member away
  | @letsIn count sum =>
    have quiet := (inv.all_answered user here current (.inl rfl)).2
    have opened : s.globals.direction ≠ .close := fun closed => by
      cases here.symm.trans (inv.closes.mp closed)
    obtain ⟨list, lists⟩ := Option.ne_none_iff_exists'.mp (inv.books.kept opened).1
    have total := (inv.waiting_sum lists).2
    have counted : count.toNat = registered s := by
      rw [sumOfWaiting_eq lists sum, toNat_sum (total ▸ inv.registered_lt), total]
    show count.toNat = _
    rw [counted, woken_broadcast inv.disciplined user _ _ performed
      (by rw [here']; simp [Place.stage, ElevatorPlace.stage]) quiet was rfl]
    exact count_congr fun t _ => (inv.counted user here' (by simp [ElevatorPlace.stage]) t).2.symm

theorem ElevatorRuns.kind
    (disciplined : Disciplined elevatorLk threads fun t =>
      ((s.goTo (.elevator place') threads globals).position t).stage)
    (answers : Woken (s.goTo (.elevator place') threads globals) t) :
    ((s.goTo (.elevator place') threads globals).position t).answers = place'.announces := by
  have here' : s.here = .elevator place := by rw [Programs.here, current, here]
  have was : s.here.answers = none := by rw [here']; rfl
  have phase := inv.phase place here
  have known := answers.created disciplined
  have silent : place'.announces = none → False := fun silent =>
    Nat.count_iff_forall_not.mp ((runs.phase inv user here current performed).nobody silent) t known
      answers
  -- the broadcast goes on
  have still : Silent routine → place'.announces = place.announces →
      ((s.goTo (.elevator place') threads globals).position t).answers = place'.announces := by
    intro silent same
    obtain ⟨other, before⟩ := woken_from inv.disciplined user performed _ globals silent
      (fun c answers => by cases answers) answers
    rw [Programs.goTo_position_of_ne other, same]
    exact inv.kind t before place here
  have announced : ∀ c, routine = some (.broadcast c elevatorLk) → place.stage ≠ .outside →
      woken s = 0 → ((s.goTo (.elevator place') threads globals).position t).answers = some c := by
    rintro c rfl inside quiet
    have waits := (woken_broadcast_iff inv.disciplined user _ globals performed
      (by rw [here']; exact inside) quiet was rfl t).mp answers
    have other : t ≠ s.threads.currentThread := by
      rintro rfl
      cases was.symm.trans waits
    rw [Programs.goTo_position_of_ne other]
    exact waits
  cases runs with
  | start | activate | begins | yields | loops | leaves => exact (silent rfl).elim
  | serves serves =>
    cases serves with
    | close | moves => exact (silent rfl).elim
    | opens => exact announced _ rfl (by simp [ElevatorPlace.stage]) phase
  | waitOut | passOut | waitIn | passIn => exact still (silent_of_ne (by simp)) rfl
  | letsIn =>
    exact announced _ rfl (by simp [ElevatorPlace.stage])
      (inv.all_answered user here current (.inl rfl)).2

end

theorem Inv.elevator_step (inv : Inv s) (user : s.threads.InUser)
    (here : s.here = .elevator place) (runs : ElevatorRuns s.globals place globals routine place')
    (performed : s.threads.perform routine = .ok threads) :
    Inv (s.goTo (.elevator place') threads globals) := by
  have current : s.threads.currentThread = theElevator := inv.alone _ place here
  have position : s.position theElevator = .elevator place := current ▸ here
  obtain ⟨maxFloors, passengers, room⟩ := runs.frame
  have opened : s.globals.direction ≠ .close := by
    intro closed
    cases position.symm.trans (inv.closes.mp closed)
    cases runs
  have others : ∀ t, t ≠ theElevator →
      (s.goTo (.elevator place') threads globals).position t = s.position t :=
    fun t other => Programs.goTo_position_of_ne (current ▸ other)
  have own : (s.goTo (.elevator place') threads globals).position theElevator = .elevator place' := by
    rw [← current]
    exact Programs.goTo_position_self
  have passenger : ∀ {t address p there},
      (s.goTo (.elevator place') threads globals).position t = .passenger address p there →
        s.position t = .passenger address p there := by
    intro t address p there found
    by_cases same : t = theElevator
    · subst same
      cases own.symm.trans found
    · exact others t same ▸ found
  have disciplined : Disciplined elevatorLk threads fun t =>
      ((s.goTo (.elevator place') threads globals).position t).stage := by
    rw [Programs.stage_goTo Place.stage]
    refine inv.disciplined.perform user ?_ performed
    show Moves elevatorLk routine s.here.stage _
    rw [here]
    exact runs.moves
  refine ⟨?_, ?_, Nat.lt_of_lt_of_le inv.hired (perform_created user performed), ⟨place', own⟩,
    fun t there found => ?_, fun t address p there found => ?_,
    ⟨maxFloors ▸ inv.floors.1, runs.floors inv.floors.2⟩, ⟨?_, ?_, ?_⟩,
    runs.books inv user here opened performed, ?_, fun there found => ?_,
    fun t answers there found => ?_⟩
  · exact disciplined
  · exact inv.blocked.advance inv.disciplined.placement user performed
      fun c l _ calls => runs.waits calls
  · by_contra other
    exact other (inv.alone t there (others t other ▸ found))
  · exact maxFloors ▸ inv.valid t address p there (passenger found)
  · exact passengers ▸ inv.heap.distinct
  · intro t address p there found live
    exact passengers ▸ inv.heap.live t address p there (passenger found) live
  · intro t u address p q there there' found found'
    exact inv.heap.own t u address p q there there' (passenger found) (passenger found')
  · rw [own]
    exact (runs.direction opened).trans (by simp)
  · cases own.symm.trans found
    exact runs.phase inv user position current performed
  · cases own.symm.trans found
    exact runs.kind inv user position current performed disciplined answers

end ElevatorStatement

/-! ## A passenger runs -/

section PassengerStatement

variable {g g' : Building} {address : BitVec 32} {p : Passenger} {place place' : PassengerPlace}
  {routine : Option Routine} {threads : Threads} {globals : Building}

theorem PassengerRuns.books (inv : Inv s) (user : s.threads.InUser)
    (here : s.here = .passenger address p place)
    (runs : PassengerRuns s.globals address p place globals routine place')
    (performed : s.threads.perform routine = .ok threads) :
    Books (s.goTo (.passenger address p place') threads globals) := by
  have books := inv.books
  cases runs with
  | start | waits | refused | finds | again | rides | deletes =>
    exact books.quiet inv.disciplined user performed _ _ rfl rfl rfl rfl Iff.rfl
      (fun n => by rw [here]; rfl) fun n => by rw [here]; rfl
  | acknowledges acts =>
    refine books.quiet inv.disciplined user performed _ _ rfl rfl rfl rfl Iff.rfl
      (fun n => ?_) fun n => ?_ <;> rw [here] <;> obtain ⟨rfl, rfl⟩ | ⟨rfl, rfl⟩ := acts <;> rfl
  | registers lists =>
    obtain ⟨going, lists'⟩ := Option.ne_none_iff_exists'.mp fun none => by
      simp [books.both.mpr none] at lists
    refine books.moved inv.disciplined user performed _ _ rfl rfl lists lists' rfl lists' ?_ ?_ ?_ <;>
      rw [here]
    · exact .join
    · exact .stay rfl
    · rfl
  | boards space lists =>
    refine books.moved inv.disciplined user performed _ _ rfl rfl lists.1 lists.2 rfl rfl ?_ ?_ ?_ <;>
      rw [here]
    · exact .leave
    · exact .join
    · have positive : 0 < s.globals.room.toNat := space
      show (s.globals.room - 1).toNat + 1 = s.globals.room.toNat
      rw [BitVec.toNat_sub_of_le (BitVec.le_def.mpr (by exact positive))]
      exact Nat.sub_add_cancel positive
  | leaves there lists =>
    obtain ⟨waiting, lists'⟩ := Option.ne_none_iff_exists'.mp fun none => by
      simp [books.both.mp none] at lists
    refine books.moved inv.disciplined user performed _ _ rfl rfl lists' lists lists' rfl ?_ ?_ ?_ <;>
      rw [here]
    · exact .stay rfl
    · exact .leave
    · have small : s.globals.room.toNat ≤ capacity.toNat := books.room ▸ Nat.le_add_right ..
      show (s.globals.room + 1).toNat = s.globals.room.toNat + 1
      rw [BitVec.toNat_add]
      exact Nat.mod_eq_of_lt (Nat.lt_of_le_of_lt (Nat.succ_le_succ small) (by decide))

/-- A passenger wakes no other one, and goes to sleep where it will have to answer. -/
theorem PassengerRuns.silent (runs : PassengerRuns g address p place g' routine place') :
    Silent routine ∧ ∀ c, (Place.passenger address p place').answers = some c →
      routine = some (.wait c elevatorLk) ∧ place.stage ≠ .outside := by
  cases runs with
  | start | waits | refused | finds | leaves | deletes =>
    exact ⟨silent_of_ne (by simp), fun c answers => by cases answers⟩
  | registers | boards | again | rides =>
    refine ⟨silent_of_ne (by simp), fun c answers => ?_⟩
    cases answers
    exact ⟨rfl, by simp [PassengerPlace.stage]⟩
  | acknowledges acts =>
    refine ⟨?_, fun c answers => ?_⟩
    · split
      next => exact silent_signal (by decide)
      next => exact silent_of_ne (by simp)
    · obtain ⟨_, rfl⟩ | ⟨_, rfl⟩ := acts <;> cases answers

/-- A passenger that does not answer leaves `broadcast_count` and the elevator alone. -/
theorem PassengerRuns.apart (runs : PassengerRuns g address p place g' routine place')
    (quiet : place ≠ .waiting ∧ place ≠ .riding) : g'.broadcastCount = g.broadcastCount ∧
      ∀ call, routine = some call → (ThreadEvent.call call).ApartFrom finishBroadcastCd := by
  cases runs with
  | start | waits | refused | finds | registers | boards | again | leaves | rides | deletes =>
    simp [ThreadEvent.ApartFrom, elevatorActiveCd, passengerInCd, passengerOutCd, finishBroadcastCd]
  | acknowledges acts =>
    obtain ⟨rfl, _⟩ | ⟨rfl, _⟩ := acts
    · exact absurd rfl quiet.1
    · exact absurd rfl quiet.2

theorem Inv.finish_queue (inv : Inv s)
    (member : theElevator ∈ s.threads.queue (.condition finishBroadcastCd)) :
    s.threads.queue (.condition finishBroadcastCd) = [theElevator] := by
  have all : ∀ t ∈ s.threads.queue (.condition finishBroadcastCd), t = theElevator := by
    intro t found
    have waits := inv.blocked finishBroadcastCd (Nat.le_refl _) t found
    cases position : s.position t with
    | elsewhere => simp [position, Place.waitsFor] at waits
    | elevator place => exact inv.alone t place position
    | passenger address p place => cases place <;> simp [position, Place.waitsFor] at waits <;> cases waits
  obtain ⟨where', located⟩ := inv.disciplined.placement.located theElevator
  cases located.eq_of_mem member
  have once := located.1
  rw [List.eq_replicate_of_mem all] at once ⊢
  rw [List.count_replicate_self] at once
  rw [once]
  rfl

section

variable (inv : Inv s) (user : s.threads.InUser) (here : s.here = .passenger address p place)
  (position : s.position theElevator = .elevator there)

include inv user here position

/-- The passenger takes one from the count; the last one wakes the elevator. -/
theorem Inv.acknowledge
    (acts : (place = .waiting ∧ place' = .entering) ∨ (place = .riding ∧ place' = .leaving))
    (performed : s.threads.perform (if s.globals.broadcastCount - 1 = 0 then some (.signal
      finishBroadcastCd elevatorLk) else none) = .ok threads) :
    Phase (s.goTo (.passenger address p place') threads
      { s.globals with broadcastCount := s.globals.broadcastCount - 1 }) there := by
  have answers : s.here.answers ≠ none := by
    rw [here]
    obtain ⟨rfl, _⟩ | ⟨rfl, _⟩ := acts <;> simp [Place.answers]
  have inside : s.here.stage ≠ .outside := by
    rw [here]
    obtain ⟨rfl, _⟩ | ⟨rfl, _⟩ := acts <;> simp [Place.stage, PassengerPlace.stage]
  have holder := inv.disciplined.holds user inside
  have silent : Silent (if s.globals.broadcastCount - 1 = 0 then
      some (.signal finishBroadcastCd elevatorLk) else none) := by
    split
    next => exact silent_signal (by decide)
    next => exact silent_of_ne (by simp)
  have fewer : ∀ globals : Building,
      woken (s.goTo (.passenger address p place') threads globals) + 1 = woken s := by
    intro globals
    have moved := woken_goTo inv.disciplined user performed (.passenger address p place') globals
      silent
    have done : ¬ Woken (s.goTo (.passenger address p place') threads globals)
        s.threads.currentThread := by
      rintro ⟨c, answers, _⟩
      rw [Programs.goTo_position_self] at answers
      obtain ⟨_, rfl⟩ | ⟨_, rfl⟩ := acts <;> cases answers
    simpa [answers, done] using moved
  have phase := inv.phase there position
  -- somebody is woken, and the elevator does not have the lock: it is in `Wait`
  have waits : there = .letOut ∨ there = .letIn := by
    have somebody := fewer s.globals
    cases there with
    | letOut => exact .inl rfl
    | letIn => exact .inr rfl
    | lettingOut | lettingIn =>
      have stands := inv.disciplined.stands theElevator
      rw [position] at stands
      have same : s.threads.currentThread = theElevator :=
        Option.some.inj (holder.symm.trans stands)
      have here : s.position s.threads.currentThread = .passenger address p place := here
      rw [same, position] at here
      cases here
    | start | activating | activated | yielding | looping | searching | closed =>
      have nobody : woken s = 0 := phase
      omega
  have counted := inv.pending position waits
  have positive : 0 < s.globals.broadcastCount.toNat := by
    have somebody := fewer s.globals
    omega
  have lowered : (s.globals.broadcastCount - 1).toNat = s.globals.broadcastCount.toNat - 1 := by
    rw [BitVec.toNat_sub_of_le (BitVec.le_def.mpr (by exact positive))]
    rfl
  have queue := inv.finish_queue (counted.2.mpr fun zero => by simp [zero] at positive)
  have result : (s.globals.broadcastCount - 1).toNat =
      woken (s.goTo (.passenger address p place') threads
        { s.globals with broadcastCount := s.globals.broadcastCount - 1 }) ∧
      (theElevator ∈ threads.queue (.condition finishBroadcastCd) ↔
        s.globals.broadcastCount - 1 ≠ 0) := by
    constructor
    · rw [lowered, counted.1, ← fewer { s.globals with
        broadcastCount := s.globals.broadcastCount - 1 }, Nat.add_sub_cancel]
    · by_cases last : s.globals.broadcastCount - 1 = 0
      · rw [if_pos last] at performed
        cases performed
        rw [signal_queue holder, queue]
        exact ⟨fun member => absurd member List.not_mem_nil, fun more => absurd last more⟩
      · rw [if_neg last] at performed
        cases performed
        rw [queue]
        exact ⟨fun _ => last, fun _ => List.mem_singleton_self _⟩
  obtain rfl | rfl := waits <;> exact result

variable (runs : PassengerRuns s.globals address p place globals routine place')
  (performed : s.threads.perform routine = .ok threads)

include runs performed

theorem PassengerRuns.phase :
    Phase (s.goTo (.passenger address p place') threads globals) there := by
  by_cases quiet : place ≠ .waiting ∧ place ≠ .riding
  · obtain ⟨silent, now⟩ := runs.silent
    obtain ⟨count, apart⟩ := runs.apart quiet
    have was : s.here.answers = none := by
      rw [here]
      cases place with
      | waiting => exact absurd rfl quiet.1
      | riding => exact absurd rfl quiet.2
      | start | arriving | registering | entering | leaving | out | gone | refused => rfl
    refine (inv.phase there position).congr count ?_ ?_
    · exact woken_stay inv.disciplined user performed _ globals silent was fun c answers =>
        ⟨(now c answers).1, by rw [here]; exact (now c answers).2⟩
    · show theElevator ∈ threads.queue _ ↔ _
      rw [perform_condition_same user performed apart]
  · cases runs with
    | acknowledges acts => exact inv.acknowledge user here position acts performed
    | start | waits | refused | finds | registers | boards | again | leaves | rides | deletes =>
      exact absurd ⟨by simp, by simp⟩ quiet

theorem PassengerRuns.kind
    (answers : Woken (s.goTo (.passenger address p place') threads globals) t) :
    ((s.goTo (.passenger address p place') threads globals).position t).answers =
      there.announces := by
  obtain ⟨silent, now⟩ := runs.silent
  obtain ⟨other, before⟩ := woken_from inv.disciplined user performed _ globals silent
    (fun c answers => ⟨(now c answers).1, by rw [here]; exact (now c answers).2⟩) answers
  rw [Programs.goTo_position_of_ne other]
  exact inv.kind t before there position

end

theorem PassengerRuns.heap (inv : Inv s) (here : s.here = .passenger address p place)
    (live : ∀ floor, place ≠ .gone floor)
    (runs : PassengerRuns s.globals address p place globals routine place') :
    Heap (s.goTo (.passenger address p place') threads globals) := by
  have heap := inv.heap
  have passenger : ∀ {t a q there},
      (s.goTo (.passenger address p place') threads globals).position t = .passenger a q there →
        (∀ floor, there ≠ .gone floor) → ∃ there', s.position t = .passenger a q there' ∧
          ∀ floor, there' ≠ .gone floor := by
    intro t a q there found notGone
    by_cases same : t = s.threads.currentThread
    · subst same
      rw [Programs.goTo_position_self] at found
      cases found
      exact ⟨place, here, live⟩
    · rw [Programs.goTo_position_of_ne same] at found
      exact ⟨there, found, notGone⟩
  have own : ∀ t u a q r there there',
      (s.goTo (.passenger address p place') threads globals).position t = .passenger a q there →
      (s.goTo (.passenger address p place') threads globals).position u = .passenger a r there' →
      (∀ floor, there ≠ .gone floor) → (∀ floor, there' ≠ .gone floor) → t = u := by
    intro t u a q r there there' found found' notGone notGone'
    obtain ⟨before, position, stays⟩ := passenger found notGone
    obtain ⟨before', position', stays'⟩ := passenger found' notGone'
    exact heap.own t u a q r before before' position position' stays stays'
  by_cases deletes : ∃ floor, place' = .gone floor
  · obtain ⟨floor, rfl⟩ := deletes
    cases runs with
    | acknowledges acts => obtain ⟨_, gone⟩ | ⟨_, gone⟩ := acts <;> cases gone
    | deletes =>
      refine ⟨?_, fun t a q there found notGone => ?_, own⟩
      · exact heap.distinct.sublist (List.erase_sublist.cons_cons 0)
      · obtain ⟨before, position, stays⟩ := passenger found notGone
        refine (List.mem_erase_of_ne ?_).mpr (heap.live t a q before position stays)
        rintro rfl
        have same := heap.own t s.threads.currentThread a q p before (.out floor) position here stays
          (by simp)
        subst same
        rw [Programs.goTo_position_self] at found
        cases found
        exact notGone floor rfl
  · have passengers : globals.passengers = s.globals.passengers := by
      cases runs with
      | deletes => exact absurd ⟨_, rfl⟩ deletes
      | start | waits | refused | finds | registers | acknowledges | boards | again | leaves
      | rides => rfl
    refine ⟨passengers ▸ heap.distinct, fun t a q there found notGone => ?_, own⟩
    obtain ⟨before, position, stays⟩ := passenger found notGone
    exact passengers ▸ heap.live t a q before position stays

theorem Inv.passenger_step (inv : Inv s) (user : s.threads.InUser)
    (here : s.here = .passenger address p place) (live : ∀ floor, place ≠ .gone floor)
    (runs : PassengerRuns s.globals address p place globals routine place')
    (performed : s.threads.perform routine = .ok threads) :
    Inv (s.goTo (.passenger address p place') threads globals) := by
  obtain ⟨maxFloors, currentFloor, direction⟩ := runs.frame
  obtain ⟨there, position⟩ := inv.elevator
  have other : theElevator ≠ s.threads.currentThread := by
    intro same
    have here : s.position s.threads.currentThread = .passenger address p place := here
    rw [← same, position] at here
    cases here
  have own : (s.goTo (.passenger address p place') threads globals).position theElevator =
      s.position theElevator := Programs.goTo_position_of_ne other
  refine ⟨?_, ?_, Nat.lt_of_lt_of_le inv.hired (perform_created user performed),
    ⟨there, own.trans position⟩, fun t there found => ?_, fun t a q there found => ?_, ?_,
      runs.heap inv here live, runs.books inv user here performed,
    ?_, fun there found => runs.phase inv user here (own.symm.trans found) performed,
    fun t answers there found => runs.kind inv user here (own.symm.trans found) performed answers⟩
  · rw [Programs.stage_goTo Place.stage]
    refine inv.disciplined.perform user ?_ performed
    show Moves elevatorLk routine s.here.stage _
    rw [here]
    exact runs.moves
  · exact inv.blocked.advance inv.disciplined.placement user performed
      fun c l _ calls => runs.waits_for calls
  · by_cases same : t = s.threads.currentThread
    · subst same
      rw [Programs.goTo_position_self] at found
      cases found
    · rw [Programs.goTo_position_of_ne same] at found
      exact inv.alone t there found
  · have valid : q.Valid s.globals.maxFloors := by
      by_cases same : t = s.threads.currentThread
      · subst same
        rw [Programs.goTo_position_self] at found
        cases found
        exact inv.valid _ address p place here
      · rw [Programs.goTo_position_of_ne same] at found
        exact inv.valid t a q there found
    exact maxFloors ▸ valid
  · show _ ∧ _ ∧ _
    rw [show (s.goTo (.passenger address p place') threads globals).globals = globals from rfl,
      maxFloors, currentFloor]
    exact inv.floors
  · rw [own, ← inv.closes, ← direction]
    rfl

end PassengerStatement

end ElevatorSystem

end Nachos
