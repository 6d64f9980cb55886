import Nachos.Lib.Census
import Nachos.Verified.ElevatorCode

/-!
# The books of the elevator

`waiting_list` and `going_list` count the passengers at each floor and in each direction, and
`room` counts the free places.  The entries are `unsigned int`s; there are fewer passengers than
addresses, so they do not wrap around.
-/

namespace Nachos

open Census Loops Threads

variable {n : Nat} {list going : Nat → BitVec 32} {index : Place → Option Nat} {address : BitVec 32}
  {p : Passenger}

namespace ElevatorSystem

variable {s s' : Programs Building Place} {t : Nat}

def number (s : Programs Building Place) (index : Place → Option Nat) : Nat :=
  Nat.count (fun t => (index (s.position t)).isSome = true) s.threads.created

def registered (s : Programs Building Place) : Nat := number s (Place.waitsAt s.globals.maxFloors)

def boarded (s : Programs Building Place) : Nat := number s (Place.ridesTo s.globals.maxFloors)

structure Heap (s : Programs Building Place) : Prop where
  distinct : (0 :: s.globals.passengers).Nodup
  live : ∀ t address p place, s.position t = .passenger address p place →
    (∀ floor, place ≠ .gone floor) → address ∈ s.globals.passengers
  own : ∀ t u address p q place place', s.position t = .passenger address p place →
    s.position u = .passenger address q place' → (∀ floor, place ≠ .gone floor) →
    (∀ floor, place' ≠ .gone floor) → t = u

def Counts (s : Programs Building Place) (list : Nat → BitVec 32) (index : Place → Option Nat) :
    Prop :=
  ∀ j < s.globals.size,
    list j = BitVec.ofNat 32 (Nat.count (fun t => index (s.position t) = some j) s.threads.created)

structure Books (s : Programs Building Place) : Prop where
  waiting : ∀ list, s.globals.waitingList = some list →
    Counts s list (Place.waitsAt s.globals.maxFloors)
  going : ∀ list, s.globals.goingList = some list →
    Counts s list (Place.ridesTo s.globals.maxFloors)
  room : s.globals.room.toNat + boarded s = capacity.toNat
  deleted : s.globals.direction = .close →
    s.globals.waitingList = none ∧ s.globals.goingList = none ∧ registered s = 0 ∧ boarded s = 0
  kept : s.globals.direction ≠ .close →
    s.globals.waitingList ≠ none ∧ s.globals.goingList ≠ none

/-! ## One passenger moves -/

variable {place : Place} {threads : Threads} {globals : Building} {routine : Option Routine}

theorem count_goTo (place : Place) (globals : Building) {P : Place → Prop} [DecidablePred P]
    (inside : ∀ place, P place → place.stage ≠ .outside)
    (disciplined : Disciplined elevatorLk s.threads fun t => (s.position t).stage)
    (user : s.threads.InUser) (performed : s.threads.perform routine = .ok threads) :
    Nat.count (fun t => P ((s.goTo place threads globals).position t)) threads.created +
        (if P s.here then 1 else 0) =
      Nat.count (fun t => P (s.position t)) s.threads.created + (if P place then 1 else 0) := by
  have running := (disciplined.placement.awake user.1).alive.1
  have grown : Nat.count (fun t => P ((s.goTo place threads globals).position t)) threads.created =
      Nat.count (fun t => P ((s.goTo place threads globals).position t)) s.threads.created := by
    refine count_grow (perform_created user performed) fun u new here => ?_
    have other : u ≠ s.threads.currentThread := by omega
    rw [Programs.goTo_position_of_ne other] at here
    have known := disciplined.created u (inside _ here)
    omega
  have changed := count_change (p := fun t => P (s.position t))
    (q := fun t => P ((s.goTo place threads globals).position t)) running fun u other => by
      rw [Programs.goTo_position_of_ne other]
  simp only [Programs.goTo_position_self] at changed
  rw [grown]
  exact changed

theorem waitsAt_cases {j : Nat} (waits : place.waitsAt n = some j) : ∃ address p,
    j = Building.mapFloor n p.direction p.atFloor ∧
      (place = .passenger address p .waiting ∨ place = .passenger address p .entering) := by
  cases place with
  | elsewhere | elevator place => cases waits
  | passenger address p place => cases place <;> cases waits <;> exact ⟨address, p, rfl, by simp⟩

theorem ridesTo_cases {j : Nat} (rides : place.ridesTo n = some j) : ∃ address p,
    j = Building.mapFloor n p.direction p.toFloor ∧
      (place = .passenger address p .riding ∨ place = .passenger address p .leaving) := by
  cases place with
  | elsewhere | elevator place => cases rides
  | passenger address p place => cases place <;> cases rides <;> exact ⟨address, p, rfl, by simp⟩

theorem waitsAt_inside (place : Place) (waits : (place.waitsAt n).isSome = true) :
    place.stage ≠ .outside := by
  obtain ⟨j, waits⟩ := Option.isSome_iff_exists.mp waits
  obtain ⟨_, _, _, rfl | rfl⟩ := waitsAt_cases waits <;> simp [Place.stage, PassengerPlace.stage]

theorem ridesTo_inside (place : Place) (rides : (place.ridesTo n).isSome = true) :
    place.stage ≠ .outside := by
  obtain ⟨j, rides⟩ := Option.isSome_iff_exists.mp rides
  obtain ⟨_, _, _, rfl | rfl⟩ := ridesTo_cases rides <;> simp [Place.stage, PassengerPlace.stage]

theorem Books.both (books : Books s) :
    s.globals.waitingList = none ↔ s.globals.goingList = none := by
  by_cases closed : s.globals.direction = .close
  · simp [books.deleted closed]
  · simp [books.kept closed]

theorem Books.of_open {waiting going : Nat → BitVec 32} (opened : s.globals.direction ≠ .close)
    (lists : s.globals.waitingList = some waiting) (lists' : s.globals.goingList = some going)
    (counts : Counts s waiting (Place.waitsAt s.globals.maxFloors))
    (counts' : Counts s going (Place.ridesTo s.globals.maxFloors))
    (room : s.globals.room.toNat + boarded s = capacity.toNat) : Books s where
  waiting list same := Option.some.inj (lists.symm.trans same) ▸ counts
  going list same := Option.some.inj (lists'.symm.trans same) ▸ counts'
  room := room
  deleted closed := absurd closed opened
  kept _ := ⟨by simp [lists], by simp [lists']⟩

def SameNumbers (s s' : Programs Building Place) (index : Place → Option Nat) : Prop :=
  ∀ (P : Option Nat → Prop) [DecidablePred P], (∀ k, P k → k.isSome = true) →
    Nat.count (fun t => P (index (s'.position t))) s'.threads.created =
      Nat.count (fun t => P (index (s.position t))) s.threads.created

theorem Books.transfer (books : Books s) (maxFloors : s'.globals.maxFloors = s.globals.maxFloors)
    (waiting : s'.globals.waitingList = s.globals.waitingList)
    (going : s'.globals.goingList = s.globals.goingList) (room : s'.globals.room = s.globals.room)
    (direction : s'.globals.direction = .close ↔ s.globals.direction = .close)
    (waiters : SameNumbers s s' (Place.waitsAt s.globals.maxFloors))
    (riders : SameNumbers s s' (Place.ridesTo s.globals.maxFloors)) : Books s' := by
  have entries {list : Nat → BitVec 32} {index : Place → Option Nat}
      (same : SameNumbers s s' index) (counts : Counts s list index) : Counts s' list index := by
    intro j small
    rw [counts j (by simpa only [Building.size, maxFloors] using small)]
    exact congrArg _ (same (· = some j) fun k found => by simp [found]).symm
  have numbers {index : Place → Option Nat} (same : SameNumbers s s' index) :
      number s' index = number s index := same (·.isSome = true) fun k some => some
  refine ⟨fun list lists => ?_, fun list lists => ?_, ?_, fun closed => ?_, fun opened => ?_⟩
  · rw [maxFloors]
    exact entries waiters (books.waiting list (waiting ▸ lists))
  · rw [maxFloors]
    exact entries riders (books.going list (going ▸ lists))
  · rw [boarded, maxFloors, numbers riders, room]
    exact books.room
  · rw [boarded, registered, maxFloors, numbers riders, numbers waiters, waiting, going]
    exact books.deleted (direction.mp closed)
  · rw [waiting, going]
    exact books.kept fun closed => opened (direction.mpr closed)

def Follows (was now : Option Nat) (list list' : Nat → BitVec 32) : Prop :=
  ∀ j, list' j + (if was = some j then 1 else 0) = list j + if now = some j then 1 else 0

theorem Follows.stay {k k' : Option Nat} (same : k = k') : Follows k k' list list :=
  fun j => by rw [same]

theorem Follows.join {i : Nat} : Follows none (some i) list (Function.update list i (list i + 1)) := by
  intro j
  by_cases same : i = j
  · simp [same]
  · simp [same, Function.update_of_ne fun again => same again.symm]

theorem Follows.leave {i : Nat} : Follows (some i) none list (Function.update list i (list i - 1)) := by
  intro j
  by_cases same : i = j
  · simp [same]
  · simp [same, Function.update_of_ne fun again => same again.symm]

section Moving

variable (disciplined : Disciplined elevatorLk s.threads fun t => (s.position t).stage)
  (user : s.threads.InUser) (performed : s.threads.perform routine = .ok threads)

include disciplined user performed

theorem number_goTo (place : Place) (globals : Building)
    (inside : ∀ place, (index place).isSome = true → place.stage ≠ .outside) :
    number (s.goTo place threads globals) index + (if (index s.here).isSome = true then 1 else 0) =
      number s index + (if (index place).isSome = true then 1 else 0) :=
  count_goTo place globals (P := fun place => (index place).isSome = true) inside disciplined user
    performed

theorem boarded_goTo (place : Place) (globals : Building)
    (maxFloors : globals.maxFloors = s.globals.maxFloors) :
    boarded (s.goTo place threads globals) +
        (if (s.here.ridesTo s.globals.maxFloors).isSome = true then 1 else 0) =
      boarded s + (if (place.ridesTo s.globals.maxFloors).isSome = true then 1 else 0) := by
  have moved := number_goTo disciplined user performed place globals
    (ridesTo_inside (n := s.globals.maxFloors))
  simpa only [boarded, Programs.goTo, maxFloors] using moved

theorem registered_goTo (place : Place) (globals : Building)
    (maxFloors : globals.maxFloors = s.globals.maxFloors) :
    registered (s.goTo place threads globals) +
        (if (s.here.waitsAt s.globals.maxFloors).isSome = true then 1 else 0) =
      registered s + (if (place.waitsAt s.globals.maxFloors).isSome = true then 1 else 0) := by
  have moved := number_goTo disciplined user performed place globals
    (waitsAt_inside (n := s.globals.maxFloors))
  simpa only [registered, Programs.goTo, maxFloors] using moved

theorem Counts.goTo {list' : Nat → BitVec 32} (counts : Counts s list index)
    (inside : ∀ place, (index place).isSome = true → place.stage ≠ .outside) (place : Place)
    (globals : Building) (size : globals.size = s.globals.size)
    (follows : Follows (index s.here) (index place) list list') :
    Counts (s.goTo place threads globals) list' index := by
  intro j small
  have counted := count_goTo place globals (P := fun place => index place = some j)
    (fun place found => inside place (by simp [found])) disciplined user performed
  have indicator : ∀ c : Prop, [Decidable c] →
      BitVec.ofNat 32 (if c then 1 else 0) = if c then 1 else 0 := by
    intro c decidable
    split <;> rfl
  have moved := congrArg (BitVec.ofNat 32) counted
  simp only [BitVec.ofNat_add, indicator] at moved
  have entry := follows j
  rw [counts j (size ▸ small), ← moved] at entry
  exact add_right_cancel entry

theorem Books.quiet (books : Books s) (place : Place) (globals : Building)
    (maxFloors : globals.maxFloors = s.globals.maxFloors)
    (waiting : globals.waitingList = s.globals.waitingList)
    (going : globals.goingList = s.globals.goingList) (room : globals.room = s.globals.room)
    (direction : globals.direction = .close ↔ s.globals.direction = .close)
    (waits : ∀ n, place.waitsAt n = s.here.waitsAt n)
    (rides : ∀ n, place.ridesTo n = s.here.ridesTo n) : Books (s.goTo place threads globals) := by
  have same {index : Place → Option Nat} (stays : index place = index s.here)
      (inside : ∀ place, (index place).isSome = true → place.stage ≠ .outside) :
      SameNumbers s (s.goTo place threads globals) index := by
    intro P _ kind
    have moved := count_goTo place globals (P := fun place => P (index place))
      (fun place found => inside place (kind _ found)) disciplined user performed
    rw [stays] at moved
    exact Nat.add_right_cancel moved
  exact books.transfer maxFloors waiting going room direction (same (waits _) waitsAt_inside)
    (same (rides _) ridesTo_inside)

/-- A statement with which a passenger registers, boards or leaves. -/
theorem Books.moved {waiting waiting' going' : Nat → BitVec 32} (books : Books s) (place : Place)
    (globals : Building) (maxFloors : globals.maxFloors = s.globals.maxFloors)
    (direction : globals.direction = s.globals.direction)
    (lists : s.globals.waitingList = some waiting) (lists' : s.globals.goingList = some going)
    (after : globals.waitingList = some waiting') (after' : globals.goingList = some going')
    (waits : Follows (s.here.waitsAt s.globals.maxFloors) (place.waitsAt s.globals.maxFloors)
      waiting waiting')
    (rides : Follows (s.here.ridesTo s.globals.maxFloors) (place.ridesTo s.globals.maxFloors)
      going going')
    (room : globals.room.toNat + (if (place.ridesTo s.globals.maxFloors).isSome = true then 1 else 0) =
      s.globals.room.toNat +
        if (s.here.ridesTo s.globals.maxFloors).isSome = true then 1 else 0) :
    Books (s.goTo place threads globals) := by
  have size : globals.size = s.globals.size := by simp only [Building.size, maxFloors]
  refine .of_open (fun closed => ?_) after after' ?_ ?_ ?_
  · cases lists.symm.trans (books.deleted (direction.symm.trans closed)).1
  · show Counts _ _ (Place.waitsAt globals.maxFloors)
    rw [maxFloors]
    exact (books.waiting _ lists).goTo disciplined user performed waitsAt_inside place globals size
      waits
  · show Counts _ _ (Place.ridesTo globals.maxFloors)
    rw [maxFloors]
    exact (books.going _ lists').goTo disciplined user performed ridesTo_inside place globals size
      rides
  · have moved := boarded_goTo disciplined user performed place globals maxFloors
    have before := books.room
    show globals.room.toNat + _ = _
    omega

end Moving

/-! ### Sums -/

theorem length_lt_of_nodup {l : List (BitVec 32)} (distinct : (0 :: l).Nodup) :
    l.length < 2 ^ 32 := by
  have injective : Function.Injective (BitVec.toFin (w := 32)) := fun x y same => by
    cases x
    cases y
    exact congrArg BitVec.ofFin same
  have bounded := (distinct.map injective).length_le_card
  simpa [Nat.succ_le_iff] using bounded

theorem Heap.number_lt (heap : Heap s) (live : ∀ place, (index place).isSome = true → ∃ address p
      here, place = .passenger address p here ∧ ∀ floor, here ≠ .gone floor) :
    number s index < 2 ^ 32 := by
  refine Nat.lt_of_le_of_lt ?_ (length_lt_of_nodup heap.distinct)
  refine count_le_length (fun t => match s.position t with
    | .passenger address _ _ => address
    | .elsewhere | .elevator _ => 0) (fun t _ found => ?_) fun t _ u _ found found' same => ?_
  · obtain ⟨address, p, here, position, notGone⟩ := live _ found
    simp only [position]
    exact heap.live t address p here position notGone
  · obtain ⟨address, p, here, position, notGone⟩ := live _ found
    obtain ⟨address', q, here', position', notGone'⟩ := live _ found'
    simp only [position, position'] at same
    subst same
    exact heap.own t u address p q here here' position position' notGone notGone'

theorem waitsAt_live (place : Place) (waits : (place.waitsAt n).isSome = true) :
    ∃ address p here, place = .passenger address p here ∧ ∀ floor, here ≠ .gone floor := by
  obtain ⟨j, waits⟩ := Option.isSome_iff_exists.mp waits
  obtain ⟨_, _, _, rfl | rfl⟩ := waitsAt_cases waits <;> exact ⟨_, _, _, rfl, by simp⟩

theorem waitsAt_inRange {n j : Nat} (many : 2 ≤ n)
    (valid : ∀ address p here, place = .passenger address p here → p.Valid n)
    (waits : place.waitsAt n = some j) : 1 ≤ j ∧ j < 2 * n - 1 := by
  obtain ⟨_, _, rfl, here | here⟩ := waitsAt_cases waits <;>
    exact mapFloor_inRange _ many (valid _ _ _ here).atFloor

theorem ridesTo_inRange {n j : Nat} (many : 2 ≤ n)
    (valid : ∀ address p here, place = .passenger address p here → p.Valid n)
    (rides : place.ridesTo n = some j) : 1 ≤ j ∧ j < 2 * n - 1 := by
  obtain ⟨_, _, rfl, here | here⟩ := ridesTo_cases rides <;>
    exact mapFloor_inRange _ many (valid _ _ _ here).toFloor

theorem Counts.sum (counts : Counts s list index)
    (inRange : ∀ t j, index (s.position t) = some j → j < s.globals.size)
    (small : number s index < 2 ^ 32) :
    (∀ j < s.globals.size, (list j).toNat =
      Nat.count (fun t => index (s.position t) = some j) s.threads.created) ∧
    ∑ j ∈ Finset.range s.globals.size, (list j).toNat = number s index := by
  have total := sum_count_class (n := s.threads.created) (fun t => index (s.position t))
    fun t _ j => inRange t j
  have entries : ∀ j < s.globals.size, (list j).toNat =
      Nat.count (fun t => index (s.position t) = some j) s.threads.created := by
    intro j inside
    have part : Nat.count (fun t => index (s.position t) = some j) s.threads.created ≤
        number s index := Nat.count_mono_left fun t _ found => by simp [found]
    rw [counts j inside, BitVec.toNat_ofNat]
    exact Nat.mod_eq_of_lt (Nat.lt_of_le_of_lt part small)
  refine ⟨entries, ?_⟩
  rw [Finset.sum_congr rfl fun j member => entries j (Finset.mem_range.mp member)]
  exact total

theorem sumOfWaiting_eq {count : BitVec 32} {g : Building} (lists : g.waitingList = some list)
    (done : g.sumOfWaiting = .ok count) :
    count = ∑ j ∈ Finset.range g.size, list j := by
  refine forUpToM_invariant (fun z count => count = ∑ j ∈ Finset.range z, list j) done (by simp) ?_
  intro z small before after held added
  obtain ⟨value, found, added⟩ := bind_eq_ok.mp added
  obtain ⟨entries, same, _, rfl⟩ := entry_eq_ok.mp found
  cases lists.symm.trans same
  cases added
  rw [Finset.sum_range_succ, held]

theorem toNat_sum (small : ∑ j ∈ Finset.range n, (list j).toNat < 2 ^ 32) :
    (∑ j ∈ Finset.range n, list j).toNat = ∑ j ∈ Finset.range n, (list j).toNat := by
  induction n with
  | zero => simp
  | succ n ih =>
    rw [Finset.sum_range_succ] at small ⊢
    rw [Finset.sum_range_succ, BitVec.toNat_add, ih (by omega)]
    exact Nat.mod_eq_of_lt small

end ElevatorSystem

end Nachos
