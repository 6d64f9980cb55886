import Nachos.Threads.SynchList
import Nachos.Verified.Programs

/-!
# `SynchList` is a FIFO channel

The thread that holds the lock of the list is the one inside `Append` or `Remove`, so the list
changes only under its hands.  What goes in comes out in order, and while consumers are blocked
there are as many signalled consumers on their way as there are items.
-/

namespace Nachos

open Queues Runs

def Position.stage {α : Type} : Position α → Stage
  | .outside => .outside
  | .appending _ | .testing => .entering
  | .appended | .signalled | .removing | .removed _ => .inside

namespace Channel

variable {α : Type} {sync : SynchList} {s s' : Channel α} {threads : Threads} {t : Nat}
  {event : ThreadEvent}

/-! ## The statements -/

inductive Statement (sync : SynchList) (s : Channel α) : Channel α → Prop where
  | put {item : α} (here : s.here = .appending item) :
      Statement sync s (goTo .appended s.threads { s with list := s.list ++ [item] })
  | signal (here : s.here = .appended) :
      Statement sync s (s.goTo .signalled (s.threads.signal sync.listEmpty sync.lock))
  | leave (here : s.here = .signalled ∨ ∃ item, s.here = .removed item) :
      Statement sync s (s.goTo .outside (s.threads.release sync.lock))
  | wait {threads : Threads} (here : s.here = .testing) (empty : s.list = [])
      (done : s.threads.wait sync.listEmpty sync.lock = .ok threads) :
      Statement sync s (s.goTo .testing threads)
  | found (here : s.here = .testing) (filled : s.list ≠ []) :
      Statement sync s (s.goTo .removing s.threads)
  | take {item : α} {rest : List α} (here : s.here = .removing) (shape : s.list = item :: rest) :
      Statement sync s (goTo (.removed item) s.threads { s with list := rest })

theorem statement_ok (inside : s.here ≠ .outside) (done : s.statement sync = .ok s') :
    Statement sync s s' := by
  simp only [statement] at done
  cases here : s.here with
  | outside => exact absurd here inside
  | appending item =>
    simp only [here] at done
    cases done
    exact .put here
  | appended =>
    simp only [here] at done
    cases done
    exact .signal here
  | signalled =>
    simp only [here] at done
    cases done
    exact .leave (.inl here)
  | testing =>
    simp only [here] at done
    cases shape : s.list with
    | nil =>
      simp only [shape, List.isEmpty_nil, if_true] at done
      cases waited : s.threads.wait sync.listEmpty sync.lock with
      | error fault => simp [waited, Except.map] at done
      | ok threads =>
        simp only [waited, Except.map] at done
        cases done
        exact .wait here shape waited
    | cons item rest =>
      simp only [shape, List.isEmpty_cons, Bool.false_eq_true, if_false] at done
      cases done
      exact .found here (by simp [shape])
  | removing =>
    simp only [here] at done
    cases shape : s.list with
    | nil => simp [shape] at done
    | cons item rest =>
      simp only [shape] at done
      cases done
      exact .take here shape
  | removed item =>
    simp only [here] at done
    cases done
    exact .leave (.inr ⟨item, here⟩)

/-! ## What holds between the steps -/

structure Inv (sync : SynchList) (s : Channel α) : Prop where
  disciplined : Threads.Disciplined sync.lock s.threads fun t => (s.position t).stage
  removing : ∀ t, s.position t = .removing → s.list ≠ []
  blocked : ∀ t, t ∈ s.threads.queue (.condition sync.listEmpty) → s.position t = .testing

/-- The current thread calls a routine, works on the list and goes on at `place`. -/
theorem Inv.advance {place : Position α} {list : List α} (inv : Inv sync s)
    (routine : Option Routine) (user : s.threads.InUser) (performed : s.threads.perform routine = .ok threads)
    (moves : Threads.Moves sync.lock routine s.here.stage place.stage)
    (waits : ∀ l, routine = some (.wait sync.listEmpty l) → place = .testing)
    (found : place = .removing → list ≠ [])
    (others : ∀ t, t ≠ s.threads.currentThread → s.position t = .removing → list ≠ []) :
    Inv sync (Channel.goTo place threads { s with list := list }) := by
  refine ⟨?_, fun t position => ?_, fun t member => ?_⟩
  · have stages : (fun t => ((goTo place threads { s with list := list }).position t).stage) =
        Function.update (fun t => (s.position t).stage) s.threads.currentThread place.stage :=
      (Function.comp_update Position.stage s.position _ place :)
    rw [stages]
    exact inv.disciplined.perform user moves performed
  · by_cases same : t = s.threads.currentThread
    · exact found (by simpa [Channel.goTo, same] using position)
    · exact others t same (by simpa [Channel.goTo, same] using position)
  · rcases Threads.perform_condition_from user performed member with before | ⟨rfl, l, calls⟩
    · have other : t ≠ s.threads.currentThread := by
        rintro rfl
        exact (inv.disciplined.placement.awake user.1).nowhere _ before
      simpa [Channel.goTo, other] using inv.blocked t before
    · simpa [Channel.goTo] using waits l calls

theorem Inv.holder (inv : Inv sync s) (user : s.threads.InUser) (inside : s.here ≠ .outside) :
    s.threads.lockHolder sync.lock = some s.threads.currentThread := by
  refine inv.disciplined.holds user fun outside => inside ?_
  cases here : s.here with
  | outside => rfl
  | appending | appended | signalled | testing | removing | removed =>
    simp [show s.position s.threads.currentThread = _ from here, Position.stage] at outside

theorem Inv.alone (inv : Inv sync s)
    (holder : s.threads.lockHolder sync.lock = some s.threads.currentThread)
    (other : t ≠ s.threads.currentThread) : (s.position t).stage ≠ .inside := by
  intro inside
  have holds := inv.disciplined.stands t
  rw [inside] at holds
  exact other (Option.some.inj (holds.symm.trans holder))

theorem Inv.enter {place : Position α} (inv : Inv sync s) (user : s.threads.InUser)
    (outside : s.here = .outside)
    (done : (Routine.acquire sync.lock).apply s.threads = .ok threads)
    (enters : place = .testing ∨ ∃ item, place = .appending item) :
    Inv sync (s.goTo place threads) := by
  refine inv.advance (some (.acquire sync.lock)) user done ?_ (by simp) ?_ fun t _ =>
    inv.removing t
  · rcases enters with rfl | ⟨item, rfl⟩ <;> rw [outside] <;> exact .acquire
  · rcases enters with rfl | ⟨item, rfl⟩ <;> simp

theorem release_queue {k : Threads} {l c : Nat} (holder : k.lockHolder l = some k.currentThread) :
    (k.release l).queue (.condition c) = k.queue (.condition c) := by
  rw [Threads.release_of_holder holder]
  exact Threads.wakeFirst_queue_of_ne (by simp) (by simp)

theorem Inv.statement (inv : Inv sync s) (user : s.threads.InUser) (inside : s.here ≠ .outside)
    (effect : Statement sync s s') : Inv sync s' := by
  have holder := inv.holder user inside
  have stays : ∀ t, t ≠ s.threads.currentThread → s.position t = .removing → s.list ≠ [] :=
    fun t _ => inv.removing t
  cases effect with
  | put here =>
    refine inv.advance none user rfl ?_ (by simp) (by simp) (by simp)
    rw [here]
    exact .quiet (by simp [Position.stage])
  | signal here =>
    refine inv.advance (some (.signal sync.listEmpty sync.lock)) user rfl ?_ (by simp)
      (by simp) stays
    rw [here]
    exact .stays (by simp [Threads.AboutLock, Threads.LeavesLock])
  | leave here =>
    refine inv.advance (some (.release sync.lock)) user rfl (.release ?_) (by simp)
      (by simp) stays
    rcases here with here | ⟨item, here⟩ <;> simp [here, Position.stage]
  | wait here empty done =>
    refine inv.advance (some (.wait sync.listEmpty sync.lock)) user done (.wait ?_)
      (fun _ _ => rfl) (by simp) stays
    simp [here, Position.stage]
  | found here filled =>
    refine inv.advance none user rfl ?_ (by simp) (fun _ => filled) stays
    rw [here]
    exact .quiet (by simp [Position.stage])
  | take here shape =>
    refine inv.advance none user rfl ?_ (by simp) (by simp) fun t other position => ?_
    · rw [here]
      exact .quiet (by simp [Position.stage])
    · exact absurd (by rw [position]; rfl) (inv.alone holder other)

theorem Allows.apart (allowed : s.Allows sync event) : event.ApartFrom sync.listEmpty := by
  intro l
  refine ⟨?_, ?_, ?_⟩ <;> rintro rfl <;> rcases allowed with yields | ⟨_, foreign⟩
  all_goals first | cases yields | exact foreign.2 rfl

theorem Allows.not_aboutLock (allowed : s.Allows sync event) :
    ¬ Threads.AboutLock sync.lock event := by
  rintro (rfl | rfl | ⟨c, rfl⟩) <;> rcases allowed with yields | ⟨_, foreign⟩
  all_goals first | cases yields | exact foreign rfl | exact foreign.1 rfl

theorem Inv.other (inv : Inv sync s) (allowed : s.Allows sync event)
    (taken : ThreadStep s.threads event threads) : Inv sync { s with threads := threads } :=
  ⟨inv.disciplined.other taken allowed.not_aboutLock, inv.removing, fun t member =>
    inv.blocked t (taken.condition_same allowed.apart ▸ member)⟩

theorem Inv.step {event : ChannelEvent α} (inv : Inv sync s)
    (taken : ChannelStep sync s event s') : Inv sync s' := by
  cases taken with
  | append user outside done => exact inv.enter user outside done (.inr ⟨_, rfl⟩)
  | remove user outside done => exact inv.enter user outside done (.inl rfl)
  | statement user inside done => exact inv.statement user inside (statement_ok inside done)
  | other allowed taken => exact inv.other allowed taken

theorem boot_inv (values : Nat → BitVec 32) : Inv sync (boot values : Channel α) := by
  exact ⟨Threads.boot_disciplined sync.lock values, by simp [boot], by simp [boot, Threads.boot]⟩

theorem reachable_inv {values : Nat → BitVec 32} {history : List (Channel α × ChannelEvent α)}
    (run : Run (ChannelStep sync) (boot values) history s) : Inv sync s :=
  run.always (boot_inv values) fun _ _ _ inv taken => inv.step taken

/-! ## First in, first out -/

variable {history : List (Channel α × ChannelEvent α)}

def putItem (s : Channel α) : ChannelEvent α → Option α
  | .statement =>
    match s.here with
    | .appending item => some item
    | _ => none
  | _ => none

def returnedItem (s : Channel α) : ChannelEvent α → Option α
  | .statement =>
    match s.here with
    | .removed item => some item
    | _ => none
  | _ => none

def puts : List (Channel α × ChannelEvent α) → List α
  | [] => []
  | (s, event) :: earlier => puts earlier ++ (s.putItem event).toList

/-- The items that the calls of `Remove` have returned, in the order of time. -/
def returns : List (Channel α × ChannelEvent α) → List α
  | [] => []
  | (s, event) :: earlier => returns earlier ++ (s.returnedItem event).toList

/-- `hand` is what a thread has taken off the list and is about to return. -/
structure InHand (s : Channel α) (hand : List α) : Prop where
  all : ∀ t item, s.position t = .removed item → hand = [item]
  some : ∀ item ∈ hand, ∃ t, s.position t = .removed item

theorem InHand.goTo {hand : List α} {place : Position α} {threads : Threads} {list : List α}
    (inHand : InHand s hand) (before : ∀ item, s.here ≠ .removed item)
    (after : ∀ item, place ≠ .removed item) :
    InHand (goTo place threads { s with list := list }) hand := by
  refine ⟨fun t item position => ?_, fun item member => ?_⟩
  · by_cases here : t = s.threads.currentThread
    · subst here
      simp [Channel.goTo, after item] at position
    · simp only [Channel.goTo, Function.update_of_ne here] at position
      exact inHand.all t item position
  · obtain ⟨t, position⟩ := inHand.some item member
    have other : t ≠ s.threads.currentThread := by
      rintro rfl
      exact before item position
    exact ⟨t, by simpa [Channel.goTo, other] using position⟩

theorem Inv.empty_handed {item : α} (inv : Inv sync s)
    (holder : s.threads.lockHolder sync.lock = some s.threads.currentThread)
    (other : t ≠ s.threads.currentThread) : s.position t ≠ .removed item :=
  fun position => inv.alone holder other (by rw [position]; rfl)

/-- What was put on the list was returned, is in hand or is still there, in this order. -/
def Fifo (history : List (Channel α × ChannelEvent α)) (s : Channel α) : Prop :=
  ∃ hand, InHand s hand ∧ puts history = returns history ++ hand ++ s.list

theorem Fifo.quiet {event : ChannelEvent α} {place : Position α} {threads : Threads}
    (fifo : Fifo history s) (before : ∀ item, s.here ≠ .removed item)
    (after : ∀ item, place ≠ .removed item) (nothing : s.putItem event = none) :
    Fifo ((s, event) :: history) (s.goTo place threads) := by
  obtain ⟨hand, inHand, order⟩ := fifo
  have returned : s.returnedItem event = none := by
    unfold returnedItem
    split
    next =>
      split
      next item here => exact absurd here (before item)
      next => rfl
    next => rfl
  exact ⟨hand, inHand.goTo before after,
    by simpa [puts, returns, nothing, returned, Channel.goTo] using order⟩

theorem Fifo.statement (fifo : Fifo history s) (inv : Inv sync s)
    (holder : s.threads.lockHolder sync.lock = some s.threads.currentThread) (effect : Statement sync s s') :
    Fifo ((s, .statement) :: history) s' := by
  cases effect with
  | @put item here =>
    obtain ⟨hand, inHand, order⟩ := fifo
    exact ⟨hand, inHand.goTo (by simp [here]) (by simp),
      by simp [puts, returns, putItem, returnedItem, here, Channel.goTo, order]⟩
  | signal here | wait here _ _ | found here _ =>
    exact fifo.quiet (by simp [here]) (by simp) (by simp [putItem, here])
  | @take item rest here shape =>
    obtain ⟨hand, inHand, order⟩ := fifo
    have before : hand = [] := by
      rw [List.eq_nil_iff_forall_not_mem]
      intro other member
      obtain ⟨t, position⟩ := inHand.some other member
      refine inv.empty_handed holder ?_ position
      rintro rfl
      cases here.symm.trans position
    refine ⟨[item], ⟨fun t other position => ?_, fun other member => ?_⟩, ?_⟩
    · by_cases current : t = s.threads.currentThread
      · subst current
        simpa [Channel.goTo] using position
      · simp only [Channel.goTo, Function.update_of_ne current] at position
        exact absurd position (inv.empty_handed holder current)
    · cases List.mem_singleton.mp member
      exact ⟨s.threads.currentThread, by simp [Channel.goTo]⟩
    · simp [puts, returns, putItem, returnedItem, here, Channel.goTo, order, before, shape]
  | leave here =>
    rcases here with here | ⟨item, here⟩
    · exact fifo.quiet (by simp [here]) (by simp) (by simp [putItem, here])
    · obtain ⟨hand, inHand, order⟩ := fifo
      have before : hand = [item] := inHand.all _ item here
      refine ⟨[], ⟨fun t other position => ?_, by simp⟩, ?_⟩
      · by_cases current : t = s.threads.currentThread
        · subst current
          simp [Channel.goTo] at position
        · simp only [Channel.goTo, Function.update_of_ne current] at position
          exact absurd position (inv.empty_handed holder current)
      · simp [puts, returns, putItem, returnedItem, here, Channel.goTo, order, before]

theorem Fifo.step {event : ChannelEvent α} (fifo : Fifo history s) (inv : Inv sync s)
    (taken : ChannelStep sync s event s') : Fifo ((s, event) :: history) s' := by
  cases taken with
  | append user outside done | remove user outside done =>
    exact fifo.quiet (by simp [outside]) (by simp) rfl
  | statement user inside done =>
    exact fifo.statement inv (inv.holder user inside) (statement_ok inside done)
  | other allowed taken =>
    obtain ⟨hand, inHand, order⟩ := fifo
    exact ⟨hand, ⟨inHand.all, inHand.some⟩, by simpa [puts, returns, putItem, returnedItem] using order⟩

/-! ## Signalled consumers -/

/-- The consumers that a `Signal` has taken from the blocked ones, and that have not tested the
list since. -/
def signalled (sync : SynchList) : List (Channel α × ChannelEvent α) → List Nat
  | [] => []
  | (s, event) :: earlier =>
    match event, s.here with
    | .statement, .appended =>
      (s.threads.queue (.condition sync.listEmpty)).head?.toList ++ signalled sync earlier
    | .statement, .testing => (signalled sync earlier).erase s.threads.currentThread
    | _, _ => signalled sync earlier

def slackAt : Position α → Nat
  | .appended | .removing => 1
  | .outside | .appending _ | .signalled | .testing | .removed _ => 0

def slack (sync : SynchList) (s : Channel α) : Nat :=
  match s.threads.lockHolder sync.lock with
  | none => 0
  | some t => slackAt (s.position t)

structure Supplied (sync : SynchList) (history : List (Channel α × ChannelEvent α))
    (s : Channel α) : Prop where
  distinct : (signalled sync history).Nodup
  testing : ∀ t, t ∈ signalled sync history →
    s.position t = .testing ∧ t ∉ s.threads.queue (.condition sync.listEmpty)
  enough : s.threads.queue (.condition sync.listEmpty) ≠ [] →
    s.list.length ≤ (signalled sync history).length + s.slack sync

theorem slack_of_holder {u : Nat} (holder : s.threads.lockHolder sync.lock = some u) :
    s.slack sync = slackAt (s.position u) := by
  simp [slack, holder]

theorem slack_le (kept : ∀ u, s.threads.lockHolder sync.lock = some u →
    s'.threads.lockHolder sync.lock = some u ∧ s'.position u = s.position u) :
    s.slack sync ≤ s'.slack sync := by
  cases holder : s.threads.lockHolder sync.lock with
  | none => simp [slack, holder]
  | some u =>
    obtain ⟨still, same⟩ := kept u holder
    exact Nat.le_of_eq (by rw [slack_of_holder holder, slack_of_holder still, same])

theorem slack_goTo {place : Position α} {threads : Threads}
    (holder : threads.lockHolder sync.lock = some s.threads.currentThread) :
    (s.goTo place threads).slack sync = slackAt place := by
  rw [slack_of_holder (u := s.threads.currentThread) holder]
  simp [goTo]

theorem Supplied.frame {event : ChannelEvent α} (supplied : Supplied sync history s)
    (same : signalled sync ((s, event) :: history) = signalled sync history)
    (queue : s'.threads.queue (.condition sync.listEmpty) =
      s.threads.queue (.condition sync.listEmpty))
    (positions : ∀ t, s.position t = .testing → s'.position t = .testing)
    (enough : s'.list.length + s.slack sync ≤ s.list.length + s'.slack sync) :
    Supplied sync ((s, event) :: history) s' := by
  refine ⟨same ▸ supplied.distinct, fun t member => ?_, fun waiting => ?_⟩
  · obtain ⟨testing, elsewhere⟩ := supplied.testing t (same ▸ member)
    exact ⟨positions t testing, queue ▸ elsewhere⟩
  · have before := supplied.enough (queue ▸ waiting)
    rw [same]
    omega

theorem goTo_testing {place : Position α} {threads : Threads} (elsewhere : s.here ≠ .testing)
    (testing : s.position t = .testing) : (s.goTo place threads).position t = .testing := by
  have other : t ≠ s.threads.currentThread := by
    rintro rfl
    exact elsewhere testing
  simpa [goTo, other] using testing

theorem Supplied.enter {event : ChannelEvent α} {place : Position α} {threads : Threads}
    (supplied : Supplied sync history s) (inv : Inv sync s) (user : s.threads.InUser)
    (outside : s.here = .outside)
    (done : (Routine.acquire sync.lock).apply s.threads = .ok threads)
    (enters : event ≠ .statement) :
    Supplied sync ((s, event) :: history) (s.goTo place threads) := by
  have taken : ThreadStep s.threads (.call (.acquire sync.lock)) threads := .call user done
  refine supplied.frame ?_ (taken.condition_same (by simp [ThreadEvent.ApartFrom]))
    (fun t => goTo_testing (by simp [outside])) (Nat.add_le_add_left (slack_le ?_) _)
  · cases event with
    | statement => exact absurd rfl enters
    | append | remove | other => rfl
  · intro u holder
    have other : u ≠ s.threads.currentThread := by
      rintro rfl
      exact inv.disciplined.of_holder holder (congrArg Position.stage outside)
    exact ⟨(inv.disciplined.placement.lockEffect taken).holder_kept inv.disciplined.known holder
      (by simp [Threads.LeavesLock]), by simp [goTo, other]⟩

theorem Supplied.other {event : ThreadEvent} {threads : Threads}
    (supplied : Supplied sync history s) (inv : Inv sync s) (allowed : s.Allows sync event)
    (taken : ThreadStep s.threads event threads) :
    Supplied sync ((s, .other event) :: history) { s with threads := threads } := by
  have kept : s.slack sync ≤ slack sync { s with threads := threads } := by
    -- other steps do not free the lock of the list
    refine slack_le fun u holder => ⟨?_, rfl⟩
    exact (inv.disciplined.placement.lockEffect taken).holder_kept inv.disciplined.known holder fun _ leaves =>
      allowed.not_aboutLock (.inr leaves)
  exact supplied.frame rfl (taken.condition_same allowed.apart) (fun t testing => testing)
    (Nat.add_le_add_left kept _)

/-- The current thread tests the list: it is no longer on its way. -/
theorem Supplied.tested (supplied : Supplied sync history s) (here : s.here = .testing) :
    signalled sync ((s, .statement) :: history) =
        (signalled sync history).erase s.threads.currentThread ∧
      (signalled sync ((s, .statement) :: history)).Nodup ∧
      ∀ t, t ∈ signalled sync ((s, .statement) :: history) → t ≠ s.threads.currentThread ∧
        s.position t = .testing ∧ t ∉ s.threads.queue (.condition sync.listEmpty) := by
  have list : signalled sync ((s, .statement) :: history) =
      (signalled sync history).erase s.threads.currentThread := by
    simp [signalled, here]
  refine ⟨list, list ▸ supplied.distinct.erase _, fun t member => ?_⟩
  rw [list] at member
  have both := (supplied.distinct.mem_erase_iff).mp member
  exact ⟨both.1, supplied.testing t both.2⟩

theorem Supplied.signal (supplied : Supplied sync history s) (inv : Inv sync s)
    (holder : s.threads.lockHolder sync.lock = some s.threads.currentThread) (here : s.here = .appended) :
    Supplied sync ((s, .statement) :: history)
      (s.goTo .signalled (s.threads.signal sync.listEmpty sync.lock)) := by
  have list : signalled sync ((s, .statement) :: history) =
      (s.threads.queue (.condition sync.listEmpty)).head?.toList ++ signalled sync history := by
    simp [signalled, here]
  have queue : (s.threads.signal sync.listEmpty sync.lock).queue (.condition sync.listEmpty) =
      (s.threads.queue (.condition sync.listEmpty)).tail := Threads.signal_queue holder
  have slack : s.slack sync = 1 := by
    rw [slack_of_holder holder]
    change slackAt s.here = 1
    rw [here]
    rfl
  have positions : ∀ t, s.position t = .testing →
      (s.goTo .signalled (s.threads.signal sync.listEmpty sync.lock)).position t = .testing :=
    fun t => goTo_testing (by simp [here])
  cases shape : s.threads.queue (.condition sync.listEmpty) with
  | nil =>
    refine ⟨?_, fun t member => ?_, fun waiting => ?_⟩
    · simpa [list, shape] using supplied.distinct
    · obtain ⟨testing, _⟩ := supplied.testing t (by simpa [list, shape] using member)
      exact ⟨positions t testing, by simp [goTo, queue, shape]⟩
    · simp [goTo, queue, shape] at waiting
  | cons first rest =>
    have front : first ∈ s.threads.queue (.condition sync.listEmpty) := by simp [shape]
    have fresh : first ∉ signalled sync history := fun member =>
      (supplied.testing first member).2 front
    have enough := supplied.enough (by simp [shape])
    refine ⟨?_, fun t member => ?_, fun _ => ?_⟩
    · simpa [list, shape, fresh] using supplied.distinct
    · simp only [list, shape, List.head?_cons, Option.toList_some, List.singleton_append,
        List.mem_cons] at member
      rcases member with rfl | member
      · -- it was on the list once, and is off now
        obtain ⟨place, located⟩ := inv.disciplined.placement.located t
        refine ⟨positions t (inv.blocked t front), ?_⟩
        simp only [goTo, queue]
        have gone := (located.pop (q := .condition sync.listEmpty) (by simp [shape])).2
          (.condition sync.listEmpty)
        simpa using gone
      · obtain ⟨testing, elsewhere⟩ := supplied.testing t member
        refine ⟨positions t testing, ?_⟩
        simp only [goTo, queue]
        exact fun later => elsewhere (List.mem_of_mem_tail later)
    · simp only [list, shape, List.head?_cons, Option.toList_some, List.singleton_append,
        List.length_cons, goTo]
      omega

theorem Supplied.statement (supplied : Supplied sync history s) (inv : Inv sync s)
    (user : s.threads.InUser) (inside : s.here ≠ .outside) (effect : Statement sync s s') :
    Supplied sync ((s, .statement) :: history) s' := by
  have holder := inv.holder user inside
  have before : s.slack sync = slackAt s.here := slack_of_holder holder
  cases effect with
  | @put item here =>
    have positions : ∀ t, s.position t = .testing →
        (s.goTo .appended s.threads).position t = .testing :=
      fun t => goTo_testing (by simp [here])
    refine supplied.frame (by simp [signalled, here]) rfl positions ?_
    rw [before, here, slack_goTo (s := { s with list := s.list ++ [item] }) holder]
    simp [goTo, slackAt]
  | signal here => exact supplied.signal inv holder here
  | leave here =>
    have elsewhere : s.here ≠ .testing := by
      rcases here with here | ⟨item, here⟩ <;> simp [here]
    have none : slackAt s.here = 0 := by
      rcases here with here | ⟨item, here⟩ <;> simp [here, slackAt]
    refine supplied.frame ?_ (release_queue holder) (fun t => goTo_testing elsewhere) ?_
    · rcases here with here | ⟨item, here⟩ <;> simp [signalled, here]
    · rw [before, none]
      simp [goTo]
  | wait here empty done =>
    obtain ⟨_, distinct, testing⟩ := supplied.tested here
    refine ⟨distinct, fun t member => ?_, fun _ => by simp [goTo, empty]⟩
    obtain ⟨other, position, elsewhere⟩ := testing t member
    refine ⟨by simpa [goTo, other] using position, ?_⟩
    simp only [goTo, Threads.wait_queue holder done, List.mem_append, List.mem_singleton, not_or]
    exact ⟨elsewhere, other⟩
  | found here filled =>
    obtain ⟨list, distinct, testing⟩ := supplied.tested here
    refine ⟨distinct, fun t member => ?_, fun waiting => ?_⟩
    · obtain ⟨other, position, elsewhere⟩ := testing t member
      exact ⟨by simpa [goTo, other] using position, elsewhere⟩
    · have enough := supplied.enough waiting
      rw [before, here] at enough
      rw [list, List.length_erase, slack_goTo holder]
      simp only [slackAt, goTo] at enough ⊢
      split <;> omega
  | @take item rest here shape =>
    have positions : ∀ t, s.position t = .testing →
        (s.goTo (.removed item) s.threads).position t = .testing :=
      fun t => goTo_testing (by simp [here])
    refine supplied.frame (by simp [signalled, here]) rfl positions ?_
    rw [before, here, slack_goTo (s := { s with list := rest }) holder]
    simp [goTo, slackAt, shape]

theorem Supplied.step {event : ChannelEvent α} (supplied : Supplied sync history s)
    (inv : Inv sync s) (taken : ChannelStep sync s event s') :
    Supplied sync ((s, event) :: history) s' := by
  cases taken with
  | append user outside done | remove user outside done =>
    exact supplied.enter inv user outside done (by simp)
  | statement user inside done => exact supplied.statement inv user inside (statement_ok inside done)
  | other allowed taken => exact supplied.other inv allowed taken

theorem reachable_fifo {values : Nat → BitVec 32}
    (run : Run (ChannelStep sync) (boot values) history s) :
    Fifo history s ∧ Supplied sync history s := by
  induction run with
  | start =>
    have nothing : InHand (boot values : Channel α) [] := ⟨by simp [boot], by simp⟩
    exact ⟨⟨[], nothing, rfl⟩, by simp [signalled], by simp [signalled], by simp [boot]⟩
  | next earlier taken ih =>
    have inv := reachable_inv earlier
    exact ⟨ih.1.step inv taken, ih.2.step inv taken⟩

theorem Inv.statement_total (inv : Inv sync s) (user : s.threads.InUser) :
    ∃ s', s.statement sync = .ok s' := by
  simp only [Channel.statement]
  cases here : s.here with
  | outside | appending item | appended | signalled | removed item => exact ⟨_, rfl⟩
  | testing =>
    cases shape : s.list with
    | nil =>
      obtain ⟨threads, done, _⟩ := inv.disciplined.placement.wait (c := sync.listEmpty) (l := sync.lock) user.1
      simp [done, Except.map]
    | cons item rest => simp
  | removing =>
    cases shape : s.list with
    | nil => exact absurd shape (inv.removing _ here)
    | cons item rest => exact ⟨_, rfl⟩

end Channel

open Channel in
/-- What the calls of `Remove` return is what was put in, in order, each item once; the `ASSERT` in
`Remove` holds; and while the lock is free and consumers are blocked, there are as many signalled
consumers on their way as items. -/
theorem synchList_fifo {α : Type} {sync : SynchList} {values : Nat → BitVec 32}
    {history : List (Channel α × ChannelEvent α)} {s : Channel α}
    (run : Run (ChannelStep sync) (Channel.boot values) history s) :
    returns history <+: puts history ∧
      (∃ hand, InHand s hand ∧ puts history = returns history ++ hand ++ s.list) ∧
      (s.threads.InUser → ∃ s', s.statement sync = .ok s') ∧
      (s.threads.isHeld sync.lock = false →
        s.threads.queue (.condition sync.listEmpty) ≠ [] →
          s.list.length ≤ (signalled sync history).length) ∧
      (signalled sync history).Nodup ∧
      ∀ t, t ∈ signalled sync history → s.position t = .testing := by
  have inv := reachable_inv run
  obtain ⟨⟨hand, inHand, order⟩, supplied⟩ := reachable_fifo run
  refine ⟨⟨hand ++ s.list, by simp [order]⟩, ⟨hand, inHand, order⟩,
    fun user => inv.statement_total user, ?_, supplied.distinct,
    fun t member => (supplied.testing t member).1⟩
  intro free waiting
  have enough := supplied.enough waiting
  have nobody : s.threads.lockHolder sync.lock = none := by
    by_contra somebody
    rw [inv.disciplined.known.mpr somebody] at free
    cases free
  simpa [slack, nobody] using enough

open Channel in
/-- An item has gone through the list.  Then two consumers are blocked, and a producer appends another
item and leaves. -/
theorem synchList_with_two_consumers : ∃ history s,
    Run (ChannelStep ⟨0, 0⟩) (Channel.boot fun _ => 0#32 : Channel Nat) history s ∧
      history.map Prod.snd = [.statement, .statement, .statement, .append 7, .statement, .remove,
        .statement, .remove, .other (.call .fork), .other (.call .fork),
        .statement, .statement, .statement, .remove, .statement, .statement, .statement,
        .append 5] ∧
      (s.threads.isHeld 0 = false ∧ s.threads.queue (.condition 0) = [1] ∧ s.list = [7] ∧
        returns history = [5]) ∧
      [5] <+: puts history ∧ 1 ≤ (signalled ⟨0, 0⟩ history).length := by
  refine labelled_run performChannel_step (fun history s => s.threads.isHeld 0 = false ∧
      s.threads.queue (.condition 0) = [1] ∧ s.list = [7] ∧ returns history = [5])
    (by decide +kernel) fun history s run shape => ?_
  obtain ⟨inOrder, _, _, enough, _⟩ := synchList_fifo run
  have consumers := enough shape.1 (by simp [shape.2.1])
  rw [shape.2.2.2] at inOrder
  exact ⟨shape, inOrder, by simpa [shape.2.2.1] using consumers⟩

end Nachos
