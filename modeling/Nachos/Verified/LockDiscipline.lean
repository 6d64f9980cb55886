import Nachos.Verified.Monitor

/-!
# Threads that use a lock as a monitor

A program takes a lock, works, and leaves it; the position of each thread in the program says
how it stands to the lock.  The rules below follow the positions through the steps of the
threads: the routines of the lock, which the program calls, and everything else.
-/

namespace Nachos

open Queues Runs

inductive Stage where
  | outside
  /-- In `Acquire` or `Wait`, or past it. -/
  | entering
  /-- Past it. -/
  | inside
  deriving DecidableEq, Repr

namespace Threads

variable {k k' : Threads} {l t : Nat} {event : ThreadEvent} {stage : Nat → Stage}

def Wants (l : Nat) (k : Threads) (t : Nat) : Prop :=
  (k.control t).acquires = some l ∧ k.lockHolder l ≠ some t

def StandsAt (l : Nat) (k : Threads) (t : Nat) : Stage → Prop
  | .outside => k.lockHolder l ≠ some t ∧ (k.control t).acquires ≠ some l
  | .entering => k.lockHolder l = some t ∨ Wants l k t
  | .inside => k.lockHolder l = some t

def AboutLock (l : Nat) (event : ThreadEvent) : Prop :=
  event = .call (.acquire l) ∨ LeavesLock l event

structure Disciplined (l : Nat) (k : Threads) (stage : Nat → Stage) : Prop where
  placement : k.Placement
  known : k.isHeld l = true ↔ k.lockHolder l ≠ none
  stands : ∀ t, StandsAt l k t (stage t)
  created : ∀ t, stage t ≠ .outside → t < k.created

theorem StandsAt.step {position : Stage} (stands : StandsAt l k t position)
    (placement : k.Placement) (known : k.isHeld l = true ↔ k.lockHolder l ≠ none)
    (older : position ≠ .outside → t < k.created) (taken : ThreadStep k event k')
    (quiet : t = k.currentThread → ¬ AboutLock l event) : StandsAt l k' t position := by
  have holding : k.lockHolder l = some t → k'.lockHolder l = some t := fun holds =>
    (placement.lockEffect taken).holder_kept known holds fun here leaves => quiet here (.inr leaves)
  cases position with
  | outside =>
    refine ⟨fun holds => ?_, fun acquires => ?_⟩
    · cases (placement.lockEffect taken).holder_from holds with
      | inl before => exact stands.1 before
      | inr takes =>
        obtain ⟨here, tests, _⟩ := takes
        cases tests with
        | inl calls => exact quiet here (.inl calls)
        | inr resumes => exact stands.2 (here ▸ resumes.2)
    · cases taken.acquires_from acquires with
      | inl before => exact stands.2 before
      | inr calls =>
        obtain ⟨here, acquires | ⟨c, waits⟩⟩ := calls
        · exact quiet here (.inl acquires)
        · exact quiet here (.inr (.inr ⟨c, waits⟩))
  | entering =>
    cases stands with
    | inl holds => exact .inl (holding holds)
    | inr wants =>
      cases placement.acquiring_step taken (older (by simp)) wants.1 with
      | inl still => exact .inr ⟨still.1, fun holds => wants.2 (still.2 holds)⟩
      | inr returned => exact .inl returned.2
  | inside => exact holding stands

theorem Placement.acquired (placement : k.Placement) (user : k.InUser)
    (stranger : k.lockHolder l ≠ some k.currentThread)
    (done : (Routine.acquire l).apply k = .ok k') :
    (k'.control k.currentThread = .user ∧ k'.lockHolder l = some k.currentThread) ∨
      Wants l k' k.currentThread := by
  cases placement.lockEffect (l := l) (.call user done) with
  | taken tests free held holder returned queue => exact .inl ⟨returned, holder⟩
  | queued tests held stays holder asleep queue =>
    exact .inr ⟨asleep, fun holds => stranger (holder ▸ holds)⟩
  | freed leaves holder free nobody queue woken => simp [LeavesLock] at leaves
  | same untested stays isHeld holder queue => exact absurd (.inl rfl) untested

theorem Placement.waited (placement : k.Placement) (user : k.InUser)
    (holder : k.lockHolder l = some k.currentThread) {c : Nat} (done : k.wait c l = .ok k') :
    Wants l k' k.currentThread := by
  have taken : ThreadStep k (.call (.wait c l)) k' := .call user done
  refine ⟨by simp [placement.wait_sleeps taken holder, Continuation.acquires], ?_⟩
  cases placement.lockEffect (l := l) taken with
  | freed leaves holder free nobody queue woken => simp [nobody]
  | taken tests | queued tests => simp [TestsLock] at tests
  | same untested stays => exact absurd holder (stays (.inr ⟨c, rfl⟩))

theorem released_stands (user : k.InUser) (holder : k.lockHolder l = some k.currentThread) :
    StandsAt l (k.release l) k.currentThread .outside := by
  rw [release_of_holder holder]
  have control : (k.released l).control k.currentThread = .user :=
    (congrFun wakeFirst_same.control _).trans user.2
  exact ⟨by simp [released], by simp [control, Continuation.acquires]⟩

section

variable (disciplined : Disciplined l k stage)

include disciplined

theorem Disciplined.other (taken : ThreadStep k event k')
    (quiet : ¬ AboutLock l event) : Disciplined l k' stage where
  placement := disciplined.placement.step taken
  known := (disciplined.placement.lockEffect taken).isHeld_iff disciplined.known
  stands t := (disciplined.stands t).step disciplined.placement disciplined.known
    (disciplined.created t) taken fun _ => quiet
  created t inside := Nat.lt_of_lt_of_le (disciplined.created t inside) taken.created_le

theorem Disciplined.call {c : Routine} {place : Stage}
    (user : k.InUser) (done : c.apply k = .ok k') (own : StandsAt l k' k.currentThread place) :
    Disciplined l k' (Function.update stage k.currentThread place) := by
  have taken : ThreadStep k (.call c) k' := .call user done
  refine ⟨disciplined.placement.step taken,
    (disciplined.placement.lockEffect taken).isHeld_iff disciplined.known, fun t => ?_,
    fun t inside => ?_⟩
  · by_cases same : t = k.currentThread
    · subst same
      simpa using own
    · simpa [same] using (disciplined.stands t).step disciplined.placement disciplined.known
        (disciplined.created t) taken fun here => absurd here same
  · refine Nat.lt_of_lt_of_le ?_ taken.created_le
    by_cases same : t = k.currentThread
    · subst same
      exact (disciplined.placement.awake user.1).alive.1
    · exact disciplined.created t (by simpa [same] using inside)

theorem Disciplined.holds (user : k.InUser)
    (inside : stage k.currentThread ≠ .outside) : k.lockHolder l = some k.currentThread := by
  have stands := disciplined.stands k.currentThread
  cases place : stage k.currentThread with
  | outside => exact absurd place inside
  | entering =>
    rw [place] at stands
    cases stands with
    | inl holds => exact holds
    | inr wants =>
      have acquires := wants.1
      simp [user.2, Continuation.acquires] at acquires
  | inside =>
    rw [place] at stands
    exact stands

theorem Disciplined.of_holder (holder : k.lockHolder l = some t) : stage t ≠ .outside := by
  intro outside
  have stands := disciplined.stands t
  rw [outside] at stands
  exact stands.1 holder

theorem Disciplined.move {place : Stage} (user : k.InUser)
    (inside : stage k.currentThread ≠ .outside) (stays : place ≠ .outside) :
    Disciplined l k (Function.update stage k.currentThread place) := by
  have holder := disciplined.holds user inside
  refine ⟨disciplined.placement, disciplined.known, fun t => ?_, fun t notOutside => ?_⟩
  · by_cases same : t = k.currentThread
    · subst same
      rw [Function.update_self]
      cases place with
      | outside => exact absurd rfl stays
      | entering => exact .inl holder
      | inside => exact holder
    · simpa [same] using disciplined.stands t
  · by_cases same : t = k.currentThread
    · subst same
      exact disciplined.created _ inside
    · exact disciplined.created t (by simpa [same] using notOutside)

theorem Disciplined.acquire (user : k.InUser) (outside : stage k.currentThread = .outside)
    (done : (Routine.acquire l).apply k = .ok k') :
    Disciplined l k' (Function.update stage k.currentThread .entering) := by
  refine disciplined.call user done ?_
  have stranger := disciplined.stands k.currentThread
  rw [outside] at stranger
  exact (disciplined.placement.acquired user stranger.1 done).imp_left And.right

theorem Disciplined.release (user : k.InUser) (inside : stage k.currentThread ≠ .outside) :
    Disciplined l (k.release l) (Function.update stage k.currentThread .outside) := by
  have holder := disciplined.holds user inside
  exact disciplined.call (c := .release l) user rfl (released_stands user holder)

theorem Disciplined.wait {c : Nat} (user : k.InUser)
    (inside : stage k.currentThread ≠ .outside) (done : k.wait c l = .ok k') :
    Disciplined l k' (Function.update stage k.currentThread .entering) := by
  have holder := disciplined.holds user inside
  exact disciplined.call (c := .wait c l) user done
    (.inr (disciplined.placement.waited user holder done))

end

theorem boot_disciplined (l : Nat) (values : Nat → BitVec 32) :
    Disciplined l (boot values) fun _ => .outside := by
  refine ⟨boot_placement values, by simp [boot], fun t => ⟨by simp [boot], ?_⟩, by simp⟩
  simp only [boot]
  split <;> simp [Continuation.acquires]

end Threads

end Nachos
