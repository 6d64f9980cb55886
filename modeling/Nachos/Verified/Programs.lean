import Nachos.Threads.Program
import Nachos.Verified.LockDiscipline

/-!
# Rules for programs over the routines

What one statement of a program does to the threads.  A program keeps to a lock when each of its
statements moves between the stages as `Moves` says; the rule for whole statements then follows
the lock.  The other rules are about the lists of the conditions and about threads that are in
one because of their place.
-/

namespace Nachos

open Loops Queues Runs

namespace Threads

variable {k k' : Threads} {l c t : Nat} {event : ThreadEvent} {routine : Option Routine}
  {stage : Nat → Stage}

/-! ## One call -/

theorem perform_step (user : k.InUser) (performed : k.perform routine = .ok k') :
    (routine = none ∧ k' = k) ∨ ∃ c, routine = some c ∧ ThreadStep k (.call c) k' := by
  cases routine with
  | none =>
    cases performed
    exact .inl ⟨rfl, rfl⟩
  | some c => exact .inr ⟨c, rfl, .call user performed⟩

theorem perform_created (user : k.InUser) (performed : k.perform routine = .ok k') :
    k.created ≤ k'.created := by
  cases perform_step user performed with
  | inl nothing => exact Nat.le_of_eq (congrArg created nothing.2.symm)
  | inr step =>
    obtain ⟨c, _, taken⟩ := step
    exact taken.created_le

/-! ## The lock -/

inductive Moves (l : Nat) : Option Routine → Stage → Stage → Prop where
  | acquire : Moves l (some (.acquire l)) .outside .entering
  | release {before : Stage} (inside : before ≠ .outside) :
      Moves l (some (.release l)) before .outside
  | wait {before : Stage} {c : Nat} (inside : before ≠ .outside) :
      Moves l (some (.wait c l)) before .entering
  /-- Another routine, called at the same stage. -/
  | stays {c : Routine} {before : Stage} (apart : ¬ AboutLock l (.call c)) :
      Moves l (some c) before before
  /-- Another routine, called with the lock. -/
  | works {c : Routine} {before after : Stage} (apart : ¬ AboutLock l (.call c))
      (inside : before ≠ .outside) (still : after ≠ .outside) : Moves l (some c) before after
  | quiet {before after : Stage} (same : before = .outside ↔ after = .outside) :
      Moves l none before after

theorem Disciplined.perform {after : Stage} (disciplined : Disciplined l k stage) (user : k.InUser)
    (moves : Moves l routine (stage k.currentThread) after)
    (performed : k.perform routine = .ok k') :
    Disciplined l k' (Function.update stage k.currentThread after) := by
  generalize here : stage k.currentThread = before at moves
  cases moves with
  | acquire => exact disciplined.acquire user here performed
  | release inside =>
    cases performed
    exact disciplined.release user (here ▸ inside)
  | wait inside => exact disciplined.wait user (here ▸ inside) performed
  | stays apart =>
    have other := disciplined.other (.call user performed) apart
    rwa [← here, Function.update_eq_self]
  | works apart inside still =>
    have holder := disciplined.holds user (here ▸ inside)
    have taken : ThreadStep k (.call _) k' := .call user performed
    have kept : k'.lockHolder l = some k.currentThread :=
      (disciplined.placement.lockEffect taken).holder_kept disciplined.known holder
        fun _ leaves => apart (.inr leaves)
    refine disciplined.call user performed ?_
    cases after with
    | outside => exact absurd rfl still
    | entering => exact .inl kept
    | inside => exact kept
  | quiet same =>
    cases performed
    by_cases outside : before = .outside
    · have unmoved : after = stage k.currentThread := by rw [same.mp outside, here, outside]
      rwa [unmoved, Function.update_eq_self]
    · exact disciplined.move user (here ▸ outside) fun left => outside (same.mpr left)

/-! ## The lists of the conditions -/

theorem wait_queue (holder : k.lockHolder l = some k.currentThread) (done : k.wait c l = .ok k') :
    k'.queue (.condition c) = k.queue (.condition c) ++ [k.currentThread] := by
  have slept := (wait_of_holder holder).symm.trans done
  have queue : (k.released l).queue (.condition c) = k.queue (.condition c) :=
    wakeFirst_queue_of_ne (by simp) (by simp)
  rw [(sleep_switched slept).queue _ (by simp)]
  simp [append, setControl, queue, released_current]

theorem signal_queue (holder : k.lockHolder l = some k.currentThread) :
    (k.signal c l).queue (.condition c) = (k.queue (.condition c)).tail := by
  simp only [signal, isHeldByCurrentThread, holder, decide_true, if_true]
  exact wakeFirst_queue_self (by simp)

theorem broadcastLoop_queue_self (turns : Nat) (k : Threads) :
    (k.broadcastLoop c turns).queue (.condition c) = (k.queue (.condition c)).drop turns := by
  induction turns generalizing k with
  | zero => rfl
  | succ turns ih =>
    simp only [broadcastLoop]
    rw [ih, wakeFirst_queue_self (by simp), List.drop_tail]

theorem broadcast_queue (holder : k.lockHolder l = some k.currentThread) :
    (k.broadcast c l).queue (.condition c) = [] := by
  simp only [broadcast, isHeldByCurrentThread, holder, decide_true, if_true]
  rw [broadcastLoop_queue_self, List.drop_length]

theorem apply_of_not_holder {call : Routine} (other : k.lockHolder l ≠ some k.currentThread)
    (about : call = .wait c l ∨ call = .signal c l ∨ call = .broadcast c l)
    (done : call.apply k = .ok k') : k' = k := by
  obtain rfl | rfl | rfl := about <;>
    simpa [Routine.apply, wait, signal, broadcast, isHeldByCurrentThread, other] using done.symm

/-- A thread is in the list of a condition because it was there before, or because it calls
`Wait`. -/
theorem mem_condition_from (taken : ThreadStep k event k') (member : t ∈ k'.queue (.condition c)) :
    t ∈ k.queue (.condition c) ∨ (t = k.currentThread ∧ ∃ l, event = .call (.wait c l)) := by
  by_cases apart : event.ApartFrom c
  · exact .inl (taken.condition_same apart ▸ member)
  · obtain ⟨l, about⟩ := not_forall.mp apart
    have calls : event = .call (.wait c l) ∨ event = .call (.signal c l) ∨
        event = .call (.broadcast c l) := by
      by_contra none
      simp only [not_or] at none
      exact about none
    -- without the lock the three routines do nothing
    by_cases holder : k.lockHolder l = some k.currentThread
    · obtain rfl | rfl | rfl := calls
      · cases taken with
        | call user done =>
          rw [wait_queue holder done, List.mem_append, List.mem_singleton] at member
          cases member with
          | inl before => exact .inl before
          | inr new => exact .inr ⟨new, l, rfl⟩
      · cases taken with
        | call user done =>
          cases done
          rw [signal_queue holder] at member
          exact .inl (List.mem_of_mem_tail member)
      · cases taken with
        | call user done =>
          cases done
          rw [broadcast_queue holder] at member
          cases member
    · cases taken with
      | call user done =>
        have about := calls
        simp only [ThreadEvent.call.injEq] at about
        exact .inl (apply_of_not_holder holder about done ▸ member)
      | resume | handler | idleReturn => simp at calls

section

variable (user : k.InUser) (performed : k.perform routine = .ok k')

include user performed

/-- What the statement leaves in the list of a condition. -/
theorem perform_condition_from (member : t ∈ k'.queue (.condition c)) :
    t ∈ k.queue (.condition c) ∨ (t = k.currentThread ∧ ∃ l, routine = some (.wait c l)) := by
  cases perform_step user performed with
  | inl nothing => exact .inl (nothing.2 ▸ member)
  | inr step =>
    obtain ⟨call, rfl, taken⟩ := step
    cases mem_condition_from taken member with
    | inl before => exact .inl before
    | inr waits =>
      obtain ⟨same, l, calls⟩ := waits
      cases calls
      exact .inr ⟨same, l, rfl⟩

theorem perform_condition_others (other : t ≠ k.currentThread)
    (kept : ∀ l, routine ≠ some (.signal c l) ∧ routine ≠ some (.broadcast c l)) :
    t ∈ k'.queue (.condition c) ↔ t ∈ k.queue (.condition c) := by
  constructor
  · intro member
    cases perform_condition_from user performed member with
    | inl before => exact before
    | inr new => exact absurd new.1 other
  · intro member
    cases perform_step user performed with
    | inl nothing => exact nothing.2 ▸ member
    | inr step =>
      obtain ⟨call, rfl, taken⟩ := step
      by_cases waits : ∃ l, call = .wait c l
      · obtain ⟨l, rfl⟩ := waits
        by_cases holder : k.lockHolder l = some k.currentThread
        · rw [wait_queue holder performed]
          exact List.mem_append_left _ member
        · exact apply_of_not_holder holder (.inl rfl) performed ▸ member
      · rw [taken.condition_same fun l => ⟨fun calls => ?_, fun calls => ?_, fun calls => ?_⟩]
        · exact member
        · cases calls
          exact waits ⟨l, rfl⟩
        · cases calls
          exact (kept l).1 rfl
        · cases calls
          exact (kept l).2 rfl

theorem perform_condition_same
    (apart : ∀ call, routine = some call → (ThreadEvent.call call).ApartFrom c) :
    k'.queue (.condition c) = k.queue (.condition c) := by
  cases perform_step user performed with
  | inl nothing => rw [nothing.2]
  | inr step =>
    obtain ⟨call, called, taken⟩ := step
    exact taken.condition_same (apart call called)

end

end Threads

/-! ## Statements -/

namespace Programs

variable {γ π : Type} {code : Code γ π} {s s' : Programs γ π} {t : Nat}

inductive Advance (code : Code γ π) (s : Programs γ π) : Programs γ π → Prop where
  | intro {globals : γ} {routine : Option Routine} {place : π} {threads : Threads}
      (ran : code s.globals s.here = .ok (globals, routine, place))
      (performed : s.threads.perform routine = .ok threads) :
      Advance code s (s.goTo place threads globals)

theorem statement_advance (done : s.statement code = .ok s') : Advance code s s' := by
  obtain ⟨⟨globals, routine, place⟩, ran, rest⟩ := bind_eq_ok.mp done
  obtain ⟨threads, performed, result⟩ := bind_eq_ok.mp rest
  cases result
  exact .intro ran performed

section GoTo

variable {place : π} {threads : Threads} {globals : γ}

@[simp] theorem goTo_position_self :
    (s.goTo place threads globals).position s.threads.currentThread = place :=
  Function.update_self ..

theorem goTo_position_of_ne (other : t ≠ s.threads.currentThread) :
    (s.goTo place threads globals).position t = s.position t :=
  Function.update_of_ne other ..

theorem stage_goTo (stage : π → Stage) :
    (fun t => stage ((s.goTo place threads globals).position t)) =
      Function.update (fun t => stage (s.position t)) s.threads.currentThread (stage place) := by
  funext t
  by_cases same : t = s.threads.currentThread
  · subst same
    simp
  · simp [goTo_position_of_ne same, same]

end GoTo

def Blocked (conditions : Nat → Prop) (waitsFor : π → Option Nat) (s : Programs γ π) : Prop :=
  ∀ c, conditions c → ∀ t, t ∈ s.threads.queue (.condition c) → waitsFor (s.position t) = some c

variable {conditions : Nat → Prop} {waitsFor : π → Option Nat}

theorem Blocked.advance {globals : γ} {routine : Option Routine} {place : π} {threads : Threads}
    (blocked : Blocked conditions waitsFor s) (placement : s.threads.Placement)
    (user : s.threads.InUser) (performed : s.threads.perform routine = .ok threads)
    (waits : ∀ c l, conditions c → routine = some (.wait c l) → waitsFor place = some c) :
    Blocked conditions waitsFor (s.goTo place threads globals) := by
  intro c ours t member
  cases Threads.perform_condition_from user performed member with
  | inl before =>
    have other : t ≠ s.threads.currentThread := by
      rintro rfl
      exact (placement.awake user.1).nowhere _ before
    rw [goTo_position_of_ne other]
    exact blocked c ours t before
  | inr new =>
    obtain ⟨rfl, l, calls⟩ := new
    rw [goTo_position_self]
    exact waits c l ours calls

theorem Blocked.other {event : ThreadEvent} {threads : Threads}
    (blocked : Blocked conditions waitsFor s) (taken : ThreadStep s.threads event threads)
    (apart : ∀ c, conditions c → event.ApartFrom c) :
    Blocked conditions waitsFor { s with threads := threads } := by
  intro c ours t member
  have member : t ∈ threads.queue (.condition c) := member
  rw [taken.condition_same (apart c ours)] at member
  exact blocked c ours t member

end Programs

end Nachos
