import Mathlib.Tactic.Common

/-!
# Runs of a labelled transition system

`Run step s₀ history s` says that `s` is reached from `s₀` by the steps of
`history`, which lists each step's label with the state before it, the latest
step first.  The rules below turn facts about one step into facts about every
state of every run.
-/

namespace Runs

variable {σ α : Type}

/-- A finite run from `s₀`, with its history (latest step first). -/
inductive Run (step : σ → α → σ → Prop) (s₀ : σ) : List (σ × α) → σ → Prop where
  | start : Run step s₀ [] s₀
  | next {history : List (σ × α)} {s s' : σ} {a : α} :
      Run step s₀ history s → step s a s' → Run step s₀ ((s, a) :: history) s'

variable {step : σ → α → σ → Prop} {s₀ s : σ} {history : List (σ × α)}

def Throughout (P : σ → Prop) (history : List (σ × α)) (s : σ) : Prop :=
  (∀ visited ∈ history, P visited.1) ∧ P s

def Guarded (guard : σ → α → Prop) (history : List (σ × α)) : Prop :=
  ∀ taken ∈ history, guard taken.1 taken.2

instance {guard : σ → α → Prop} [∀ t a, Decidable (guard t a)] (history : List (σ × α)) :
    Decidable (Guarded guard history) :=
  inferInstanceAs (Decidable (∀ taken ∈ history, guard taken.1 taken.2))

variable {guard : σ → α → Prop} {before : σ} {a : α} {I : σ → Prop}

theorem Guarded.tail {taken : σ × α} (guarded : Guarded guard (taken :: history)) :
    Guarded guard history :=
  fun earlier member => guarded earlier (List.mem_cons_of_mem _ member)

theorem Guarded.head (guarded : Guarded guard ((before, a) :: history)) : guard before a :=
  guarded (before, a) List.mem_cons_self

theorem guarded_cons :
    Guarded guard ((before, a) :: history) ↔ guard before a ∧ Guarded guard history :=
  List.forall_mem_cons

/-- An invariant kept by every guarded step holds after every guarded run. -/
theorem Run.invariant (initial : I s₀) (preserved : ∀ t a t', I t → guard t a → step t a t' → I t')
    (run : Run step s₀ history s) (guarded : Guarded guard history) : I s := by
  induction run with
  | start => exact initial
  | next _ taken ih =>
    exact preserved _ _ _ (ih guarded.tail) guarded.head taken

theorem Run.always (initial : I s₀) (preserved : ∀ t a t', I t → step t a t' → I t')
    (run : Run step s₀ history s) : I s := by
  induction run with
  | start => exact initial
  | next _ taken ih => exact preserved _ _ _ ih taken

theorem Run.historyInvariant {I : List (σ × α) → σ → Prop} (initial : I [] s₀)
    (preserved : ∀ h t a t', I h t → guard t a → step t a t' → I ((t, a) :: h) t')
    (run : Run step s₀ history s) (guarded : Guarded guard history) : I history s := by
  induction run with
  | start => exact initial
  | next _ taken ih =>
    exact preserved _ _ _ _ (ih guarded.tail) guarded.head taken

theorem Run.throughout (initial : I s₀) (preserved : ∀ t a t', I t → guard t a → step t a t' → I t')
    (run : Run step s₀ history s) (guarded : Guarded guard history) :
    Throughout I history s := by
  induction run with
  | start => exact ⟨by simp, initial⟩
  | next _ taken ih =>
    obtain ⟨earlier, current⟩ := ih guarded.tail
    refine ⟨?_, preserved _ _ _ current guarded.head taken⟩
    intro visited member
    rcases List.mem_cons.mp member with rfl | member
    · exact current
    · exact earlier visited member

/-- `guard` is the exact condition for `P` to hold throughout a run: `I` is an
invariant of the guarded steps that gives `P`, and the first step taken against
the guard leaves a state without `P`. -/
theorem Run.throughout_iff_guarded {I P : σ → Prop} (initial : I s₀)
    (preserved : ∀ t a t', I t → guard t a → step t a t' → I t') (gives : ∀ t, I t → P t)
    (broken : ∀ t a t', I t → ¬ guard t a → step t a t' → ¬ P t') (run : Run step s₀ history s) :
    Throughout P history s ↔ Guarded guard history := by
  constructor
  · intro holds
    induction run with
    | start => intro taken member; cases member
    | @next history before after a earlier taken ih =>
      have earlierHolds : Throughout P history before :=
        ⟨fun visited member => holds.1 visited (List.mem_cons_of_mem _ member),
          holds.1 (before, a) List.mem_cons_self⟩
      have guarded := ih earlierHolds
      have invariant : I before := earlier.invariant initial preserved guarded
      intro visited member
      rcases List.mem_cons.mp member with rfl | member
      · by_contra against
        exact broken _ _ _ invariant against taken holds.2
      · exact guarded visited member
  · intro guarded
    obtain ⟨earlier, current⟩ := run.throughout initial preserved guarded
    exact ⟨fun visited member => gives _ (earlier visited member), gives _ current⟩

/-! ## Steps with both of their states -/

/-- The steps of a run with the states before and after them, the latest first. -/
def transitions : List (σ × α) → σ → List (σ × α × σ)
  | [], _ => []
  | (before, a) :: history, after => (before, a, after) :: transitions history before

@[simp] theorem transitions_nil : transitions ([] : List (σ × α)) s = [] := rfl

@[simp] theorem transitions_cons :
    transitions ((before, a) :: history) s = (before, a, s) :: transitions history before := rfl

/-- A fact about each step from a state with the invariant holds of every step of a guarded run. -/
theorem Run.eachTransition {Q : σ × α × σ → Prop} (initial : I s₀)
    (preserved : ∀ t a t', I t → guard t a → step t a t' → I t')
    (holds : ∀ t a t', I t → guard t a → step t a t' → Q (t, a, t')) (run : Run step s₀ history s)
    (guarded : Guarded guard history) : ∀ taken ∈ transitions history s, Q taken := by
  induction run with
  | start => simp
  | next earlier taken ih =>
    intro visited member
    rcases List.mem_cons.mp member with rfl | member
    · exact holds _ _ _ (earlier.invariant initial preserved guarded.tail) guarded.head taken
    · exact ih guarded.tail visited member

/-! ## Runs that are computed -/

/-- The state after a list of labels, with the history of the run; `perform` computes one
step, when there is one. -/
def execute (perform : α → σ → Option σ) :
    List α → List (σ × α) → σ → Option (List (σ × α) × σ)
  | [], history, s => some (history, s)
  | a :: labels, history, s =>
    match perform a s with
    | some s' => execute perform labels ((s, a) :: history) s'
    | none => none

variable {perform : α → σ → Option σ} {labels : List α} {history' : List (σ × α)} {s' : σ}

theorem execute_run (sound : ∀ {a t t'}, perform a t = some t' → step t a t')
    (earlier : Run step s₀ history s)
    (executed : execute perform labels history s = some (history', s')) :
    Run step s₀ history' s' := by
  induction labels generalizing history s with
  | nil =>
    cases executed
    exact earlier
  | cons a labels ih =>
    simp only [execute] at executed
    split at executed
    next t taken => exact ih (earlier.next (sound taken)) executed
    next => cases executed

theorem execute_labels (executed : execute perform labels history s = some (history', s')) :
    history'.map Prod.snd = labels.reverse ++ history.map Prod.snd := by
  induction labels generalizing history s with
  | nil =>
    cases executed
    rfl
  | cons a labels ih =>
    simp only [execute] at executed
    split at executed
    next t taken => simp [ih executed]
    next => cases executed

section Computed

variable (sound : ∀ {a t t'}, perform a t = some t' → step t a t')
  (check : List (σ × α) → σ → Prop) [∀ history s, Decidable (check history s)]
  {P : List (σ × α) → σ → Prop}

include sound

theorem computed_run (labels : List α)
    (computed : (execute perform labels [] s₀).any (fun r => decide (check r.1 r.2)) = true)
    (shows : ∀ history s, Run step s₀ history s → history.map Prod.snd = labels.reverse →
      check history s → P history s) : ∃ history s, Run step s₀ history s ∧ P history s := by
  obtain ⟨⟨history, s⟩, executed, checked⟩ := (Option.any_eq_true _ _).mp computed
  have run := execute_run sound .start executed
  have taken := execute_labels executed
  exact ⟨history, s, run, shows history s run (by simpa using taken) (of_decide_eq_true checked)⟩

/-- The run whose labels, the latest first, the goal gives. -/
theorem labelled_run {labels : List α}
    (computed : (execute perform labels.reverse [] s₀).any (fun r => decide (check r.1 r.2)) = true)
    (shows : ∀ history s, Run step s₀ history s → check history s → P history s) :
    ∃ history s, Run step s₀ history s ∧ history.map Prod.snd = labels ∧ P history s := by
  refine computed_run sound check labels.reverse computed fun history s run taken checked => ?_
  exact ⟨by simpa using taken, shows history s run checked⟩

end Computed

/-- What happened before does not matter to a computed run. -/
theorem execute_append (earlier : List (σ × α))
    (executed : execute perform labels history s = some (history', s')) :
    execute perform labels (history ++ earlier) s = some (history' ++ earlier, s') := by
  induction labels generalizing history s with
  | nil =>
    cases executed
    rfl
  | cons a labels ih =>
    simp only [execute] at executed ⊢
    split at executed
    next t taken => exact ih executed
    next => cases executed

end Runs
