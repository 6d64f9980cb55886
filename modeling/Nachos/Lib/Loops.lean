import Mathlib.Tactic.Common

/-!
# Counted loops

The `for (i = 0; i < n; ++i)` loops of an imperative program, as functions of the
bound: `forUpTo` runs a pure body, `forUpToM` a body that may abort, and
`firstIndex` is the loop that breaks at the first index with a property.  Each
comes with the rule its proofs use: an invariant of the body is an invariant of
the loop.
-/

namespace Loops

variable {σ ε α β : Type}

/-! ## Computations that may abort -/

variable {first : Except ε α} {n : Nat} {s : σ} {body : Nat → σ → Except ε σ} {p : Nat → Bool}

theorem bind_eq_ok {second : α → Except ε β} {result : β} :
    (first >>= second) = .ok result ↔ ∃ middle, first = .ok middle ∧ second middle = .ok result := by
  rcases first with failure | middle <;> simp [bind, Except.bind]

theorem ok_bind (value : α) (second : α → Except ε β) : (.ok value >>= second) = second value := rfl

theorem pure_eq (value : α) : (pure value : Except ε α) = .ok value := rfl

theorem map_eq_ok {change : α → β} {result : β} :
    first.map change = .ok result ↔ ∃ middle, first = .ok middle ∧ change middle = result := by
  rcases first with failure | middle <;> simp [Except.map]

/-! What a computation yields is decided by running it. -/

instance decidableFails (failure : ε) [DecidableEq ε] : (first : Except ε α) → Decidable
    (first = .error failure)
  | .ok _ => .isFalse nofun
  | .error other => decidable_of_iff (other = failure) (by simp)

instance decidableYields (P : α → Prop) [DecidablePred P] :
    (first : Except ε α) → Decidable (∃ result, first = .ok result ∧ P result)
  | .ok value => decidable_of_iff (P value) (by simp)
  | .error _ => .isFalse (by simp)

instance decidableYieldsPair (P : α → β → Prop) [∀ a b, Decidable (P a b)] (first : Except ε (α × β)) :
    Decidable (∃ a b, first = .ok (a, b) ∧ P a b) :=
  decidable_of_iff (∃ result, first = .ok result ∧ P result.1 result.2) (by simp)

instance decidableYieldsWith (a : α) [DecidableEq α] (P : β → Prop) [DecidablePred P]
    (first : Except ε (α × β)) :
    Decidable (∃ b, first = .ok (a, b) ∧ P b) :=
  decidable_of_iff (∃ result, first = .ok result ∧ result.1 = a ∧ P result.2) (by aesop)

instance decidableFinds (P : α → Prop) [DecidablePred P] :
    (found : Option α) → Decidable (∃ result, found = some result ∧ P result)
  | some value => decidable_of_iff (P value) (by simp)
  | none => .isFalse (by simp)

/-! ## Loops over a list -/

/-- `Inv` holds of the items done so far.  The loop goes on as long as the next item is admitted. -/
theorem foldlM_cases {f : σ → α → Except ε σ} (Inv : List α → σ → Prop)
    (Admits : List α → α → Prop) {items : List α}
    (step : ∀ done item rest t, items = done ++ item :: rest → Inv done t →
      (Admits done item ∧ ∃ t', f t item = .ok t' ∧ Inv (done ++ [item]) t') ∨
        (¬ Admits done item ∧ ∃ failure, f t item = .error failure))
    {done rest : List α} {t : σ} (isItems : items = done ++ rest) (begins : Inv done t)
    (admitted : ∀ before item after, items = before ++ item :: after → before.length < done.length →
      Admits before item) :
    (∃ t', rest.foldlM f t = .ok t' ∧ Inv items t' ∧
      ∀ before item after, items = before ++ item :: after → Admits before item) ∨
    ∃ failure, rest.foldlM f t = .error failure ∧
      ∃ before item after, items = before ++ item :: after ∧ ¬ Admits before item := by
  induction rest generalizing done t with
  | nil =>
    rw [List.append_nil] at isItems
    subst isItems
    refine .inl ⟨t, rfl, begins, fun before item after split => admitted before item after split ?_⟩
    rw [split, List.length_append, List.length_cons]
    omega
  | cons item rest ih =>
    obtain ⟨admits, t₁, next, inv⟩ | ⟨rejects, failure, failed⟩ := step done item rest t isItems begins
    · have isItems' : items = (done ++ [item]) ++ rest := by
        rw [isItems, List.append_assoc]
        rfl
      rw [List.foldlM_cons, next]
      refine ih isItems' inv fun before item' after split shorter => ?_
      by_cases earlier : before.length < done.length
      · exact admitted before item' after split earlier
      · have same : before.length = done.length := by
          simp only [List.length_append, List.length_singleton] at shorter
          omega
        obtain ⟨rfl, others⟩ := List.append_inj (split.symm.trans isItems) same
        obtain ⟨rfl, -⟩ := List.cons.inj others
        exact admits
    · rw [List.foldlM_cons, failed]
      exact .inr ⟨failure, rfl, done, item, rest, isItems, rejects⟩

/-! ## Loops -/

def forUpTo (body : Nat → σ → σ) : Nat → σ → σ
  | 0, s => s
  | n + 1, s => body n (forUpTo body n s)

def forUpToM (body : Nat → σ → Except ε σ) : Nat → σ → Except ε σ
  | 0, s => .ok s
  | n + 1, s => forUpToM body n s >>= body n

theorem forUpToM_add (body : Nat → σ → Except ε σ) (m n : Nat) (s : σ) :
    forUpToM body (m + n) s = forUpToM body m s >>= forUpToM (fun i => body (m + i)) n := by
  induction n with
  | zero =>
    simp only [Nat.add_zero, forUpToM]
    cases forUpToM body m s with
    | error => rfl
    | ok => rfl
  | succ n ih =>
    show forUpToM body (m + n) s >>= body (m + n) = _
    rw [ih]
    cases forUpToM body m s with
    | error => rfl
    | ok => rfl

theorem forUpTo_invariant (body : Nat → σ → σ) (P : Nat → σ → Prop) (base : P 0 s)
    (step : ∀ i < n, ∀ t, P i t → P (i + 1) (body i t)) :
    P n (forUpTo body n s) := by
  induction n with
  | zero => exact base
  | succ n ih =>
    apply step n (Nat.lt_succ_self n)
    exact ih fun i bound => step i (by omega)

theorem forUpToM_error {k n : Nat} {s t : σ} {failure : ε} (before : forUpToM body k s = .ok t)
    (fails : body k t = .error failure) (more : k < n) :
    forUpToM body n s = .error failure := by
  obtain ⟨rest, rfl⟩ := Nat.exists_eq_add_of_lt more
  have first : forUpToM body (k + 1) s = .error failure := by
    show forUpToM body k s >>= body k = _
    rw [before]
    exact fails
  rw [Nat.add_right_comm, forUpToM_add, first]
  rfl

theorem forUpToM_invariant (P : Nat → σ → Prop) {s s' : σ} (run : forUpToM body n s = .ok s')
    (base : P 0 s) (step : ∀ i < n, ∀ t t', P i t → body i t = .ok t' → P (i + 1) t') : P n s' := by
  induction n generalizing s' with
  | zero =>
    simp only [forUpToM, Except.ok.injEq] at run
    exact run ▸ base
  | succ n ih =>
    obtain ⟨middle, before, last⟩ := bind_eq_ok.mp run
    have held := ih before fun i bound => step i (by omega)
    exact step n (Nat.lt_succ_self n) middle s' held last

theorem forUpToM_total (P : Nat → σ → Prop) (base : P 0 s)
    (step : ∀ i < n, ∀ t, P i t → ∃ t', body i t = .ok t' ∧ P (i + 1) t') :
    ∃ s', forUpToM body n s = .ok s' ∧ P n s' := by
  induction n with
  | zero => exact ⟨s, rfl, base⟩
  | succ n ih =>
    obtain ⟨middle, before, held⟩ := ih fun i bound => step i (by omega)
    obtain ⟨last, done, result⟩ := step n (Nat.lt_succ_self n) middle held
    exact ⟨last, bind_eq_ok.mpr ⟨middle, before, done⟩, result⟩

/-! ## Searching loops -/

/-- The loop `for (i = 0; i < n; ++i) if (p i) break;` leaves `i` at this value:
the first index below `n` with `p`, or `n`. -/
def firstIndex (p : Nat → Bool) : Nat → Nat
  | 0 => 0
  | n + 1 =>
    let i := firstIndex p n
    if i < n then i else if p n then n else n + 1

theorem firstIndex_spec (found : firstIndex p n < n) :
    p (firstIndex p n) = true := by
  induction n with
  | zero => omega
  | succ n ih =>
    simp only [firstIndex] at found ⊢
    split at found
    next earlier =>
      rw [if_pos earlier]
      exact ih earlier
    next notEarlier =>
      rw [if_neg notEarlier]
      split at found
      next here => rw [if_pos here]; exact here
      next notHere => omega

theorem not_of_lt_firstIndex {n i : Nat} (before : i < firstIndex p n) :
    p i = false := by
  induction n with
  | zero => simp [firstIndex] at before
  | succ n ih =>
    simp only [firstIndex] at before
    split at before
    · exact ih before
    next notEarlier =>
      by_cases below : i < n
      · exact ih (by omega)
      · split at before
        next here => omega
        next notHere =>
          have last : i = n := by omega
          subst last
          simpa using notHere

theorem firstIndex_lt {n i : Nat} (bound : i < n) (holds : p i = true) :
    firstIndex p n < n := by
  by_contra missed
  have absent : p i = false := not_of_lt_firstIndex (n := n) (by omega)
  rw [holds] at absent
  cases absent

end Loops
