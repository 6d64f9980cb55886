import Mathlib.Data.Finset.Card

/-!
# Reference counts

Resources `κ` with the set of users `ω` of each and a count that should be the number of
users.  Sharing and releasing keep the count right; a leak raises the count without a user.
-/

namespace RefCount

variable {κ ω : Type}

@[ext] structure Counts (κ ω : Type) where
  users : κ → Finset ω
  count : κ → Nat

def Covered (c : Counts κ ω) : Prop := ∀ k, (c.users k).card ≤ c.count k

def Exact (c : Counts κ ω) : Prop := ∀ k, (c.users k).card = c.count k

variable [DecidableEq κ] [DecidableEq ω]

def share (c : Counts κ ω) (k : κ) (o : ω) : Counts κ ω where
  users j := if j = k then insert o (c.users j) else c.users j
  count j := if j = k then c.count j + 1 else c.count j

def release (c : Counts κ ω) (k : κ) (o : ω) : Counts κ ω where
  users j := if j = k then (c.users j).erase o else c.users j
  count j := if j = k then c.count j - 1 else c.count j

omit [DecidableEq ω] in
def leak (c : Counts κ ω) (k : κ) : Counts κ ω where
  users := c.users
  count j := if j = k then c.count j + 1 else c.count j

inductive Balanced (c : Counts κ ω) : Counts κ ω → Prop where
  | same : Balanced c c
  | share {c' : Counts κ ω} {k : κ} {o : ω} :
      Balanced c c' → o ∉ c'.users k → Balanced c (share c' k o)
  | release {c' : Counts κ ω} {k : κ} {o : ω} :
      Balanced c c' → o ∈ c'.users k → Balanced c (release c' k o)

theorem Balanced.trans {c c' c'' : Counts κ ω} (first : Balanced c c')
    (second : Balanced c' c'') : Balanced c c'' := by
  induction second with
  | same => exact first
  | share _ fresh ih => exact ih.share fresh
  | release _ user ih => exact ih.release user

variable {c c' : Counts κ ω}

theorem Balanced.covered (balanced : Balanced c c') (covered : Covered c) :
    Covered c' := by
  induction balanced with
  | same => exact covered
  | @share c' k o _ fresh ih =>
    intro j
    have before := ih j
    simp only [RefCount.share]
    split
    next here =>
      subst here
      rw [Finset.card_insert_of_notMem fresh]
      omega
    next => exact before
  | @release c' k o _ user ih =>
    intro j
    have before := ih j
    simp only [RefCount.release]
    split
    next here =>
      subst here
      rw [Finset.card_erase_of_mem user]
      omega
    next => exact before

theorem Balanced.exact (balanced : Balanced c c') (exact : Exact c) :
    Exact c' := by
  induction balanced with
  | same => exact exact
  | @share c' k o _ fresh ih =>
    intro j
    have before := ih j
    simp only [RefCount.share]
    split
    next here =>
      subst here
      rw [Finset.card_insert_of_notMem fresh, before]
    next => exact before
  | @release c' k o _ user ih =>
    intro j
    have before := ih j
    simp only [RefCount.release]
    split
    next here =>
      subst here
      rw [Finset.card_erase_of_mem user, before]
    next => exact before

omit [DecidableEq ω] in
theorem leak_covered (covered : Covered c) (k : κ) : Covered (leak c k) := by
  intro j
  have before := covered j
  simp only [leak]
  split
  next => omega
  next => exact before

omit [DecidableEq ω] in
theorem leak_not_exact (exact : Exact c) (k : κ) : ¬ Exact (leak c k) := by
  intro after
  have here := after k
  simp only [leak, if_true] at here
  have before := exact k
  omega

end RefCount
