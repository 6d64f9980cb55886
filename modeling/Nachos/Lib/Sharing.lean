import Mathlib.Tactic.Common

/-!
# Frames shared copy-on-write

An abstract account of who holds which frame.  Holders are slots `(p, v)`: entry
`v` of party `p`.  Beside the holdings themselves a sharing records three things
that a manager updates separately: the write protection of each slot, the parties
entered as owners of each frame, and the frames in use.

`Coherent` is what makes sharing safe.  Every operation keeps it, even when the
owner table has entries for parties that no longer hold the frame.  `ExactUpTo E`
adds that there are no such stale entries outside `E`.
-/

@[ext] structure Sharing (P V F : Type) where
  hold : P → V → F → Prop
  readOnly : P → V → Prop
  owner : F → P → Prop
  used : F → Prop

namespace Sharing

variable {P V F : Type}

theorem ext_of_iff {S T : Sharing P V F} (hold : ∀ p v f, S.hold p v f ↔ T.hold p v f)
    (readOnly : ∀ p v, S.readOnly p v ↔ T.readOnly p v)
    (owner : ∀ f p, S.owner f p ↔ T.owner f p) (used : ∀ f, S.used f ↔ T.used f) : S = T := by
  apply Sharing.ext
  · funext p v f; exact propext (hold p v f)
  · funext p v; exact propext (readOnly p v)
  · funext f p; exact propext (owner f p)
  · funext f; exact propext (used f)

/-! ## Operations -/

def dropOwners (S : Sharing P V F) (f : F) (D : P → Prop) : Sharing P V F where
  hold p v g := S.hold p v g ∧ ¬ (g = f ∧ D p)
  readOnly p v := S.readOnly p v ∧ ¬ (S.hold p v f ∧ D p)
  owner g p := S.owner g p ∧ ¬ (g = f ∧ D p)
  used := S.used

def take (S : Sharing P V F) (f : F) (p : P) : Sharing P V F :=
  { S with
    owner := fun g q => S.owner g q ∨ (g = f ∧ q = p)
    used := fun g => S.used g ∨ g = f }

def assign (S : Sharing P V F) (p : P) (v : V) (f : F) : Sharing P V F :=
  { S with
    hold := fun q w g => (q = p ∧ w = v ∧ g = f) ∨ (¬ (q = p ∧ w = v) ∧ S.hold q w g)
    readOnly := fun q w => S.readOnly q w ∧ ¬ (q = p ∧ w = v) }

/-- Strike `p` from the owners of `f`; when a single owner is left, the slot in
which it holds `f` becomes writable. -/
def unshare (S : Sharing P V F) (f : F) (p : P) : Sharing P V F :=
  { S with
    owner := fun g q => S.owner g q ∧ ¬ (g = f ∧ q = p)
    readOnly := fun q w =>
      S.readOnly q w ∧ ¬ (S.hold q w f ∧ ∀ r, (S.owner f r ∧ r ≠ p) ↔ r = q) }

def free (S : Sharing P V F) (f : F) : Sharing P V F :=
  { S with used := fun g => S.used g ∧ g ≠ f }

def remove (S : Sharing P V F) (p : P) : Sharing P V F :=
  { S with
    hold := fun q w g => S.hold q w g ∧ q ≠ p
    readOnly := fun q w => S.readOnly q w ∧ q ≠ p }

def adopt (S : Sharing P V F) (p c : P) : Sharing P V F where
  hold q w g := (q = c ∧ S.hold p w g) ∨ (q ≠ c ∧ S.hold q w g)
  readOnly q w :=
    (q = c ∧ (S.readOnly p w ∨ ∃ g, S.hold p w g)) ∨
      (q ≠ c ∧ (S.readOnly q w ∨ (q = p ∧ ∃ g, S.hold p w g)))
  owner g q := S.owner g q ∨ (q = c ∧ ∃ w, S.hold p w g)
  used := S.used

theorem remove_unshare (S : Sharing P V F) (f : F) (p : P) :
    (S.unshare f p).remove p = (S.remove p).unshare f p := by
  apply ext_of_iff <;> intros <;> simp only [unshare, remove]
  tauto

theorem remove_free (S : Sharing P V F) (f : F) (p : P) :
    (S.free f).remove p = (S.remove p).free f := rfl

theorem remove_remove (S : Sharing P V F) (p : P) : (S.remove p).remove p = S.remove p := by
  apply ext_of_iff <;> intros <;> simp only [remove] <;> tauto

theorem dropOwners_dropOwners (S : Sharing P V F) (f : F) (D D' : P → Prop) :
    (S.dropOwners f D).dropOwners f D' = S.dropOwners f fun q => D q ∨ D' q := by
  apply ext_of_iff <;> intros <;> simp only [dropOwners] <;> tauto

theorem dropOwners_empty (S : Sharing P V F) (f : F) : S.dropOwners f (fun _ => False) = S := by
  apply ext_of_iff <;> intros <;> simp only [dropOwners, and_false, not_false_eq_true, and_true]

def Acquired (S : Sharing P V F) (f : F) (p : P) (T : Sharing P V F) : Prop :=
  (¬ S.used f ∧ T = S.take f p) ∨ T = (S.dropOwners f fun _ => True).take f p

def Unheld (S : Sharing P V F) (f : F) : Prop := ∀ q w, ¬ S.hold q w f

/-! ## Coherence -/

/-- The safety of a sharing: holders are entered as owners and hold frames in
use, no party holds a frame twice, and a frame held by two parties is write
protected in both. -/
structure Coherent (S : Sharing P V F) : Prop where
  functional : ∀ {p v f g}, S.hold p v f → S.hold p v g → f = g
  owned : ∀ {p v f}, S.hold p v f → S.owner f p
  inUse : ∀ {p v f}, S.hold p v f → S.used f
  once : ∀ {p v w f}, S.hold p v f → S.hold p w f → v = w
  sharedReadOnly : ∀ {p v q w f}, S.hold p v f → S.hold q w f → p ≠ q → S.readOnly p v

variable {S T : Sharing P V F} {f : F} {p c : P} {v : V}

namespace Acquired

theorem owner (acquired : S.Acquired f p T) : T.owner f p := by
  rcases acquired with ⟨-, rfl⟩ | rfl <;> exact Or.inr ⟨rfl, rfl⟩

theorem used (acquired : S.Acquired f p T) : T.used f := by
  rcases acquired with ⟨-, rfl⟩ | rfl <;> exact Or.inr rfl

theorem hold_iff (acquired : S.Acquired f p T) (coherent : Coherent S) (q : P) (w : V) (g : F) :
    T.hold q w g ↔ S.hold q w g ∧ g ≠ f := by
  rcases acquired with ⟨idle, rfl⟩ | rfl
  · constructor
    · intro held
      refine ⟨held, ?_⟩
      rintro rfl
      exact idle (coherent.inUse held)
    · exact And.left
  · simp [take, dropOwners]

theorem unheld (acquired : S.Acquired f p T) (coherent : Coherent S) : T.Unheld f :=
  fun q w held => ((acquired.hold_iff coherent q w f).mp held).2 rfl

theorem owner_other (acquired : S.Acquired f p T) {g : F} (other : g ≠ f) (q : P) :
    T.owner g q ↔ S.owner g q := by
  rcases acquired with ⟨-, rfl⟩ | rfl <;> simp [take, dropOwners, other]

end Acquired

namespace Coherent

section

variable (coherent : Coherent S)

include coherent

theorem exclusive {q : P} {w : V} (held : S.hold p v f)
    (writable : ¬ S.readOnly p v) (other : S.hold q w f) : q = p ∧ w = v := by
  have same : p = q := by
    by_contra different
    exact writable (coherent.sharedReadOnly held other different)
  subst same
  exact ⟨rfl, coherent.once other held⟩

theorem dropOwners (D : P → Prop) : Coherent (S.dropOwners f D) where
  functional left right := coherent.functional left.1 right.1
  owned held := ⟨coherent.owned held.1, held.2⟩
  inUse held := coherent.inUse held.1
  once left right := coherent.once left.1 right.1
  sharedReadOnly := by
    intro p v q w g left right different
    refine ⟨coherent.sharedReadOnly left.1 right.1 different, ?_⟩
    rintro ⟨held, dropped⟩
    exact left.2 ⟨coherent.functional left.1 held, dropped⟩

theorem dropOwners_of_slot (held : S.hold p v f)
    (hold : ∀ q w g, T.hold q w g ↔ ¬ (q = p ∧ w = v) ∧ S.hold q w g)
    (readOnly : ∀ q w, T.readOnly q w ↔ ¬ (q = p ∧ w = v) ∧ S.readOnly q w)
    (owner : ∀ g q, T.owner g q ↔ S.owner g q ∧ ¬ (g = f ∧ q = p))
    (used : ∀ g, T.used g ↔ S.used g) : T = S.dropOwners f (· = p) := by
  have slot : ∀ {q w}, S.hold q w f → q = p → w = v := by
    rintro q w here rfl
    exact coherent.once here held
  apply ext_of_iff
  · intro q w g
    rw [hold, and_comm]
    apply and_congr_right
    intro here
    apply not_congr
    constructor
    · rintro ⟨rfl, rfl⟩
      exact ⟨coherent.functional here held, rfl⟩
    · rintro ⟨rfl, same⟩
      exact ⟨same, slot here same⟩
  · intro q w
    rw [readOnly, and_comm]
    apply and_congr_right
    intro _
    apply not_congr
    constructor
    · rintro ⟨rfl, rfl⟩
      exact ⟨held, rfl⟩
    · rintro ⟨here, same⟩
      exact ⟨same, slot here same⟩
  · exact owner
  · exact used

theorem dropOwners_of_unowned (unowned : ¬ S.owner f p) :
    S.dropOwners f (· = p) = S := by
  have notHolder : ∀ w, ¬ S.hold p w f := fun w held => unowned (coherent.owned held)
  apply ext_of_iff
  · intro q w g
    refine ⟨And.left, fun held => ⟨held, ?_⟩⟩
    rintro ⟨rfl, rfl⟩
    exact notHolder w held
  · intro q w
    refine ⟨And.left, fun protectedSlot => ⟨protectedSlot, ?_⟩⟩
    rintro ⟨held, rfl⟩
    exact notHolder w held
  · intro g q
    refine ⟨And.left, fun owner => ⟨owner, ?_⟩⟩
    rintro ⟨rfl, rfl⟩
    exact unowned owner
  · intro g
    rfl

theorem dropOwners_all {D : P → Prop} (all : ∀ q, S.owner f q → D q) :
    S.dropOwners f D = S.dropOwners f fun _ => True := by
  apply ext_of_iff
  · intro q w g
    apply and_congr_right
    intro held
    apply not_congr
    refine ⟨fun dropped => ⟨dropped.1, trivial⟩, ?_⟩
    rintro ⟨rfl, -⟩
    exact ⟨rfl, all q (coherent.owned held)⟩
  · intro q w
    apply and_congr_right
    intro _
    apply not_congr
    exact ⟨fun dropped => ⟨dropped.1, trivial⟩,
      fun dropped => ⟨dropped.1, all q (coherent.owned dropped.1)⟩⟩
  · intro g q
    apply and_congr_right
    intro owner
    apply not_congr
    refine ⟨fun dropped => ⟨dropped.1, trivial⟩, ?_⟩
    rintro ⟨rfl, -⟩
    exact ⟨rfl, all q owner⟩
  · intro g
    rfl

theorem take : Coherent (S.take f p) where
  functional := coherent.functional
  owned held := Or.inl (coherent.owned held)
  inUse held := Or.inl (coherent.inUse held)
  once := coherent.once
  sharedReadOnly := coherent.sharedReadOnly

theorem acquire (acquired : S.Acquired f p T) : Coherent T := by
  rcases acquired with ⟨-, rfl⟩ | rfl
  · exact coherent.take
  · exact (coherent.dropOwners _).take

theorem assign (unheld : S.Unheld f) (owned : S.owner f p)
    (used : S.used f) : Coherent (S.assign p v f) where
  functional := by
    rintro q w g g' (⟨rfl, rfl, rfl⟩ | ⟨other, left⟩) (⟨party, slot, frame⟩ | ⟨other', right⟩)
    · exact frame.symm
    · exact absurd ⟨rfl, rfl⟩ other'
    · exact absurd ⟨party, slot⟩ other
    · exact coherent.functional left right
  owned := by
    rintro q w g (⟨rfl, rfl, rfl⟩ | ⟨-, held⟩)
    · exact owned
    · exact coherent.owned held
  inUse := by
    rintro q w g (⟨rfl, rfl, rfl⟩ | ⟨-, held⟩)
    · exact used
    · exact coherent.inUse held
  once := by
    rintro q w w' g (⟨rfl, rfl, rfl⟩ | ⟨-, left⟩) (⟨-, rfl, same⟩ | ⟨-, right⟩)
    · rfl
    · exact absurd right (unheld _ _)
    · subst same; exact absurd left (unheld _ _)
    · exact coherent.once left right
  sharedReadOnly := by
    rintro q w q' w' g (⟨rfl, rfl, rfl⟩ | ⟨other, left⟩) (⟨rfl, rfl, same⟩ | ⟨-, right⟩) different
    · exact absurd rfl different
    · exact absurd right (unheld _ _)
    · subst same; exact absurd left (unheld _ _)
    · exact ⟨coherent.sharedReadOnly left right different, other⟩

theorem unshare (gone : ∀ w, ¬ S.hold p w f) :
    Coherent (S.unshare f p) where
  functional := coherent.functional
  owned := by
    intro q w g held
    refine ⟨coherent.owned held, ?_⟩
    rintro ⟨rfl, rfl⟩
    exact gone _ held
  inUse := coherent.inUse
  once := coherent.once
  sharedReadOnly := by
    intro q w q' w' g left right different
    refine ⟨coherent.sharedReadOnly left right different, ?_⟩
    rintro ⟨held, sole⟩
    -- the other holder would be a second owner of the frame
    have sameFrame := coherent.functional left held
    subst sameFrame
    have notGone : q' ≠ p := by
      rintro rfl
      exact gone _ right
    exact different ((sole q').mp ⟨coherent.owned right, notGone⟩).symm

theorem free (unheld : S.Unheld f) : Coherent (S.free f) where
  functional := coherent.functional
  owned := coherent.owned
  inUse := by
    intro q w g held
    refine ⟨coherent.inUse held, ?_⟩
    rintro rfl
    exact unheld _ _ held
  once := coherent.once
  sharedReadOnly := coherent.sharedReadOnly

theorem remove : Coherent (S.remove p) where
  functional left right := coherent.functional left.1 right.1
  owned held := coherent.owned held.1
  inUse held := coherent.inUse held.1
  once left right := coherent.once left.1 right.1
  sharedReadOnly left right different :=
    ⟨coherent.sharedReadOnly left.1 right.1 different, left.2⟩

theorem adopt (different : c ≠ p) : Coherent (S.adopt p c) where
  functional := by
    rintro q w g g' (⟨rfl, left⟩ | ⟨other, left⟩) (⟨same, right⟩ | ⟨other', right⟩)
    · exact coherent.functional left right
    · exact absurd rfl other'
    · exact absurd same other
    · exact coherent.functional left right
  owned := by
    rintro q w g (⟨rfl, held⟩ | ⟨-, held⟩)
    · exact Or.inr ⟨rfl, w, held⟩
    · exact Or.inl (coherent.owned held)
  inUse := by
    rintro q w g (⟨-, held⟩ | ⟨-, held⟩) <;> exact coherent.inUse held
  once := by
    rintro q w w' g (⟨rfl, left⟩ | ⟨other, left⟩) (⟨same, right⟩ | ⟨other', right⟩)
    · exact coherent.once left right
    · exact absurd rfl other'
    · exact absurd same other
    · exact coherent.once left right
  sharedReadOnly := by
    rintro q w q' w' g (⟨rfl, left⟩ | ⟨other, left⟩) right apart
    · exact Or.inl ⟨rfl, Or.inr ⟨g, left⟩⟩
    · refine Or.inr ⟨other, ?_⟩
      rcases right with ⟨rfl, right⟩ | ⟨-, right⟩
      · by_cases parent : q = p
        · subst parent
          exact Or.inr ⟨rfl, g, left⟩
        · exact Or.inl (coherent.sharedReadOnly left right parent)
      · exact Or.inl (coherent.sharedReadOnly left right apart)

end

end Coherent

/-! ## Exactness -/

/-- A coherent sharing in which, outside the pairs of `E`, every owner entry is
backed by a slot, every used frame has an owner, and only frames with a second
owner are write protected. -/
structure ExactUpTo (E : F → P → Prop) (S : Sharing P V F) : Prop extends Coherent S where
  backed : ∀ {f p}, S.owner f p → ¬ E f p → ∃ v, S.hold p v f
  usedOwned : ∀ {f}, S.used f → ∃ p, S.owner f p
  readOnlyShared : ∀ {p v f}, S.hold p v f → S.readOnly p v → ∃ q, q ≠ p ∧ S.owner f q

abbrev Exact (S : Sharing P V F) : Prop := ExactUpTo (fun _ _ => False) S

namespace ExactUpTo

variable {E E' : F → P → Prop}

section

variable (exact : ExactUpTo E S)

include exact

theorem weaken (within : ∀ g q, E g q → E' g q) : ExactUpTo E' S :=
  { exact with backed := fun owner free => exact.backed owner fun stale => free (within _ _ stale) }

/-- Taking a frame over from all its holders leaves one stale entry, the taker's. -/
theorem evict_take :
    ExactUpTo (fun g q => E g q ∨ (g = f ∧ q = p)) ((S.dropOwners f fun _ => True).take f p) where
  toCoherent := (exact.toCoherent.dropOwners _).take
  backed := by
    rintro g q (⟨owner, kept⟩ | here) allowed
    · obtain ⟨v, held⟩ := exact.backed owner fun stale => allowed (Or.inl stale)
      exact ⟨v, held, kept⟩
    · exact absurd (Or.inr here) allowed
  usedOwned := by
    rintro g (used | rfl)
    · by_cases taken : g = f
      · exact ⟨p, Or.inr ⟨taken, rfl⟩⟩
      · obtain ⟨q, owner⟩ := exact.usedOwned used
        exact ⟨q, Or.inl ⟨owner, fun dropped => taken dropped.1⟩⟩
    · exact ⟨p, Or.inr ⟨rfl, rfl⟩⟩
  readOnlyShared := by
    rintro q w g ⟨held, kept⟩ ⟨protectedSlot, -⟩
    obtain ⟨q', different, owner⟩ := exact.readOnlyShared held protectedSlot
    exact ⟨q', different, Or.inl ⟨owner, fun dropped => kept ⟨dropped.1, trivial⟩⟩⟩

theorem take :
    ExactUpTo (fun g q => E g q ∨ (g = f ∧ q = p)) (S.take f p) where
  toCoherent := exact.toCoherent.take
  backed := by
    rintro g q (owner | here) allowed
    · exact exact.backed owner fun stale => allowed (Or.inl stale)
    · exact absurd (Or.inr here) allowed
  usedOwned := by
    rintro g (used | rfl)
    · obtain ⟨q, owner⟩ := exact.usedOwned used
      exact ⟨q, Or.inl owner⟩
    · exact ⟨p, Or.inr ⟨rfl, rfl⟩⟩
  readOnlyShared := by
    intro q w g held protectedSlot
    obtain ⟨q', different, owner⟩ := exact.readOnlyShared held protectedSlot
    exact ⟨q', different, Or.inl owner⟩

theorem acquire (acquired : S.Acquired f p T) :
    ExactUpTo (fun g q => E g q ∨ (g = f ∧ q = p)) T := by
  rcases acquired with ⟨-, rfl⟩ | rfl
  · exact exact.take
  · exact exact.evict_take

theorem assign (unheld : S.Unheld f) (owned : S.owner f p) (used : S.used f) :
    ExactUpTo (fun g q => (E g q ∧ ¬ (g = f ∧ q = p)) ∨ (q = p ∧ S.hold p v g))
      (S.assign p v f) where
  toCoherent := exact.toCoherent.assign unheld owned used
  backed := by
    intro g q owner allowed
    by_cases filled : g = f ∧ q = p
    · obtain ⟨rfl, rfl⟩ := filled
      exact ⟨v, Or.inl ⟨rfl, rfl, rfl⟩⟩
    · obtain ⟨w, held⟩ := exact.backed owner fun stale => allowed (Or.inl ⟨stale, filled⟩)
      refine ⟨w, Or.inr ⟨?_, held⟩⟩
      rintro ⟨rfl, rfl⟩
      exact allowed (Or.inr ⟨rfl, held⟩)
  usedOwned := exact.usedOwned
  readOnlyShared := by
    rintro q w g (⟨rfl, rfl, rfl⟩ | ⟨-, held⟩) ⟨protectedSlot, other⟩
    · exact absurd ⟨rfl, rfl⟩ other
    · exact exact.readOnlyShared held protectedSlot

theorem unshare (gone : ∀ w, ¬ S.hold p w f) (remaining : ∃ q, q ≠ p ∧ S.owner f q) :
    ExactUpTo (fun g q => E g q ∧ ¬ (g = f ∧ q = p)) (S.unshare f p) where
  toCoherent := exact.toCoherent.unshare gone
  backed := by
    rintro g q ⟨owner, kept⟩ allowed
    exact exact.backed owner fun stale => allowed ⟨stale, kept⟩
  usedOwned := by
    intro g used
    by_cases same : g = f
    · subst same
      obtain ⟨q, different, owner⟩ := remaining
      exact ⟨q, owner, fun struck => different struck.2⟩
    · obtain ⟨q, owner⟩ := exact.usedOwned used
      exact ⟨q, owner, fun struck => same struck.1⟩
  readOnlyShared := by
    rintro q w g held ⟨protectedSlot, notSole⟩
    obtain ⟨q', different, owner⟩ := exact.readOnlyShared held protectedSlot
    by_cases struck : g = f ∧ q' = p
    · -- the second owner was the one struck, so a third one must exist
      obtain ⟨rfl, rfl⟩ := struck
      have selfOwner : S.owner g q ∧ q ≠ q' := ⟨exact.owned held, different.symm⟩
      by_contra alone
      refine notSole ⟨held, fun r => ⟨fun other => ?_, fun same => same ▸ selfOwner⟩⟩
      by_contra third
      exact alone ⟨r, third, other.1, fun struck => other.2 struck.2⟩
    · exact ⟨q', different, owner, struck⟩

theorem remove :
    ExactUpTo (fun g q => E g q ∨ (q = p ∧ ∃ v, S.hold p v g)) (S.remove p) where
  toCoherent := exact.toCoherent.remove
  backed := by
    intro g q owner allowed
    obtain ⟨w, held⟩ := exact.backed owner fun stale => allowed (Or.inl stale)
    refine ⟨w, held, ?_⟩
    rintro rfl
    exact allowed (Or.inr ⟨rfl, w, held⟩)
  usedOwned := exact.usedOwned
  readOnlyShared held protectedSlot := exact.readOnlyShared held.1 protectedSlot.1

theorem adopt (different : c ≠ p) (fresh : ∀ w g, ¬ S.hold c w g) : ExactUpTo E (S.adopt p c) where
  toCoherent := exact.toCoherent.adopt different
  backed := by
    rintro g q (owner | ⟨rfl, w, held⟩) allowed
    · obtain ⟨w, held⟩ := exact.backed owner allowed
      have notChild : q ≠ c := by
        rintro rfl
        exact fresh _ _ held
      exact ⟨w, Or.inr ⟨notChild, held⟩⟩
    · exact ⟨w, Or.inl ⟨rfl, held⟩⟩
  usedOwned := by
    intro g used
    obtain ⟨q, owner⟩ := exact.usedOwned used
    exact ⟨q, Or.inl owner⟩
  readOnlyShared := by
    rintro q w g (⟨rfl, held⟩ | ⟨notChild, held⟩) protectedSlot
    · exact ⟨p, different.symm, Or.inl (exact.owned held)⟩
    · rcases protectedSlot with ⟨same, -⟩ | ⟨-, protectedSlot | ⟨rfl, -⟩⟩
      · exact absurd same notChild
      · obtain ⟨q', apart, owner⟩ := exact.readOnlyShared held protectedSlot
        exact ⟨q', apart, Or.inl owner⟩
      · exact ⟨c, different, Or.inr ⟨rfl, w, held⟩⟩

end

end ExactUpTo

end Sharing
