import Nachos.Verified.ProcessTree

/-!
# What Join returns

A process in `Join` waits until the pid is free, and then takes the status from the one cell
`childExitValue` that all its children write when they end.  So it gets the status of the
child it waited for if no other child ends between the end of that child and its own
return.  A child that kills itself leaves its pid there and not -1.
-/

namespace Nachos

open Loops Runs

def Processes.joinTarget (s : Processes) (q : Ref) : Option Ref :=
  match s.control q with
  | .user => none
  | .joining _ childPCB => some childPCB

variable {s s' : Processes} {call : Call} {pcb : PCB} {q c : Ref} {joinPID : Int}
  {history : List (Processes × Call)}

namespace Call

def status : Call → BitVec 32
  | .exit _ val => val
  | .kill _ _ => -1#32
  | _ => 0#32

def killer : Call → Option Ref
  | .kill current _ => some current
  | _ => none

theorem passes_eq_status {ending : Ref} (which : call.ends s = some ending)
    (notSelf : call.killer ≠ some ending) :
    call.passes s = call.status := by
  cases call with
  | exit current val => rfl
  | kill current killPID =>
    have other : ending ≠ current := fun same => notSelf (same ▸ rfl)
    simp [Call.passes, Call.status, which, other]
  | start | fork | yield | join | resume => cases which

end Call

def exitStatus : List (Processes × Call) → Ref → Option (BitVec 32)
  | [], _ => none
  | (s, call) :: earlier, c =>
    if call.ends s = some c then some call.status else exitStatus earlier c

/-- A process that ends has the least pid among its siblings.  If its parent waits in `Join`,
then for this process, which is not killing itself, or for one that is still alive. -/
def JoinSafe (s : Processes) (call : Call) : Prop :=
  EndsLowest s call ∧
    ∀ ending ∈ call.ends s, ∀ ended ∈ s.heap ending, ∀ q ∈ ended.parentPCB,
      ∀ c ∈ s.joinTarget q, if c = ending then call.killer ≠ some ending else (s.heap c).isSome

instance (s : Processes) (call : Call) : Decidable (JoinSafe s call) :=
  inferInstanceAs (Decidable (_ ∧ _))

/-! ## The invariant -/

/-- A process that waits does so for a live child with that pid, or it already has the
status of the child, which has ended. -/
structure Awaiting (history : List (Processes × Call)) (s : Processes) : Prop where
  table : Tabled s
  tree : ProcessTree s
  waits : ∀ {q pcb joinPID c}, s.heap q = some pcb → s.control q = .joining joinPID c →
    s.IsChild q c joinPID ∨
      (s.heap c = none ∧ c < s.nextRef ∧ exitStatus history c = some pcb.childExitValue)

theorem Tabled.lt_nextRef (table : Tabled s) {r : Ref} (found : s.heap r = some pcb) :
    r < s.nextRef := by
  by_contra above
  rw [table.unused r (not_lt.mp above)] at found
  cases found

/-- Where the tree stays as it is, only `Join` itself lets a process wait. -/
theorem CallStep.new_wait (step : CallStep s call s') (table : Tabled s) (tree : ProcessTree s)
    (awaits : call.awaits = some q) (waits : s'.control q = .joining joinPID c) :
    s.control q = .joining joinPID c ∨ s.IsChild q c joinPID := by
  cases step with
  | join ready run =>
    cases awaits
    obtain rfl | ⟨childPCB, looked, rfl⟩ := joinSystemcall_inv run
    · exact Or.inl waits
    · right
      obtain ⟨pcb, found⟩ := Option.isSome_iff_exists.mp ready.1
      simp only [Processes.setControl, if_true, Control.joining.injEq] at waits
      obtain ⟨rfl, rfl⟩ := waits
      exact (tree.getChildPCB (table.live found) _ _).mp looked
  | resume alive waited run =>
    cases awaits
    obtain ⟨-, rfl⟩ | ⟨-, pcb, -, -, rfl⟩ := joinResume_inv run
    · exact Or.inl waits
    · simp [Processes.setControl] at waits
  | start | fork | exit | kill | yield => cases awaits

theorem exitStatus_none (other : call.ends s ≠ some c) :
    exitStatus ((s, call) :: history) c = exitStatus history c := if_neg other

abbrev Promised (history : List (Processes × Call)) (s : Processes) (q c : Ref) (joinPID : Int)
    (pcb : PCB) : Prop :=
  s.IsChild q c joinPID ∨
    (s.heap c = none ∧ c < s.nextRef ∧ exitStatus history c = some pcb.childExitValue)

section

variable (earlier : Awaiting history s) (found : s'.heap q = some pcb)
  (waits : s'.control q = .joining joinPID c)

include earlier found waits

theorem Awaiting.same (step : CallStep s call s') (ends : call.ends s = none) (same : SameTree s s')
    (control : ∀ r, call.awaits ≠ some r → s'.control r = s.control r) :
    Promised ((s, call) :: history) s' q c joinPID pcb := by
  unfold Promised
  rw [exitStatus_none (by simp [ends])]
  obtain ⟨changed, rfl⟩ := same
  by_cases own : call.awaits = some q
  · obtain before | isChild := step.new_wait earlier.table earlier.tree own waits
    · exact earlier.waits found before
    · exact Or.inl isChild
  · rw [control q own] at waits
    exact earlier.waits found waits

theorem Awaiting.created {parent : Option Ref} {newPID : Nat} (ends : call.ends s = none)
    (created : Created parent newPID s s') : Promised ((s, call) :: history) s' q c joinPID pcb := by
  rw [created.control] at waits
  obtain ⟨rfl, -⟩ | ⟨old, before, there, rfl⟩ := created.cases found
  · simp at waits
  · rw [if_neg old] at waits
    obtain isChild | ⟨gone, older, status⟩ := earlier.waits there waits
    · exact Or.inl ((created.isChild_iff earlier.table).mpr (Or.inr isChild))
    · right
      rw [created.heap c older.ne, gone, created.nextRef, exitStatus_none (by simp [ends])]
      refine ⟨rfl, Nat.lt_succ_of_lt older, status.trans ?_⟩
      unfold PCB.adopt
      split <;> rfl

theorem Awaiting.ended {ending : Ref} {ended : PCB} (which : call.ends s = some ending)
    (safe : JoinSafe s call) (table' : Tabled s')
    (done : Ended ending ended (PCB.outlive ending ended (call.passes s)) s s') :
    Promised ((s, call) :: history) s' q c joinPID pcb := by
  obtain ⟨stays, before, there, rfl⟩ := done.cases found
  obtain ⟨isEnded, rfl⟩ := id done
  change s.control q = _ at waits
  have target : s.joinTarget q = some c := by simp only [Processes.joinTarget, waits]
  obtain isChild | ⟨gone, older, status⟩ := earlier.waits there waits
  · by_cases isEnding : c = ending
    · -- the child that `q` waits for ends now, and `q` gets its status
      right
      subst isEnding
      obtain ⟨child, foundChild, isParent, -⟩ := earlier.table.isChild_iff.mp isChild
      obtain rfl : child = ended := Option.some.inj (foundChild.symm.trans done.found)
      have notSelf := safe.2 c which child done.found q isParent c target
      rw [if_pos rfl] at notSelf
      refine ⟨if_pos rfl, earlier.table.lt_nextRef done.found, ?_⟩
      simp [exitStatus, which, PCB.outlive, isParent, Call.passes_eq_status which notSelf]
    · exact Or.inl ((done.isChild_iff earlier.table table' stays).mpr ⟨isEnding, isChild⟩)
  · right
    have notEnding : c ≠ ending := by
      rintro rfl
      rw [done.found] at gone
      cases gone
    have notParent : ended.parentPCB ≠ some q := by
      intro isParent
      have alive := safe.2 ending which ended done.found q isParent c target
      simp [notEnding, gone] at alive
    have other : call.ends s ≠ some c := by
      rw [which]
      exact fun same => notEnding (Option.some.inj same).symm
    rw [exitStatus_none other]
    refine ⟨by simp [notEnding, gone], older, ?_⟩
    simp [PCB.outlive, notParent, status]

end

theorem Awaiting.step (earlier : Awaiting history s) (safe : JoinSafe s call)
    (step : CallStep s call s') :
    Awaiting ((s, call) :: history) s' := by
  have table := step.tabled earlier.table
  refine ⟨table, step.tree earlier.table earlier.tree safe.1, fun found waits => ?_⟩
  cases step.effect earlier.table with
  | same none same control => exact earlier.same found waits step none same control
  | created parent newPID none created => exact earlier.created found waits none created
  | terminated ending which run =>
    obtain ⟨ended, done⟩ := terminate_ended earlier.table earlier.tree run
    exact earlier.ended found waits which safe table done

/-! ## Every run -/

theorem reachable_awaiting {junk : Nat → BitVec 32} (run : Run CallStep (.boot junk) history s)
    (safe : Guarded JoinSafe history) : Awaiting history s :=
  run.historyInvariant (I := Awaiting)
    ⟨boot_tabled junk, boot_tree junk, fun found => by cases found⟩
    (fun _ _ _ _ earlier guard step => earlier.step guard step) safe

/-- A live child has its pid set, so `Join` does not return. -/
theorem Processes.IsChild.isSet (table : Tabled s) {pid : Int} (isChild : s.IsChild q c pid) :
    s.isSet pid = .ok true := by
  obtain ⟨child, live, -, rfl⟩ := isChild
  obtain ⟨bound, -⟩ := table.listed live.2
  have set := table.bit child.pid bound
  rw [live.2] at set
  exact BitMap.test_eq_ok.mpr ⟨BitMap.inRange_ofNat (table.numBits ▸ bound), set.symm⟩

theorem joinSystemcall_waits {joinPID : BitVec 32} (table : Tabled s) (tree : ProcessTree s)
    (alive : (s.heap q).isSome) (isChild : s.IsChild q c joinPID.toInt) :
    s.joinSystemcall q joinPID =
      .ok (none, s.setControl q (.joining joinPID.toInt c)) := by
  obtain ⟨pcb, found⟩ := Option.isSome_iff_exists.mp alive
  have looked := (tree.getChildPCB (table.live found) _ _).mpr isChild
  obtain ⟨child, live, isParent, pid⟩ := isChild
  have bound := (table.listed live.2).1
  have inRange : ¬ (joinPID.toInt < 0 ∨ (s.numTotalPID : Int) ≤ joinPID.toInt) := by
    rw [table.numTotalPID]
    omega
  simp [Processes.joinSystemcall, inRange, looked, pcb_eq_ok.mpr live.1, pcb_eq_ok.mpr found,
    isParent, assert, ok_bind, pure_eq]

/-- In a run of safe steps, a process that calls `Join` with the pid of a live child waits
for that child, and when it returns the child has ended, and the value that it gets is the
status of the child. -/
theorem join_returns_status {junk : Nat → BitVec 32} {history : List (Processes × Call)}
    {s : Processes} (run : Run CallStep (.boot junk) history s)
    (safe : Guarded JoinSafe history) :
    (∀ q c joinPID, s.Ready q → s.IsChild q c joinPID.toInt →
      s.joinSystemcall q joinPID =
        .ok (none, s.setControl q (.joining joinPID.toInt c))) ∧
    (∀ q c joinPID value s', (s.heap q).isSome → s.control q = .joining joinPID c →
      s.joinResume q joinPID = .ok (some value, s') →
      s.heap c = none ∧ exitStatus history c = some value) := by
  obtain ⟨table, tree, waiting⟩ := reachable_awaiting run safe
  refine ⟨fun q c joinPID ready isChild => joinSystemcall_waits table tree ready.1 isChild, ?_⟩
  intro q c joinPID value s' alive waits returned
  obtain ⟨notYet, -⟩ | ⟨isClear, pcb, found, result, -⟩ := joinResume_inv returned
  · cases notYet
  · obtain isChild | ⟨gone, -, status⟩ := waiting found waits
    · rw [isChild.isSet table] at isClear
      cases isClear
    · exact ⟨gone, status.trans result.symm⟩

/-- A parent waits for the first of its two children, which exits with 5. -/
theorem join_first_child : ∃ history s s',
    Run CallStep (.boot fun _ => 0#32) history s ∧ Guarded JoinSafe history ∧
    history.map Prod.snd = [.exit 1 5#32, .join 0 1#32, .fork 0, .fork 0, .start] ∧
    s.control 0 = .joining 1 1 ∧ s.joinResume 0 1 = .ok (some 5#32, s') ∧
    s.heap 1 = none ∧ exitStatus history 1 = some 5#32 := by
  simp only [exists_and_left]
  refine computed_run performCall_step (fun history s => Guarded JoinSafe history ∧
      s.control 0 = .joining 1 1 ∧ (s.heap 0).isSome = true ∧
      ∃ s', s.joinResume 0 1 = .ok (some 5#32, s') ∧ True)
    [.start, .fork 0, .fork 0, .join 0 1#32, .exit 1 5#32] (by decide +kernel)
    fun history s run labels checked => ?_
  obtain ⟨safe, waits, alive, s', returned, -⟩ := checked
  exact ⟨safe, labels, waits, s', returned,
    (join_returns_status run safe).2 0 1 1 5#32 s' alive waits returned⟩

/-- A parent waits for the first of its two children, which exits with 5.  Before the parent
runs again the second one exits with 7, and `Join` returns 7. -/
theorem join_returns_other_status : ∃ history s s',
    Run CallStep (.boot fun _ => 0#32) history s ∧
    history.map Prod.snd =
      [.exit 2 7#32, .exit 1 5#32, .join 0 1#32, .fork 0, .fork 0, .start] ∧
    s.control 0 = .joining 1 1 ∧ s.joinResume 0 1 = .ok (some 7#32, s') ∧
    exitStatus history 1 = some 5#32 := by
  simp only [exists_and_left, exists_and_right]
  refine labelled_run performCall_step (fun history s => s.control 0 = .joining 1 1 ∧
      (∃ s', s.joinResume 0 1 = .ok (some 7#32, s') ∧ True) ∧ exitStatus history 1 = some 5#32)
    (by decide +kernel) fun history s _ checked => ?_
  simpa only [and_true] using checked

end Nachos
