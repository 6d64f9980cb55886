import Nachos.UserProg.SystemCalls

/-!
# The tree of processes

A process knows its parent, and its parent keeps it in a list sorted by pid.
`RemoveChildPCB` relies on `SortedRemove` to take a child out of that list, but
`SortedRemove` takes out the first element, whatever the key.  So parent pointers and
lists agree in every state of a run exactly when every process that ends has no parent, or
the least pid among the children of its parent.
-/

namespace Nachos

open Loops Runs

namespace Processes

def Live (s : Processes) (ref : Ref) (pcb : PCB) : Prop :=
  s.heap ref = some pcb ∧ s.allPCB pcb.pid = some ref

def IsChild (s : Processes) (q c : Ref) (pid : Int) : Prop :=
  ∃ child, s.Live c child ∧ child.parentPCB = some q ∧ (child.pid : Int) = pid

end Processes

structure ProcessTree (s : Processes) : Prop where
  parents : ∀ {c child q}, s.Live c child → child.parentPCB = some q → ∃ pcb, s.Live q pcb
  sorted : ∀ {q pcb}, s.Live q pcb → SortedByKey pcb.childrenPCB
  children : ∀ {q pcb}, s.Live q pcb → ∀ key c,
    (⟨key, c⟩ : ListElement Ref) ∈ pcb.childrenPCB ↔ s.IsChild q c key
  getChildPCB : ∀ {q pcb}, s.Live q pcb → ∀ pid c,
    s.getChildPCB q pid = .ok (some c) ↔ s.IsChild q c pid

/-- The process table lists the PCBs that exist, each under its pid, and a process is newer
than its parent. -/
structure Tabled (s : Processes) : Prop where
  numBits : s.pidMap.numBits = pidMapSize
  numTotalPID : s.numTotalPID = pidMapSize
  bit : ∀ pid < pidMapSize, s.pidMap.bit pid = (s.allPCB pid).isSome
  listed : ∀ {pid ref}, s.allPCB pid = some ref →
    pid < pidMapSize ∧ ∃ pcb, s.heap ref = some pcb ∧ pcb.pid = pid
  tabled : ∀ {ref pcb}, s.heap ref = some pcb → s.allPCB pcb.pid = some ref
  unused : ∀ ref, s.nextRef ≤ ref → s.heap ref = none
  older : ∀ {ref pcb parent}, s.heap ref = some pcb → pcb.parentPCB = some parent → parent < ref

variable {s s' : Processes} {ref q c current ending r : Ref} {pcb : PCB} {pid : Int}
  {value : BitVec 32} {call : Call}

theorem Tabled.live (table : Tabled s) (found : s.heap ref = some pcb) :
    s.Live ref pcb := ⟨found, table.tabled found⟩

theorem Tabled.isChild_iff (table : Tabled s) :
    s.IsChild q c pid ↔
      ∃ child, s.heap c = some child ∧ child.parentPCB = some q ∧ (child.pid : Int) = pid := by
  constructor
  · intro ⟨child, live, parent, key⟩
    exact ⟨child, live.1, parent, key⟩
  · intro ⟨child, found, parent, key⟩
    exact ⟨child, table.live found, parent, key⟩

theorem Tabled.ne_nextRef (table : Tabled s) (found : s.heap r = some pcb) : r ≠ s.nextRef := by
  intro same
  rw [same, table.unused _ (le_refl _)] at found
  cases found

theorem Tabled.pid_inj (table : Tabled s) {ref ref' : Ref} {pcb pcb' : PCB}
    (found : s.heap ref = some pcb) (found' : s.heap ref' = some pcb') (same : pcb.pid = pcb'.pid) :
    ref = ref' := by
  have listed := table.tabled found
  rw [same, table.tabled found'] at listed
  exact (Option.some.inj listed).symm

theorem pcb_eq_ok :
    s.pcb ref = .ok pcb ↔ s.heap ref = some pcb := by
  unfold Processes.pcb
  split
  next found => simp [found]
  next missing => simp [missing]

theorem ProcessTree.of_lists (table : Tabled s) (parents : ∀ {c child q}, s.heap c = some child →
      child.parentPCB = some q → ∃ pcb, s.heap q = some pcb)
    (sorted : ∀ {q pcb}, s.heap q = some pcb → SortedByKey pcb.childrenPCB) (children : ∀ {q pcb},
      s.heap q = some pcb → ∀ key c, (⟨key, c⟩ : ListElement Ref) ∈ pcb.childrenPCB ↔ s.IsChild q c
      key) : ProcessTree s where
  parents live parent := by
    obtain ⟨pcb, found⟩ := parents live.1 parent
    exact ⟨pcb, table.live found⟩
  sorted live := sorted live.1
  children live := children live.1
  getChildPCB := by
    intro q pcb live pid c
    rw [← children live.1, ← search_eq_some (sorted live.1)]
    have found := pcb_eq_ok.mpr live.1
    simp [Processes.getChildPCB, found, ok_bind, pure_eq]

/-! ## What the system calls do to the tree -/

def SameTree (s s' : Processes) : Prop :=
  ∃ control, s' = { s with control := control }

def PCB.adopt (parent : Option Ref) (newPCB : Ref) (newPID : Nat) (r : Ref) (pcb : PCB) : PCB :=
  if parent = some r then
    { pcb with childrenPCB := sortedInsert newPCB newPID pcb.childrenPCB }
  else pcb

structure Created (parent : Option Ref) (newPID : Nat) (s s' : Processes) : Prop where
  parentExists : ∀ q, parent = some q → (s.heap q).isSome
  bound : newPID < pidMapSize
  free : s.pidMap.bit newPID = false
  least : ∀ pid < newPID, s.pidMap.bit pid = true
  newPCB : s'.heap s.nextRef = some ⟨newPID, parent, [], 0#32⟩
  heap : ∀ r ≠ s.nextRef, s'.heap r = (s.heap r).map (PCB.adopt parent s.nextRef newPID r)
  nextRef : s'.nextRef = s.nextRef + 1
  pidMap : s'.pidMap = s.pidMap.markBit newPID
  numTotalPID : s'.numTotalPID = s.numTotalPID
  allPCB : ∀ pid, s'.allPCB pid = if pid = newPID then some s.nextRef else s.allPCB pid
  control : ∀ r, s'.control r = if r = s.nextRef then .user else s.control r

def PCB.outlive (ending : Ref) (ended : PCB) (value : BitVec 32) (r : Ref) (pcb : PCB) : PCB where
  pid := pcb.pid
  parentPCB := if pcb.parentPCB = some ending then none else pcb.parentPCB
  childrenPCB := if ended.parentPCB = some r then pcb.childrenPCB.tail else pcb.childrenPCB
  childExitValue := if ended.parentPCB = some r then value else pcb.childExitValue

/-- The process `ending` is gone; `after` is what has become of the other PCBs. -/
structure Ended (ending : Ref) (ended : PCB) (after : Ref → PCB → PCB) (s s' : Processes) :
    Prop where
  found : s.heap ending = some ended
  result : s' = { s with
    heap := fun r => if r = ending then none else (s.heap r).map (after r)
    pidMap := s.pidMap.clearBit ended.pid
    allPCB := fun pid => if pid = ended.pid then none else s.allPCB pid }

theorem createPCB_created {s t : Processes} {newPCB : Ref} (table : Tabled s)
    (created : s.createPCB = some (newPCB, t)) :
    newPCB = s.nextRef ∧ ∃ newPID, Created none newPID s (t.setControl newPCB .user) ∧
      t = { s.setPCB s.nextRef (some ⟨newPID, none, [], 0#32⟩) with
        nextRef := s.nextRef + 1
        pidMap := s.pidMap.markBit newPID
        allPCB := fun pid => if pid = newPID then some s.nextRef else s.allPCB pid } := by
  unfold Processes.createPCB at created
  split at created
  next full => cases created
  next notFull =>
    obtain ⟨newPID, below, free, least, result⟩ := BitMap.find_of_numClear notFull
    rw [result] at created
    cases created
    refine ⟨rfl, newPID,
      ⟨?_, table.numBits ▸ below, free, least, ?_, ?_, rfl, rfl, rfl, ?_, ?_⟩, rfl⟩
    · intro q absent
      cases absent
    · simp [Processes.setControl, Processes.setPCB]
    · intro r other
      have same : PCB.adopt none s.nextRef newPID r = id := by
        funext pcb
        simp [PCB.adopt]
      simp [Processes.setControl, Processes.setPCB, other, same]
    · intro pid
      simp [Processes.setControl]
    · intro r
      rfl

theorem startProcess_created (table : Tabled s) (run : s.startProcess = .ok s') :
    ∃ newPID, Created none newPID s s' := by
  unfold Processes.startProcess at run
  split at run
  next full => cases run
  next newPCB t created =>
    obtain ⟨-, newPID, isNew, -⟩ := createPCB_created table created
    cases run
    exact ⟨newPID, isNew⟩

theorem forkSystemcall_created (table : Tabled s) (alive : (s.heap current).isSome)
    (run : s.forkSystemcall current = .ok (value, s')) :
    s' = s ∨ ∃ newPID, Created (some current) newPID s s' := by
  obtain ⟨pcb, found⟩ := Option.isSome_iff_exists.mp alive
  have other := table.ne_nextRef found
  unfold Processes.forkSystemcall at run
  split at run
  next full =>
    cases run
    exact Or.inl rfl
  next childPCB t created =>
    right
    obtain ⟨rfl, newPID, isNew, rfl⟩ := createPCB_created table created
    -- the two PCBs are there, so every access succeeds
    simp only [Processes.appendChildPCB, Processes.pcb, Processes.setPCB, Processes.setControl,
      ok_bind, pure_eq, if_true, if_neg other, found] at run
    cases run
    refine ⟨newPID,
      ⟨?_, isNew.bound, isNew.free, isNew.least, ?_, ?_, rfl, rfl, rfl, isNew.allPCB, ?_⟩⟩
    · intro q same
      cases same
      exact alive
    · simp [other.symm]
    · intro r notNew
      by_cases isParent : r = current
      · subst isParent
        simp [PCB.adopt, found]
      · have notParent : ¬ current = r := fun same => isParent same.symm
        have same : PCB.adopt (some current) s.nextRef newPID r = id := by
          funext pcb
          simp [PCB.adopt, notParent]
        simp [isParent, notNew, same]
    · intro r
      rfl

/-! ## The end of a process -/

theorem mapcar_setParentPCBNULL {children : List (ListElement Ref)}
    (run : mapcar Processes.setParentPCBNULL children s = .ok s') :
    s' = { s with heap := fun r => (s.heap r).map fun pcb =>
      if r ∈ children.map ListElement.item then { pcb with parentPCB := none } else pcb } := by
  induction children generalizing s with
  | nil =>
    cases run
    simp
  | cons cur rest ih =>
    obtain ⟨t, cleared, run⟩ := bind_eq_ok.mp run
    obtain ⟨pcb, found, result⟩ := bind_eq_ok.mp cleared
    cases result
    rw [ih run]
    have found := pcb_eq_ok.mp found
    simp only [Processes.setPCB, Processes.mk.injEq, and_true]
    funext r
    by_cases here : r = cur.item
    · subst here
      simp [found]
    · simp [here]

theorem sortedRemove_rest {α : Type} (list : List (ListElement α)) :
    (sortedRemove list).2 = list.tail := by
  cases list with
  | nil => rfl
  | cons first rest => rfl

theorem removeParentPCBChild_inv {this : Ref} (pcb : PCB) (found : s.heap this = some pcb)
    (run : s.removeParentPCBChild this value = .ok s') :
    s' = { s with heap := fun r => (s.heap r).map fun p =>
      if pcb.parentPCB = some r then
        { p with childrenPCB := p.childrenPCB.tail, childExitValue := value }
      else p } := by
  unfold Processes.removeParentPCBChild at run
  simp only [pcb_eq_ok.mpr found, ok_bind] at run
  split at run
  next noParent =>
    cases run
    simp [noParent]
  next q isParent =>
    obtain ⟨t, removed, run⟩ := bind_eq_ok.mp run
    obtain ⟨_, -, removed⟩ := bind_eq_ok.mp removed
    obtain ⟨parent, foundParent, result⟩ := bind_eq_ok.mp removed
    cases result
    simp only [Processes.setPCB, Processes.pcb, if_true] at run
    cases run
    have foundParent := pcb_eq_ok.mp foundParent
    simp only [Processes.mk.injEq, and_true]
    funext r
    by_cases here : r = q
    · subst here
      simp [isParent, foundParent, sortedRemove_rest]
    · have other : ¬ q = r := fun same => here same.symm
      simp [isParent, here, other]

theorem removePCB_inv {this : Ref} (pcb : PCB) (found : s.heap this = some pcb)
    (run : s.removePCB this = .ok s') :
    s' = { s with
      pidMap := s.pidMap.clearBit pcb.pid
      allPCB := fun pid => if pid = pcb.pid then none else s.allPCB pid } := by
  unfold Processes.removePCB at run
  simp only [pcb_eq_ok.mpr found, bind, Except.bind] at run
  split at run
  next => cases run
  next pidMap cleared =>
    cases run
    obtain ⟨-, rfl⟩ := BitMap.clear_eq_ok.mp cleared
    rfl

/-- The PCB of a process `r` after the process with the PCB `ended` has cleared the parent of
all on its list, and has taken leave of its own parent `q`. -/
def PCB.unlink (ended : PCB) (q : Option Ref) (value : BitVec 32) (r : Ref) (pcb : PCB) : PCB where
  pid := pcb.pid
  parentPCB := if r ∈ ended.childrenPCB.map ListElement.item then none else pcb.parentPCB
  childrenPCB := if q = some r then pcb.childrenPCB.tail else pcb.childrenPCB
  childExitValue := if q = some r then value else pcb.childExitValue

/-- What the end of a process does, whatever the lists are. -/
theorem Processes.terminate_inv (run : s.terminate ending value = .ok s') :
    ∃ ended, Ended ending ended
      (PCB.unlink ended (PCB.unlink ended none value ending ended).parentPCB value) s s' := by
  obtain ⟨s₁, orphaned, run⟩ := bind_eq_ok.mp run
  obtain ⟨s₂, unlinked, run⟩ := bind_eq_ok.mp run
  obtain ⟨s₃, removed, run⟩ := bind_eq_ok.mp run
  cases run
  obtain ⟨ended, found, orphaned⟩ := bind_eq_ok.mp orphaned
  have found := pcb_eq_ok.mp found
  obtain rfl := mapcar_setParentPCBNULL orphaned
  have orphan : (fun r => (s.heap r).map fun pcb =>
      if r ∈ ended.childrenPCB.map ListElement.item then { pcb with parentPCB := none } else pcb) =
      fun r => (s.heap r).map (PCB.unlink ended none value r) := by
    funext r
    congr 1
    funext pcb
    simp only [PCB.unlink, reduceCtorEq, if_false]
    split <;> rfl
  rw [orphan] at unlinked
  obtain rfl := removeParentPCBChild_inv (PCB.unlink ended none value ending ended)
    (by simp [found]) unlinked
  obtain ⟨last, foundLast, samePid⟩ : ∃ last, ((s.heap ending).map
      (PCB.unlink ended none value ending)).map (fun p =>
        if (PCB.unlink ended none value ending ended).parentPCB = some ending then
          { p with childrenPCB := p.childrenPCB.tail, childExitValue := value } else p) = some last ∧
      last.pid = ended.pid := by
    rw [found]
    refine ⟨_, rfl, ?_⟩
    split <;> rfl
  obtain rfl := removePCB_inv last foundLast removed
  refine ⟨ended, found, ?_⟩
  simp only [Processes.setPCB, samePid, Processes.mk.injEq, and_true]
  funext r
  by_cases isEnding : r = ending
  · simp [isEnding]
  · generalize (PCB.unlink ended none value ending ended).parentPCB = q
    simp only [if_neg isEnding, Option.map_map]
    congr 1
    funext pcb
    by_cases isParent : q = some r
    · simp [PCB.unlink, isParent]
    · simp [PCB.unlink, isParent]

/-- In a tree, the processes on the list of `ending` are those with `ending` as parent. -/
theorem ProcessTree.mem_items (table : Tabled s) (tree : ProcessTree s) {ended pcb : PCB}
    (found : s.heap ending = some ended) (here : s.heap r = some pcb) :
    r ∈ ended.childrenPCB.map ListElement.item ↔ pcb.parentPCB = some ending := by
  rw [List.mem_map]
  constructor
  · rintro ⟨⟨key, c⟩, member, rfl⟩
    obtain ⟨child, foundChild, parent, -⟩ :=
      table.isChild_iff.mp ((tree.children (table.live found) key c).mp member)
    cases foundChild.symm.trans here
    exact parent
  · intro parent
    refine ⟨⟨pcb.pid, r⟩, ?_, rfl⟩
    exact (tree.children (table.live found) _ _).mpr
      (table.isChild_iff.mpr ⟨pcb, here, parent, rfl⟩)

theorem terminate_ended (table : Tabled s) (tree : ProcessTree s)
    (run : s.terminate ending value = .ok s') :
    ∃ ended, Ended ending ended (PCB.outlive ending ended value) s s' := by
  obtain ⟨ended, found, rfl⟩ := Processes.terminate_inv run
  -- a process is not its own parent, so it is not on its own list
  have notOwnParent : ended.parentPCB ≠ some ending := by
    intro own
    exact lt_irrefl _ (table.older found own)
  have notOwnChild : ending ∉ ended.childrenPCB.map ListElement.item := by
    rw [tree.mem_items table found found]
    exact notOwnParent
  have parent : (PCB.unlink ended none value ending ended).parentPCB = ended.parentPCB :=
    if_neg notOwnChild
  refine ⟨ended, found, ?_⟩
  simp only [parent, Processes.mk.injEq, and_true]
  funext r
  cases here : s.heap r with
  | none => rfl
  | some pcb => simp [PCB.unlink, PCB.outlive, tree.mem_items table found here]

/-! ## The process table after each of them -/

theorem Tabled.same (table : Tabled s) (same : SameTree s s') : Tabled s' := by
  obtain ⟨control, rfl⟩ := same
  exact { table with }

@[simp] theorem PCB.adopt_pid (parent : Option Ref) (newPCB : Ref) (newPID : Nat) (r : Ref)
    (pcb : PCB) : (PCB.adopt parent newPCB newPID r pcb).pid = pcb.pid := by
  unfold PCB.adopt
  split <;> rfl

@[simp] theorem PCB.adopt_parentPCB (parent : Option Ref) (newPCB : Ref) (newPID : Nat) (r : Ref)
    (pcb : PCB) : (PCB.adopt parent newPCB newPID r pcb).parentPCB = pcb.parentPCB := by
  unfold PCB.adopt
  split <;> rfl

section Creation

variable {s s' : Processes} {parent : Option Ref} {newPID : Nat}

theorem Created.cases (created : Created parent newPID s s') (found : s'.heap r = some pcb) :
    (r = s.nextRef ∧ pcb = ⟨newPID, parent, [], 0#32⟩) ∨
      (r ≠ s.nextRef ∧ ∃ before, s.heap r = some before ∧
        pcb = PCB.adopt parent s.nextRef newPID r before) := by
  by_cases isNew : r = s.nextRef
  · left
    subst isNew
    exact ⟨rfl, (Option.some.inj (created.newPCB.symm.trans found)).symm⟩
  · right
    rw [created.heap r isNew] at found
    obtain ⟨before, there, rfl⟩ := Option.map_eq_some_iff.mp found
    exact ⟨isNew, before, there, rfl⟩

theorem Created.kept (created : Created parent newPID s s') (table : Tabled s)
    (found : s.heap r = some pcb) :
    s'.heap r = some (PCB.adopt parent s.nextRef newPID r pcb) := by
  rw [created.heap r (table.ne_nextRef found), found]
  rfl

theorem Tabled.pid_ne (table : Tabled s) (created : Created parent newPID s s')
    (found : s.heap r = some pcb) : pcb.pid ≠ newPID := by
  intro same
  have taken := table.bit newPID created.bound
  rw [created.free, ← same, table.tabled found] at taken
  cases taken

theorem Tabled.afterCreation (table : Tabled s) (created : Created parent newPID s s') : Tabled s' where
  numBits := by rw [created.pidMap, BitMap.markBit_numBits, table.numBits]
  numTotalPID := created.numTotalPID.trans table.numTotalPID
  bit pid bound := by
    rw [created.pidMap, BitMap.bit_markBit, created.allPCB, table.bit pid bound]
    by_cases isNew : pid = newPID
    · simp [isNew]
    · simp [isNew]
  listed := by
    intro pid ref listed
    rw [created.allPCB] at listed
    split at listed
    next isNew =>
      cases listed
      exact ⟨isNew ▸ created.bound, _, created.newPCB, isNew.symm⟩
    next =>
      obtain ⟨bound, pcb, found, rfl⟩ := table.listed listed
      exact ⟨bound, _, created.kept table found, PCB.adopt_pid ..⟩
  tabled := by
    intro ref pcb found
    rw [created.allPCB]
    obtain ⟨rfl, rfl⟩ | ⟨-, before, there, rfl⟩ := created.cases found
    · simp
    · simp [table.pid_ne created there, table.tabled there]
  unused ref above := by
    rw [created.nextRef] at above
    have isOther : ref ≠ s.nextRef := (Nat.lt_of_succ_le above).ne'
    rw [created.heap ref isOther, table.unused ref (Nat.le_of_succ_le above)]
    rfl
  older := by
    intro ref pcb q found isParent
    obtain ⟨rfl, rfl⟩ | ⟨-, before, there, rfl⟩ := created.cases found
    · -- the parent exists, so it is not past the end of the used pointers
      obtain ⟨pcb, present⟩ := Option.isSome_iff_exists.mp (created.parentExists q isParent)
      by_contra above
      rw [table.unused q (not_lt.mp above)] at present
      cases present
    · exact table.older there (by simpa using isParent)

end Creation

section Termination

variable {s s' : Processes} {ending : Ref} {ended : PCB} {after : Ref → PCB → PCB}

theorem Ended.cases (done : Ended ending ended after s s') (found : s'.heap r = some pcb) :
    r ≠ ending ∧ ∃ before, s.heap r = some before ∧ pcb = after r before := by
  simp only [done.result] at found
  split at found
  next => cases found
  next other =>
    obtain ⟨before, there, rfl⟩ := Option.map_eq_some_iff.mp found
    exact ⟨other, before, there, rfl⟩

theorem Ended.kept (done : Ended ending ended after s s') (other : r ≠ ending)
    (found : s.heap r = some pcb) : s'.heap r = some (after r pcb) := by
  simp [done.result, other, found]

end Termination

/-- The table stays right whatever process ends, and whatever the lists are. -/
theorem Tabled.terminated (table : Tabled s) (run : s.terminate ending value = .ok s') :
    Tabled s' := by
  obtain ⟨ended, done⟩ := Processes.terminate_inv run
  obtain ⟨found, rfl⟩ := id done
  -- a PCB that is left has the pid it had, and its parent unless that was cleared
  refine ⟨?_, table.numTotalPID, ?_, ?_, ?_, ?_, ?_⟩
  · simp only [BitMap.clearBit_numBits, table.numBits]
  · intro pid bound
    simp only [BitMap.bit_clearBit, table.bit pid bound]
    by_cases isEnded : pid = ended.pid
    · simp [isEnded]
    · simp [isEnded]
  · intro pid ref listed
    simp only at listed
    split at listed
    next => cases listed
    next other =>
      obtain ⟨bound, pcb, here, rfl⟩ := table.listed listed
      have notEnding : ref ≠ ending := by
        rintro rfl
        rw [found] at here
        cases here
        exact other rfl
      exact ⟨bound, _, done.kept notEnding here, rfl⟩
  · intro ref pcb there
    obtain ⟨other, before, here, rfl⟩ := done.cases there
    have different : before.pid ≠ ended.pid := fun same => other (table.pid_inj here found same)
    simp [PCB.unlink, different, table.tabled here]
  · intro ref above
    simp [table.unused ref above]
  · intro ref pcb parent there isParent
    obtain ⟨-, before, here, rfl⟩ := done.cases there
    simp only [PCB.unlink] at isParent
    split at isParent
    next => cases isParent
    next => exact table.older here isParent

/-! ## The tree after each of them -/

theorem ProcessTree.same (tree : ProcessTree s) (same : SameTree s s') : ProcessTree s' := by
  obtain ⟨control, rfl⟩ := same
  exact { tree with }

section Creation

variable {s s' : Processes} {parent : Option Ref} {newPID : Nat}

theorem Created.isChild_iff (created : Created parent newPID s s') (table : Tabled s) :
    s'.IsChild q c pid ↔
      (c = s.nextRef ∧ parent = some q ∧ pid = newPID) ∨ s.IsChild q c pid := by
  rw [(table.afterCreation created).isChild_iff, table.isChild_iff]
  constructor
  · rintro ⟨child, found, isParent, key⟩
    obtain ⟨rfl, rfl⟩ | ⟨-, before, there, rfl⟩ := created.cases found
    · exact Or.inl ⟨rfl, isParent, key.symm⟩
    · exact Or.inr ⟨before, there, by simpa using isParent, by simpa using key⟩
  · rintro (⟨rfl, isParent, rfl⟩ | ⟨child, found, isParent, key⟩)
    · exact ⟨_, created.newPCB, isParent, rfl⟩
    · exact ⟨_, created.kept table found, by simpa using isParent, by simpa using key⟩

theorem ProcessTree.no_child (tree : ProcessTree s) (table : Tabled s) :
    ¬ s.IsChild s.nextRef c pid := by
  rintro ⟨child, live, isParent, -⟩
  obtain ⟨pcb, present, -⟩ := tree.parents live isParent
  exact table.ne_nextRef present rfl

theorem ProcessTree.afterCreation (tree : ProcessTree s) (table : Tabled s)
    (created : Created parent newPID s s') : ProcessTree s' := by
  refine ProcessTree.of_lists (table.afterCreation created) ?_ ?_ ?_
  · intro c child q found isParent
    obtain ⟨rfl, rfl⟩ | ⟨-, before, there, rfl⟩ := created.cases found
    · obtain ⟨pcb, present⟩ := Option.isSome_iff_exists.mp (created.parentExists q isParent)
      exact ⟨_, created.kept table present⟩
    · obtain ⟨pcb, present, -⟩ := tree.parents (table.live there) (by simpa using isParent)
      exact ⟨_, created.kept table present⟩
  · intro q pcb found
    obtain ⟨rfl, rfl⟩ | ⟨-, before, there, rfl⟩ := created.cases found
    · exact List.Pairwise.nil
    · have sorted := tree.sorted (table.live there)
      unfold PCB.adopt
      split
      next =>
        -- the new pid was free, so it is on no list
        refine sortedInsert_sorted sorted fun element member same => ?_
        obtain ⟨child, foundChild, -, key⟩ :=
          table.isChild_iff.mp ((tree.children (table.live there) _ _).mp member)
        have isNew : child.pid = newPID := by
          rw [same] at key
          exact_mod_cast key
        exact table.pid_ne created foundChild isNew
      next => exact sorted
  · intro q pcb found key c
    rw [created.isChild_iff table]
    obtain ⟨rfl, rfl⟩ | ⟨-, before, there, rfl⟩ := created.cases found
    · have notOwn : parent ≠ some s.nextRef := by
        intro own
        obtain ⟨pcb, present⟩ := Option.isSome_iff_exists.mp (created.parentExists _ own)
        exact table.ne_nextRef present rfl
      simp [notOwn, tree.no_child table]
    · have listed := tree.children (table.live there) key c
      unfold PCB.adopt
      split
      next isParent =>
        rw [mem_sortedInsert, listed, ListElement.mk.injEq]
        simp [isParent, and_comm]
      next notParent => simp [notParent, listed]

end Creation

section Termination

variable {s s' : Processes} {ending : Ref} {ended : PCB} {value : BitVec 32}

theorem Ended.isChild_iff (done : Ended ending ended (PCB.outlive ending ended value) s s') (table : Tabled s)
    (table' : Tabled s') (parentStays : q ≠ ending) :
    s'.IsChild q c pid ↔ c ≠ ending ∧ s.IsChild q c pid := by
  rw [table'.isChild_iff, table.isChild_iff]
  constructor
  · rintro ⟨child, found, isParent, key⟩
    obtain ⟨other, before, there, rfl⟩ := done.cases found
    simp only [PCB.outlive] at isParent
    split at isParent
    next => cases isParent
    next => exact ⟨other, before, there, isParent, key⟩
  · rintro ⟨other, child, found, isParent, key⟩
    exact ⟨_, done.kept other found, by simp [PCB.outlive, isParent, parentStays], key⟩

def LowestSibling (s : Processes) (ending : Ref) : Prop :=
  ∀ ended d sibling q, s.Live ending ended → ended.parentPCB = some q → s.Live d sibling →
    sibling.parentPCB = some q → ended.pid ≤ sibling.pid

theorem lowestSibling_iff (s : Processes) (ending : Ref) :
    LowestSibling s ending ↔ ∀ ended ∈ s.heap ending, s.allPCB ended.pid = some ending →
      ∀ q ∈ ended.parentPCB, ∀ pid < ended.pid, ∀ d ∈ s.allPCB pid, ∀ sibling ∈ s.heap d,
        sibling.pid = pid → sibling.parentPCB ≠ some q := by
  constructor
  · intro lowest ended found listed q isParent pid smaller d listed' sibling found' same parent
    subst same
    have least := lowest ended d sibling q ⟨found, listed⟩ isParent ⟨found', listed'⟩ parent
    omega
  · intro check ended d sibling q live isParent liveSibling parent
    by_contra smaller
    exact check ended live.1 live.2 q isParent sibling.pid (not_le.mp smaller) d liveSibling.2
      sibling liveSibling.1 rfl parent

instance (s : Processes) (ending : Ref) : Decidable (LowestSibling s ending) :=
  decidable_of_iff' _ (lowestSibling_iff s ending)

theorem ProcessTree.listed (tree : ProcessTree s) (table : Tabled s) {child pcb : PCB}
    (found : s.heap c = some child) (isParent : child.parentPCB = some q)
    (parent : s.heap q = some pcb) :
    (⟨child.pid, c⟩ : ListElement Ref) ∈ pcb.childrenPCB :=
  (tree.children (table.live parent) _ _).mpr
    (table.isChild_iff.mpr ⟨child, found, isParent, rfl⟩)

theorem ProcessTree.first_of_lowest (tree : ProcessTree s) (table : Tabled s)
    (found : s.heap ending = some ended) (lowest : LowestSibling s ending)
    (isParent : ended.parentPCB = some q) (parent : s.heap q = some pcb) :
    pcb.childrenPCB = ⟨ended.pid, ending⟩ :: pcb.childrenPCB.tail := by
  have member := tree.listed table found isParent parent
  have sorted := tree.sorted (table.live parent)
  have children := tree.children (table.live parent)
  cases list : pcb.childrenPCB with
  | nil => simp [list] at member
  | cons first rest =>
    rw [list] at member sorted children
    obtain same | later := List.mem_cons.mp member
    · rw [same]
      rfl
    · obtain ⟨child, live, childParent, key⟩ := (children first.key first.item).mp List.mem_cons_self
      have before := (List.pairwise_cons.mp sorted).1 _ later
      have least := lowest ended first.item child q (table.live found) isParent live childParent
      simp only at before
      omega

theorem ProcessTree.afterEnd (tree : ProcessTree s) (table : Tabled s) (table' : Tabled s')
    (done : Ended ending ended (PCB.outlive ending ended value) s s') (lowest : LowestSibling s ending) : ProcessTree s' := by
  refine ProcessTree.of_lists table' ?_ ?_ ?_
  · intro c child q found isParent
    obtain ⟨-, before, there, rfl⟩ := done.cases found
    simp only [PCB.outlive] at isParent
    split at isParent
    next => cases isParent
    next notChild =>
      obtain ⟨pcb, present, -⟩ := tree.parents (table.live there) isParent
      have stays : q ≠ ending := fun same => notChild (same ▸ isParent)
      exact ⟨_, done.kept stays present⟩
  · intro q pcb found
    obtain ⟨-, before, there, rfl⟩ := done.cases found
    have sorted := tree.sorted (table.live there)
    simp only [PCB.outlive]
    split
    next => exact sorted.tail
    next => exact sorted
  · intro q pcb found key c
    obtain ⟨stays, before, there, rfl⟩ := done.cases found
    rw [done.isChild_iff table table' stays, ← tree.children (table.live there) key c]
    simp only [PCB.outlive]
    split
    next isParent =>
      have sorted := tree.sorted (table.live there)
      rw [tree.first_of_lowest table done.found lowest isParent there] at sorted ⊢
      have least := (List.pairwise_cons.mp sorted).1
      rw [List.tail_cons, List.mem_cons, ListElement.mk.injEq]
      constructor
      · intro member
        refine ⟨?_, Or.inr member⟩
        -- `ending` is not on the list twice
        rintro rfl
        obtain ⟨child, foundChild, -, same⟩ := table.isChild_iff.mp
          ((tree.children (table.live there) key c).mp (List.mem_of_mem_tail member))
        have before := least _ member
        rw [done.found] at foundChild
        cases foundChild
        simp only at before
        omega
      · rintro ⟨other, ⟨-, same⟩ | member⟩
        · exact absurd same other
        · exact member
    next notParent =>
      constructor
      · intro member
        refine ⟨?_, member⟩
        rintro rfl
        obtain ⟨child, foundChild, isParent, -⟩ :=
          table.isChild_iff.mp ((tree.children (table.live there) key c).mp member)
        rw [done.found] at foundChild
        cases foundChild
        exact notParent isParent
      · exact And.right

/-- If another child of its parent has a smaller pid, the wrong one is taken off the
list. -/
theorem not_tree_afterEnd (tree : ProcessTree s) (table : Tabled s) (table' : Tabled s')
    (done : Ended ending ended (PCB.outlive ending ended value) s s') (notLowest : ¬ LowestSibling s ending) :
    ¬ ProcessTree s' := by
  intro treeAfter
  simp only [LowestSibling] at notLowest
  push Not at notLowest
  obtain ⟨ended', d, sibling, q, live, isParent, liveSibling, siblingParent, smaller⟩ := notLowest
  cases live.1.symm.trans done.found
  obtain ⟨pcb, parent, -⟩ := tree.parents live isParent
  have stays : q ≠ ending := (table.older live.1 isParent).ne
  have member := tree.listed table liveSibling.1 siblingParent parent
  have sorted := tree.sorted (table.live parent)
  have children := tree.children (table.live parent)
  have after := treeAfter.children (table'.live (done.kept stays parent))
  simp only [PCB.outlive, isParent, if_true] at after
  cases list : pcb.childrenPCB with
  | nil => simp [list] at member
  | cons first rest =>
    rw [list] at member sorted children after
    have least := (List.pairwise_cons.mp sorted).1
    have isChild := (children first.key first.item).mp List.mem_cons_self
    have below : first.key ≤ sibling.pid := by
      obtain same | later := List.mem_cons.mp member
      · rw [← same]
      · exact le_of_lt (least _ later)
    -- the first process on the list stays alive, but not on the list
    have other : first.item ≠ ending := by
      intro same
      obtain ⟨child, liveChild, -, key⟩ := isChild
      have found := liveChild.1
      rw [same, live.1] at found
      cases found
      omega
    have listed := (after first.key first.item).mpr
      ((done.isChild_iff table table' stays).mpr ⟨other, isChild⟩)
    exact lt_irrefl _ (least _ listed)

end Termination

/-! ## What a call does -/

namespace Call

def ends (s : Processes) : Call → Option Ref
  | .exit current _ => some current
  | .kill _ killPID => (s.getPCB killPID.toInt).toOption.join
  | _ => none

def passes (s : Processes) : Call → BitVec 32
  | .exit _ val => val
  | .kill current killPID =>
    if Call.ends s (.kill current killPID) = some current then killPID else -1#32
  | _ => 0#32

def awaits : Call → Option Ref
  | .join current _ => some current
  | .resume current => some current
  | _ => none

end Call

inductive TreeEffect (s : Processes) (call : Call) (s' : Processes) : Prop where
  | same (none : call.ends s = none) (tree : SameTree s s')
      (control : ∀ r, call.awaits ≠ some r → s'.control r = s.control r)
  | created (parent : Option Ref) (newPID : Nat) (none : call.ends s = none)
      (created : Created parent newPID s s')
  | terminated (ending : Ref) (which : call.ends s = some ending)
      (run : s.terminate ending (call.passes s) = .ok s')

theorem SameTree.refl (s : Processes) : SameTree s s := ⟨s.control, rfl⟩

theorem getPCB_found (found : s.getPCB pid = .ok (some ref)) :
    0 ≤ pid ∧ s.allPCB pid.toNat = some ref := by
  obtain ⟨answer, tested, found⟩ := bind_eq_ok.mp found
  obtain ⟨inRange, -⟩ := BitMap.test_eq_ok.mp tested
  simp only [BitMap.inRange, decide_eq_true_eq] at inRange
  cases answer with
  | true => exact ⟨inRange.1, Except.ok.inj found⟩
  | false => cases Except.ok.inj found

theorem killSystemcall_effect {killPID : BitVec 32} {value : Option (BitVec 32)} (table : Tabled s)
    (run : s.killSystemcall current killPID = .ok (value, s')) :
    TreeEffect s (.kill current killPID) s' := by
  obtain ⟨found, looked, run⟩ := bind_eq_ok.mp run
  have ends : Call.ends s (.kill current killPID) = found := by
    simp only [Call.ends, looked]
    rfl
  cases found with
  | none =>
    cases run
    exact .same ends (.refl s) fun _ _ => rfl
  | some killPCB =>
    obtain ⟨currentPCB, foundCurrent, run⟩ := bind_eq_ok.mp run
    obtain ⟨nonneg, listed⟩ := getPCB_found looked
    have own := table.tabled (pcb_eq_ok.mp foundCurrent)
    split at run
    next self =>
      -- the process that has the pid is the caller
      obtain rfl : killPCB = current := by
        rw [self, Int.toNat_natCast, own] at listed
        exact (Option.some.inj listed).symm
      obtain ⟨t, terminated, run⟩ := bind_eq_ok.mp run
      cases run
      have passes : Call.passes s (.kill killPCB killPID) = killPID := by
        simp only [Call.passes, ends, if_true]
      exact .terminated killPCB ends (passes.symm ▸ terminated)
    next other =>
      obtain ⟨t, terminated, run⟩ := bind_eq_ok.mp run
      cases run
      have notSelf : killPCB ≠ current := by
        rintro rfl
        obtain ⟨-, pcb, foundPCB, pid⟩ := table.listed listed
        rw [pcb_eq_ok.mp foundCurrent] at foundPCB
        cases foundPCB
        omega
      have passes : Call.passes s (.kill current killPID) = -1#32 := by
        simp only [Call.passes, ends, Option.some.injEq, if_neg notSelf]
      exact .terminated killPCB ends (passes.symm ▸ terminated)

theorem joinSystemcall_inv {joinPID : BitVec 32} {value : Option (BitVec 32)}
    (run : s.joinSystemcall current joinPID = .ok (value, s')) :
    s' = s ∨ ∃ childPCB, s.getChildPCB current joinPID.toInt = .ok (some childPCB) ∧
      s' = s.setControl current (.joining joinPID.toInt childPCB) := by
  unfold Processes.joinSystemcall at run
  split at run
  next =>
    cases run
    exact Or.inl rfl
  next =>
    obtain ⟨found, looked, run⟩ := bind_eq_ok.mp run
    cases found with
    | none =>
      cases run
      exact Or.inl rfl
    | some childPCB =>
      obtain ⟨child, -, run⟩ := bind_eq_ok.mp run
      obtain ⟨currentPCB, -, run⟩ := bind_eq_ok.mp run
      split at run
      next => cases run
      next parent isParent =>
        obtain ⟨parentPCB, -, run⟩ := bind_eq_ok.mp run
        obtain ⟨_, -, run⟩ := bind_eq_ok.mp run
        cases run
        exact Or.inr ⟨childPCB, looked, rfl⟩

theorem joinResume_inv {joinPID : Int} {value : Option (BitVec 32)}
    (run : s.joinResume current joinPID = .ok (value, s')) :
    (value = none ∧ s' = s) ∨ (s.isSet joinPID = .ok false ∧ ∃ pcb, s.heap current = some pcb ∧
      value = some pcb.childExitValue ∧ s' = s.setControl current .user) := by
  obtain ⟨waits, tested, run⟩ := bind_eq_ok.mp run
  cases waits with
  | true =>
    cases run
    exact Or.inl ⟨rfl, rfl⟩
  | false =>
    obtain ⟨pcb, found, run⟩ := bind_eq_ok.mp run
    cases run
    exact Or.inr ⟨tested, pcb, pcb_eq_ok.mp found, rfl, rfl⟩

theorem TreeEffect.of_control (ends : call.ends s = none) (awaits : call.awaits = some current)
    (changed : s' = s ∨ ∃ control, s' = s.setControl current control) :
    TreeEffect s call s' := by
  obtain rfl | ⟨control, rfl⟩ := changed
  · exact .same ends (.refl s') fun _ _ => rfl
  · refine .same ends ⟨_, rfl⟩ fun r other => if_neg ?_
    rintro rfl
    exact other awaits

theorem CallStep.effect (table : Tabled s) (step : CallStep s call s') : TreeEffect s call s' := by
  cases step with
  | start run =>
    obtain ⟨newPID, created⟩ := startProcess_created table run
    exact .created _ newPID rfl created
  | fork ready run =>
    obtain rfl | ⟨newPID, created⟩ := forkSystemcall_created table ready.1 run
    · exact .same rfl (.refl s') fun _ _ => rfl
    · exact .created _ newPID rfl created
  | exit ready run => exact .terminated _ rfl run
  | kill ready run => exact killSystemcall_effect table run
  | yield ready => exact .same rfl (.refl s) fun _ _ => rfl
  | join ready run =>
    obtain same | ⟨childPCB, -, waits⟩ := joinSystemcall_inv run
    · exact .of_control rfl rfl (Or.inl same)
    · exact .of_control rfl rfl (Or.inr ⟨_, waits⟩)
  | resume alive waits run =>
    obtain ⟨-, same⟩ | ⟨-, pcb, -, -, returned⟩ := joinResume_inv run
    · exact .of_control rfl rfl (Or.inl same)
    · exact .of_control rfl rfl (Or.inr ⟨_, returned⟩)

/-! ## Every run -/

/-- The process that the call ends has the least pid among the children of its parent. -/
def EndsLowest (s : Processes) (call : Call) : Prop :=
  ∀ ending, call.ends s = some ending → LowestSibling s ending

instance (s : Processes) (call : Call) : Decidable (EndsLowest s call) :=
  inferInstanceAs (Decidable (∀ ending ∈ call.ends s, LowestSibling s ending))

theorem boot_tabled (junk : Nat → BitVec 32) : Tabled (.boot junk) where
  numBits := BitMap.new_numBits pidMapSize junk
  numTotalPID := rfl
  bit pid bound := BitMap.new_bit junk bound
  listed listed := by cases listed
  tabled found := by cases found
  unused _ _ := rfl
  older found := by cases found

theorem boot_tree (junk : Nat → BitVec 32) : ProcessTree (.boot junk) :=
  .of_lists (boot_tabled junk) (fun found => by cases found) (fun found => by cases found)
    fun found => by cases found

theorem CallStep.tabled (table : Tabled s) (step : CallStep s call s') : Tabled s' := by
  cases step.effect table with
  | same _ same _ => exact table.same same
  | created parent newPID _ created => exact table.afterCreation created
  | terminated ending _ run => exact table.terminated run

theorem reachable_tabled {junk : Nat → BitVec 32} {history : List (Processes × Call)}
    (run : Run CallStep (.boot junk) history s) : Tabled s :=
  run.always (I := Tabled) (boot_tabled junk) fun _ _ _ table step => step.tabled table

theorem CallStep.tree (table : Tabled s) (tree : ProcessTree s) (lowest : EndsLowest s call)
    (step : CallStep s call s') : ProcessTree s' := by
  cases step.effect table with
  | same _ same _ => exact tree.same same
  | created parent newPID _ created => exact tree.afterCreation table created
  | terminated ending which run =>
    obtain ⟨ended, done⟩ := terminate_ended table tree run
    exact tree.afterEnd table (table.terminated run) done (lowest ending which)

theorem CallStep.not_tree (table : Tabled s) (tree : ProcessTree s)
    (notLowest : ¬ EndsLowest s call) (step : CallStep s call s') :
    ¬ ProcessTree s' := by
  simp only [EndsLowest] at notLowest
  push Not at notLowest
  obtain ⟨ending', which', notLowest⟩ := notLowest
  cases step.effect table with
  | same none _ _ => simp [none] at which'
  | created _ _ none _ => simp [none] at which'
  | terminated ending which run =>
    cases which.symm.trans which'
    obtain ⟨ended, done⟩ := terminate_ended table tree run
    exact not_tree_afterEnd tree table (table.terminated run) done notLowest

/-- Parent pointers and lists of children agree in every state of a run exactly when every
process that exits or is killed has, at that moment, the least pid among the live children
of its parent. -/
theorem process_tree_iff {junk : Nat → BitVec 32} {history : List (Processes × Call)}
    {s : Processes} (run : Run CallStep (.boot junk) history s) :
    Throughout ProcessTree history s ↔ Guarded EndsLowest history :=
  run.throughout_iff_guarded (I := fun t => Tabled t ∧ ProcessTree t)
    ⟨boot_tabled junk, boot_tree junk⟩
    (fun _ _ _ ⟨table, tree⟩ lowest step => ⟨step.tabled table, step.tree table tree lowest⟩)
    (fun _ invariant => invariant.2)
    (fun _ _ _ ⟨table, tree⟩ notLowest step => step.not_tree table tree notLowest)

/-- Of two children the one with the smaller pid exits. -/
theorem process_tree_after_first_exit : ∃ history s,
    Run CallStep (.boot fun _ => 0#32) history s ∧
    history.map Prod.snd = [.exit 1 5#32, .fork 0, .fork 0, .start] ∧
    Throughout ProcessTree history s := by
  refine labelled_run performCall_step (fun history _ => Guarded EndsLowest history)
    (by decide +kernel) fun history s run lowest => ?_
  exact (process_tree_iff run).mpr lowest

/-- Of two children the one with the larger pid exits, and the other one is no longer found
by its parent. -/
theorem second_exit_loses_first_child : ∃ history s,
    Run CallStep (.boot fun _ => 0#32) history s ∧
    history.map Prod.snd = [.exit 2 5#32, .fork 0, .fork 0, .start] ∧
    s.IsChild 0 1 1 ∧ s.getChildPCB 0 1 = .ok none ∧ ¬ ProcessTree s := by
  refine labelled_run performCall_step (fun _ s => s.getChildPCB 0 1 = .ok none ∧
      (∃ pcb, s.heap 0 = some pcb ∧ s.allPCB pcb.pid = some 0) ∧
      ∃ pcb, s.heap 1 = some pcb ∧ s.allPCB pcb.pid = some 1 ∧ pcb.parentPCB = some 0 ∧
        (pcb.pid : Int) = 1)
    (by decide +kernel) fun history s _ checked => ?_
  obtain ⟨notFound, ⟨pcb, found, listed⟩, child, foundChild, listedChild, isParent, pid⟩ := checked
  have isChild : s.IsChild 0 1 1 := ⟨child, ⟨foundChild, listedChild⟩, isParent, pid⟩
  refine ⟨isChild, notFound, fun tree => ?_⟩
  have isFound := (tree.getChildPCB ⟨found, listed⟩ 1 1).mpr isChild
  rw [notFound] at isFound
  cases isFound

end Nachos
