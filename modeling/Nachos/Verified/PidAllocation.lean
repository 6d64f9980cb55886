import Nachos.UserProg.ProcessMgr
import Nachos.Verified.ProcessTree

/-!
# Allocation of pids

Every thread may be between the two critical sections of `CreatePCB` at once.  The table of
processes and the bitmap agree all the same, whatever the order of the sections: what can go
wrong is a second section that starts after other threads took all the pids it was promised.
-/

namespace Nachos

open Loops Runs

/-- The bitmap and the table describe the live PCBs, which have different pids. -/
structure PidsMatch (size : Nat) (s : Processes) : Prop where
  bit : ∀ pid < size, s.pidMap.bit pid = true ↔
    ∃ ref pcb, s.allPCB pid = some ref ∧ s.heap ref = some pcb ∧ pcb.pid = pid
  bound : ∀ {ref pcb}, s.heap ref = some pcb → pcb.pid < size
  distinct : ∀ {ref ref' pcb pcb'}, s.heap ref = some pcb → s.heap ref' = some pcb' →
    pcb.pid = pcb'.pid → ref = ref'

def Processes.Allocates (size : Nat) (s : Processes) : Prop :=
  ∃ newPCB t pcb, s.allocatePCB = .ok (newPCB, t) ∧ t.heap newPCB = some pcb ∧ pcb.pid < size ∧
    ∀ other pcb', other ≠ newPCB → t.heap other = some pcb' → pcb'.pid ≠ pcb.pid

structure PidTable (size : Nat) (s : Processes) : Prop where
  numBits : s.pidMap.numBits = size
  listed : ∀ pid < size, s.pidMap.bit pid = true →
    ∃ ref pcb, s.allPCB pid = some ref ∧ s.heap ref = some pcb ∧ pcb.pid = pid
  tabled : ∀ {ref pcb}, s.heap ref = some pcb →
    pcb.pid < size ∧ s.pidMap.bit pcb.pid = true ∧ s.allPCB pcb.pid = some ref
  unused : ∀ ref, s.nextRef ≤ ref → s.heap ref = none

variable {size : Nat}

variable {s : Processes}

theorem PidTable.distinct (table : PidTable size s) {ref ref' : Ref} {pcb pcb' : PCB}
    (found : s.heap ref = some pcb) (found' : s.heap ref' = some pcb') (same : pcb.pid = pcb'.pid) :
    ref = ref' := by
  have entry := (table.tabled found).2.2
  rw [same, (table.tabled found').2.2] at entry
  exact (Option.some.inj entry).symm

theorem PidTable.pidsMatch (table : PidTable size s) : PidsMatch size s where
  bit pid bound := by
    constructor
    · exact table.listed pid bound
    · rintro ⟨ref, pcb, -, found, rfl⟩
      exact (table.tabled found).2.1
  bound found := (table.tabled found).1
  distinct := table.distinct

theorem newMgr_table (junk : Nat → BitVec 32) (junkPCB : Nat → Option Ref) :
    PidTable size (.newMgr size junk junkPCB) where
  numBits := BitMap.new_numBits size junk
  listed pid bound isSet := by
    rw [Processes.newMgr, BitMap.new_bit junk bound] at isSet
    cases isSet
  tabled found := by cases found
  unused _ _ := rfl

/-! ## The sections -/

def Processes.withPCB (s : Processes) (newPID : Nat) : Processes :=
  { s.setPCB s.nextRef (some ⟨newPID, none, [], 0#32⟩) with
    nextRef := s.nextRef + 1
    pidMap := s.pidMap.markBit newPID
    allPCB := fun pid => if pid = newPID then some s.nextRef else s.allPCB pid }

/-- The second section goes through exactly when a pid is free. -/
theorem allocatePCB_of_free {pid : Nat} (bound : pid < s.pidMap.numBits)
    (free : s.pidMap.bit pid = false) :
    ∃ newPID < s.pidMap.numBits, s.pidMap.bit newPID = false ∧
      s.allocatePCB = .ok (s.nextRef, s.withPCB newPID) := by
  obtain ⟨newPID, below, isClear, -, found⟩ := BitMap.find_of_clear bound free
  have notNegative : ¬ (newPID : Int) < 0 := by omega
  refine ⟨newPID, below, isClear, ?_⟩
  simp only [Processes.allocatePCB, found, if_neg notNegative]
  rfl

theorem allocatePCB_of_full (full : ∀ pid < s.pidMap.numBits, s.pidMap.bit pid = true) :
    s.allocatePCB = .error .outOfRange := by
  simp [Processes.allocatePCB, BitMap.find_of_full full]

theorem PidTable.withPCB (table : PidTable size s) {newPID : Nat} (bound : newPID < size)
    (free : s.pidMap.bit newPID = false) :
    PidTable size (s.withPCB newPID) := by
  have notTaken : ∀ {ref pcb}, s.heap ref = some pcb → pcb.pid ≠ newPID := by
    intro ref pcb found same
    have taken := (table.tabled found).2.1
    rw [same, free] at taken
    cases taken
  have old : ∀ {ref pcb}, s.heap ref = some pcb → ref ≠ s.nextRef := by
    intro ref pcb found same
    rw [same, table.unused _ (le_refl _)] at found
    cases found
  refine ⟨table.numBits, ?_, ?_, ?_⟩
  · intro pid below isSet
    by_cases isNew : pid = newPID
    · exact ⟨s.nextRef, ⟨newPID, none, [], 0#32⟩, by simp [Processes.withPCB, isNew],
        by simp [Processes.withPCB, Processes.setPCB], isNew.symm⟩
    · simp only [Processes.withPCB, BitMap.bit_markBit, isNew, decide_false, Bool.false_or] at isSet
      obtain ⟨ref, pcb, entry, found, rfl⟩ := table.listed pid below isSet
      exact ⟨ref, pcb, by simp [Processes.withPCB, isNew, entry],
        by simp [Processes.withPCB, Processes.setPCB, old found, found], rfl⟩
  · intro ref pcb found
    by_cases isNew : ref = s.nextRef
    · subst isNew
      simp only [Processes.withPCB, Processes.setPCB, if_true, Option.some.injEq] at found
      subst found
      exact ⟨bound, by simp [Processes.withPCB], by simp [Processes.withPCB]⟩
    · simp only [Processes.withPCB, Processes.setPCB, if_neg isNew] at found
      obtain ⟨below, isSet, entry⟩ := table.tabled found
      exact ⟨below, by simp [Processes.withPCB, isSet],
        by simp [Processes.withPCB, notTaken found, entry]⟩
  · intro ref above
    have isOther : ref ≠ s.nextRef := (Nat.lt_of_succ_le above).ne'
    simp only [Processes.withPCB, Processes.setPCB, if_neg isOther]
    exact table.unused ref (Nat.le_of_succ_le above)

/-- A PCB made by the second section has a pid of its own. -/
theorem PidTable.allocates_iff (table : PidTable size s) :
    s.Allocates size ↔ ∃ pid < size, s.pidMap.bit pid = false := by
  constructor
  · intro ⟨newPCB, t, pcb, allocated, _⟩
    by_contra full
    push Not at full
    rw [allocatePCB_of_full (by rw [table.numBits]; simpa using full)] at allocated
    cases allocated
  · intro ⟨pid, below, free⟩
    obtain ⟨newPID, bound, isClear, allocated⟩ :=
      allocatePCB_of_free (table.numBits.symm ▸ below) free
    rw [table.numBits] at bound
    have after := table.withPCB bound isClear
    have isNew : (s.withPCB newPID).heap s.nextRef = some ⟨newPID, none, [], 0#32⟩ := by
      simp [Processes.withPCB, Processes.setPCB]
    refine ⟨s.nextRef, _, _, allocated, isNew, bound, ?_⟩
    intro other pcb' isOther found same
    exact isOther (after.distinct found isNew same)

theorem PidTable.allocated {s t : Processes} {newPCB : Ref} (table : PidTable size s)
    (allocated : s.allocatePCB = .ok (newPCB, t)) : PidTable size t := by
  by_cases full : ∀ pid < s.pidMap.numBits, s.pidMap.bit pid = true
  · rw [allocatePCB_of_full full] at allocated
    cases allocated
  · push Not at full
    obtain ⟨pid, below, free⟩ := full
    obtain ⟨newPID, bound, isClear, result⟩ := allocatePCB_of_free below (by simpa using free)
    rw [allocated] at result
    cases result
    exact table.withPCB (table.numBits ▸ bound) isClear

theorem PidTable.removed {s t : Processes} {inputPCB : Ref} (table : PidTable size s)
    (removed : s.removeLivePCB inputPCB = .ok t) : PidTable size t := by
  obtain ⟨s₁, run, result⟩ := bind_eq_ok.mp removed
  obtain ⟨pcb, found, -⟩ := bind_eq_ok.mp run
  have found := pcb_eq_ok.mp found
  obtain rfl := removePCB_inv pcb found run
  cases result
  -- the PCBs that are left have other pids, so their bits and entries stay
  have left : ∀ {ref other}, ref ≠ inputPCB → s.heap ref = some other → other.pid ≠ pcb.pid := by
    intro ref other isOther foundOther same
    exact isOther (table.distinct foundOther found same)
  refine ⟨table.numBits, ?_, ?_, ?_⟩
  · intro pid below isSet
    simp only [Processes.setPCB, BitMap.bit_clearBit, Bool.and_eq_true, Bool.not_eq_true',
      decide_eq_false_iff_not] at isSet
    obtain ⟨ref, other, entry, foundOther, rfl⟩ := table.listed pid below isSet.2
    have isOther : ref ≠ inputPCB := by
      rintro rfl
      rw [found] at foundOther
      exact isSet.1 (by rw [Option.some.inj foundOther])
    exact ⟨ref, other, by simp [Processes.setPCB, isSet.1, entry],
      by simp [Processes.setPCB, isOther, foundOther], rfl⟩
  · intro ref other foundOther
    by_cases isRemoved : ref = inputPCB
    · simp [Processes.setPCB, isRemoved] at foundOther
    · simp only [Processes.setPCB, if_neg isRemoved] at foundOther
      obtain ⟨below, isSet, entry⟩ := table.tabled foundOther
      have different := left isRemoved foundOther
      exact ⟨below, by simp [Processes.setPCB, different, isSet],
        by simp [Processes.setPCB, different, entry]⟩
  · intro ref above
    simp only [Processes.setPCB]
    split
    next => rfl
    next => exact table.unused ref above

theorem SectionStep.table {s s' : Creators} {label : Section} (step : SectionStep s label s')
    (table : PidTable size s.processes) : PidTable size s'.processes := by
  cases step with
  | noFreePID outside full => exact table
  | freePID outside free => exact table
  | allocate inside allocated => exact table.allocated allocated
  | remove removed => exact table.removed removed

/-! ## Every interleaving -/

def Creators.boot (size : Nat) (junk : Nat → BitVec 32) (junkPCB : Nat → Option Ref) : Creators where
  processes := .newMgr size junk junkPCB
  creating _ := false

/-- Whatever the order of the sections, bitmap and table agree with the live PCBs, a
`CreatePCB` that returns `NULL` changes nothing, and a thread that is past its first section
gets a PCB with a pid of its own if and only if a pid is free when it starts the second. -/
theorem pid_allocation_iff {junk : Nat → BitVec 32} {junkPCB : Nat → Option Ref}
    {history : List (Creators × Section)} {s : Creators}
    (run : Run SectionStep (Creators.boot size junk junkPCB) history s) :
    PidsMatch size s.processes ∧
      (∀ thread s', SectionStep s (.noFreePID thread) s' → s' = s) ∧
      ∀ thread, s.creating thread = true →
        (s.processes.Allocates size ↔ ∃ pid < size, s.processes.pidMap.bit pid = false) := by
  have table : PidTable size s.processes :=
    run.always (I := fun t => PidTable size t.processes) (newMgr_table junk junkPCB)
      fun _ _ _ table step => step.table table
  refine ⟨table.pidsMatch, ?_, fun _ _ => table.allocates_iff⟩
  intro thread s' step
  cases step
  rfl

def createRepeatedly (count : Nat) : List Section :=
  (List.range count).flatMap fun newPCB => [.freePID 0, .allocate 0 newPCB]

def lastPidTwice : List Section :=
  createRepeatedly 31 ++ [.freePID 1, .freePID 2, .allocate 1 31]

/-- With one pid left, the thread that comes second writes outside the table. -/
theorem second_creator_gets_no_pid : ∃ history s,
    Run SectionStep (Creators.boot 32 (fun _ => 0#32) (fun _ => none)) history s ∧
      s.creating 2 = true ∧ s.processes.allocatePCB = .error .outOfRange ∧
      ¬ s.processes.Allocates 32 := by
  refine computed_run performSection_step
    (fun _ s => s.creating 2 = true ∧ s.processes.numFreePID = 0)
    lastPidTwice (by decide +kernel) fun history s run _ checked => ?_
  obtain ⟨waiting, full⟩ := checked
  have failed := allocatePCB_of_full ((BitMap.numClear_eq_zero _).mp full)
  refine ⟨waiting, failed, ?_⟩
  rintro ⟨newPCB, t, pcb, allocated, _⟩
  rw [failed] at allocated
  cases allocated

/-- With two pids left, both threads get one. -/
theorem second_creator_gets_pid : ∃ history s,
    Run SectionStep (Creators.boot 32 (fun _ => 0#32) (fun _ => none)) history s ∧
      s.creating 2 = true ∧ s.processes.Allocates 32 := by
  refine computed_run performSection_step
    (fun _ s => s.creating 2 = true ∧ s.processes.pidMap.bit 31 = false)
    (createRepeatedly 30 ++ [.freePID 1, .freePID 2, .allocate 1 30])
    (by decide +kernel) fun history s run _ checked => ?_
  obtain ⟨waiting, free⟩ := checked
  exact ⟨waiting, ((pid_allocation_iff run).2.2 2 waiting).mpr ⟨31, by decide, free⟩⟩

end Nachos
