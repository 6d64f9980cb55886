import Nachos.UserProg.UserState
import Nachos.Verified.PreciseFaults

/-!
# The register file

At each instruction boundary `r0` is 0 and the pending load is to a general register, whatever thread
runs.  Each process has the registers that it would have with the machine for itself: those of the
machine belong to the running thread, those of another thread are in its `userRegisters`, and those of
a child that has not run yet in its address space.
-/

namespace Nachos

open Runs

namespace Registers

variable {r : Registers} {k : Nat}

structure Valid (r : Registers) : Prop where
  zero : r 0 = 0
  load : (r loadReg).toNat < numGPRegs

structure Settled (r : Registers) : Prop where
  zero : r 0 = 0
  load : r loadReg = 0
  loadValue : r loadValueReg = 0

/-- `DelayedLoad` writes general registers and the two of the pending load only. -/
structure Contained (r : Registers) : Prop where
  done : ∀ n v, delayedLoad n v r = .ok (r.delayed n v)
  spared : ∀ n v k, numGPRegs ≤ k → k ≠ loadReg → k ≠ loadValueReg → r.delayed n v k = r k

theorem Settled.valid (settled : r.Settled) : r.Valid :=
  ⟨settled.zero, by rw [settled.load]; decide⟩

theorem contained_of_load (load : (r loadReg).toNat < numGPRegs) : r.Contained := by
  refine ⟨fun n v => if_pos (load.trans (by decide)), fun n v k large notLoad notValue => ?_⟩
  have notTarget : k ≠ (r loadReg).toNat := by omega
  have notZero : k ≠ 0 := by
    rintro rfl
    cases large
  simp only [delayed, write_apply, notTarget, notLoad, notValue, notZero, if_false]

theorem delayed_settled (r : Registers) : (r.delayed 0 0).Settled := ⟨rfl, rfl, rfl⟩

theorem Settled.delayed (settled : r.Settled) : r.delayed 0 0 = r := by
  funext k
  simp only [Registers.delayed, write_apply, settled.load, settled.loadValue]
  split_ifs with zero loadValue load target
  · rw [zero, settled.zero]
  · rw [loadValue, settled.loadValue]
  · rw [load, settled.load]
    rfl
  · exact absurd target zero
  · rfl

theorem Settled.write (settled : r.Settled) (value : BitVec 32)
    (other : k ≠ 0 ∧ k ≠ loadReg ∧ k ≠ loadValueReg) : (r.write k value).Settled :=
  ⟨(write_other r value other.1.symm).trans settled.zero,
    (write_other r value other.2.1.symm).trans settled.load,
    (write_other r value other.2.2.symm).trans settled.loadValue⟩

theorem writeAll_dropZero (writes : List (Nat × BitVec 32)) (notZero : k ≠ 0) (r : Registers) :
    r.writeAll (writes.filter fun w => w.1 ≠ 0) k = r.writeAll writes k := by
  induction writes generalizing r with
  | nil => rfl
  | cons w writes ih =>
    by_cases toZero : w.1 = 0
    · rw [List.filter_cons_of_neg (by simpa using toZero), ih]
      exact writeAll_congr writes (write_other r w.2 (toZero ▸ notZero)).symm
    · rw [List.filter_cons_of_pos (by simpa using toZero)]
      exact ih (r.write w.1 w.2)

/-- `DelayedLoad` clears `r0`, so that what was written there is gone. -/
theorem retired_dropZero (r : Registers) (writes : List (Nat × BitVec 32)) (after : After) :
    (r.writeAll writes).retired after =
      (r.writeAll (writes.filter fun w => w.1 ≠ 0)).retired after := by
  have same : (r.writeAll writes).delayed after.nextLoadReg after.nextLoadValue =
      (r.writeAll (writes.filter fun w => w.1 ≠ 0)).delayed after.nextLoadReg after.nextLoadValue := by
    funext k
    by_cases zero : k = 0
    · rw [zero]
      rfl
    · simp only [delayed, write_apply, zero, if_false, writeAll_dropZero writes zero,
        writeAll_dropZero writes (show loadReg ≠ 0 by decide),
        writeAll_dropZero writes (show loadValueReg ≠ 0 by decide)]
  simp only [retired, same]

end Registers

/-! ## One instruction -/

variable {p q : Processor} {e : Effect} {pcAfter : BitVec 32}

def Effect.target : Effect → Nat
  | .load _ _ rt _ => rt
  | .compute .. | .raise .. | .assertion | .division | .store .. | .replace .. => 0

theorem Effect.run_target {after : After} (run : e.run pcAfter p = .ok (after, q)) :
    after.nextLoadReg = e.target := by
  cases e with
  | compute writes pc =>
    cases run
    rfl
  | raise which addr =>
    rw [Effect.run, Exec.raiseException_eq] at run
    split at run <;> cases run
  | assertion | division => cases run
  | load addr size rt convert | store addr size value =>
    rw [Effect.run, Exec.bind_apply] at run
    split at run
    next => cases run
    next =>
      cases run
      rfl
  | replace addr insert =>
    rw [Effect.run, Exec.bind_apply] at run
    split at run
    next => cases run
    next =>
      rw [Exec.bind_apply] at run
      split at run
      next => cases run
      next =>
        cases run
        rfl

theorem Instruction.effect_target_lt (raw : BitVec 32) (r : Registers) (pcAfter : BitVec 32) :
    ((Instruction.decode raw).effect r pcAfter).target < numGPRegs := by
  obtain ⟨-, general, -⟩ := Instruction.decode_fields_lt raw
  generalize Instruction.decode raw = instr at *
  obtain ⟨opCode, s, t, d, extra⟩ := instr
  change t < 32 at general
  cases opCode with
  | add | addi | sub | divu | lh | lhu | lw | lwl | lwr | swl | swr =>
    simp only [effect]
    split <;> simp [Effect.target, numGPRegs, general]
  | div =>
    simp only [effect]
    split
    · simp [Effect.target, numGPRegs]
    · split <;> simp [Effect.target, numGPRegs]
  | _ => simp [effect, Effect.target, numGPRegs, general]

/-- What `OneInstruction` leaves of valid registers: it calls `DelayedLoad` on registers for which the
write is to a general register, and drops what it has computed for `r0`. -/
inductive Confined (p : Processor) : Except Stop (Unit × Processor) → Prop where
  | completes (raw : BitVec 32) (r : Registers) (after : After) (q : Processor)
      (fetched : p.fetched = some raw)
      (results : r = p.registers.writeAll ((p.effect raw).writes.filter fun w => w.1 ≠ 0))
      (contained : r.Contained) (next : after.nextLoadReg < numGPRegs) :
      Confined p (.ok ((), q.withRegisters (r.retired after)))
  | raises (which : ExceptionType) (addr : BitVec 32) (q : Processor)
      (contained : (p.registers.write badVAddrReg addr).Contained) :
      Confined p (.error (.exception which
        (q.withRegisters ((p.registers.write badVAddrReg addr).delayed 0 0))))
  | asserts : Confined p (.error (.fault .assertion))
  | divides : Confined p (.error .division)

theorem oneInstruction_confined (debug : Bool) (valid : p.registers.Valid) :
    Confined p (oneInstruction debug p) := by
  cases oneInstruction_ending debug p with
  | asserts ended => exact ended ▸ .asserts
  | divides ended => exact ended ▸ .divides
  | raises which addr q unchanged ended =>
    have loadable : (q.withRegisters p.registers).registers.Loadable := valid.load.trans (by decide)
    rw [ended, Exec.raiseException_eq, if_pos loadable]
    exact .raises which addr q (Registers.contained_of_load valid.load)
  | returns raw after q q' found returned ended =>
    have bounded := Instruction.decode_writes_lt raw p.registers (p.registers nextPCReg + 4#32)
    have loadable := (p.registers.loadable_writeAll bounded).mpr (valid.load.trans (by decide))
    have next : after.nextLoadReg < numGPRegs := by
      rw [Effect.run_target returned]
      exact Instruction.effect_target_lt raw p.registers _
    rw [ended, Effect.complete_of_returned returned]
    refine (if_pos loadable).symm ▸ ?_
    refine p.registers.retired_dropZero (p.effect raw).writes after ▸
      .completes raw _ after q' found rfl (Registers.contained_of_load ?_) next
    rw [Registers.writeAll_dropZero _ (by decide), Registers.writeAll_other]
    · exact valid.load
    · intro w written
      have small := bounded w written
      simp only [pcReg, loadReg] at *
      omega

/-- The registers that are left at the next boundary, or for `ExceptionHandler`. -/
theorem Confined.valid (confined : Confined p (.ok ((), q))) : q.registers.Valid := by
  cases confined with
  | completes raw r after q' fetched results contained next =>
    refine ⟨rfl, ?_⟩
    have load : r.retired after loadReg = BitVec.ofNat 32 after.nextLoadReg := rfl
    change (r.retired after loadReg).toNat < numGPRegs
    rw [load, BitVec.toNat_ofNat, Nat.mod_eq_of_lt (next.trans (by decide))]
    exact next

theorem Confined.settled {which : ExceptionType}
    (confined : Confined p (.error (.exception which q))) : q.registers.Settled := by
  cases confined with
  | raises which addr q contained => exact Registers.delayed_settled _

/-! ## The processes -/

def startRegisters (numPages : Nat) : Registers := fun num =>
  if num = nextPCReg then 4#32
  else if num = stackReg then BitVec.ofNat 32 (numPages * pageSize) - 16#32
  else 0#32

/-- A child has the registers of its parent at the call, but starts at the address in register 4. -/
def forkedRegisters (file : Registers) : Registers := fun num =>
  if num = pcReg then file 4
  else if num = nextPCReg then file 4 + 4#32
  else if num = prevPCReg then file 4 - 4#32
  else file num

def parentRegisters (pid : BitVec 32) (file : Registers) : Registers := fun num =>
  if num = 2 then pid
  else if num = pcReg ∨ num = nextPCReg ∨ num = prevPCReg then file num + 4#32
  else file num

def committedRegisters (file : Registers) : Registers := fun num =>
  if num = 0 ∨ num = loadReg ∨ num = loadValueReg then 0#32
  else if num = (file loadReg).toNat then file loadValueReg
  else file num

/-- The registers that each process has when it never shares the machine. -/
def files : List (Cpu × CpuEvent) → Nat → Registers
  | [] => fun _ _ => 0
  | (s, event) :: earlier =>
    let file := files earlier s.currentThread
    let own (r : Registers) := Function.update (files earlier) s.currentThread r
    match event with
    | .startProcess numPages => own (startRegisters numPages)
    | .instruction debug =>
      match oneInstruction debug
        ⟨file, s.memory, s.pageTables s.currentThread, s.here.numPages⟩ with
      | .ok (_, p) | .error (.exception _ p) => own p.registers
      | .error (.fault _) | .error .division => files earlier
    | .write num value => own (file.write num value)
    | .forkChild => Function.update (files earlier) s.created (forkedRegisters file)
    | .restoreUserRegisters pid => own (parentRegisters pid file)
    | .interrupt => if s.here.phase = .user then own (committedRegisters file) else files earlier
    | _ => files earlier

theorem initRegisters_eq (numPages : Nat) :
    initRegisters numPages pageSize = startRegisters numPages := by
  funext num
  simp only [initRegisters, startRegisters, Registers.write_apply]
  by_cases next : num = nextPCReg
  · subst next
    rfl
  · simp only [next, if_false]

theorem childRegisters_eq (r : Registers) : childRegisters r = forkedRegisters r := by
  funext num
  simp only [childRegisters, forkedRegisters, Registers.write_apply]
  by_cases prev : num = prevPCReg
  · subst prev
    rfl
  by_cases next : num = nextPCReg
  · subst next
    rfl
  simp only [prev, next, if_false]

theorem updatePCRegs_eq (pid : BitVec 32) (r : Registers) :
    updatePCRegs (r.write 2 pid) = parentRegisters pid r := by
  funext num
  simp only [updatePCRegs, parentRegisters, Registers.write_apply]
  by_cases result : num = 2
  · subst result
    rfl
  by_cases counter : num = pcReg ∨ num = nextPCReg ∨ num = prevPCReg
  · rcases counter with rfl | rfl | rfl <;> rfl
  · obtain ⟨notPC, notNext, notPrev⟩ : num ≠ pcReg ∧ num ≠ nextPCReg ∧ num ≠ prevPCReg := by
      simpa only [not_or] using counter
    simp only [result, notPC, notNext, notPrev, if_false, or_self]

theorem delayed_eq (r : Registers) : r.delayed 0 0 = committedRegisters r := by
  funext num
  simp only [Registers.delayed, committedRegisters, Registers.write_apply]
  by_cases fixed : num = 0 ∨ num = loadReg ∨ num = loadValueReg
  · rcases fixed with rfl | rfl | rfl <;> rfl
  · obtain ⟨notZero, notLoad, notValue⟩ : num ≠ 0 ∧ num ≠ loadReg ∧ num ≠ loadValueReg := by
      simpa only [not_or] using fixed
    simp only [notZero, notLoad, notValue, if_false, or_self]

variable {s s' : Cpu} {event : CpuEvent} {file file' : Nat → Registers} {r : Registers}

/-- `r` are the registers of the thread, in the machine or saved by `Scheduler::Run`, and `file` those of
its process. -/
def UserThread.Holds (thread : UserThread) (r file : Registers) : Prop :=
  match thread.phase with
  | .user => thread.started = true ∧ r = file ∧ file.Valid
  | .handler => thread.started = true ∧ r = file ∧ file.Settled
  | .forking => thread.started = true ∧ r = file ∧ thread.spaceRegisters = file ∧ file.Settled
  | .forked => thread.started = true ∧ r.Valid ∧ thread.spaceRegisters = file ∧ file.Settled
  | .dummy => (thread.started = true → r.Valid) ∧ thread.spaceRegisters = file ∧ file.Settled
  | .kernel | .finished => True

def UserPhase.Entered (phase : UserPhase) : Prop :=
  phase = .user ∨ phase = .handler ∨ phase = .forking ∨ phase = .forked

theorem Cpu.goTo_here (s : Cpu) (thread : UserThread) : (s.goTo thread).here = thread :=
  Function.update_self _ _ _

theorem Cpu.goTo_threads {t : Nat} (other : t ≠ s.currentThread) (thread : UserThread) :
    (s.goTo thread).threads t = s.threads t :=
  Function.update_of_ne other _ _

structure Separate (file : Nat → Registers) (s : Cpu) : Prop where
  valid : s.registers.Valid
  current : s.currentThread < s.created
  started : s.here.started = true
  own : s.here.Holds s.registers (file s.currentThread)
  table : s.here.phase.Entered →
    s.pageTable = some s.currentThread ∧ s.pageTableSize = s.here.numPages
  others : ∀ t < s.created, t ≠ s.currentThread →
    (s.threads t).Holds (s.threads t).userRegisters (file t)

namespace Separate

theorem act (separate : Separate file s) {thread : UserThread}
    (current : s'.currentThread = s.currentThread) (created : s'.created = s.created)
    (threads : s'.threads = Function.update s.threads s.currentThread thread)
    (files : ∀ t, t ≠ s.currentThread → file' t = file t) (mine : file' s.currentThread = r)
    (valid : s'.registers.Valid) (started : thread.started = true) (own : thread.Holds s'.registers r)
    (table : thread.phase.Entered →
      s'.pageTable = some s.currentThread ∧ s'.pageTableSize = thread.numPages) :
    Separate file' s' := by
  have here : s'.here = thread := by
    rw [Cpu.here, threads, current, Function.update_self]
  refine ⟨valid, by rw [current, created]; exact separate.current, by rw [here]; exact started, ?_,
    ?_, ?_⟩
  · rw [here, current, mine]
    exact own
  · rw [here, current]
    exact table
  · intro t below other
    rw [current] at other
    rw [threads, Function.update_of_ne other, files t other]
    exact separate.others t (created ▸ below) other

theorem beside (separate : Separate file s) {t₀ created : Nat} {thread : UserThread}
    (other : t₀ ≠ s.currentThread) (grown : s.created ≤ created)
    (new : ∀ t < created, t ≠ t₀ → t < s.created) (files : ∀ t, t ≠ t₀ → file' t = file t)
    (holds : thread.Holds thread.userRegisters (file' t₀)) :
    Separate file' { s with created := created, threads := Function.update s.threads t₀ thread } := by
  have here : Function.update s.threads t₀ thread s.currentThread = s.here :=
    Function.update_of_ne other.symm thread s.threads
  refine ⟨separate.valid, separate.current.trans_le grown, ?_, ?_, ?_, ?_⟩
  · simp only [Cpu.here, here]
    exact separate.started
  · simp only [Cpu.here, here, files _ other.symm]
    exact separate.own
  · simp only [Cpu.here, here]
    exact separate.table
  · intro t below notRunning
    by_cases changed : t = t₀
    · subst changed
      simpa using holds
    · simp only [Function.update_of_ne changed, files t changed]
      exact separate.others t (new t below changed) notRunning

theorem finish (separate : Separate file s) (thread : Nat) :
    Separate file { s with
      threads := Function.update s.threads thread { s.threads thread with phase := .finished } } := by
  by_cases here : thread = s.currentThread
  · subst here
    refine separate.act rfl rfl rfl (fun _ _ => rfl) rfl separate.valid separate.started trivial ?_
    simp [UserPhase.Entered]
  · exact separate.beside here le_rfl (fun _ below _ => below) (fun _ _ => rfl) trivial

end Separate

/-! ## `Scheduler::Run` -/

namespace UserThread.Holds

variable {thread : UserThread} {file : Registers}

theorem started (holds : thread.Holds r file) (entered : thread.phase.Entered) :
    thread.started = true := by
  rcases entered with phase | phase | phase | phase <;> rw [UserThread.Holds, phase] at holds <;>
    exact holds.1

theorem valid (holds : thread.Holds r file) (started : thread.started = true)
    (space : thread.phase ≠ .kernel) (unfinished : thread.phase ≠ .finished) : r.Valid := by
  obtain ⟨phase, _, _, _, _⟩ := thread
  cases phase with
  | kernel => exact absurd rfl space
  | user => exact holds.2.1 ▸ holds.2.2
  | handler => exact holds.2.1 ▸ holds.2.2.valid
  | forking => exact holds.2.1 ▸ holds.2.2.2.valid
  | forked => exact holds.2.1
  | dummy => exact holds.1 started
  | finished => exact absurd rfl unfinished

/-- A thread that begins to run leaves the registers of the machine as they are. -/
theorem begins (holds : thread.Holds r file) (new : thread.started = false) {r' : Registers}
    (valid : r'.Valid) : { thread with started := true }.Holds r' file := by
  obtain ⟨phase, _, _, _, _⟩ := thread
  cases new
  cases phase with
  | kernel | finished => trivial
  | user | handler | forking | forked => cases holds.1
  | dummy => exact ⟨fun _ => valid, holds.2⟩

/-- A handler of an interrupt finds no pending load, except between two instructions. -/
theorem interrupted (holds : thread.Holds r file) (notUser : thread.phase ≠ .user) :
    thread.Holds (r.delayed 0 0) file := by
  have valid := (Registers.delayed_settled r).valid
  obtain ⟨phase, _, _, _, _⟩ := thread
  cases phase with
  | kernel | finished => trivial
  | user => exact absurd rfl notUser
  | handler =>
    obtain ⟨started, rfl, settled⟩ := holds
    exact ⟨started, settled.delayed, settled⟩
  | forking =>
    obtain ⟨started, rfl, saved, settled⟩ := holds
    exact ⟨started, settled.delayed, saved, settled⟩
  | forked => exact ⟨holds.1, valid, holds.2.2⟩
  | dummy => exact ⟨fun _ => valid, holds.2⟩

end UserThread.Holds

theorem Separate.saved (separate : Separate file s) {t : Nat} (below : t < s.created) :
    (s.saveUserState.threads t).Holds (s.saveUserState.threads t).userRegisters (file t) := by
  unfold Cpu.saveUserState
  by_cases here : t = s.currentThread
  · subst here
    split
    next kernel =>
      change s.here.Holds _ _
      rw [UserThread.Holds, kernel]
      trivial
    next =>
      change (s.goTo _).here.Holds (s.goTo _).here.userRegisters _
      rw [Cpu.goTo_here]
      exact separate.own
  · split
    next => exact separate.others t below here
    next =>
      rw [Cpu.goTo_threads here]
      exact separate.others t below here

theorem separate_restored (valid : s.registers.Valid)
    (saved : ∀ t < s.created, (s.threads t).Holds (s.threads t).userRegisters (file t))
    {nextThread : Nat} (below : nextThread < s.created)
    (unfinished : (s.threads nextThread).phase ≠ .finished) :
    Separate file (s.restoreUserState nextThread) := by
  have holds := saved nextThread below
  by_cases new : (s.threads nextThread).started = false
  · have begun : s.restoreUserState nextThread = { s with currentThread := nextThread }.goTo
        { s.threads nextThread with started := true } := if_pos new
    rw [begun]
    refine ⟨valid, below, ?_, ?_, ?_, fun t below other => ?_⟩
    · rw [Cpu.goTo_here]
    · rw [Cpu.goTo_here]
      exact holds.begins new valid
    · intro entered
      rw [Cpu.goTo_here] at entered
      cases new.symm.trans (holds.started entered)
    · rw [Cpu.goTo_threads (s := { s with currentThread := nextThread }) other]
      exact saved t below
  have started : (s.threads nextThread).started = true := by simpa using new
  by_cases kernel : (s.threads nextThread).phase = .kernel
  · have kept : s.restoreUserState nextThread = { s with currentThread := nextThread } :=
      (if_neg new).trans (if_pos kernel)
    rw [kept]
    refine ⟨valid, below, started, ?_, fun entered => ?_, fun t below other => saved t below⟩
    · change (s.threads nextThread).Holds _ _
      rw [UserThread.Holds, kernel]
      trivial
    · simp [UserPhase.Entered, Cpu.here, kernel] at entered
  · have restored : s.restoreUserState nextThread = Cpu.restoreState
        { s with currentThread := nextThread, registers := (s.threads nextThread).userRegisters } :=
      (if_neg new).trans (if_neg kernel)
    rw [restored]
    exact ⟨holds.valid started kernel unfinished, below, started, holds, fun _ => ⟨rfl, rfl⟩,
      fun t below other => saved t below⟩

theorem Separate.switch (separate : Separate file s) {nextThread : Nat} (below : nextThread < s.created)
    (other : nextThread ≠ s.currentThread) (unfinished : (s.threads nextThread).phase ≠ .finished) :
    Separate file (s.saveUserState.restoreUserState nextThread) := by
  have saved := fun t => separate.saved (t := t)
  unfold Cpu.saveUserState at saved ⊢
  split at saved
  next kernel =>
    rw [if_pos kernel]
    exact separate_restored separate.valid saved below unfinished
  next space =>
    rw [if_neg space]
    refine separate_restored (s := s.goTo _) separate.valid saved below ?_
    rw [Cpu.goTo_threads other]
    exact unfinished

/-! ## Whole runs -/

theorem Registers.Settled.child (settled : r.Settled) : (childRegisters r).Settled :=
  ((settled.write _ (by decide)).write _ (by decide)).write _ (by decide)

theorem Registers.Settled.updatePCRegs (settled : r.Settled) : (updatePCRegs r).Settled :=
  ((settled.write _ (by decide)).write _ (by decide)).write _ (by decide)

theorem forkedRegisters_settled (settled : r.Settled) : (forkedRegisters r).Settled :=
  childRegisters_eq r ▸ settled.child

theorem parentRegisters_settled (settled : r.Settled) (pid : BitVec 32) :
    (parentRegisters pid r).Settled :=
  updatePCRegs_eq pid r ▸ (settled.write pid (by decide)).updatePCRegs

/-- Where the current thread has to be for the event, if that matters. -/
def CpuEvent.phase : CpuEvent → Option UserPhase
  | .startProcess _ => some .kernel
  | .instruction _ => some .user
  | .write .. | .resume | .saveUserRegisters => some .handler
  | .forkFails | .forkChild => some .forking
  | .restoreUserRegisters _ => some .forked
  | .dummy => some .dummy
  | .create | .interrupt | .switch _ | .finish _ | .page .. => none

theorem CpuStep.phase (step : CpuStep s event s') {phase : UserPhase}
    (needed : event.phase = some phase) : s.here.phase = phase := by
  unfold CpuStep performCpu at step
  split at step
  case h_15 => cases step
  all_goals first | cases needed; assumption | cases needed

namespace Separate

variable {history : List (Cpu × CpuEvent)}

/-- The current thread goes on as `thread`, and `r` are the registers of its process now. -/
theorem changes (separate : Separate file s) {thread : UserThread}
    (current : s'.currentThread = s.currentThread) (created : s'.created = s.created)
    (threads : s'.threads = Function.update s.threads s.currentThread thread)
    (valid : s'.registers.Valid) (started : thread.started = true) (own : thread.Holds s'.registers r)
    (table : thread.phase.Entered →
      s'.pageTable = some s.currentThread ∧ s'.pageTableSize = thread.numPages) :
    Separate (Function.update file s.currentThread r) s' :=
  separate.act current created threads (fun _ other => Function.update_of_ne other _ _)
    (Function.update_self _ _ _) valid started own table

theorem threads_self (s : Cpu) : s.threads = Function.update s.threads s.currentThread s.here :=
  (Function.update_eq_self _ _).symm

section Events

variable (separate : Separate (files history) s)

include separate

theorem create (step : CpuStep s .create s') : Separate (files ((s, .create) :: history)) s' := by
  cases step
  exact separate.beside separate.current.ne' (Nat.le_succ _)
    (fun t below other => lt_of_le_of_ne (Nat.le_of_lt_succ below) other) (fun _ _ => rfl) trivial

theorem startProcess {numPages : Nat} (step : CpuStep s (.startProcess numPages) s') :
    Separate (files ((s, .startProcess numPages) :: history)) s' := by
  have phase := step.phase rfl
  delta CpuStep performCpu at step
  simp only [phase] at step
  cases step
  have valid : (startRegisters numPages).Valid := Registers.Settled.valid ⟨rfl, rfl, rfl⟩
  rw [initRegisters_eq]
  exact separate.changes rfl rfl rfl valid separate.started ⟨separate.started, rfl, valid⟩
    fun _ => ⟨rfl, by simp [Cpu.restoreState, Cpu.here, Cpu.goTo]⟩

theorem instruction {debug : Bool} (step : CpuStep s (.instruction debug) s') :
    Separate (files ((s, .instruction debug) :: history)) s' := by
  have phase := step.phase rfl
  delta CpuStep performCpu at step
  simp only [phase] at step
  have own := separate.own
  rw [UserThread.Holds, phase] at own
  have entered := separate.table (.inl phase)
  have processor : s.processor s.currentThread =
      ⟨files history s.currentThread, s.memory, s.pageTables s.currentThread, s.here.numPages⟩ := by
    rw [Cpu.processor, own.2.1, entered.2]
  have confined : Confined (s.processor s.currentThread) _ :=
    oneInstruction_confined debug separate.valid
  rw [entered.1, Option.bind_some] at step
  simp only [files, ← processor]
  cases result : oneInstruction debug (s.processor s.currentThread) with
  | ok value =>
    rw [result] at step confined
    cases step
    refine separate.changes rfl rfl (threads_self s) confined.valid own.1 ?_ fun _ => entered
    rw [UserThread.Holds, phase]
    exact ⟨own.1, rfl, confined.valid⟩
  | error reason =>
    rw [result] at step confined
    cases reason with
    | exception which q =>
      cases step
      exact separate.changes rfl rfl rfl confined.settled.valid own.1
        ⟨own.1, rfl, confined.settled⟩ fun _ => entered
    | fault _ | division => cases step

theorem write {num : Nat} {value : BitVec 32} (step : CpuStep s (.write num value) s') :
    Separate (files ((s, .write num value) :: history)) s' := by
  have phase := step.phase rfl
  delta CpuStep performCpu at step
  simp only [phase] at step
  obtain ⟨allowed, performed⟩ := Option.ite_none_right_eq_some.mp step
  cases performed
  have own := separate.own
  rw [UserThread.Holds, phase] at own
  obtain ⟨started, same, settled⟩ := own
  have written : ((files history s.currentThread).write num value).Settled := by
    refine settled.write value ?_
    rcases allowed with rfl | rfl | rfl | rfl <;> decide
  rw [same]
  refine separate.changes rfl rfl (threads_self s) written.valid started ?_ separate.table
  rw [UserThread.Holds, phase]
  exact ⟨started, rfl, written⟩

/-- The events that change no register of the machine. -/
theorem phaseOnly
    (which : event = .resume ∨ event = .saveUserRegisters ∨ event = .forkFails)
    (step : CpuStep s event s') : Separate (files ((s, event) :: history)) s' := by
  have own := separate.own
  obtain rfl | rfl | rfl := which
  all_goals
    have phase := step.phase rfl
    delta CpuStep performCpu at step
    simp only [phase] at step
    cases step
    rw [UserThread.Holds, phase] at own
    refine separate.act rfl rfl rfl (fun _ _ => rfl) rfl separate.valid separate.started ?_
      fun _ => separate.table (by simp [UserPhase.Entered, phase])
  · exact ⟨own.1, own.2.1, own.2.2.valid⟩
  · exact ⟨own.1, own.2.1, own.2⟩
  · exact ⟨own.1, own.2.1, own.2.2.2⟩

/-- The machine has the registers of the child while the parent is still running. -/
theorem forkChild (step : CpuStep s .forkChild s') :
    Separate (files ((s, .forkChild) :: history)) s' := by
  have phase := step.phase rfl
  delta CpuStep performCpu at step
  simp only [phase] at step
  cases step
  have own := separate.own
  rw [UserThread.Holds, phase] at own
  obtain ⟨started, same, saved, settled⟩ := own
  have child := forkedRegisters_settled settled
  rw [same, childRegisters_eq]
  have forked : Separate (files history) { s.goTo { s.here with phase := .forked } with
      registers := forkedRegisters (files history s.currentThread) } :=
    separate.act rfl rfl rfl (fun _ _ => rfl) rfl child.valid started
      ⟨started, child.valid, saved, settled⟩
      fun _ => separate.table (.inr (.inr (.inl phase)))
  have file : files ((s, .forkChild) :: history) s.created =
      forkedRegisters (files history s.currentThread) := Function.update_self _ _ _
  refine forked.beside forked.current.ne' (Nat.le_succ _)
    (fun t below other => lt_of_le_of_ne (Nat.le_of_lt_succ below) other)
    (fun t other => Function.update_of_ne other _ _) ⟨fun running => ?_, file.symm, file ▸ child⟩
  cases running

theorem restoreUserRegisters {pid : BitVec 32} (step : CpuStep s (.restoreUserRegisters pid) s') :
    Separate (files ((s, .restoreUserRegisters pid) :: history)) s' := by
  have phase := step.phase rfl
  delta CpuStep performCpu at step
  simp only [phase] at step
  cases step
  have own := separate.own
  rw [UserThread.Holds, phase] at own
  obtain ⟨started, -, same, settled⟩ := own
  rw [same, updatePCRegs_eq]
  have resumed := parentRegisters_settled settled pid
  exact separate.changes rfl rfl rfl resumed.valid started ⟨started, rfl, resumed⟩
    fun _ => separate.table (.inr (.inr (.inr phase)))

theorem dummy (step : CpuStep s .dummy s') : Separate (files ((s, .dummy) :: history)) s' := by
  have phase := step.phase rfl
  delta CpuStep performCpu at step
  simp only [phase] at step
  cases step
  have own := separate.own
  rw [UserThread.Holds, phase] at own
  exact separate.act rfl rfl rfl (fun _ _ => rfl) rfl (own.2.1 ▸ own.2.2.valid) separate.started
    ⟨separate.started, own.2.1, own.2.2.valid⟩
    fun _ => ⟨rfl, by simp [Cpu.restoreState, Cpu.here, Cpu.goTo]⟩

/-- Between two instructions the handler does the pending load of the process. -/
theorem interrupt (step : CpuStep s .interrupt s') :
    Separate (files ((s, .interrupt) :: history)) s' := by
  have own := separate.own
  have valid := (Registers.delayed_settled s.registers).valid
  simp only [CpuStep, performCpu, (Registers.contained_of_load separate.valid.load).done] at step
  cases step
  simp only [files]
  by_cases phase : s.here.phase = .user
  · rw [if_pos phase]
    rw [UserThread.Holds, phase] at own
    refine separate.changes rfl rfl (threads_self s) valid separate.started ?_ separate.table
    rw [UserThread.Holds, phase, ← delayed_eq]
    exact ⟨own.1, congrArg (·.delayed 0 0) own.2.1, own.2.1 ▸ valid⟩
  · rw [if_neg phase]
    exact separate.act rfl rfl (threads_self s) (fun _ _ => rfl) rfl valid separate.started
      (own.interrupted phase) separate.table

end Events

theorem step (separate : Separate (files history) s) (step : CpuStep s event s') :
    Separate (files ((s, event) :: history)) s' := by
  cases event with
  | create => exact separate.create step
  | startProcess numPages => exact separate.startProcess step
  | instruction debug => exact separate.instruction step
  | write num value => exact separate.write step
  | resume | saveUserRegisters | forkFails => exact separate.phaseOnly (by simp) step
  | forkChild => exact separate.forkChild step
  | restoreUserRegisters pid => exact separate.restoreUserRegisters step
  | dummy => exact separate.dummy step
  | interrupt => exact separate.interrupt step
  | switch nextThread =>
    obtain ⟨chosen, performed⟩ := Option.ite_none_right_eq_some.mp step
    cases performed
    exact separate.switch chosen.1 chosen.2.1 chosen.2.2
  | finish thread =>
    cases step
    exact separate.finish thread
  | page memory pageTables =>
    cases step
    exact { separate with }

end Separate

section Runs

variable {memory : Machine} {pageTables : Nat → Nat → TranslationEntry} {threads : Nat → UserThread}
  {history : List (Cpu × CpuEvent)} {s : Cpu}

theorem separate_run (run : Run CpuStep (.boot memory pageTables threads) history s) :
    Separate (files history) s := by
  have guarded : Guarded (fun _ _ => True) history := fun _ _ => trivial
  refine run.historyInvariant (I := fun h t => Separate (files h) t) ?_
    (fun _ _ _ _ separate _ step => separate.step step) guarded
  refine ⟨Registers.Settled.valid ⟨rfl, rfl, rfl⟩, Nat.one_pos, rfl, trivial, ?_, ?_⟩
  · simp [UserPhase.Entered, Cpu.boot, Cpu.here]
  · intro t below other
    exact absurd (Nat.lt_one_iff.mp below) other

/-- In every run of user programs and kernel threads, `r0` is 0 and a pending load is to a general
register.  So `DelayedLoad` writes where it should, an instruction leaves the registers as if it had no
result for `r0`, and the value of a load to `r0` makes no difference. -/
theorem register_file_valid (run : Run CpuStep (.boot memory pageTables threads) history s) :
    s.registers.Valid ∧ s.registers.Contained ∧
      ∀ (debug : Bool) (p : Processor), p.registers = s.registers →
        Confined p (oneInstruction debug p) ∧
          (p.registers loadReg = 0 → SameEnd (oneInstruction debug p)
            (oneInstruction debug (p.withRegisters (p.registers.write loadValueReg 0)))) := by
  have valid := (separate_run run).valid
  refine ⟨valid, Registers.contained_of_load valid.load, fun debug p same => ?_⟩
  rw [← same] at valid
  refine ⟨oneInstruction_confined debug valid, fun toZero => ?_⟩
  refine oneInstruction_sameEnd debug ⟨⟨toZero, rfl, fun k plain notZero => ?_⟩, valid.zero⟩ valid.zero
    (valid.load.trans (by decide)) (.inl (congrArg BitVec.toNat toZero))
  rw [toZero, Registers.write_other _ _ plain.2.1]
  exact (if_neg notZero).symm

end Runs

abbrev Cpu.loaded (raw : BitVec 32) : Cpu :=
  .boot ⟨byteOf raw, false⟩ (fun _ vpn => ⟨vpn, vpn, true, false, false, false, false⟩)
    fun _ => ⟨.kernel, false, fun _ => 0, fun _ => 0, 0⟩

/-- `ADDIU r0, r0, 5`. -/
theorem register_file_valid_addiu :
    ∃ history s, Run CpuStep (.loaded 0x24000005#32) history s ∧
      history.map Prod.snd = [.instruction false, .startProcess 1] ∧
      s.registers pcReg = 4 ∧ s.registers.Valid := by
  refine labelled_run id (fun _ s => s.registers pcReg = 4) (by decide +kernel) fun _ _ run next => ?_
  exact ⟨next, (register_file_valid run).1⟩

end Nachos
