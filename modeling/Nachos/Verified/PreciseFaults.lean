import Nachos.Verified.InstructionEffects

/-!
# Restarting an instruction

An instruction that raises an exception has done nothing yet: `RaiseException` finishes the load that
was pending, and that is all.  So an instruction that does not look at the target of the pending load
goes, when it is started again, the way it would have gone at first.
-/

namespace Nachos

namespace Registers

/-- The register has another use than to hold a pending load or the address of an exception. -/
def Plain (k : Nat) : Prop := k ≠ loadReg ∧ k ≠ loadValueReg ∧ k ≠ badVAddrReg

structure Resumed (r s : Registers) : Prop where
  load : s loadReg = 0
  loadValue : s loadValueReg = 0
  plain : ∀ k, Plain k → k ≠ 0 → s k = if k = (r loadReg).toNat then r loadValueReg else r k

structure Committed (r s : Registers) : Prop extends Resumed r s where
  zero : s 0 = 0

theorem committed_delayed (r : Registers) (badVAddr : BitVec 32) :
    r.Committed ((r.write badVAddrReg badVAddr).delayed 0 0) := by
  have load : (r.write badVAddrReg badVAddr) loadReg = r loadReg := rfl
  have loadValue : (r.write badVAddrReg badVAddr) loadValueReg = r loadValueReg := rfl
  refine ⟨⟨by simp [delayed], by simp [delayed], ?_⟩, by simp [delayed]⟩
  rintro k ⟨notLoad, notLoadValue, notBad⟩ notZero
  simp only [delayed, load, loadValue, write_apply, notLoad, notLoadValue, notBad, notZero, if_false]

end Registers

/-! ## At the exception -/

variable {p q : Processor} {r s : Registers}

theorem raiseException_inv {α : Type} {which which' : ExceptionType} {addr : BitVec 32}
    (raised : (Exec.raiseException which addr : Exec α) p = .error (.exception which' q)) :
    p.registers.Loadable ∧ q.memory = p.memory ∧ p.registers.Committed q.registers := by
  rw [Exec.raiseException_eq] at raised
  split at raised
  next loadable =>
    cases raised
    exact ⟨loadable, rfl, Registers.committed_delayed p.registers addr⟩
  next => cases raised

abbrev Processor.effect (p : Processor) (raw : BitVec 32) : Effect :=
  (Instruction.decode raw).effect p.registers (p.registers nextPCReg + 4#32)

inductive Ending (p : Processor) (result : Except Stop (Unit × Processor)) : Prop where
  | asserts (ended : result = .error (.fault .assertion))
  | divides (ended : result = .error .division)
  | raises (which : ExceptionType) (addr : BitVec 32) (q : Processor) (unchanged : q.memory = p.memory)
      (ended : result = Exec.raiseException which addr (q.withRegisters p.registers))
  | returns (raw : BitVec 32) (after : After) (q q' : Processor) (found : p.fetched = some raw)
      (returned : (p.effect raw).run (p.registers nextPCReg + 4#32) (q.withRegisters p.registers) =
        .ok (after, q'.withRegisters (p.registers.writeAll (p.effect raw).writes)))
      (ended : result =
        (p.effect raw).complete (p.registers nextPCReg + 4#32) (q.withRegisters p.registers))

theorem oneInstruction_ending (debug : Bool) (p : Processor) :
    Ending p (oneInstruction debug p) := by
  cases oneInstruction_executes debug p with
  | raises which addr q missing unchanged raised =>
    exact .raises which addr q unchanged (raised p.registers rfl)
  | completes raw q found unchanged completed =>
    have run : oneInstruction debug p = _ := completed p.registers rfl
    cases Effect.ends _ (Instruction.effect_sized (Instruction.decode raw) p.registers _)
      (p.registers nextPCReg + 4#32) q with
    | asserts failed =>
      rw [failed] at run
      exact .asserts run
    | divides failed =>
      rw [failed] at run
      exact .divides run
    | raises which addr q' unchanged' raised =>
      exact .raises which addr q' (unchanged'.trans unchanged)
        (run.trans (Effect.complete_of_raised (raised p.registers)))
    | returns after q' returned => exact .returns raw after q q' found (returned p.registers) run

/-- Whatever the exception, the instruction has changed no memory, and the registers only by the
pending load. -/
theorem oneInstruction_exception {debug : Bool} {which : ExceptionType}
    (raised : oneInstruction debug p = .error (.exception which q)) :
    p.registers.Loadable ∧ q.memory = p.memory ∧ p.registers.Committed q.registers := by
  cases oneInstruction_ending debug p with
  | asserts ended | divides ended =>
    rw [ended] at raised
    cases raised
  | raises which' addr p' unchanged ended =>
    obtain ⟨loadable, same, committed⟩ := raiseException_inv (ended.symm.trans raised)
    exact ⟨loadable, same.trans unchanged, committed⟩
  | returns raw after p' p'' found returned ended =>
    rw [ended, Effect.complete_of_returned returned] at raised
    split at raised
    · cases raised
    · cases raised

/-! ## The second start -/

/-- The registers of two executions, but for the address of the last exception and the value of a load
to `r0`, which no instruction can see. -/
def Registers.Alike (r s : Registers) : Prop :=
  ∀ k, k ≠ badVAddrReg → (k = loadValueReg → r loadReg ≠ 0) → r k = s k

def SameEnd : Except Stop (Unit × Processor) → Except Stop (Unit × Processor) → Prop
  | .ok (_, p), .ok (_, q) => p.registers.Alike q.registers ∧ p.withRegisters q.registers = q
  | .error (.exception which p), .error (.exception which' q) =>
    which = which' ∧ p.registers.Alike q.registers ∧ p.withRegisters q.registers = q
  | .error (.fault f), .error (.fault f') => f = f'
  | .error .division, .error .division => True
  | _, _ => False

/-- No load is pending to a register that the instruction at the program counter reads or writes
directly; every instruction reads the program counters. -/
def Processor.Undisturbed (p : Processor) : Prop :=
  (p.registers loadReg).toNat = 0 ∨
    ((p.registers loadReg).toNat ≠ pcReg ∧ (p.registers loadReg).toNat ≠ nextPCReg ∧
      ∀ raw, p.fetched = some raw →
        (p.registers loadReg).toNat ∉ (Instruction.decode raw).uses)

namespace Registers

variable {r s : Registers}

theorem Resumed.loadable (resumed : r.Resumed s) : s.Loadable := by
  rw [Loadable, resumed.load]
  decide

theorem Resumed.writeBadVAddr (resumed : r.Resumed s) (addr : BitVec 32) :
    (r.write badVAddrReg addr).Resumed (s.write badVAddrReg addr) := by
  refine ⟨resumed.load, resumed.loadValue, fun k plain notZero => ?_⟩
  rw [write_other s addr plain.2.2, write_other r addr plain.2.2]
  exact resumed.plain k plain notZero

theorem Committed.same (committed : r.Committed s) (zero : r 0 = 0) {k : Nat} (plain : Plain k)
    (other : (r loadReg).toNat = 0 ∨ (r loadReg).toNat ≠ k) : r k = s k := by
  by_cases first : k = 0
  · rw [first, zero, committed.zero]
  · have different : k ≠ (r loadReg).toNat := by
      rcases other with none | other
      · rw [none]
        exact first
      · exact other.symm
    rw [committed.plain k plain first, if_neg different]

/-- What the instruction writes does not matter for the pending load. -/
theorem Resumed.writeAll (resumed : r.Resumed s) {writes : List (Nat × BitVec 32)}
    (bounded : ∀ w ∈ writes, w.1 < pcReg)
    (spared : ∀ w ∈ writes, (r loadReg).toNat = 0 ∨ w.1 ≠ (r loadReg).toNat) :
    (r.writeAll writes).Resumed (s.writeAll writes) := by
  have beyond : ∀ {k : Nat}, pcReg ≤ k → ∀ w ∈ writes, w.1 ≠ k := by
    intro k large w written
    have small := bounded w written
    omega
  have load : ∀ x : Registers, x.writeAll writes loadReg = x loadReg := fun x =>
    writeAll_other x (beyond (by decide))
  have loadValue : ∀ x : Registers, x.writeAll writes loadValueReg = x loadValueReg := fun x =>
    writeAll_other x (beyond (by decide))
  refine ⟨(load s).trans resumed.load, (loadValue s).trans resumed.loadValue, ?_⟩
  intro k plain notZero
  have value := resumed.plain k plain notZero
  rw [load, loadValue]
  by_cases target : k = (r loadReg).toNat
  · have untouched : ∀ w ∈ writes, w.1 ≠ k := by
      intro w written
      rcases spared w written with none | other
      · exact absurd (target.trans none) notZero
      · rw [target]
        exact other
    rw [if_pos target, writeAll_other s untouched, value, if_pos target]
  · rw [if_neg target] at value
    rw [if_neg target]
    exact writeAll_congr writes value

/-- Once both have done their pending loads there is no difference. -/
theorem Resumed.delayed_apply (resumed : r.Resumed s) (nextReg : Nat) {first second : BitVec 32}
    {k : Nat} (notBad : k ≠ badVAddrReg) (values : k = loadValueReg → first = second) :
    r.delayed nextReg first k = s.delayed nextReg second k := by
  simp only [delayed, write_apply, resumed.load]
  by_cases none : k = 0
  · rw [if_pos none, if_pos none]
  rw [if_neg none, if_neg none]
  by_cases loadValue : k = loadValueReg
  · rw [if_pos loadValue, if_pos loadValue, values loadValue]
  rw [if_neg loadValue, if_neg loadValue]
  by_cases load : k = loadReg
  · rw [if_pos load, if_pos load]
  have notZero : k ≠ (0 : BitVec 32).toNat := none
  rw [if_neg load, if_neg load, if_neg notZero, resumed.plain k ⟨load, loadValue, notBad⟩ none]

theorem Resumed.retired_alike (resumed : r.Resumed s) {after after' : After}
    (pc : after.pcAfter = after'.pcAfter) (next : after.nextLoadReg = after'.nextLoadReg)
    (values : after.nextLoadReg = 0 ∨ after.nextLoadValue = after'.nextLoadValue) :
    Alike (r.retired after) (s.retired after') := by
  have load : r.retired after loadReg = BitVec.ofNat 32 after.nextLoadReg := rfl
  intro k notBad visible
  have apply : ∀ {j : Nat}, j ≠ badVAddrReg → (j = loadValueReg → k = j) →
      r.delayed after.nextLoadReg after.nextLoadValue j =
        s.delayed after'.nextLoadReg after'.nextLoadValue j := by
    intro j notBad' here
    rw [← next]
    refine resumed.delayed_apply after.nextLoadReg notBad' fun isValue => ?_
    refine values.resolve_left fun none => visible ((here isValue).trans isValue) ?_
    rw [load, none]
    rfl
  have pcs := apply (show pcReg ≠ badVAddrReg by decide) (fun isValue => absurd isValue (by decide))
  have nextPCs :=
    apply (show nextPCReg ≠ badVAddrReg by decide) (fun isValue => absurd isValue (by decide))
  simp only [retired, write_apply, pc, pcs, nextPCs, apply notBad fun _ => rfl]

end Registers

/-! ## Instructions -/

/-- What `LWL` and `LWR` start from: the load that was pending counts in both executions. -/
theorem oldValue_congr (committed : r.Committed s) (zero : r 0 = 0) {rt : Nat} (general : rt < 32)
    (shown : (r loadReg).toNat ≠ 0 ∨ rt ≠ 0) : oldValue rt r = oldValue rt s := by
  have plain : Registers.Plain rt := by
    refine ⟨?_, ?_, ?_⟩ <;> simp only [loadReg, loadValueReg, badVAddrReg] <;> omega
  have pending : r loadReg = BitVec.ofNat 32 rt ↔ rt = (r loadReg).toNat := by
    rw [← BitVec.toNat_inj, BitVec.toNat_ofNat, Nat.mod_eq_of_lt (by omega)]
    exact eq_comm
  have none : (0 : BitVec 32) = BitVec.ofNat 32 rt ↔ rt = 0 := by
    rw [← BitVec.toNat_inj, BitVec.toNat_ofNat, Nat.mod_eq_of_lt (by omega)]
    exact eq_comm
  simp only [oldValue, committed.load, committed.loadValue, pending, none]
  by_cases first : rt = 0
  · have elsewhere : rt ≠ (r loadReg).toNat := by
      rcases shown with some | other
      · rw [first]
        exact some.symm
      · exact absurd first other
    rw [if_neg elsewhere, if_pos first, first, zero]
  · rw [if_neg first, committed.plain rt plain first]

def Effect.Alike (e e' : Effect) : Prop :=
  e = e' ∨ ∃ addr convert convert', e = .load addr 4 0 convert ∧ e' = .load addr 4 0 convert'

theorem effect_alike (committed : r.Committed s) (zero : r 0 = 0) {raw : BitVec 32}
    (unused : (r loadReg).toNat = 0 ∨ (r loadReg).toNat ∉ (Instruction.decode raw).uses)
    (next : r nextPCReg = s nextPCReg) (pcAfter : BitVec 32) :
    ((Instruction.decode raw).effect r pcAfter).Alike ((Instruction.decode raw).effect s pcAfter) := by
  obtain ⟨-, general, -⟩ := Instruction.decode_fields_lt raw
  have used : ∀ i ∈ (Instruction.decode raw).uses, r i = s i := by
    intro i used
    have small := Instruction.decode_uses_lt raw i used
    refine committed.same zero ⟨?_, ?_, ?_⟩ ?_
    · simp only [pcReg, loadReg] at *
      omega
    · simp only [pcReg, loadValueReg] at *
      omega
    · simp only [pcReg, badVAddrReg] at *
      omega
    · exact unused.imp_right fun unused same => unused (same ▸ used)
  generalize Instruction.decode raw = instr at *
  by_cases shown : (r loadReg).toNat ≠ 0 ∨ instr.rt ≠ 0
  · exact .inl (Instruction.effect_congr pcAfter used next fun _ =>
      oldValue_congr committed zero general shown)
  by_cases merges : instr.opCode = .lwl ∨ instr.opCode = .lwr
  · -- the loaded word is merged with the value of a load to `r0`
    have toZero : instr.rt = 0 := not_not.mp (not_or.mp shown).2
    have base : r instr.rs = s instr.rs := by
      refine used _ ?_
      rcases merges with op | op <;> simp [Instruction.uses, op]
    rcases merges with op | op
    · simp only [Instruction.effect, op, base, toZero]
      split
      · exact .inr ⟨_, _, _, rfl, rfl⟩
      · exact .inl rfl
    · simp only [Instruction.effect, op, base, toZero]
      split
      · exact .inr ⟨_, _, _, rfl, rfl⟩
      · exact .inl rfl
  · exact .inl (Instruction.effect_congr pcAfter used next fun merging => absurd merging merges)

/-! ## Executions -/

theorem sameEnd_raised (resumed : r.Resumed s) (loadable : r.Loadable) (which : ExceptionType)
    (addr : BitVec 32) (q : Processor) :
    SameEnd (Exec.raiseException which addr (q.withRegisters r))
      (Exec.raiseException which addr (q.withRegisters s)) := by
  have here : (q.withRegisters r).registers.Loadable := loadable
  have there : (q.withRegisters s).registers.Loadable := resumed.loadable
  rw [Exec.raiseException_eq, if_pos here, Exec.raiseException_eq, if_pos there]
  exact ⟨rfl, fun k notBad _ => (resumed.writeBadVAddr addr).delayed_apply 0 notBad fun _ => rfl, rfl⟩

theorem sameEnd_returned (resumed : r.Resumed s) (loadable : r.Loadable) {after after' : After}
    (pc : after.pcAfter = after'.pcAfter) (next : after.nextLoadReg = after'.nextLoadReg)
    (values : after.nextLoadReg = 0 ∨ after.nextLoadValue = after'.nextLoadValue) {e e' : Effect}
    {pcAfter : BitVec 32} {p p' : Processor}
    (returned : e.run pcAfter p = .ok (after, q.withRegisters r))
    (returned' : e'.run pcAfter p' = .ok (after', q.withRegisters s)) :
    SameEnd (e.complete pcAfter p) (e'.complete pcAfter p') := by
  have here : (q.withRegisters r).registers.Loadable := loadable
  have there : (q.withRegisters s).registers.Loadable := resumed.loadable
  rw [Effect.complete_of_returned returned, if_pos here, Effect.complete_of_returned returned',
    if_pos there]
  exact ⟨resumed.retired_alike pc next values, rfl⟩

/-- An effect and one that is alike, before and after the pending load is done. -/
theorem complete_sameEnd (resumed : r.Resumed s) (loadable : r.Loadable) {e e' : Effect}
    (alike : e.Alike e') (sized : e.Sized) (bounded : ∀ w ∈ e.writes, w.1 < pcReg)
    (spared : ∀ w ∈ e.writes, (r loadReg).toNat = 0 ∨ w.1 ≠ (r loadReg).toNat) (pcAfter : BitVec 32)
    (q : Processor) :
    SameEnd (e.complete pcAfter (q.withRegisters r)) (e'.complete pcAfter (q.withRegisters s)) := by
  rcases alike with rfl | ⟨addr, convert, convert', rfl, rfl⟩
  · cases e.ends sized pcAfter q with
    | asserts failed =>
      rw [failed]
      exact rfl
    | divides failed =>
      rw [failed]
      exact trivial
    | raises which addr q' unchanged raised =>
      rw [Effect.complete_of_raised (raised r), Effect.complete_of_raised (raised s)]
      exact sameEnd_raised resumed loadable which addr q'
    | returns after q' returned =>
      exact sameEnd_returned (resumed.writeAll bounded spared)
        ((r.loadable_writeAll bounded).mpr loadable) rfl rfl (.inr rfl) (returned r) (returned s)
  · cases Exec.readMem_access addr (.inr (.inr rfl)) q with
    | raises which addr' q' unchanged raised =>
      rw [Effect.complete_of_raised (Exec.bind_of_raised (raised r)),
        Effect.complete_of_raised (Exec.bind_of_raised (raised s))]
      exact sameEnd_raised resumed loadable which addr' q'
    | returns value q' returned =>
      have first : (Effect.load addr 4 0 convert).run pcAfter (q.withRegisters r) =
          .ok (⟨pcAfter, 0, convert value⟩, q'.withRegisters r) :=
        Exec.bind_of_returned (returned r)
      have second : (Effect.load addr 4 0 convert').run pcAfter (q.withRegisters s) =
          .ok (⟨pcAfter, 0, convert' value⟩, q'.withRegisters s) :=
        Exec.bind_of_returned (returned s)
      refine sameEnd_returned resumed loadable ?_ ?_ (.inl ?_) first second
      · rfl
      · rfl
      · rfl

theorem oneInstruction_sameEnd (debug : Bool) (committed : p.registers.Committed s)
    (zero : p.registers 0 = 0) (loadable : p.registers.Loadable) (undisturbed : p.Undisturbed) :
    SameEnd (oneInstruction debug p) (oneInstruction debug (p.withRegisters s)) := by
  have pc : p.registers pcReg = s pcReg :=
    committed.same zero ⟨by decide, by decide, by decide⟩ (undisturbed.imp_right fun free => free.1)
  have nextPC : p.registers nextPCReg = s nextPCReg :=
    committed.same zero ⟨by decide, by decide, by decide⟩
      (undisturbed.imp_right fun free => free.2.1)
  cases oneInstruction_executes debug p with
  | raises which addr q missing unchanged raised =>
    have first : oneInstruction debug p = _ := raised p.registers rfl
    rw [first, raised s pc.symm]
    exact sameEnd_raised committed.toResumed loadable which addr q
  | completes raw q found unchanged completed =>
    have first : oneInstruction debug p = _ := completed p.registers rfl
    have unused := undisturbed.imp_right fun free => free.2.2 raw found
    rw [first, completed s pc.symm, ← nextPC]
    refine complete_sameEnd committed.toResumed loadable
      (effect_alike committed zero unused nextPC _) (Instruction.effect_sized _ _ _)
      (Instruction.decode_writes_lt raw _ _) (fun w written => ?_) _ q
    refine unused.imp_right fun unused same => unused ?_
    rw [← same]
    exact Instruction.effect_writes _ _ _ w written

/-- An instruction that raises an exception has changed no memory, and of the registers only the
target of the load that was pending.  When it is started again, in whatever surroundings, with no load
pending to a register that it uses, it ends as the first start would have ended there. -/
theorem restart_precise {debug : Bool} {p q : Processor} {which : ExceptionType}
    (raised : oneInstruction debug p = .error (.exception which q)) (zero : p.registers 0 = 0) :
    q.memory = p.memory ∧ p.registers.Committed q.registers ∧
      ∀ surroundings : Processor, (surroundings.withRegisters p.registers).Undisturbed →
        SameEnd (oneInstruction debug (surroundings.withRegisters p.registers))
          (oneInstruction debug (surroundings.withRegisters q.registers)) := by
  obtain ⟨loadable, memory, committed⟩ := oneInstruction_exception raised
  exact ⟨memory, committed, fun surroundings undisturbed =>
    oneInstruction_sameEnd debug committed zero loadable undisturbed⟩

def Processor.paged (raw : BitVec 32) (present : Bool) (r : Registers) : Processor where
  registers := r
  memory := ⟨byteOf raw, false⟩
  pageTable := fun vpn => ⟨vpn, vpn, vpn == 0 || present, false, false, false, false⟩
  pageTableSize := 2

abbrev loadSecondPage : BitVec 32 := 0x8c010080#32

abbrev mergeToZero : BitVec 32 := 0x98000080#32

/-- A load from a page that is missing first. -/
theorem restart_precise_load :
    ∃ q, oneInstruction false (.paged loadSecondPage false fun _ => 0) =
        .error (.exception .pageFaultException q) ∧
      SameEnd (oneInstruction false (.paged loadSecondPage true fun _ => 0))
        (oneInstruction false (.paged loadSecondPage true q.registers)) := by
  obtain ⟨q, raised⟩ : ∃ q, oneInstruction false (.paged loadSecondPage false fun _ => 0) =
      .error (.exception .pageFaultException q) := ⟨_, rfl⟩
  obtain ⟨-, -, same⟩ := restart_precise raised rfl
  exact ⟨q, raised, same (.paged loadSecondPage true fun _ => 0) (.inl rfl)⟩

/-- With another value than zero in `r0` the exception clears it, while a load to `r1` is pending; and
when a load to `r0` was under way, `LWR` to `r0` leaves another value for the next such load. -/
theorem restart_differs :
    (∃ q, oneInstruction false
        (.paged loadSecondPage false ((Registers.write (fun _ => 0) 0 4).write loadReg 1)) =
          .error (.exception .pageFaultException q) ∧ q.registers 0 ≠ 4) ∧
    (∃ q first second,
      oneInstruction false (.paged mergeToZero false (Registers.write (fun _ => 0) loadValueReg 256)) =
          .error (.exception .pageFaultException q) ∧
      oneInstruction false (.paged mergeToZero true (Registers.write (fun _ => 0) loadValueReg 256)) =
          .ok ((), first) ∧
      oneInstruction false (.paged mergeToZero true q.registers) = .ok ((), second) ∧
      first.registers loadValueReg ≠ second.registers loadValueReg) := by
  refine ⟨⟨_, rfl, by decide⟩, ?_⟩
  obtain ⟨q, raised, registers⟩ : ∃ q,
      oneInstruction false (.paged mergeToZero false (Registers.write (fun _ => 0) loadValueReg 256)) =
          .error (.exception .pageFaultException q) ∧
        q.registers = ((Registers.write (fun _ => 0) loadValueReg 256).write badVAddrReg 128).delayed
          0 0 := ⟨_, rfl, rfl⟩
  obtain ⟨first, ran, value⟩ : ∃ first,
      oneInstruction false (.paged mergeToZero true (Registers.write (fun _ => 0) loadValueReg 256)) =
          .ok ((), first) ∧ first.registers loadValueReg = 256 := ⟨_, rfl, rfl⟩
  obtain ⟨second, ran', value'⟩ : ∃ second,
      oneInstruction false (.paged mergeToZero true
        (((Registers.write (fun _ => 0) loadValueReg 256).write badVAddrReg 128).delayed 0 0)) =
          .ok ((), second) ∧ second.registers loadValueReg = 0 := ⟨_, rfl, rfl⟩
  refine ⟨q, first, second, raised, ran, ?_, ?_⟩
  · rw [registers]
    exact ran'
  · rw [value, value']
    decide

end Nachos
