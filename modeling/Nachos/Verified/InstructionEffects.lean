import Nachos.Machine.Mipssim

/-!
# The effects of the instructions

Once the registers are known, an instruction has one of seven effects: it writes registers, raises an
exception, stops the simulation in one of two ways, loads, stores, or replaces part of a word of
memory.  `Instruction.effect` says which; the rest of the development reasons about the effects and not
about the operation codes.
-/

namespace Nachos

/-! ## The monad -/

namespace Exec

variable {α β : Type}

theorem bind_apply (x : Exec α) (f : α → Exec β) (p : Processor) :
    (x >>= f) p = match x p with
      | .error reason => .error reason
      | .ok (a, q) => f a q := by
  show (x p >>= fun s => f s.1 s.2) = _
  cases x p with
  | error reason => rfl
  | ok s => rfl

theorem get_bind (f : Processor → Exec β) (p : Processor) : (get >>= f : Exec β) p = f p p := rfl

@[simp] theorem registers_bind (f : Registers → Exec β) (p : Processor) :
    (registers >>= f) p = f p.registers p := rfl

@[simp] theorem raiseException_bind (which : ExceptionType) (badVAddr : BitVec 32)
    (f : α → Exec β) : (raiseException which badVAddr >>= f) = raiseException which badVAddr := by
  funext p
  rw [bind_apply]
  unfold raiseException
  cases delayedLoad 0 0 (p.registers.write badVAddrReg badVAddr) with
  | error f => rfl
  | ok r => rfl

end Exec

/-! ## Effects -/

inductive Effect where
  | compute (writes : List (Nat × BitVec 32)) (pcAfter : BitVec 32)
  | raise (which : ExceptionType) (badVAddr : BitVec 32)
  | assertion
  | division
  | load (addr : BitVec 32) (size rt : Nat) (convert : BitVec 32 → BitVec 32)
  | store (addr : BitVec 32) (size : Nat) (value : BitVec 32)
  | replace (addr : BitVec 32) (insert : BitVec 32 → BitVec 32)

variable {r s : Registers} {i size : Nat} {addr pcAfter : BitVec 32} {p q : Processor} {e : Effect}
  {instr : Instruction}

theorem Registers.write_congr (num : Nat) (value : BitVec 32) (same : r i = s i) :
    r.write num value i = s.write num value i := by
  by_cases here : i = num
  · subst here
    rw [Registers.write_same, Registers.write_same]
  · rw [Registers.write_other r value here, Registers.write_other s value here, same]

def Registers.writeAll (writes : List (Nat × BitVec 32)) (r : Registers) : Registers :=
  writes.foldl (fun r w => r.write w.1 w.2) r

theorem Registers.writeAll_other {writes : List (Nat × BitVec 32)} (r : Registers)
    (spared : ∀ w ∈ writes, w.1 ≠ i) : r.writeAll writes i = r i := by
  induction writes generalizing r with
  | nil => rfl
  | cons w writes rest =>
    obtain ⟨first, others⟩ := List.forall_mem_cons.mp spared
    have step : r.writeAll (w :: writes) = (r.write w.1 w.2).writeAll writes := rfl
    rw [step, rest (r.write w.1 w.2) others, Registers.write_other r w.2 first.symm]

theorem Registers.writeAll_congr (writes : List (Nat × BitVec 32)) (same : r i = s i) :
    r.writeAll writes i = s.writeAll writes i := by
  induction writes generalizing r s with
  | nil => exact same
  | cons w writes rest => exact rest (Registers.write_congr w.1 w.2 same)

open Exec in
def Effect.run (pcAfter : BitVec 32) : Effect → Exec After
  | .compute writes pc => fun p =>
    .ok (.noLoad pc, { p with registers := p.registers.writeAll writes })
  | .raise which badVAddr => raiseException which badVAddr
  | .assertion => stop (.fault .assertion)
  | .division => stop .division
  | .load addr size rt convert => do
    let value ← Exec.readMem addr size
    return ⟨pcAfter, rt, convert value⟩
  | .store addr size value => do
    Exec.writeMem addr size value
    return .noLoad pcAfter
  | .replace addr insert => do
    let value ← Exec.readMem addr 4
    Exec.writeMem addr 4 (insert value)
    return .noLoad pcAfter

namespace Instruction

def effect (instr : Instruction) (r : Registers) (pcAfter : BitVec 32) : Effect :=
  let rs := r instr.rs
  let rt := r instr.rt
  let tmp := rs + instr.extra
  let immediate := instr.extra &&& 0xffff#32
  let link := r nextPCReg + 4#32
  let target := r nextPCReg + indexToAddr instr.extra
  let toRd (value : BitVec 32) : Effect := .compute [(instr.rd, value)] pcAfter
  let toRt (value : BitVec 32) : Effect := .compute [(instr.rt, value)] pcAfter
  let branch (taken : Bool) : Effect := .compute [] (if taken then target else pcAfter)
  let linkAndBranch (taken : Bool) : Effect :=
    .compute [(r31, link)] (if taken then target else pcAfter)
  let hiLo (words : BitVec 32 × BitVec 32) : Effect :=
    .compute [(hiReg, words.1), (loReg, words.2)] pcAfter
  let quotient (lo hi : BitVec 32) : Effect := .compute [(loReg, lo), (hiReg, hi)] pcAfter
  match instr.opCode with
  | .add =>
    if (rs ^^^ rt) &&& signBit = 0 ∧ (rs ^^^ (rs + rt)) &&& signBit ≠ 0 then
      .raise .overflowException 0
    else toRd (rs + rt)
  | .addi =>
    if (rs ^^^ instr.extra) &&& signBit = 0 ∧ (instr.extra ^^^ tmp) &&& signBit ≠ 0 then
      .raise .overflowException 0
    else toRt tmp
  | .addiu => toRt tmp
  | .addu => toRd (rs + rt)
  | .and => toRd (rs &&& rt)
  | .andi => toRt (rs &&& immediate)
  | .beq => branch (rs = rt)
  | .bgezal => linkAndBranch (r.write r31 link instr.rs &&& signBit = 0)
  | .bgez => branch (rs &&& signBit = 0)
  | .bgtz => branch ((0#32).slt rs)
  | .blez => branch (rs.sle 0)
  | .bltzal => linkAndBranch (r.write r31 link instr.rs &&& signBit ≠ 0)
  | .bltz => branch (rs &&& signBit ≠ 0)
  | .bne => branch (rs ≠ rt)
  | .div =>
    if rt = 0 then quotient 0 0
    else if rs = signBit ∧ rt = -1 then .division
    else quotient (rs.sdiv rt) (rs.srem rt)
  | .divu => if rt = 0 then quotient 0 0 else quotient (rs / rt) (rs % rt)
  | .jal => .compute [(r31, link)] ((pcAfter &&& 0xf0000000#32) ||| indexToAddr instr.extra)
  | .j => .compute [] ((pcAfter &&& 0xf0000000#32) ||| indexToAddr instr.extra)
  | .jalr => .compute [(instr.rd, link)] (r.write instr.rd link instr.rs)
  | .jr => .compute [] rs
  | .lb => .load tmp 1 instr.rt fun value =>
      if value &&& 0x80#32 ≠ 0 then value ||| 0xffffff00#32 else value &&& 0xff#32
  | .lbu => .load tmp 1 instr.rt fun value => value &&& 0xff#32
  | .lh =>
    if tmp &&& 1#32 ≠ 0 then .raise .addressErrorException tmp
    else .load tmp 2 instr.rt fun value =>
      if value &&& 0x8000#32 ≠ 0 then value ||| 0xffff0000#32 else value &&& 0xffff#32
  | .lhu =>
    if tmp &&& 1#32 ≠ 0 then .raise .addressErrorException tmp
    else .load tmp 2 instr.rt fun value => value &&& 0xffff#32
  | .lui => toRt (instr.extra <<< 16)
  | .lw =>
    if tmp &&& 3#32 ≠ 0 then .raise .addressErrorException tmp
    else .load tmp 4 instr.rt id
  | .lwl =>
    if tmp &&& 3#32 = 0 then .load tmp 4 instr.rt (mergeLeft tmp (oldValue instr.rt r))
    else .assertion
  | .lwr =>
    if tmp &&& 3#32 = 0 then .load tmp 4 instr.rt (mergeRight tmp (oldValue instr.rt r))
    else .assertion
  | .mfhi => toRd (r hiReg)
  | .mflo => toRd (r loReg)
  | .mthi => .compute [(hiReg, rs)] pcAfter
  | .mtlo => .compute [(loReg, rs)] pcAfter
  | .mult => hiLo (Nachos.mult rs rt true)
  | .multu => hiLo (Nachos.mult rs rt false)
  | .nor => toRd (~~~(rs ||| rt))
  | .or => toRd (rs ||| rs)
  | .ori => toRt (rs ||| immediate)
  | .sb => .store tmp 1 rt
  | .sh => .store tmp 2 rt
  | .sll => toRd (rt <<< instr.extra.toNat)
  | .sllv => toRd (rt <<< (rs &&& 0x1f#32).toNat)
  | .slt => toRd (if rs.slt rt then 1 else 0)
  | .slti => toRt (if rs.slt instr.extra then 1 else 0)
  | .sltiu => toRt (if rs < instr.extra then 1 else 0)
  | .sltu => toRd (if rs < rt then 1 else 0)
  | .sra | .srl => toRd (rt.sshiftRight instr.extra.toNat)
  | .srav | .srlv => toRd (rt.sshiftRight (rs &&& 0x1f#32).toNat)
  | .sub =>
    if (rs ^^^ rt) &&& signBit ≠ 0 ∧ (rs ^^^ (rs - rt)) &&& signBit ≠ 0 then
      .raise .overflowException 0
    else toRd (rs - rt)
  | .subu => toRd (rs - rt)
  | .sw => .store tmp 4 rt
  | .swl =>
    if tmp &&& 3#32 = 0 then .replace (tmp &&& ~~~3#32) fun value => insertLeft tmp value rt
    else .assertion
  | .swr =>
    if tmp &&& 3#32 = 0 then .replace (tmp &&& ~~~3#32) fun value => insertRight tmp value rt
    else .assertion
  | .syscall => .raise .syscallException 0
  | .xor => toRd (rs ^^^ rt)
  | .xori => toRt (rs ^^^ immediate)
  | .res | .unimp => .raise .illegalInstrException 0
  | .rfe | .special | .bcond => .assertion

theorem execute_eq (instr : Instruction) (pcAfter : BitVec 32) (p : Processor) :
    execute instr pcAfter p = (instr.effect p.registers pcAfter).run pcAfter p := by
  obtain ⟨opCode, s, t, d, extra⟩ := instr
  cases opCode with
  | add | addi | sub | lh | lhu | lw =>
    -- an exception is raised first if the operands are not fit
    simp only [execute, effect, Exec.registers_bind]
    split
    · rw [Exec.raiseException_bind]
      rfl
    · rfl
  | lwl | lwr | swl | swr | div | divu =>
    simp only [execute, effect, Exec.registers_bind, Exec.asserts, decide_eq_true_eq]
    split_ifs <;> rfl
  | _ => rfl

theorem decode_known (value : BitVec 32) :
    (decode value).opCode ≠ .rfe ∧ (decode value).opCode ≠ .special ∧
      (decode value).opCode ≠ .bcond := by
  have special : ∀ i : Fin (2 ^ 6), specialTable.get i ≠ .rfe ∧ specialTable.get i ≠ .special ∧
      specialTable.get i ≠ .bcond := by decide
  have operation : ∀ i : Fin (2 ^ 6), (opTable.get i).opCode ≠ .rfe := by decide
  simp only [decode]
  split
  next => exact special _
  next =>
    split_ifs <;> decide
  next notSpecial notBcond => exact ⟨operation _, notSpecial, notBcond⟩

theorem decode_notAboveMax (value : BitVec 32) : (decode value).opCode.aboveMax = false := by
  obtain ⟨-, notSpecial, notBcond⟩ := decode_known value
  simp [OpCode.aboveMax, notSpecial, notBcond]

end Instruction

/-! ## The delayed load -/

def Registers.delayed (r : Registers) (nextReg : Nat) (nextValue : BitVec 32) : Registers :=
  (((r.write (r loadReg).toNat (r loadValueReg)).write loadReg (BitVec.ofNat 32 nextReg)).write
    loadValueReg nextValue).write 0 0

def Registers.Loadable (r : Registers) : Prop := (r loadReg).toNat < numTotalRegs

instance (r : Registers) : Decidable r.Loadable := Nat.decLt _ _

theorem Registers.loadable_writeAll (r : Registers) {writes : List (Nat × BitVec 32)}
    (bounded : ∀ w ∈ writes, w.1 < pcReg) : (r.writeAll writes).Loadable ↔ r.Loadable := by
  have spared : r.writeAll writes loadReg = r loadReg := by
    refine Registers.writeAll_other r fun w written => ?_
    have small := bounded w written
    simp only [pcReg] at small
    simp only [loadReg]
    omega
  rw [Registers.Loadable, spared, Registers.Loadable]

theorem delayedLoad_eq (nextReg : Nat) (nextValue : BitVec 32) (r : Registers) :
    delayedLoad nextReg nextValue r =
      if r.Loadable then .ok (r.delayed nextReg nextValue) else .error .outOfRange := rfl

theorem Exec.raiseException_eq {α : Type} (which : ExceptionType) (badVAddr : BitVec 32)
    (p : Processor) :
    (raiseException which badVAddr : Exec α) p =
      if p.registers.Loadable then
        .error (.exception which
          { p with registers := (p.registers.write badVAddrReg badVAddr).delayed 0 0 })
      else .error (.fault .outOfRange) := by
  have same : (p.registers.write badVAddrReg badVAddr).Loadable ↔ p.registers.Loadable := Iff.rfl
  simp only [raiseException, delayedLoad_eq, same]
  split_ifs <;> rfl

/-! ## Memory accesses -/

def Processor.withRegisters (p : Processor) (r : Registers) : Processor := { p with registers := r }

namespace Exec

variable {α β : Type}

inductive Access (x : Exec α) (p : Processor) : Prop where
  | raises (which : ExceptionType) (addr : BitVec 32) (q : Processor) (unchanged : q.memory = p.memory)
      (raised : ∀ r, x (p.withRegisters r) = raiseException which addr (q.withRegisters r))
  | returns (a : α) (q : Processor)
      (returned : ∀ r, x (p.withRegisters r) = .ok (a, q.withRegisters r))

theorem bind_of_raised {x : Exec α} {f : α → Exec β} {which : ExceptionType}
    (raised : x p = raiseException which addr q) :
    (x >>= f) p = raiseException which addr q := by
  rw [bind_apply, raised, ← bind_apply, raiseException_bind]

theorem bind_of_returned {x : Exec α} {f : α → Exec β} {a : α} {p q : Processor}
    (returned : x p = .ok (a, q)) : (x >>= f) p = f a q := by
  rw [bind_apply, returned]

theorem Access.bind {x : Exec α} {f : α → Exec β} (access : Access x p)
    (next : ∀ a q, x p = .ok (a, q) → q.memory = p.memory ∧ Access (f a) q) :
    Access (x >>= f) p := by
  cases access with
  | raises which addr q unchanged raised =>
    exact .raises which addr q unchanged fun r => bind_of_raised (raised r)
  | returns a q returned =>
    obtain ⟨same, access⟩ := next a (q.withRegisters p.registers) (returned p.registers)
    cases access with
    | raises which addr q' unchanged raised =>
      exact .raises which addr q' (unchanged.trans same) fun r =>
        (bind_of_returned (returned r)).trans (raised r)
    | returns b q' returned' =>
      exact .returns b q' fun r => (bind_of_returned (returned r)).trans (returned' r)

theorem Access.map {x : Exec α} {p : Processor} (access : Access x p) (g : α → β) :
    Access (x >>= fun a => pure (g a)) p := by
  cases access with
  | raises which addr q unchanged raised =>
    exact .raises which addr q unchanged fun r => bind_of_raised (raised r)
  | returns a q returned =>
    exact .returns (g a) q fun r => bind_of_returned (returned r)

def IsSize (size : Nat) : Prop := size = 1 ∨ size = 2 ∨ size = 4

theorem translate_ok (pageTable : Nat → TranslationEntry) (pageTableSize : Nat) (addr : BitVec 32)
    (writing : Bool) (isSize : IsSize size) :
    ∃ outcome, translate pageTable pageTableSize addr size writing = .ok outcome := by
  unfold translate
  dsimp only
  split_ifs with aligned _ _ _ small
  case neg =>
    have fits : addr.toNat % pageSize + size ≤ pageSize := by
      obtain ⟨four, two⟩ : ¬ (size = 4 ∧ addr &&& 3#32 ≠ 0#32) ∧
          ¬ (size = 2 ∧ addr &&& 1#32 ≠ 0#32) := by simpa [not_or] using aligned
      exact aligned_within isSize four two
    have inMemory : (BitVec.ofInt 32 (pageTable (addr.toNat / pageSize)).physicalPage).toNat *
        pageSize + addr.toNat % pageSize + size ≤ memorySize := by
      simp only [memorySize, pageSize, numPhysPages] at *
      omega
    rw [assert, if_pos (decide_eq_true inMemory)]
    exact ⟨_, rfl⟩
  all_goals exact ⟨_, rfl⟩

theorem loadValue_ok (memory : Machine) (physAddr : Nat) (isSize : IsSize size) :
    ∃ value, loadValue memory physAddr size = .ok value := by
  rcases isSize with rfl | rfl | rfl <;> exact ⟨_, rfl⟩

theorem storeBytes_ok (memory : Machine) (value : BitVec 32) (isSize : IsSize size) :
    ∃ bytes, storeBytes memory size value = .ok bytes := by
  rcases isSize with rfl | rfl | rfl <;> exact ⟨_, rfl⟩

theorem translated_access (addr : BitVec 32) (writing : Bool) (isSize : IsSize size) (p : Processor) :
    Access (translated addr size writing) p := by
  obtain ⟨outcome, translates⟩ :=
    translate_ok p.pageTable p.pageTableSize addr writing isSize
  cases outcome with
  | raised which =>
    refine .raises which addr p rfl fun r => ?_
    simp only [translated, Processor.withRegisters, translates]
  | done result =>
    refine .returns result.1 { p with
      pageTable := Function.update p.pageTable (addr.toNat / pageSize) result.2 } fun r => ?_
    simp only [translated, Processor.withRegisters, translates]

theorem translated_ok {size physAddr : Nat} {writing : Bool}
    (run : translated addr size writing p = .ok (physAddr, q)) :
    q.memory = p.memory ∧ q.registers = p.registers := by
  unfold translated at run
  split at run
  next => cases run
  next =>
    rw [raiseException_eq] at run
    split at run <;> cases run
  next =>
    cases run
    exact ⟨rfl, rfl⟩

theorem readMem_access (addr : BitVec 32) (isSize : IsSize size) (p : Processor) :
    Access (Exec.readMem addr size) p := by
  refine (translated_access addr false isSize p).bind fun physAddr q run => ?_
  obtain ⟨value, loaded⟩ := loadValue_ok q.memory physAddr isSize
  refine ⟨(translated_ok run).1, .returns value q fun r => ?_⟩
  have loaded' : loadValue (q.withRegisters r).memory physAddr size = .ok value := loaded
  rw [get_bind, loaded']
  rfl

theorem readMem_ok {addr value : BitVec 32} (run : Exec.readMem addr size p = .ok (value, q)) :
    q.memory = p.memory ∧ q.registers = p.registers := by
  rw [Exec.readMem, bind_apply] at run
  split at run
  next => cases run
  next physAddr q' translates =>
    simp only [get_bind] at run
    cases loads : loadValue q'.memory physAddr size with
    | error f =>
      rw [loads] at run
      cases run
    | ok loaded =>
      rw [loads] at run
      cases run
      exact translated_ok translates

theorem writeMem_access (addr : BitVec 32) (value : BitVec 32) (isSize : IsSize size)
    (p : Processor) : Access (Exec.writeMem addr size value) p := by
  refine (translated_access addr true isSize p).bind fun physAddr q run => ?_
  obtain ⟨bytes, stored⟩ := storeBytes_ok q.memory value isSize
  refine ⟨(translated_ok run).1, .returns () { q with memory := { q.memory with
    mainMemory := bcopy bytes physAddr size q.memory.mainMemory } } fun r => ?_⟩
  have stored' : storeBytes (q.withRegisters r).memory size value = .ok bytes := stored
  rw [get_bind, stored']
  rfl

end Exec

/-! ## The outcome of an effect -/

namespace Effect

def writes : Effect → List (Nat × BitVec 32)
  | .compute writes _ => writes
  | .raise .. | .assertion | .division | .load .. | .store .. | .replace .. => []

def Sized : Effect → Prop
  | .load _ size _ _ | .store _ size _ => Exec.IsSize size
  | .compute .. | .raise .. | .assertion | .division | .replace .. => True

inductive Ends (e : Effect) (pcAfter : BitVec 32) (p : Processor) : Prop where
  | asserts (failed : e = .assertion)
  | divides (failed : e = .division)
  | raises (which : ExceptionType) (addr : BitVec 32) (q : Processor) (unchanged : q.memory = p.memory)
      (raised : ∀ r, e.run pcAfter (p.withRegisters r) =
        Exec.raiseException which addr (q.withRegisters r))
  | returns (after : After) (q : Processor)
      (returned : ∀ r, e.run pcAfter (p.withRegisters r) =
        .ok (after, q.withRegisters (r.writeAll e.writes)))

theorem Ends.of_access (none : e.writes = []) (access : Exec.Access (e.run pcAfter) p) :
    e.Ends pcAfter p := by
  cases access with
  | raises which addr q unchanged raised => exact .raises which addr q unchanged raised
  | returns after q returned =>
    refine .returns after q fun r => ?_
    rw [returned, none]
    rfl

theorem ends (e : Effect) (sized : e.Sized) (pcAfter : BitVec 32) (p : Processor) :
    e.Ends pcAfter p := by
  cases e with
  | compute writes pc => exact .returns (.noLoad pc) p fun r => rfl
  | raise which badVAddr => exact .raises which badVAddr p rfl fun r => rfl
  | assertion => exact .asserts rfl
  | division => exact .divides rfl
  | load addr size rt convert =>
    exact .of_access rfl ((Exec.readMem_access addr sized p).map _)
  | store addr size value =>
    exact .of_access rfl ((Exec.writeMem_access addr value sized p).map _)
  | replace addr insert =>
    refine .of_access rfl ((Exec.readMem_access addr (.inr (.inr rfl)) p).bind fun value q run => ?_)
    exact ⟨(Exec.readMem_ok run).1,
      (Exec.writeMem_access addr (insert value) (.inr (.inr rfl)) q).map _⟩

end Effect

namespace Instruction

theorem effect_sized (instr : Instruction) (r : Registers) (pcAfter : BitVec 32) :
    (instr.effect r pcAfter).Sized := by
  obtain ⟨opCode, s, t, d, extra⟩ := instr
  cases opCode with
  | lb | lbu | sb => exact .inl rfl
  | sh => exact .inr (.inl rfl)
  | sw => exact .inr (.inr rfl)
  | lh | lhu | lw | lwl | lwr | add | addi | sub | swl | swr | div | divu =>
    simp only [effect]
    split_ifs <;> simp [Effect.Sized, Exec.IsSize]
  | _ => trivial

/-- The registers that an instruction reads or writes directly, the program counters aside.  The
target of a load is written later, by `DelayedLoad`. -/
def uses (instr : Instruction) : List Nat :=
  match instr.opCode with
  | .add | .addu | .and | .nor | .or | .sllv | .slt | .sltu | .srav | .srlv | .sub | .subu | .xor =>
    [instr.rs, instr.rt, instr.rd]
  | .addi | .addiu | .andi | .ori | .slti | .sltiu | .xori | .beq | .bne
  | .sb | .sh | .sw | .swl | .swr => [instr.rs, instr.rt]
  | .sll | .sra | .srl => [instr.rt, instr.rd]
  | .bgez | .bgtz | .blez | .bltz | .jr | .lb | .lbu | .lh | .lhu | .lw | .lwl | .lwr => [instr.rs]
  | .bgezal | .bltzal => [instr.rs, r31]
  | .div | .divu | .mult | .multu => [instr.rs, instr.rt, hiReg, loReg]
  | .jal => [r31]
  | .jalr => [instr.rs, instr.rd]
  | .lui => [instr.rt]
  | .mfhi => [instr.rd, hiReg]
  | .mflo => [instr.rd, loReg]
  | .mthi => [instr.rs, hiReg]
  | .mtlo => [instr.rs, loReg]
  | .j | .syscall | .res | .unimp | .rfe | .special | .bcond => []

theorem effect_writes (instr : Instruction) (r : Registers) (pcAfter : BitVec 32) :
    ∀ w ∈ (instr.effect r pcAfter).writes, w.1 ∈ instr.uses := by
  obtain ⟨opCode, s, t, d, extra⟩ := instr
  cases opCode with
  | add | addi | sub | div | divu | lh | lhu | lw | lwl | lwr | swl | swr =>
    simp only [effect]
    split_ifs <;> simp [Effect.writes, uses]
  | _ => simp [effect, Effect.writes, uses]

/-- The effect depends only on the registers that are used. -/
theorem effect_congr (pcAfter : BitVec 32) (same : ∀ i ∈ instr.uses, r i = s i)
    (next : r nextPCReg = s nextPCReg)
    (old : instr.opCode = .lwl ∨ instr.opCode = .lwr → oldValue instr.rt r = oldValue instr.rt s) :
    instr.effect r pcAfter = instr.effect s pcAfter := by
  obtain ⟨opCode, s', t, d, extra⟩ := instr
  cases opCode with
  | lwl =>
    have base : r s' = s s' := same s' (by simp [uses])
    simp only [effect, base, old (.inl rfl)]
  | lwr =>
    have base : r s' = s s' := same s' (by simp [uses])
    simp only [effect, base, old (.inr rfl)]
  | bgezal | bltzal | jalr =>
    -- `rs` is looked at after the return address was written
    have linked : ∀ num value, r.write num value s' = s.write num value s' := fun num value =>
      Registers.write_congr num value (same s' (by simp [uses]))
    simp only [effect, next, linked]
  | _ =>
    simp only [uses, List.mem_cons, List.not_mem_nil, or_false, forall_eq_or_imp, forall_eq] at same
    simp only [effect, same, next]

theorem decode_fields_lt (value : BitVec 32) :
    (decode value).rs < 32 ∧ (decode value).rt < 32 ∧ (decode value).rd < 32 := by
  have field : ∀ x : BitVec 32, (x &&& 0x1f#32).toNat < 32 := by
    intro x
    rw [BitVec.toNat_and]
    exact Nat.lt_of_le_of_lt Nat.and_le_right (by decide)
  exact ⟨field _, field _, field _⟩

theorem decode_uses_lt (value : BitVec 32) : ∀ i ∈ (decode value).uses, i < pcReg := by
  obtain ⟨rs, rt, rd⟩ := decode_fields_lt value
  intro i used
  unfold uses at used
  show i < 34
  split at used
  all_goals
    simp only [List.mem_cons, List.not_mem_nil, or_false, r31, hiReg, loReg] at used <;> omega

theorem decode_writes_lt (value : BitVec 32) (r : Registers) (pcAfter : BitVec 32) :
    ∀ w ∈ ((decode value).effect r pcAfter).writes, w.1 < pcReg := fun w written =>
  decode_uses_lt value w.1 (effect_writes (decode value) r pcAfter w written)

theorem effect_assertion_iff :
    instr.effect r pcAfter = .assertion ↔
      instr.opCode = .rfe ∨ instr.opCode = .special ∨ instr.opCode = .bcond ∨
      (instr.opCode = .lwl ∨ instr.opCode = .lwr ∨ instr.opCode = .swl ∨ instr.opCode = .swr) ∧
        (r instr.rs + instr.extra) &&& 3#32 ≠ 0 := by
  obtain ⟨opCode, s, t, d, extra⟩ := instr
  cases opCode with
  | add | addi | sub | div | divu | lh | lhu | lw | lwl | lwr | swl | swr =>
    simp only [effect]
    split_ifs <;> simp_all
  | _ => simp [effect]

theorem effect_division_iff :
    instr.effect r pcAfter = .division ↔
      instr.opCode = .div ∧ r instr.rs = signBit ∧ r instr.rt = -1 := by
  obtain ⟨opCode, s, t, d, extra⟩ := instr
  cases opCode with
  | add | addi | sub | div | divu | lh | lhu | lw | lwl | lwr | swl | swr =>
    simp only [effect]
    split_ifs <;> simp_all
  | _ => simp [effect]

end Instruction

/-! ## One instruction -/

def Processor.fetched (p : Processor) : Option (BitVec 32) :=
  match Exec.readMem (p.registers pcReg) 4 p with
  | .error _ => none
  | .ok (raw, _) => some raw

def Registers.retired (r : Registers) (after : After) : Registers :=
  let r := r.delayed after.nextLoadReg after.nextLoadValue
  ((r.write prevPCReg (r pcReg)).write pcReg (r nextPCReg)).write nextPCReg after.pcAfter

def Effect.complete (e : Effect) (pcAfter : BitVec 32) (p : Processor) :
    Except Stop (Unit × Processor) :=
  match e.run pcAfter p with
  | .error reason => .error reason
  | .ok (after, q) =>
    if q.registers.Loadable then .ok ((), q.withRegisters (q.registers.retired after))
    else .error (.fault .outOfRange)

namespace Effect

theorem complete_of_raised {which : ExceptionType}
    (raised : e.run pcAfter p = Exec.raiseException which addr q) :
    e.complete pcAfter p = Exec.raiseException which addr q := by
  rw [complete, raised, Exec.raiseException_eq, Exec.raiseException_eq]
  split_ifs <;> rfl

theorem complete_of_returned {after : After} (returned : e.run pcAfter p = .ok (after, q)) :
    e.complete pcAfter p =
      if q.registers.Loadable then .ok ((), q.withRegisters (q.registers.retired after))
      else .error (.fault .outOfRange) := by
  rw [complete, returned]

end Effect

/-- `OneInstruction`, for all registers with the same program counter: the fetch raises an exception,
or the effect of the instruction is completed. -/
inductive Executes (debug : Bool) (p : Processor) : Prop where
  | raises (which : ExceptionType) (addr : BitVec 32) (q : Processor) (missing : p.fetched = none)
      (unchanged : q.memory = p.memory)
      (raised : ∀ r : Registers, r pcReg = p.registers pcReg →
        oneInstruction debug (p.withRegisters r) =
          Exec.raiseException which addr (q.withRegisters r))
  | completes (raw : BitVec 32) (q : Processor) (found : p.fetched = some raw)
      (unchanged : q.memory = p.memory)
      (completed : ∀ r : Registers, r pcReg = p.registers pcReg →
        oneInstruction debug (p.withRegisters r) =
          ((Instruction.decode raw).effect r (r nextPCReg + 4#32)).complete (r nextPCReg + 4#32)
            (q.withRegisters r))

theorem oneInstruction_fetched {debug : Bool} {raw : BitVec 32}
    (fetched : Exec.readMem (p.registers pcReg) 4 p = .ok (raw, q)) :
    oneInstruction debug p =
      ((Instruction.decode raw).effect q.registers (q.registers nextPCReg + 4#32)).complete
        (q.registers nextPCReg + 4#32) q := by
  have passes : ∀ rest : Exec Unit,
      (if debug then (do Exec.asserts (!(Instruction.decode raw).opCode.aboveMax); rest) else rest) =
        rest := by
    intro rest
    rw [Instruction.decode_notAboveMax]
    cases debug with
    | false => rfl
    | true => rfl
  rw [oneInstruction, Exec.registers_bind, Exec.bind_of_returned fetched]
  dsimp only
  rw [passes, Exec.registers_bind, Exec.bind_apply, Instruction.execute_eq, Effect.complete]
  cases ((Instruction.decode raw).effect q.registers (q.registers nextPCReg + 4#32)).run
      (q.registers nextPCReg + 4#32) q with
  | error reason => rfl
  | ok result =>
    obtain ⟨after, q'⟩ := result
    simp only [Exec.get_bind, delayedLoad_eq]
    split_ifs <;> rfl

theorem oneInstruction_executes (debug : Bool) (p : Processor) : Executes debug p := by
  cases Exec.readMem_access (p.registers pcReg) (.inr (.inr rfl)) p with
  | raises which addr q unchanged raised =>
    refine .raises which addr q ?_ unchanged fun r same => ?_
    · have here : Exec.readMem (p.registers pcReg) 4 p =
          Exec.raiseException which addr (q.withRegisters p.registers) := raised p.registers
      rw [Processor.fetched, here, Exec.raiseException_eq]
      split_ifs <;> rfl
    · rw [← same] at raised
      rw [oneInstruction, Exec.registers_bind]
      exact Exec.bind_of_raised (raised r)
  | returns raw q returned =>
    have here : Exec.readMem (p.registers pcReg) 4 p = .ok (raw, q.withRegisters p.registers) :=
      returned p.registers
    refine .completes raw q ?_ (Exec.readMem_ok here).1 fun r same => ?_
    · rw [Processor.fetched, here]
    · rw [← same] at returned
      exact oneInstruction_fetched (returned r)

theorem oneInstruction_of_fetched (debug : Bool) {p : Processor} {raw : BitVec 32}
    (here : p.fetched = some raw) : ∃ q : Processor, q.memory = p.memory ∧
      oneInstruction debug p = ((Instruction.decode raw).effect p.registers
        (p.registers nextPCReg + 4#32)).complete (p.registers nextPCReg + 4#32)
          (q.withRegisters p.registers) := by
  cases oneInstruction_executes debug p with
  | raises which addr q missing unchanged raised => cases missing.symm.trans here
  | completes raw' q found unchanged completed =>
    cases found.symm.trans here
    exact ⟨q, unchanged, completed p.registers rfl⟩

theorem Registers.loadable_write {r : Registers} {i : Nat} (small : i < 32) (value : BitVec 32) :
    (r.write i value).Loadable ↔ r.Loadable := by
  rw [Registers.Loadable, Registers.write_other _ _ (by simp only [loadReg]; omega),
    Registers.Loadable]

def Processor.holding (raw : BitVec 32) (r : Registers) : Processor where
  registers := r
  memory := ⟨byteOf raw, false⟩
  pageTable := fun _ => ⟨0, 0, true, false, false, false, false⟩
  pageTableSize := 1

end Nachos
