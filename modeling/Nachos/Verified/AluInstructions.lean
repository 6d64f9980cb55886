import Nachos.Lib.DoubleWords
import Nachos.Verified.InstructionEffects

/-!
# Arithmetic and logical instructions

The 21 instructions that combine registers and immediates, as the architecture defines them: their
encodings and their results.  The simulated processor agrees except on `OR`, which combines `rs` with
itself, and on `SRL` and `SRLV`, which shift an `int` and so copy its sign.
-/

namespace Nachos

open DoubleWords

/-! ## The architecture -/

inductive AluOp where
  | addu | addiu | subu | and | andi | or | ori | xor | xori | nor | slt | slti | sltu | sltiu
  | sll | sllv | srl | srlv | sra | srav | lui
  deriving DecidableEq, Repr

structure Fields where
  rs : BitVec 5
  rt : BitVec 5
  rd : BitVec 5
  shamt : BitVec 5
  imm : BitVec 16
  deriving DecidableEq, Repr

inductive Encoding where
  | register (funct : BitVec 6)
  | immediate (opcode : BitVec 6)

namespace AluOp

def encoding : AluOp → Encoding
  | .addu => .register 0x21
  | .subu => .register 0x23
  | .and => .register 0x24
  | .or => .register 0x25
  | .xor => .register 0x26
  | .nor => .register 0x27
  | .slt => .register 0x2a
  | .sltu => .register 0x2b
  | .sll => .register 0x00
  | .srl => .register 0x02
  | .sra => .register 0x03
  | .sllv => .register 0x04
  | .srlv => .register 0x06
  | .srav => .register 0x07
  | .addiu => .immediate 0x09
  | .slti => .immediate 0x0a
  | .sltiu => .immediate 0x0b
  | .andi => .immediate 0x0c
  | .ori => .immediate 0x0d
  | .xori => .immediate 0x0e
  | .lui => .immediate 0x0f

def encode (op : AluOp) (f : Fields) : BitVec 32 :=
  match op.encoding with
  | .register funct => 0#6 ++ f.rs ++ f.rt ++ f.rd ++ f.shamt ++ funct
  | .immediate opcode => opcode ++ f.rs ++ f.rt ++ f.imm

def destination (op : AluOp) (f : Fields) : Nat :=
  match op.encoding with
  | .register _ => f.rd.toNat
  | .immediate _ => f.rt.toNat

def result (op : AluOp) (f : Fields) (rs rt : BitVec 32) : BitVec 32 :=
  match op with
  | .addu => rs + rt
  | .addiu => rs + f.imm.signExtend 32
  | .subu => rs - rt
  | .and => rs &&& rt
  | .andi => rs &&& f.imm.zeroExtend 32
  | .or => rs ||| rt
  | .ori => rs ||| f.imm.zeroExtend 32
  | .xor => rs ^^^ rt
  | .xori => rs ^^^ f.imm.zeroExtend 32
  | .nor => ~~~(rs ||| rt)
  | .slt => if rs.toInt < rt.toInt then 1 else 0
  | .slti => if rs.toInt < (f.imm.signExtend 32).toInt then 1 else 0
  | .sltu => if rs.toNat < rt.toNat then 1 else 0
  | .sltiu => if rs.toNat < (f.imm.signExtend 32).toNat then 1 else 0
  | .sll => rt <<< f.shamt.toNat
  | .sllv => rt <<< (rs.toNat % 32)
  | .srl => rt >>> f.shamt.toNat
  | .srlv => rt >>> (rs.toNat % 32)
  | .sra => rt.sshiftRight f.shamt.toNat
  | .srav => rt.sshiftRight (rs.toNat % 32)
  | .lui => f.imm ++ 0#16

/-- The destination has the result, unless it is `r0` or a load to it is pending, and the other general
registers are as before, but for the one with a pending load. -/
structure Executed (op : AluOp) (f : Fields) (r r' : Registers) : Prop where
  result : op.destination f ≠ 0 → (r loadReg).toNat ≠ op.destination f →
    r' (op.destination f) = op.result f (r f.rs.toNat) (r f.rt.toNat)
  others : ∀ k < 32, k ≠ op.destination f → k ≠ (r loadReg).toNat → r' k = r k

end AluOp

/-! ## Decoding -/

theorem field_toNat (value : BitVec 32) (n : Nat) :
    ((value >>> n) &&& 0x1f#32).toNat = value.toNat / 2 ^ n % 2 ^ 5 := by
  rw [BitVec.toNat_and, BitVec.toNat_ushiftRight, Nat.shiftRight_eq_div_pow]
  exact Nat.and_two_pow_sub_one_eq_mod _ 5

theorem opcode_toNat (value : BitVec 32) :
    ((value >>> 26).truncate 6).toNat = value.toNat / 2 ^ 26 := by
  rw [BitVec.truncate_eq_setWidth, BitVec.toNat_setWidth, BitVec.toNat_ushiftRight,
    Nat.shiftRight_eq_div_pow]
  omega

theorem register_toNat (f : Fields) (funct : BitVec 6) :
    (0#6 ++ f.rs ++ f.rt ++ f.rd ++ f.shamt ++ funct).toNat =
      f.rs.toNat * 2 ^ 21 + f.rt.toNat * 2 ^ 16 + f.rd.toNat * 2 ^ 11 + f.shamt.toNat * 2 ^ 6 +
        funct.toNat := by
  simp only [toNat_append_words, BitVec.toNat_ofNat]
  ring

theorem immediate_toNat (f : Fields) (opcode : BitVec 6) :
    (opcode ++ f.rs ++ f.rt ++ f.imm).toNat =
      opcode.toNat * 2 ^ 26 + f.rs.toNat * 2 ^ 21 + f.rt.toNat * 2 ^ 16 + f.imm.toNat := by
  simp only [toNat_append_words]
  ring

theorem decode_register (f : Fields) (funct : BitVec 6) :
    Instruction.decode (0#6 ++ f.rs ++ f.rt ++ f.rd ++ f.shamt ++ funct) =
      { opCode := specialTable.get funct.toFin
        rs := f.rs.toNat
        rt := f.rt.toNat
        rd := f.rd.toNat
        extra := f.shamt.zeroExtend 32 } := by
  have number := register_toNat f funct
  generalize 0#6 ++ f.rs ++ f.rt ++ f.rd ++ f.shamt ++ funct = value at *
  have rs := f.rs.isLt
  have rt := f.rt.isLt
  have rd := f.rd.isLt
  have opcode : (value >>> 26).truncate 6 = 0#6 := by
    apply BitVec.eq_of_toNat_eq
    rw [opcode_toNat, BitVec.toNat_ofNat]
    omega
  have function : value.truncate 6 = funct := by
    apply BitVec.eq_of_toNat_eq
    rw [BitVec.truncate_eq_setWidth, BitVec.toNat_setWidth]
    omega
  have extra : (value >>> 6) &&& 0x1f#32 = f.shamt.zeroExtend 32 := by
    apply BitVec.eq_of_toNat_eq
    rw [field_toNat, BitVec.toNat_setWidth]
    omega
  have info : opTable.get (0#6).toFin = ⟨.special, .rfmt⟩ := rfl
  simp only [Instruction.decode, opcode, function, info, extra, field_toNat, Instruction.mk.injEq,
    true_and, and_true]
  omega

theorem decode_signExtend (imm : BitVec 16) :
    (if imm.zeroExtend 32 &&& 0x8000#32 ≠ 0 then imm.zeroExtend 32 ||| 0xffff0000#32
      else imm.zeroExtend 32) = imm.signExtend 32 := by
  have sign : imm.zeroExtend 32 &&& 0x8000#32 ≠ 0 ↔ imm.msb = true := by
    have top : 0x8000#32 = BitVec.twoPow 32 15 := rfl
    rw [top, BitVec.and_twoPow, BitVec.msb_eq_getLsbD_last, BitVec.getLsbD_setWidth]
    cases imm.getLsbD 15 with
    | false => simp
    | true => exact iff_of_true (by decide) rfl
  have high : 0xffff0000#32 = BitVec.allOnes 16 ++ 0#16 := rfl
  simp only [sign]
  split
  next negative =>
    apply BitVec.eq_of_getLsbD_eq
    intro i bound
    rw [high, BitVec.getLsbD_or, BitVec.getLsbD_setWidth, BitVec.getLsbD_append,
      BitVec.getLsbD_signExtend, negative]
    by_cases low : i < 16
    · simp [low, bound]
    · have small : i - 16 < 16 := by omega
      simp only [low, bound, small, BitVec.getLsbD_allOnes, decide_true, if_false, Bool.or_true,
        Bool.true_and]
  next positive =>
    rw [BitVec.signExtend_eq_setWidth_of_msb_false (by simpa using positive)]

theorem decode_immediate (f : Fields) (opcode : BitVec 6) (opCode : OpCode)
    (info : opTable.get opcode.toFin = ⟨opCode, .ifmt⟩) (notSpecial : opCode ≠ .special)
    (notBcond : opCode ≠ .bcond) :
    Instruction.decode (opcode ++ f.rs ++ f.rt ++ f.imm) =
      { opCode := opCode
        rs := f.rs.toNat
        rt := f.rt.toNat
        rd := f.imm.toNat / 2 ^ 11
        extra := f.imm.signExtend 32 } := by
  have number := immediate_toNat f opcode
  generalize opcode ++ f.rs ++ f.rt ++ f.imm = value at *
  have rs := f.rs.isLt
  have rt := f.rt.isLt
  have operation : (value >>> 26).truncate 6 = opcode := by
    apply BitVec.eq_of_toNat_eq
    rw [opcode_toNat]
    omega
  have extra : value &&& 0xffff#32 = f.imm.zeroExtend 32 := by
    apply BitVec.eq_of_toNat_eq
    have low : value.toNat &&& 0xffff = value.toNat % 2 ^ 16 :=
      Nat.and_two_pow_sub_one_eq_mod _ 16
    rw [BitVec.toNat_and, BitVec.toNat_setWidth]
    refine low.trans ?_
    omega
  simp only [Instruction.decode, operation, info, extra, field_toNat, Instruction.mk.injEq,
    true_and, and_true, decode_signExtend]
  omega

/-! ## What the processor computes -/

theorem shamt_toNat (shamt : BitVec 5) : (shamt.zeroExtend 32).toNat = shamt.toNat := by
  rw [BitVec.toNat_setWidth]
  omega

theorem low_five_toNat (x : BitVec 32) : (x &&& 0x1f#32).toNat = x.toNat % 32 := by
  rw [BitVec.toNat_and]
  exact Nat.and_two_pow_sub_one_eq_mod _ 5

/-- The logical instructions undo the sign extension of the immediate. -/
theorem signExtend_and_low (imm : BitVec 16) :
    imm.signExtend 32 &&& 0xffff#32 = imm.zeroExtend 32 := by
  have low : 0xffff#32 = 0#16 ++ BitVec.allOnes 16 := rfl
  apply BitVec.eq_of_getLsbD_eq
  intro i bound
  rw [low, BitVec.getLsbD_and, BitVec.getLsbD_append, BitVec.getLsbD_signExtend,
    BitVec.getLsbD_setWidth]
  by_cases inside : i < 16
  · simp only [inside, bound, BitVec.getLsbD_allOnes, decide_true, if_true, Bool.and_true,
      Bool.true_and]
  · have outside : imm.getLsbD i = false := BitVec.getLsbD_of_ge imm i (by omega)
    simp only [inside, outside, if_false, BitVec.getLsbD_zero, Bool.and_false]

theorem signExtend_shiftLeft (imm : BitVec 16) : imm.signExtend 32 <<< 16 = imm ++ 0#16 := by
  apply BitVec.eq_of_getLsbD_eq
  intro i bound
  rw [BitVec.getLsbD_shiftLeft, BitVec.getLsbD_append, BitVec.getLsbD_signExtend]
  by_cases low : i < 16
  · simp [low]
  · have high : i - 16 < 16 := by omega
    simp [low, high, bound]
    omega

namespace AluOp

def opCode : AluOp → OpCode
  | .addu => .addu
  | .addiu => .addiu
  | .subu => .subu
  | .and => .and
  | .andi => .andi
  | .or => .or
  | .ori => .ori
  | .xor => .xor
  | .xori => .xori
  | .nor => .nor
  | .slt => .slt
  | .slti => .slti
  | .sltu => .sltu
  | .sltiu => .sltiu
  | .sll => .sll
  | .sllv => .sllv
  | .srl => .srl
  | .srlv => .srlv
  | .sra => .sra
  | .srav => .srav
  | .lui => .lui

theorem decode_encode (op : AluOp) (f : Fields) :
    ∃ rd, (match op.encoding with
        | .register _ => rd = f.rd.toNat
        | .immediate _ => True) ∧
      Instruction.decode (op.encode f) =
        { opCode := op.opCode
          rs := f.rs.toNat
          rt := f.rt.toNat
          rd := rd
          extra := match op.encoding with
            | .register _ => f.shamt.zeroExtend 32
            | .immediate _ => f.imm.signExtend 32 } := by
  cases op with
  | addu | subu | and | or | xor | nor | slt | sltu | sll | srl | sra | sllv | srlv | srav =>
    exact ⟨_, rfl, decode_register f _⟩
  | addiu | slti | sltiu | andi | ori | xori | lui =>
    exact ⟨_, trivial, decode_immediate f _ _ rfl (by decide) (by decide)⟩

def computed (op : AluOp) (f : Fields) (rs rt : BitVec 32) : BitVec 32 :=
  match op with
  | .or => rs ||| rs
  | .srl => rt.sshiftRight f.shamt.toNat
  | .srlv => rt.sshiftRight (rs.toNat % 32)
  | op => op.result f rs rt

theorem effect_eq (op : AluOp) (f : Fields) (r : Registers) (pcAfter : BitVec 32) :
    (Instruction.decode (op.encode f)).effect r pcAfter =
      .compute [(op.destination f, op.computed f (r f.rs.toNat) (r f.rt.toNat))] pcAfter := by
  obtain ⟨rd, target, decoded⟩ := decode_encode op f
  rw [decoded]
  cases op with
  | addu | subu | and | or | xor | nor | sltu =>
    subst target
    rfl
  | addiu | sltiu => rfl
  | slt =>
    subst target
    simp only [Instruction.effect, opCode, computed, result, BitVec.slt_eq_decide,
      decide_eq_true_eq]
    rfl
  | slti =>
    simp only [Instruction.effect, opCode, encoding, computed, result, BitVec.slt_eq_decide,
      decide_eq_true_eq]
    rfl
  | sll | srl | sra =>
    subst target
    simp only [computed, result, ← shamt_toNat f.shamt]
    rfl
  | sllv | srlv | srav =>
    subst target
    simp only [computed, result, ← low_five_toNat]
    rfl
  | andi | ori | xori =>
    simp only [Instruction.effect, opCode, encoding, computed, result, signExtend_and_low]
    rfl
  | lui =>
    simp only [Instruction.effect, opCode, encoding, computed, result, signExtend_shiftLeft]
    rfl

/-- The operands on which the processor computes what the architecture defines. -/
def Agreeing (op : AluOp) (f : Fields) (rs rt : BitVec 32) : Prop :=
  match op with
  | .or => rt &&& ~~~rs = 0
  | .srl => f.shamt = 0 ∨ rt.msb = false
  | .srlv => rs.toNat % 32 = 0 ∨ rt.msb = false
  | _ => True

theorem sshiftRight_eq_iff (x : BitVec 32) {n : Nat} (small : n < 32) :
    x.sshiftRight n = x >>> n ↔ n = 0 ∨ x.msb = false := by
  constructor
  · intro same
    have top := congrArg BitVec.msb same
    rw [BitVec.msb_sshiftRight, BitVec.msb_ushiftRight] at top
    by_cases none : n = 0
    · exact .inl none
    · have some : decide (0 < n) = true := decide_eq_true (Nat.pos_of_ne_zero none)
      rw [some] at top
      exact .inr top
  · rintro (rfl | positive)
    · rw [BitVec.sshiftRight_zero, BitVec.ushiftRight_zero]
    · exact BitVec.sshiftRight_eq_of_msb_false positive

theorem eq_or_iff (x y : BitVec 32) : x = x ||| y ↔ y &&& ~~~x = 0 := by
  constructor
  · intro same
    have missing : y &&& ~~~(x ||| y) = 0 := by
      apply BitVec.eq_of_getLsbD_eq
      intro i bound
      rw [BitVec.getLsbD_and, BitVec.getLsbD_not, BitVec.getLsbD_or]
      cases x.getLsbD i <;> cases y.getLsbD i <;> simp
    rwa [← same] at missing
  · intro missing
    apply BitVec.eq_of_getLsbD_eq
    intro i bound
    have bit : (y &&& ~~~x).getLsbD i = false := by
      rw [missing]
      exact BitVec.getLsbD_zero
    rw [BitVec.getLsbD_and, BitVec.getLsbD_not] at bit
    rw [BitVec.getLsbD_or]
    cases first : x.getLsbD i <;> cases second : y.getLsbD i <;> simp_all

theorem computed_eq_iff (op : AluOp) (f : Fields) (rs rt : BitVec 32) :
    op.computed f rs rt = op.result f rs rt ↔ op.Agreeing f rs rt := by
  cases op with
  | or =>
    simp only [computed, result, Agreeing, BitVec.or_self]
    exact eq_or_iff rs rt
  | srl =>
    have zero : f.shamt = 0 ↔ f.shamt.toNat = 0 := by
      rw [← BitVec.toNat_inj]
      rfl
    simp only [computed, result, Agreeing, zero]
    exact sshiftRight_eq_iff rt f.shamt.isLt
  | srlv => exact sshiftRight_eq_iff rt (Nat.mod_lt _ (by decide))
  | _ => simp [computed, Agreeing]

end AluOp

/-! ## The general registers after an instruction -/

/-- `r0` is zero, a pending load is done, and the other general registers have their values. -/
theorem Registers.retired_general (r : Registers) (after : After) {k : Nat} (general : k < 32) :
    r.retired after k =
      if k = 0 then 0 else if k = (r loadReg).toNat then r loadValueReg else r k := by
  have notPrevPC : k ≠ prevPCReg := by simp only [prevPCReg]; omega
  have notPC : k ≠ pcReg := by simp only [pcReg]; omega
  have notNextPC : k ≠ nextPCReg := by simp only [nextPCReg]; omega
  have notLoad : k ≠ loadReg := by simp only [loadReg]; omega
  have notLoadValue : k ≠ loadValueReg := by simp only [loadValueReg]; omega
  simp only [Registers.retired, Registers.delayed, Registers.write_apply, notPrevPC, notPC,
    notNextPC, notLoad, notLoadValue, if_false]

namespace AluOp

theorem destination_lt (op : AluOp) (f : Fields) : op.destination f < 32 := by
  unfold destination
  split
  next => exact f.rd.isLt
  next => exact f.rt.isLt

theorem retired_apply (op : AluOp) (f : Fields) (r : Registers) (value : BitVec 32) (after : After)
    {k : Nat} (general : k < 32) :
    (r.write (op.destination f) value).retired after k =
      if k = 0 then 0 else if k = (r loadReg).toNat then r loadValueReg
      else if k = op.destination f then value else r k := by
  have small := op.destination_lt f
  have load : (r.write (op.destination f) value) loadReg = r loadReg :=
    Registers.write_other r value (by simp only [loadReg]; omega)
  have loadValue : (r.write (op.destination f) value) loadValueReg = r loadValueReg :=
    Registers.write_other r value (by simp only [loadValueReg]; omega)
  rw [Registers.retired_general _ after general, load, loadValue, Registers.write_apply]

theorem executed_iff (op : AluOp) (f : Fields) (r : Registers) (after : After) :
    op.Executed f r ((r.write (op.destination f)
        (op.computed f (r f.rs.toNat) (r f.rt.toNat))).retired after) ↔
      (op.destination f = 0 ∨ (r loadReg).toNat = op.destination f ∨
        op.Agreeing f (r f.rs.toNat) (r f.rt.toNat)) ∧
      (r 0 = 0 ∨ op.destination f = 0 ∨ (r loadReg).toNat = 0) := by
  have apply := fun {k} (general : k < 32) => op.retired_apply f r
    (op.computed f (r f.rs.toNat) (r f.rt.toNat)) after general
  constructor
  · rintro ⟨result, others⟩
    constructor
    · by_cases zero : op.destination f = 0
      · exact .inl zero
      by_cases pending : (r loadReg).toNat = op.destination f
      · exact .inr (.inl pending)
      refine .inr (.inr ?_)
      have value := result zero pending
      rw [apply (op.destination_lt f), if_neg zero, if_neg (Ne.symm pending), if_pos rfl] at value
      exact (op.computed_eq_iff f _ _).mp value
    · by_cases zero : op.destination f = 0
      · exact .inr (.inl zero)
      by_cases pending : (r loadReg).toNat = 0
      · exact .inr (.inr pending)
      have kept := others 0 (by decide) (Ne.symm zero) (Ne.symm pending)
      rw [apply (by decide), if_pos rfl] at kept
      exact .inl kept.symm
  · rintro ⟨agrees, zero⟩
    constructor
    · intro written free
      have agreeing := (agrees.resolve_left written).resolve_left free
      rw [apply (op.destination_lt f), if_neg written, if_neg (Ne.symm free), if_pos rfl]
      exact (op.computed_eq_iff f _ _).mpr agreeing
    · intro k general other free
      rw [apply general]
      by_cases first : k = 0
      · subst first
        rw [if_pos rfl]
        exact ((zero.resolve_right fun elsewhere =>
          elsewhere.elim (Ne.symm other) (Ne.symm free))).symm
      · rw [if_neg first, if_neg free, if_neg other]

end AluOp

theorem oneInstruction_alu (debug : Bool) (op : AluOp) (f : Fields) (p : Processor)
    (here : p.fetched = some (op.encode f)) :
    ∃ (q : Processor) (pcAfter : BitVec 32), oneInstruction debug p =
      if p.registers.Loadable then
        .ok ((), q.withRegisters ((p.registers.write (op.destination f)
          (op.computed f (p.registers f.rs.toNat) (p.registers f.rt.toNat))).retired
            (.noLoad pcAfter)))
      else .error (.fault .outOfRange) := by
  obtain ⟨q, -, run⟩ := oneInstruction_of_fetched debug here
  refine ⟨q, p.registers nextPCReg + 4#32, ?_⟩
  rw [run, op.effect_eq, Effect.complete_of_returned rfl]
  exact if_congr (Registers.loadable_write (op.destination_lt f) _) rfl rfl

/-- The instruction does what the architecture defines exactly when its operands agree with the slips
of the simulation, or its destination is not looked at, and `r0` is zero already, or not looked at. -/
theorem oneInstruction_alu_iff (debug : Bool) (op : AluOp) (f : Fields) (p : Processor)
    (here : p.fetched = some (op.encode f)) :
    (∃ q, oneInstruction debug p = .ok ((), q) ∧ op.Executed f p.registers q.registers) ↔
      p.registers.Loadable ∧
      (op.destination f = 0 ∨ (p.registers loadReg).toNat = op.destination f ∨
        op.Agreeing f (p.registers f.rs.toNat) (p.registers f.rt.toNat)) ∧
      (p.registers 0 = 0 ∨ op.destination f = 0 ∨ (p.registers loadReg).toNat = 0) := by
  obtain ⟨q, pcAfter, run⟩ := oneInstruction_alu debug op f p here
  rw [run, ← op.executed_iff f p.registers (.noLoad pcAfter)]
  by_cases loadable : p.registers.Loadable
  · rw [if_pos loadable]
    simp [loadable, Processor.withRegisters]
  · rw [if_neg loadable]
    simp [loadable]

abbrev orOperands : Registers := (Registers.write (fun _ => 0) 1 1).write 2 2

abbrev shiftOperands : Registers := (Registers.write (fun _ => 0) 1 1).write 2 signBit

theorem oneInstruction_alu_addu :
    (Processor.holding (AluOp.addu.encode ⟨1, 2, 3, 0, 0⟩) orOperands).fetched =
      some (AluOp.addu.encode ⟨1, 2, 3, 0, 0⟩) ∧
    ∃ q, oneInstruction false (Processor.holding (AluOp.addu.encode ⟨1, 2, 3, 0, 0⟩) orOperands) =
        .ok ((), q) ∧
      AluOp.addu.Executed ⟨1, 2, 3, 0, 0⟩ orOperands q.registers :=
  ⟨rfl, (oneInstruction_alu_iff false .addu ⟨1, 2, 3, 0, 0⟩ (.holding _ orOperands) rfl).mpr
    ⟨by decide, .inr (.inr trivial), .inl rfl⟩⟩

def AluOp.Differs (op : AluOp) (f : Fields) (p : Processor) : Prop :=
  p.fetched = some (op.encode f) ∧
    ¬ ∃ q, oneInstruction false p = .ok ((), q) ∧ op.Executed f p.registers q.registers

theorem AluOp.differs_of_operands {op : AluOp} {f : Fields} {p : Processor}
    (here : p.fetched = some (op.encode f)) (written : op.destination f ≠ 0)
    (free : (p.registers loadReg).toNat ≠ op.destination f)
    (disagree : ¬ op.Agreeing f (p.registers f.rs.toNat) (p.registers f.rt.toNat)) :
    op.Differs f p := by
  refine ⟨here, ?_⟩
  rintro ⟨q, ran, executed⟩
  obtain ⟨q', pcAfter, run⟩ := oneInstruction_alu false op f p here
  rw [run] at ran
  split at ran
  next =>
    cases ran
    have agrees := ((op.executed_iff f p.registers (.noLoad pcAfter)).mp executed).1
    exact disagree ((agrees.resolve_left written).resolve_left free)
  next => cases ran

/-- `OR` loses the bits of `rt`, and the shifts copy the sign. -/
theorem or_and_shifts_differ :
    AluOp.or.Differs ⟨1, 2, 3, 0, 0⟩ (.holding (AluOp.or.encode ⟨1, 2, 3, 0, 0⟩) orOperands) ∧
    AluOp.srl.Differs ⟨0, 2, 3, 1, 0⟩
      (.holding (AluOp.srl.encode ⟨0, 2, 3, 1, 0⟩) shiftOperands) ∧
    AluOp.srlv.Differs ⟨1, 2, 3, 0, 0⟩
      (.holding (AluOp.srlv.encode ⟨1, 2, 3, 0, 0⟩) shiftOperands) := by
  refine ⟨AluOp.differs_of_operands rfl (by decide) (by decide) ?_,
    AluOp.differs_of_operands rfl (by decide) (by decide) ?_,
    AluOp.differs_of_operands rfl (by decide) (by decide) ?_⟩
  · show ¬ (2#32 &&& ~~~1#32 = 0)
    decide
  · show ¬ ((1#5) = 0 ∨ signBit.msb = false)
    decide
  · show ¬ ((1#32).toNat % 32 = 0 ∨ signBit.msb = false)
    decide

end Nachos
