import Nachos.Verified.PreciseFaults

/-!
# Overflow

`OP_ADD`, `OP_ADDI` and `OP_SUB` look at the sign bits of the operands and of the wrapped result.  The
tests decide whether the exact result is a signed word; when it is not, `RaiseException` is called with
the registers as they were.
-/

namespace Nachos

inductive CheckedOp where
  | add
  | addi
  | sub
  deriving DecidableEq, Repr

namespace CheckedOp

def opCode : CheckedOp → OpCode
  | .add => .add
  | .addi => .addi
  | .sub => .sub

def secondOperand (op : CheckedOp) (instr : Instruction) (r : Registers) : BitVec 32 :=
  match op with
  | .add | .sub => r instr.rt
  | .addi => instr.extra

def target (op : CheckedOp) (instr : Instruction) : Nat :=
  match op with
  | .add | .sub => instr.rd
  | .addi => instr.rt

def exact (op : CheckedOp) (x y : Int) : Int :=
  match op with
  | .add | .addi => x + y
  | .sub => x - y

def wrapped (op : CheckedOp) (x y : BitVec 32) : BitVec 32 :=
  match op with
  | .add | .addi => x + y
  | .sub => x - y

def outcome (op : CheckedOp) (instr : Instruction) (r : Registers) : Int :=
  op.exact (r instr.rs).toInt (op.secondOperand instr r).toInt

end CheckedOp

def IsInt32 (n : Int) : Prop := -2 ^ 31 ≤ n ∧ n < 2 ^ 31

instance (n : Int) : Decidable (IsInt32 n) :=
  inferInstanceAs (Decidable (-2 ^ 31 ≤ n ∧ n < 2 ^ 31))

/-! ## The tests -/

theorem and_signBit_eq_zero (x : BitVec 32) : x &&& signBit = 0 ↔ x.msb = false := by
  have top : signBit = BitVec.twoPow 32 31 := rfl
  rw [top, BitVec.and_twoPow, BitVec.msb_eq_getLsbD_last]
  cases x.getLsbD (32 - 1) with
  | true => simp
  | false => simp

theorem xor_signBit_eq_zero (x y : BitVec 32) : (x ^^^ y) &&& signBit = 0 ↔ x.msb = y.msb := by
  rw [and_signBit_eq_zero, BitVec.msb_xor]
  simp

theorem isInt32_add (x y : BitVec 32) : IsInt32 (x.toInt + y.toInt) ↔ ¬ x.saddOverflow y = true := by
  simp only [IsInt32, BitVec.saddOverflow, Bool.or_eq_true, decide_eq_true_eq]
  omega

theorem isInt32_sub (x y : BitVec 32) : IsInt32 (x.toInt - y.toInt) ↔ ¬ x.ssubOverflow y = true := by
  simp only [IsInt32, BitVec.ssubOverflow, Bool.or_eq_true, decide_eq_true_eq]
  omega

theorem add_test_iff (x y : BitVec 32) :
    ((x ^^^ y) &&& signBit = 0 ∧ (x ^^^ (x + y)) &&& signBit ≠ 0) ↔
      ¬ IsInt32 (x.toInt + y.toInt) := by
  rw [isInt32_add, not_not, BitVec.saddOverflow_eq, ne_eq, xor_signBit_eq_zero, xor_signBit_eq_zero]
  cases x.msb <;> cases y.msb <;> cases (x + y).msb <;> decide

/-- When the signs are the same, it does not matter which operand is compared with the result. -/
theorem addi_test_iff (x y : BitVec 32) :
    ((x ^^^ y) &&& signBit = 0 ∧ (y ^^^ (x + y)) &&& signBit ≠ 0) ↔
      ¬ IsInt32 (x.toInt + y.toInt) := by
  rw [isInt32_add, not_not, BitVec.saddOverflow_eq, ne_eq, xor_signBit_eq_zero, xor_signBit_eq_zero]
  cases x.msb <;> cases y.msb <;> cases (x + y).msb <;> decide

theorem sub_test_iff (x y : BitVec 32) :
    ((x ^^^ y) &&& signBit ≠ 0 ∧ (x ^^^ (x - y)) &&& signBit ≠ 0) ↔
      ¬ IsInt32 (x.toInt - y.toInt) := by
  rw [isInt32_sub, not_not, BitVec.ssubOverflow_eq, ne_eq, ne_eq, xor_signBit_eq_zero,
    xor_signBit_eq_zero]
  cases x.msb <;> cases y.msb <;> cases (x - y).msb <;> decide

/-! ## The instructions -/

namespace CheckedOp

variable {instr : Instruction}

theorem effect_eq (op : CheckedOp) (isOp : instr.opCode = op.opCode) (r : Registers)
    (pcAfter : BitVec 32) :
    instr.effect r pcAfter =
      if IsInt32 (op.outcome instr r) then
        .compute [(op.target instr, op.wrapped (r instr.rs) (op.secondOperand instr r))] pcAfter
      else .raise .overflowException 0 := by
  cases op with
  | add =>
    simp only [Instruction.effect, isOp, opCode, add_test_iff, ite_not]
    rfl
  | addi =>
    simp only [Instruction.effect, isOp, opCode, addi_test_iff, ite_not]
    rfl
  | sub =>
    simp only [Instruction.effect, isOp, opCode, sub_test_iff, ite_not]
    rfl

theorem wrapped_toInt (op : CheckedOp) (x y : BitVec 32) (fits : IsInt32 (op.exact x.toInt y.toInt)) :
    (op.wrapped x y).toInt = op.exact x.toInt y.toInt := by
  cases op with
  | add | addi => exact BitVec.toInt_add_of_not_saddOverflow ((isInt32_add x y).mp fits)
  | sub => exact BitVec.toInt_sub_of_not_ssubOverflow ((isInt32_sub x y).mp fits)

theorem target_lt (op : CheckedOp) (raw : BitVec 32) : op.target (.decode raw) < 32 := by
  have fields := Instruction.decode_fields_lt raw
  cases op with
  | add => exact fields.2.2
  | addi => exact fields.2.1
  | sub => exact fields.2.2

end CheckedOp

def CheckedOp.Sets (op : CheckedOp) (instr : Instruction) (k : Nat) : Prop :=
  k = op.target instr ∨ k = pcReg ∨ k = nextPCReg ∨ k = prevPCReg

/-- The exact result is not a signed word: `RaiseException` is called before anything is changed, and
when the handler is entered only the load that was pending has been done.  It is a signed word: the
instruction completes, and that is the value for the target. -/
theorem overflow_traps_exact (debug : Bool) (op : CheckedOp) (p : Processor) {raw : BitVec 32}
    (here : p.fetched = some raw) (isOp : (Instruction.decode raw).opCode = op.opCode) :
    (¬ IsInt32 (op.outcome (.decode raw) p.registers) →
      (∃ q, q.registers = p.registers ∧ q.memory = p.memory ∧
        oneInstruction debug p = Exec.raiseException .overflowException 0 q) ∧
      (p.registers.Loadable → ∃ h, oneInstruction debug p = .error (.exception .overflowException h) ∧
        ∀ k, op.Sets (.decode raw) k → k ≠ (p.registers loadReg).toNat →
          h.registers k = if k = 0 then 0 else p.registers k)) ∧
    (IsInt32 (op.outcome (.decode raw) p.registers) →
      (∀ which h, oneInstruction debug p ≠ .error (.exception which h)) ∧
      ∃ (q : Processor) (value pcAfter : BitVec 32),
        value.toInt = op.outcome (.decode raw) p.registers ∧
        oneInstruction debug p =
          if p.registers.Loadable then
            .ok ((), q.withRegisters
              ((p.registers.write (op.target (.decode raw)) value).retired (.noLoad pcAfter)))
          else .error (.fault .outOfRange)) := by
  obtain ⟨q, unchanged, run⟩ := oneInstruction_of_fetched debug here
  rw [op.effect_eq isOp] at run
  constructor
  · intro overflows
    rw [if_neg overflows, Effect.complete_of_raised rfl] at run
    refine ⟨⟨q.withRegisters p.registers, rfl, unchanged, run⟩, fun loadable => ?_⟩
    have can : (q.withRegisters p.registers).registers.Loadable := loadable
    rw [Exec.raiseException_eq, if_pos can] at run
    refine ⟨_, run, fun k sets apart => ?_⟩
    have committed := Registers.committed_delayed p.registers 0
    have small := op.target_lt raw
    have plain : Registers.Plain k := by
      simp only [CheckedOp.Sets, pcReg, nextPCReg, prevPCReg] at sets
      simp only [Registers.Plain, loadReg, loadValueReg, badVAddrReg]
      omega
    by_cases zero : k = 0
    · rw [if_pos zero, zero]
      exact committed.zero
    · rw [if_neg zero]
      exact (committed.plain k plain zero).trans (if_neg apart)
  · intro fits
    rw [if_pos fits, Effect.complete_of_returned rfl] at run
    have ends := run.trans (if_congr (Registers.loadable_write (op.target_lt raw) _) rfl rfl)
    refine ⟨fun which h raised => ?_, q, _, _, op.wrapped_toInt _ _ fits, ends⟩
    rw [ends] at raised
    split at raised
    · cases raised
    · cases raised

/-- `ADDI r2, r1, 1` with the greatest signed word in `r1`. -/
theorem overflow_traps_exact_addi :
    ¬ IsInt32 (CheckedOp.addi.outcome (.decode 0x20220001#32)
      (Registers.write (fun _ => 0) 1 0x7fffffff#32)) ∧
    ∃ h, oneInstruction false
        (.holding 0x20220001#32 (Registers.write (fun _ => 0) 1 0x7fffffff#32)) =
      .error (.exception .overflowException h) := by
  have overflows : ¬ IsInt32 (CheckedOp.addi.outcome (.decode 0x20220001#32)
      (Registers.write (fun _ => 0) 1 0x7fffffff#32)) := by decide
  obtain ⟨h, raised, -⟩ := ((overflow_traps_exact false .addi
    (.holding 0x20220001#32 (Registers.write (fun _ => 0) 1 0x7fffffff#32)) rfl rfl).1 overflows).2
      (by decide)
  exact ⟨overflows, h, raised⟩

end Nachos
