import Nachos.Verified.InstructionEffects

/-!
# Instructions that stop the simulation

An instruction completes or raises an exception unless it is one of the four for parts of words at an
address that is not aligned, or the division whose quotient is too large: the `ASSERT`s of the former
and the host's division of the latter end the whole simulation.
-/

namespace Nachos

/-- The instruction completed, or `ExceptionHandler` was entered. -/
def Survives {α : Type} : Except Stop α → Prop
  | .ok _ | .error (.exception ..) => True
  | .error (.fault _) | .error .division => False

/-- The instruction is none of those that stop the simulation. -/
def Instruction.Harmless (instr : Instruction) (r : Registers) : Prop :=
  (instr.opCode = .lwl ∨ instr.opCode = .lwr ∨ instr.opCode = .swl ∨ instr.opCode = .swr →
    (r instr.rs + instr.extra) &&& 3#32 = 0) ∧
  ¬ (instr.opCode = .div ∧ r instr.rs = signBit ∧ r instr.rt = -1)

theorem survives_raiseException {α : Type} (which : ExceptionType) (addr : BitVec 32)
    (p : Processor) :
    Survives ((Exec.raiseException which addr : Exec α) p) ↔ p.registers.Loadable := by
  rw [Exec.raiseException_eq]
  by_cases loadable : p.registers.Loadable
  · rw [if_pos loadable]
    simp [loadable, Survives]
  · rw [if_neg loadable]
    simp [loadable, Survives]

theorem survives_complete (raw : BitVec 32) (r : Registers) (pcAfter : BitVec 32) (q : Processor) :
    Survives (((Instruction.decode raw).effect r pcAfter).complete pcAfter (q.withRegisters r)) ↔
      r.Loadable ∧ (Instruction.decode raw).effect r pcAfter ≠ .assertion ∧
        (Instruction.decode raw).effect r pcAfter ≠ .division := by
  by_cases asserts : (Instruction.decode raw).effect r pcAfter = .assertion
  · rw [asserts]
    simp [Effect.complete, Effect.run, Exec.stop, Survives]
  by_cases divides : (Instruction.decode raw).effect r pcAfter = .division
  · rw [divides]
    simp [Effect.complete, Effect.run, Exec.stop, Survives]
  simp only [ne_eq, asserts, divides, not_false_eq_true, and_true]
  cases Effect.ends _ (Instruction.effect_sized (Instruction.decode raw) r pcAfter) pcAfter q with
  | asserts failed => exact absurd failed asserts
  | divides failed => exact absurd failed divides
  | raises which addr q' unchanged raised =>
    rw [Effect.complete_of_raised (raised r), survives_raiseException]
    rfl
  | returns after q' returned =>
    rw [Effect.complete_of_returned (returned r),
      ← r.loadable_writeAll (Instruction.decode_writes_lt raw r pcAfter)]
    show Survives (if (r.writeAll _).Loadable then _ else _) ↔ _
    by_cases loadable :
        (r.writeAll ((Instruction.decode raw).effect r pcAfter).writes).Loadable
    · rw [if_pos loadable]
      simp [loadable, Survives]
    · rw [if_neg loadable]
      simp [loadable, Survives]

theorem harmless_iff (raw : BitVec 32) (r : Registers) (pcAfter : BitVec 32) :
    (Instruction.decode raw).Harmless r ↔
      (Instruction.decode raw).effect r pcAfter ≠ .assertion ∧
        (Instruction.decode raw).effect r pcAfter ≠ .division := by
  obtain ⟨notRfe, notSpecial, notBcond⟩ := Instruction.decode_known raw
  rw [ne_eq, ne_eq, Instruction.effect_assertion_iff, Instruction.effect_division_iff,
    Instruction.Harmless]
  simp only [notRfe, notSpecial, notBcond, false_or, not_and, not_not]

/-- An instruction completes or raises an exception exactly when the pending load is to a register
and the word at the program counter, if it can be fetched, is harmless. -/
theorem oneInstruction_survives_iff (debug : Bool) (p : Processor) :
    Survives (oneInstruction debug p) ↔
      p.registers.Loadable ∧
        ∀ raw, p.fetched = some raw → (Instruction.decode raw).Harmless p.registers := by
  cases oneInstruction_executes debug p with
  | raises which addr q missing unchanged raised =>
    have run : oneInstruction debug p = _ := raised p.registers rfl
    rw [run, survives_raiseException]
    simp [missing, Processor.withRegisters]
  | completes raw q found unchanged completed =>
    have run : oneInstruction debug p = _ := completed p.registers rfl
    rw [run, survives_complete, ← harmless_iff]
    simp [found]

/-! ## User programs that end the simulation -/

def Processor.Mapped (p : Processor) : Prop :=
  ∀ vpn < p.pageTableSize, (p.pageTable vpn).valid = true →
    0 ≤ (p.pageTable vpn).physicalPage ∧ (p.pageTable vpn).physicalPage < numPhysPages

theorem Processor.holding_mapped (raw : BitVec 32) (r : Registers) : (holding raw r).Mapped := by
  intro vpn _ _
  exact ⟨le_refl 0, show (0 : Int) < numPhysPages by decide⟩

abbrev largeQuotient : BitVec 32 := 0x0022001a#32

abbrev unalignedLoad : BitVec 32 := 0x88010001#32

/-- The least integer divided by -1, and a load from address 1. -/
theorem user_instructions_stop :
    ((Processor.holding largeQuotient
        ((Registers.write (fun _ => 0) 1 signBit).write 2 (-1))).Mapped ∧
      ¬ Survives (oneInstruction false (.holding largeQuotient
        ((Registers.write (fun _ => 0) 1 signBit).write 2 (-1))))) ∧
    ((Processor.holding unalignedLoad fun _ => 0).Mapped ∧
      ¬ Survives (oneInstruction false (.holding unalignedLoad fun _ => 0))) := by
  refine ⟨⟨Processor.holding_mapped _ _, ?_⟩, Processor.holding_mapped _ _, ?_⟩
  · have run : oneInstruction false (.holding largeQuotient
        ((Registers.write (fun _ => 0) 1 signBit).write 2 (-1))) = .error .division := rfl
    rw [run]
    exact id
  · have run : oneInstruction false (.holding unalignedLoad fun _ => 0) =
        .error (.fault .assertion) := rfl
    rw [run]
    exact id

end Nachos
