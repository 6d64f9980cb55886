import Mathlib.Logic.Function.Basic

/-!
# Registers

The registers of the simulated processor, by the numbers of `machine.h`: the general registers, the
two of the multiplier, the program counters, the pending delayed load, and the address of the last
exception.
-/

namespace Nachos

abbrev Registers := Nat → BitVec 32

abbrev numGPRegs : Nat := 32
abbrev stackReg : Nat := 29
abbrev hiReg : Nat := 32
abbrev loReg : Nat := 33
abbrev pcReg : Nat := 34
abbrev nextPCReg : Nat := 35
abbrev prevPCReg : Nat := 36
abbrev loadReg : Nat := 37
abbrev loadValueReg : Nat := 38
abbrev badVAddrReg : Nat := 39
abbrev numTotalRegs : Nat := 40

namespace Registers

def write (registers : Registers) (num : Nat) (value : BitVec 32) : Registers :=
  Function.update registers num value

theorem write_apply (registers : Registers) (num : Nat) (value : BitVec 32) (other : Nat) :
    registers.write num value other = if other = num then value else registers other :=
  Function.update_apply ..

@[simp] theorem write_same (registers : Registers) (num : Nat) (value : BitVec 32) :
    registers.write num value num = value := Function.update_self ..

@[simp] theorem write_other (registers : Registers) {num other : Nat} (value : BitVec 32)
    (different : other ≠ num) : registers.write num value other = registers other :=
  Function.update_of_ne different ..

end Registers

def updatePCRegs (registers : Registers) : Registers :=
  ((registers.write pcReg (registers pcReg + 4#32)).write prevPCReg (registers prevPCReg + 4#32)).write
    nextPCReg (registers nextPCReg + 4#32)

def initRegisters (numPages pageSize : Nat) : Registers :=
  (Registers.write (fun _ => 0#32) nextPCReg 4#32).write stackReg
    (BitVec.ofNat 32 (numPages * pageSize) - 16#32)

end Nachos
