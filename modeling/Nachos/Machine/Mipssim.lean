import Nachos.Machine.Machine
import Nachos.Machine.Registers

/-!
# The simulated processor

`mipssim.cc`, `mipssim.h` and `Machine::RaiseException`: decoding, the execution of one instruction
with its delayed load, and the multiplication.  An `int` is a word of 32 bits whose arithmetic wraps
around, and `>>` on an `int` copies the sign.
-/

namespace Nachos

/-! ## Decoding -/

inductive OpCode where
  | add | addi | addiu | addu | and | andi | beq | bgez | bgezal | bgtz | blez | bltz | bltzal | bne
  | div | divu | j | jal | jalr | jr | lb | lbu | lh | lhu | lui | lw | lwl | lwr | mfhi | mflo
  | mthi | mtlo | mult | multu | nor | or | ori | rfe | sb | sh | sll | sllv | slt | slti | sltiu
  | sltu | sra | srav | srl | srlv | sub | subu | sw | swl | swr | xor | xori | syscall | unimp | res
  | special | bcond
  deriving DecidableEq, Repr

inductive Format where
  | ifmt
  | jfmt
  | rfmt
  deriving DecidableEq, Repr

structure OpInfo where
  opCode : OpCode
  format : Format
  deriving DecidableEq, Repr

def opTable : Vector OpInfo (2 ^ 6) := ⟨#[
  ⟨.special, .rfmt⟩, ⟨.bcond, .ifmt⟩, ⟨.j, .jfmt⟩, ⟨.jal, .jfmt⟩,
  ⟨.beq, .ifmt⟩, ⟨.bne, .ifmt⟩, ⟨.blez, .ifmt⟩, ⟨.bgtz, .ifmt⟩,
  ⟨.addi, .ifmt⟩, ⟨.addiu, .ifmt⟩, ⟨.slti, .ifmt⟩, ⟨.sltiu, .ifmt⟩,
  ⟨.andi, .ifmt⟩, ⟨.ori, .ifmt⟩, ⟨.xori, .ifmt⟩, ⟨.lui, .ifmt⟩,
  ⟨.unimp, .ifmt⟩, ⟨.unimp, .ifmt⟩, ⟨.unimp, .ifmt⟩, ⟨.unimp, .ifmt⟩,
  ⟨.res, .ifmt⟩, ⟨.res, .ifmt⟩, ⟨.res, .ifmt⟩, ⟨.res, .ifmt⟩,
  ⟨.res, .ifmt⟩, ⟨.res, .ifmt⟩, ⟨.res, .ifmt⟩, ⟨.res, .ifmt⟩,
  ⟨.res, .ifmt⟩, ⟨.res, .ifmt⟩, ⟨.res, .ifmt⟩, ⟨.res, .ifmt⟩,
  ⟨.lb, .ifmt⟩, ⟨.lh, .ifmt⟩, ⟨.lwl, .ifmt⟩, ⟨.lw, .ifmt⟩,
  ⟨.lbu, .ifmt⟩, ⟨.lhu, .ifmt⟩, ⟨.lwr, .ifmt⟩, ⟨.res, .ifmt⟩,
  ⟨.sb, .ifmt⟩, ⟨.sh, .ifmt⟩, ⟨.swl, .ifmt⟩, ⟨.sw, .ifmt⟩,
  ⟨.res, .ifmt⟩, ⟨.res, .ifmt⟩, ⟨.swr, .ifmt⟩, ⟨.res, .ifmt⟩,
  ⟨.unimp, .ifmt⟩, ⟨.unimp, .ifmt⟩, ⟨.unimp, .ifmt⟩, ⟨.unimp, .ifmt⟩,
  ⟨.res, .ifmt⟩, ⟨.res, .ifmt⟩, ⟨.res, .ifmt⟩, ⟨.res, .ifmt⟩,
  ⟨.unimp, .ifmt⟩, ⟨.unimp, .ifmt⟩, ⟨.unimp, .ifmt⟩, ⟨.unimp, .ifmt⟩,
  ⟨.res, .ifmt⟩, ⟨.res, .ifmt⟩, ⟨.res, .ifmt⟩, ⟨.res, .ifmt⟩], rfl⟩

def specialTable : Vector OpCode (2 ^ 6) := ⟨#[
  .sll, .res, .srl, .sra, .sllv, .res, .srlv, .srav,
  .jr, .jalr, .res, .res, .syscall, .unimp, .res, .res,
  .mfhi, .mthi, .mflo, .mtlo, .res, .res, .res, .res,
  .mult, .multu, .div, .divu, .res, .res, .res, .res,
  .add, .addu, .sub, .subu, .and, .or, .xor, .nor,
  .res, .res, .slt, .sltu, .res, .res, .res, .res,
  .res, .res, .res, .res, .res, .res, .res, .res,
  .res, .res, .res, .res, .res, .res, .res, .res], rfl⟩

structure Instruction where
  opCode : OpCode
  rs : Nat
  rt : Nat
  rd : Nat
  extra : BitVec 32
  deriving DecidableEq, Repr

def Instruction.decode (value : BitVec 32) : Instruction :=
  let info := opTable.get ((value >>> 26).truncate 6).toFin
  { rs := ((value >>> 21) &&& 0x1f#32).toNat
    rt := ((value >>> 16) &&& 0x1f#32).toNat
    rd := ((value >>> 11) &&& 0x1f#32).toNat
    extra :=
      match info.format with
      | .ifmt =>
        let extra := value &&& 0xffff#32
        if extra &&& 0x8000#32 ≠ 0 then extra ||| 0xffff0000#32 else extra
      | .rfmt => (value >>> 6) &&& 0x1f#32
      | .jfmt => value &&& 0x3ffffff#32
    opCode :=
      match info.opCode with
      | .special => specialTable.get (value.truncate 6).toFin
      | .bcond =>
        let i := value &&& 0x1f0000#32
        if i = 0 then .bltz
        else if i = 0x10000#32 then .bgez
        else if i = 0x100000#32 then .bltzal
        else if i = 0x110000#32 then .bgezal
        else .unimp
      | opCode => opCode }

/-! ## Multiplication -/

def multLoop : Nat → BitVec 32 → BitVec 32 → BitVec 32 → BitVec 32 → BitVec 32 →
    BitVec 32 × BitVec 32
  | 0, _, _, _, hi, lo => (hi, lo)
  | turns + 1, a, bHi, bLo, hi, lo =>
    let bHi' := if bLo &&& 0x80000000#32 ≠ 0 then (bHi <<< 1) ||| 1#32 else bHi <<< 1
    if a &&& 1#32 ≠ 0 then
      let lo := lo + bLo
      let hi := (if lo < bLo then hi + 1#32 else hi) + bHi
      if a &&& 0xfffffffe#32 = 0 then (hi, lo)
      else multLoop turns (a.sshiftRight 1) bHi' (bLo <<< 1) hi lo
    else multLoop turns (a.sshiftRight 1) bHi' (bLo <<< 1) hi lo

def mult (a b : BitVec 32) (signedArith : Bool) : BitVec 32 × BitVec 32 :=
  if a = 0 ∨ b = 0 then (0, 0)
  else
    let negateA := signedArith && a.slt 0
    let negateB := signedArith && b.slt 0
    let a := if negateA then -a else a
    let b := if negateB then -b else b
    let (hi, lo) := multLoop 32 a 0 b 0 0
    if negateA != negateB then
      let lo := ~~~lo + 1
      (if lo = 0 then ~~~hi + 1 else ~~~hi, lo)
    else (hi, lo)

/-! ## The processor -/

structure Processor where
  registers : Registers
  memory : Machine
  pageTable : Nat → TranslationEntry
  pageTableSize : Nat

inductive Stop where
  | fault (f : Fault)
  /-- The host has no result for the division. -/
  | division
  /-- `ExceptionHandler` is entered. -/
  | exception (which : ExceptionType) (p : Processor)

abbrev Exec := StateT Processor (Except Stop)

namespace Exec

variable {α : Type}

def stop (reason : Stop) : Exec α := fun _ => .error reason

def asserts (condition : Bool) : Exec Unit :=
  if condition then pure () else stop (.fault .assertion)

def registers : Exec Registers := fun p => .ok (p.registers, p)

def setRegister (num : Nat) (value : BitVec 32) : Exec Unit :=
  fun p => .ok ((), { p with registers := p.registers.write num value })

end Exec

def delayedLoad (nextReg : Nat) (nextValue : BitVec 32) (registers : Registers) :
    Except Fault Registers :=
  if (registers loadReg).toNat < numTotalRegs then
    .ok ((((registers.write (registers loadReg).toNat (registers loadValueReg)).write
      loadReg (BitVec.ofNat 32 nextReg)).write loadValueReg nextValue).write 0 0)
  else .error .outOfRange

namespace Exec

variable {α : Type}

/-- `Machine::RaiseException`, until the handler is entered. -/
def raiseException (which : ExceptionType) (badVAddr : BitVec 32) : Exec α := fun p =>
  match delayedLoad 0 0 (p.registers.write badVAddrReg badVAddr) with
  | .error f => .error (.fault f)
  | .ok registers => .error (.exception which { p with registers := registers })

def translated (addr : BitVec 32) (size : Nat) (writing : Bool) : Exec Nat := fun p =>
  match translate p.pageTable p.pageTableSize addr size writing with
  | .error f => .error (.fault f)
  | .ok (.raised which) => raiseException which addr p
  | .ok (.done (physAddr, entry)) =>
    .ok (physAddr,
      { p with pageTable := Function.update p.pageTable (addr.toNat / pageSize) entry })

def readMem (addr : BitVec 32) (size : Nat) : Exec (BitVec 32) := do
  let physAddr ← translated addr size false
  match loadValue (← get).memory physAddr size with
  | .error f => stop (.fault f)
  | .ok value => return value

def writeMem (addr : BitVec 32) (size : Nat) (value : BitVec 32) : Exec Unit := do
  let physAddr ← translated addr size true
  let p ← get
  match storeBytes p.memory size value with
  | .error f => stop (.fault f)
  | .ok bytes =>
    set { p with
      memory := { p.memory with mainMemory := bcopy bytes physAddr size p.memory.mainMemory } }

end Exec

/-! ## One instruction -/

abbrev signBit : BitVec 32 := 0x80000000#32

abbrev r31 : Nat := 31

def indexToAddr (x : BitVec 32) : BitVec 32 := x <<< 2

structure After where
  pcAfter : BitVec 32
  nextLoadReg : Nat
  nextLoadValue : BitVec 32

def After.noLoad (pcAfter : BitVec 32) : After := ⟨pcAfter, 0, 0⟩

def oldValue (rt : Nat) (r : Registers) : BitVec 32 :=
  if r loadReg = BitVec.ofNat 32 rt then r loadValueReg else r rt

def mergeLeft (tmp old value : BitVec 32) : BitVec 32 :=
  if tmp &&& 3#32 = 0 then value
  else if tmp &&& 3#32 = 1#32 then (old &&& 0xff#32) ||| (value <<< 8)
  else if tmp &&& 3#32 = 2#32 then (old &&& 0xffff#32) ||| (value <<< 16)
  else (old &&& 0xffffff#32) ||| (value <<< 24)

def mergeRight (tmp old value : BitVec 32) : BitVec 32 :=
  if tmp &&& 3#32 = 0 then (old &&& 0xffffff00#32) ||| ((value.sshiftRight 24) &&& 0xff#32)
  else if tmp &&& 3#32 = 1#32 then
    (old &&& 0xffff0000#32) ||| ((value.sshiftRight 16) &&& 0xffff#32)
  else if tmp &&& 3#32 = 2#32 then
    (old &&& 0xff000000#32) ||| ((value.sshiftRight 8) &&& 0xffffff#32)
  else value

def insertLeft (tmp value source : BitVec 32) : BitVec 32 :=
  if tmp &&& 3#32 = 0 then source
  else if tmp &&& 3#32 = 1#32 then
    (value &&& 0xff000000#32) ||| ((source.sshiftRight 8) &&& 0xffffff#32)
  else if tmp &&& 3#32 = 2#32 then
    (value &&& 0xffff0000#32) ||| ((source.sshiftRight 16) &&& 0xffff#32)
  else (value &&& 0xffffff00#32) ||| ((source.sshiftRight 24) &&& 0xff#32)

def insertRight (tmp value source : BitVec 32) : BitVec 32 :=
  if tmp &&& 3#32 = 0 then (value &&& 0xffffff#32) ||| (source <<< 24)
  else if tmp &&& 3#32 = 1#32 then (value &&& 0xffff#32) ||| (source <<< 16)
  else if tmp &&& 3#32 = 2#32 then (value &&& 0xff#32) ||| (source <<< 8)
  else source

open Exec in
def execute (instr : Instruction) (pcAfter : BitVec 32) : Exec After := do
  let r ← registers
  let done : Exec After := return .noLoad pcAfter
  let branch (taken : Bool) : Exec After :=
    return .noLoad (if taken then r nextPCReg + indexToAddr instr.extra else pcAfter)
  match instr.opCode with
  | .add =>
    let sum := r instr.rs + r instr.rt
    if (r instr.rs ^^^ r instr.rt) &&& signBit = 0 ∧ (r instr.rs ^^^ sum) &&& signBit ≠ 0 then
      raiseException .overflowException 0
    setRegister instr.rd sum
    done
  | .addi =>
    let sum := r instr.rs + instr.extra
    if (r instr.rs ^^^ instr.extra) &&& signBit = 0 ∧ (instr.extra ^^^ sum) &&& signBit ≠ 0 then
      raiseException .overflowException 0
    setRegister instr.rt sum
    done
  | .addiu =>
    setRegister instr.rt (r instr.rs + instr.extra)
    done
  | .addu =>
    setRegister instr.rd (r instr.rs + r instr.rt)
    done
  | .and =>
    setRegister instr.rd (r instr.rs &&& r instr.rt)
    done
  | .andi =>
    setRegister instr.rt (r instr.rs &&& (instr.extra &&& 0xffff#32))
    done
  | .beq => branch (r instr.rs = r instr.rt)
  | .bgezal =>
    setRegister r31 (r nextPCReg + 4#32)
    let r ← registers
    branch (r instr.rs &&& signBit = 0)
  | .bgez => branch (r instr.rs &&& signBit = 0)
  | .bgtz => branch ((0#32).slt (r instr.rs))
  | .blez => branch ((r instr.rs).sle 0)
  | .bltzal =>
    setRegister r31 (r nextPCReg + 4#32)
    let r ← registers
    branch (r instr.rs &&& signBit ≠ 0)
  | .bltz => branch (r instr.rs &&& signBit ≠ 0)
  | .bne => branch (r instr.rs ≠ r instr.rt)
  | .div =>
    if r instr.rt = 0 then
      setRegister loReg 0
      setRegister hiReg 0
    else
      if r instr.rs = signBit ∧ r instr.rt = -1 then stop .division
      setRegister loReg ((r instr.rs).sdiv (r instr.rt))
      setRegister hiReg ((r instr.rs).srem (r instr.rt))
    done
  | .divu =>
    if r instr.rt = 0 then
      setRegister loReg 0
      setRegister hiReg 0
    else
      setRegister loReg (r instr.rs / r instr.rt)
      setRegister hiReg (r instr.rs % r instr.rt)
    done
  | .jal =>
    setRegister r31 (r nextPCReg + 4#32)
    return .noLoad ((pcAfter &&& 0xf0000000#32) ||| indexToAddr instr.extra)
  | .j => return .noLoad ((pcAfter &&& 0xf0000000#32) ||| indexToAddr instr.extra)
  | .jalr =>
    setRegister instr.rd (r nextPCReg + 4#32)
    -- `rd` may be `rs`
    let r ← registers
    return .noLoad (r instr.rs)
  | .jr => return .noLoad (r instr.rs)
  | .lb =>
    let value ← readMem (r instr.rs + instr.extra) 1
    return ⟨pcAfter, instr.rt,
      if value &&& 0x80#32 ≠ 0 then value ||| 0xffffff00#32 else value &&& 0xff#32⟩
  | .lbu =>
    let value ← readMem (r instr.rs + instr.extra) 1
    return ⟨pcAfter, instr.rt, value &&& 0xff#32⟩
  | .lh =>
    let tmp := r instr.rs + instr.extra
    if tmp &&& 1#32 ≠ 0 then raiseException .addressErrorException tmp
    let value ← readMem tmp 2
    return ⟨pcAfter, instr.rt,
      if value &&& 0x8000#32 ≠ 0 then value ||| 0xffff0000#32 else value &&& 0xffff#32⟩
  | .lhu =>
    let tmp := r instr.rs + instr.extra
    if tmp &&& 1#32 ≠ 0 then raiseException .addressErrorException tmp
    let value ← readMem tmp 2
    return ⟨pcAfter, instr.rt, value &&& 0xffff#32⟩
  | .lui =>
    setRegister instr.rt (instr.extra <<< 16)
    done
  | .lw =>
    let tmp := r instr.rs + instr.extra
    if tmp &&& 3#32 ≠ 0 then raiseException .addressErrorException tmp
    let value ← readMem tmp 4
    return ⟨pcAfter, instr.rt, value⟩
  | .lwl =>
    let tmp := r instr.rs + instr.extra
    asserts (tmp &&& 3#32 = 0)
    let value ← readMem tmp 4
    return ⟨pcAfter, instr.rt, mergeLeft tmp (oldValue instr.rt r) value⟩
  | .lwr =>
    let tmp := r instr.rs + instr.extra
    asserts (tmp &&& 3#32 = 0)
    let value ← readMem tmp 4
    return ⟨pcAfter, instr.rt, mergeRight tmp (oldValue instr.rt r) value⟩
  | .mfhi =>
    setRegister instr.rd (r hiReg)
    done
  | .mflo =>
    setRegister instr.rd (r loReg)
    done
  | .mthi =>
    setRegister hiReg (r instr.rs)
    done
  | .mtlo =>
    setRegister loReg (r instr.rs)
    done
  | .mult =>
    let (hi, lo) := mult (r instr.rs) (r instr.rt) true
    setRegister hiReg hi
    setRegister loReg lo
    done
  | .multu =>
    let (hi, lo) := mult (r instr.rs) (r instr.rt) false
    setRegister hiReg hi
    setRegister loReg lo
    done
  | .nor =>
    setRegister instr.rd (~~~(r instr.rs ||| r instr.rt))
    done
  | .or =>
    setRegister instr.rd (r instr.rs ||| r instr.rs)
    done
  | .ori =>
    setRegister instr.rt (r instr.rs ||| (instr.extra &&& 0xffff#32))
    done
  | .sb =>
    writeMem (r instr.rs + instr.extra) 1 (r instr.rt)
    done
  | .sh =>
    writeMem (r instr.rs + instr.extra) 2 (r instr.rt)
    done
  | .sll =>
    setRegister instr.rd (r instr.rt <<< instr.extra.toNat)
    done
  | .sllv =>
    setRegister instr.rd (r instr.rt <<< (r instr.rs &&& 0x1f#32).toNat)
    done
  | .slt =>
    setRegister instr.rd (if (r instr.rs).slt (r instr.rt) then 1 else 0)
    done
  | .slti =>
    setRegister instr.rt (if (r instr.rs).slt instr.extra then 1 else 0)
    done
  | .sltiu =>
    setRegister instr.rt (if r instr.rs < instr.extra then 1 else 0)
    done
  | .sltu =>
    setRegister instr.rd (if r instr.rs < r instr.rt then 1 else 0)
    done
  | .sra =>
    setRegister instr.rd ((r instr.rt).sshiftRight instr.extra.toNat)
    done
  | .srav =>
    setRegister instr.rd ((r instr.rt).sshiftRight (r instr.rs &&& 0x1f#32).toNat)
    done
  | .srl =>
    -- `tmp` is an `int`
    setRegister instr.rd ((r instr.rt).sshiftRight instr.extra.toNat)
    done
  | .srlv =>
    setRegister instr.rd ((r instr.rt).sshiftRight (r instr.rs &&& 0x1f#32).toNat)
    done
  | .sub =>
    let diff := r instr.rs - r instr.rt
    if (r instr.rs ^^^ r instr.rt) &&& signBit ≠ 0 ∧ (r instr.rs ^^^ diff) &&& signBit ≠ 0 then
      raiseException .overflowException 0
    setRegister instr.rd diff
    done
  | .subu =>
    setRegister instr.rd (r instr.rs - r instr.rt)
    done
  | .sw =>
    writeMem (r instr.rs + instr.extra) 4 (r instr.rt)
    done
  | .swl =>
    let tmp := r instr.rs + instr.extra
    asserts (tmp &&& 3#32 = 0)
    let value ← readMem (tmp &&& ~~~3#32) 4
    writeMem (tmp &&& ~~~3#32) 4 (insertLeft tmp value (r instr.rt))
    done
  | .swr =>
    let tmp := r instr.rs + instr.extra
    asserts (tmp &&& 3#32 = 0)
    let value ← readMem (tmp &&& ~~~3#32) 4
    writeMem (tmp &&& ~~~3#32) 4 (insertRight tmp value (r instr.rt))
    done
  | .syscall => raiseException .syscallException 0
  | .xor =>
    setRegister instr.rd (r instr.rs ^^^ r instr.rt)
    done
  | .xori =>
    setRegister instr.rt (r instr.rs ^^^ (instr.extra &&& 0xffff#32))
    done
  | .res | .unimp => raiseException .illegalInstrException 0
  -- `default: ASSERT(FALSE)`
  | .rfe | .special | .bcond => stop (.fault .assertion)

def OpCode.aboveMax (code : OpCode) : Bool := code = .special ∨ code = .bcond

open Exec in
/-- `Machine::OneInstruction`; with the debugging flag `'m'` it checks the code first. -/
def oneInstruction (debug : Bool) : Exec Unit := do
  let r ← registers
  let raw ← readMem (r pcReg) 4
  let instr := Instruction.decode raw
  if debug then asserts (!instr.opCode.aboveMax)
  let r ← registers
  let after ← execute instr (r nextPCReg + 4#32)
  let p ← get
  match delayedLoad after.nextLoadReg after.nextLoadValue p.registers with
  | .error f => stop (.fault f)
  | .ok r =>
    let r := (r.write prevPCReg (r pcReg)).write pcReg (r nextPCReg)
    set { p with registers := r.write nextPCReg after.pcAfter }

end Nachos
