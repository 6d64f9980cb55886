import Nachos.Machine.Registers
import Nachos.UserProg.UserReadWrite

/-!
# Exec

`ExecSystemcall` with all that it does: it reads the name of the executable from user memory, opens
the file, replaces the memory of the process and sets the registers.
-/

namespace Nachos

structure UserState where
  kernel : Kernel
  registers : Registers

def readStringLoop (pid : Nat) : Nat → BitVec 32 → Nat → (Nat → Byte) → Kernel →
    Except Fault (Bool × (Nat → Byte) × Kernel)
  | 0, _, _, stringBuffer, s => .ok (true, stringBuffer, s)
  | left + 1, virtAddr, curBuffer, stringBuffer, s => do
    let (found, s) ← addrSpaceTranslate pid virtAddr 1 s
    match found with
    | none => return (false, stringBuffer, s)
    | some physAddr =>
      let c := s.machine.mainMemory physAddr
      let stringBuffer := Function.update stringBuffer curBuffer c
      if c = 0#8 then return (true, stringBuffer, s)
      else readStringLoop pid left (virtAddr + 1#32) (curBuffer + 1) stringBuffer s

def readString (pid : Nat) (stringAddr : BitVec 32) (stringBuffer : Nat → Byte) (size : Nat)
    (s : Kernel) : Except Fault (Bool × (Nat → Byte) × Kernel) :=
  readStringLoop pid size stringAddr 0 stringBuffer s

/-! ## The same loads by the program -/

/-- A load of one byte by the program, with `PageFaultHandler` called for a fault and the
instruction retried. -/
def userLoad (pid : Nat) (addr : BitVec 32) : Nat → Kernel → Except Fault (Byte × Kernel)
  | 0, _ => .error .endlessLoop
  | tries + 1, s => do
    match ← readMem pid addr 1 s with
    | .done (value, s) => return (value.truncate 8, s)
    | .raised .pageFaultException =>
      let s ← pageIn pid addr s
      userLoad pid addr tries s
    | .raised _ => .error .assertion

def userLoads (pid : Nat) : BitVec 32 → Nat → Kernel → Except Fault (List Byte × Kernel)
  | _, 0, s => .ok ([], s)
  | addr, size + 1, s => do
    let (byte, s) ← userLoad pid addr 2 s
    let (bytes, s) ← userLoads pid (addr + 1#32) size s
    return (byte :: bytes, s)

/-! ## The system call -/

def filenameSize : Nat := 256

/-- The file that the string in the buffer names.  A string without an end is read on behind the
buffer. -/
def nameInBuffer (stringBuffer : Nat → Byte) : Except Fault FileName :=
  let bytes := (List.range filenameSize).map stringBuffer
  if bytes.contains 0#8 then
    .ok (.path (String.ofList ((bytes.takeWhile (· != 0#8)).map fun byte => Char.ofNat byte.toNat)))
  else .error .outOfRange

inductive ExecOutcome where
  | returned (after : UserState)
  | aborted (after : UserState)

/-- `ExecSystemcall`.  It does not look at the result of `ReadString`, so that a part of the buffer,
which starts as `stringBuffer`, may be what `new` returned.  `ReplaceMemory` has no way to return
`false`. -/
def execSystemcall (pid : Nat) (stringBuffer : Nat → Byte) (junk : Nat → Bool) (s : UserState) :
    Except Fault ExecOutcome := do
  let (_, filename, kernel) ← readString pid (s.registers 4) stringBuffer filenameSize s.kernel
  let name ← nameInBuffer filename
  match kernel.files name with
  | none => return .aborted ⟨kernel, updatePCRegs (s.registers.write 2 (-1#32))⟩
  | some _ =>
    let kernel ← replaceMemory pid name junk kernel
    let space ← kernel.space pid
    return .returned ⟨kernel, (initRegisters space.numPages pageSize).write 2 1#32⟩

end Nachos
