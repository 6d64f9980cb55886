import Nachos.UserProg.DiskDescriptor
import Nachos.UserProg.Exec
import Nachos.UserProg.OpenFiles

/-!
# Read

`ReadSystemcall` with all that it does, for a file on disk and for the console: a kernel buffer is
filled, the buffer is copied to user memory, and the offset and the registers are set.
-/

namespace Nachos

open Loops

def scRead : BitVec 32 := 6#32

structure OpenDescriptor where
  openFile : OpenFile
  offset : BitVec 32

/-- What `Read` works on.  `input` is what `getchar` has still to return before the end of the
input. -/
structure ReadState extends UserState where
  disk : Disk
  descriptors : Nat → Option OpenDescriptor
  input : List Byte

def newChars (n : Int) : Except Fault Unit :=
  if 0 ≤ n ∧ n < 2 ^ 31 then .ok () else .error .outOfRange

def setChar (buffer : Nat → Byte) (i : Int) (c : Byte) : Except Fault (Nat → Byte) :=
  if 0 ≤ i then .ok (Function.update buffer i.toNat c) else .error .outOfRange

def getchar : List Byte → Byte × List Byte
  | [] => (255#8, [])
  | c :: rest => (c, rest)

def readConsole (size : Nat) (buffer : Nat → Byte) (input : List Byte) :
    (Nat → Byte) × List Byte :=
  forUpTo (fun i state => (Function.update state.1 i (getchar state.2).1, (getchar state.2).2)) size
    (buffer, input)

def readSystemcall (pid : Nat) (heap : Nat → Byte) (s : ReadState) : Except Fault ReadState := do
  let virtAddr := s.registers 4
  let size := (s.registers 5).toInt
  let pofIndex := (s.registers 6).toInt
  newChars (size + 1)
  if pofIndex = 0 then
    let (buffer, input) := readConsole size.toNat heap s.input
    let buffer ← setChar buffer size 0#8
    let (_, kernel) ← userReadWrite pid buffer virtAddr size .r s.kernel
    return { s with kernel := kernel, input := input, registers := updatePCRegs s.registers }
  else if pofIndex ≥ 2 then
    let rpofIndex := pofIndex - 2
    assert (rpofIndex < pofMaxNum)
    match s.descriptors rpofIndex.toNat with
    | some descriptor =>
      let (buffer, numRead) ←
        descriptor.openFile.readAt s.disk heap size descriptor.offset.toInt
      let buffer ← setChar buffer size 0#8
      let (_, kernel) ← userReadWrite pid buffer virtAddr size .r s.kernel
      let read := { descriptor with offset := descriptor.offset + BitVec.ofInt 32 numRead }
      return { s with
        kernel := kernel
        descriptors := Function.update s.descriptors rpofIndex.toNat (some read)
        registers := updatePCRegs (s.registers.write 2 (BitVec.ofInt 32 numRead)) }
    | none => return { s with registers := updatePCRegs s.registers }
  else
    -- `ConsoleOutput`, or no descriptor at all
    return { s with registers := updatePCRegs s.registers }

end Nachos
