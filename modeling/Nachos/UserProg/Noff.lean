import Nachos.Machine.Machine

/-!
# Executables

The NOFF header of `noff.h`, read as the loader reads it: `sizeof(noffH)` bytes at
the start of the file, converted when the host's byte order is the other one.
-/

namespace Nachos

abbrev noffMagicNumber : BitVec 32 := 0xbadfad#32

structure Segment where
  virtualAddr : BitVec 32
  inFileAddr : BitVec 32
  size : BitVec 32
  deriving DecidableEq, Repr

structure NoffHeader where
  noffMagic : BitVec 32
  code : Segment
  initData : Segment
  uninitData : Segment
  deriving DecidableEq, Repr

abbrev noffHeaderSize : Nat := 40

abbrev userStackSize : Nat := 1024

def decodeHeader (bigEndian : Bool) (bytes : Nat → Byte) : NoffHeader :=
  let word := fun k => hostWord bigEndian fun i => bytes (4 * k + i)
  { noffMagic := word 0
    code := ⟨word 1, word 2, word 3⟩
    initData := ⟨word 4, word 5, word 6⟩
    uninitData := ⟨word 7, word 8, word 9⟩ }

def swapSegment (bigEndian : Bool) (segment : Segment) : Segment where
  virtualAddr := wordToHost bigEndian segment.virtualAddr
  inFileAddr := wordToHost bigEndian segment.inFileAddr
  size := wordToHost bigEndian segment.size

def swapHeader (bigEndian : Bool) (noffH : NoffHeader) : NoffHeader where
  noffMagic := wordToHost bigEndian noffH.noffMagic
  code := swapSegment bigEndian noffH.code
  initData := swapSegment bigEndian noffH.initData
  uninitData := swapSegment bigEndian noffH.uninitData

/-- The header of an executable, as `AddrSpace::AddrSpace` and `ReplaceMemory` both
read it.  Fields that a short file does not supply are uninitialised. -/
def readHeader (bigEndian : Bool) (executable : File) : Except Fault NoffHeader := do
  let (bytes, count) ← executable.readAt (fun _ => 0#8) noffHeaderSize 0
  if count < noffHeaderSize then
    .error .uninitialised
  let noffH := decodeHeader bigEndian bytes
  let noffH :=
    if noffH.noffMagic != noffMagicNumber &&
        wordToHost bigEndian noffH.noffMagic == noffMagicNumber then
      swapHeader bigEndian noffH
    else noffH
  assert (noffH.noffMagic == noffMagicNumber)
  return noffH

/-! ## Writing executables -/

def NoffHeader.word (noffH : NoffHeader) : Nat → BitVec 32
  | 0 => noffH.noffMagic
  | 1 => noffH.code.virtualAddr
  | 2 => noffH.code.inFileAddr
  | 3 => noffH.code.size
  | 4 => noffH.initData.virtualAddr
  | 5 => noffH.initData.inFileAddr
  | 6 => noffH.initData.size
  | 7 => noffH.uninitData.virtualAddr
  | 8 => noffH.uninitData.inFileAddr
  | 9 => noffH.uninitData.size
  | _ => 0#32

/-- The file with header `noffH`, written little endian as the MIPS tools do, and with
the bytes of `body` after it. -/
def noffFile (noffH : NoffHeader) (body : List Byte) : File where
  length := noffHeaderSize + body.length
  bytes i :=
    if i < noffHeaderSize then byteOf (noffH.word (i / 4)) (i % 4)
    else body.getD (i - noffHeaderSize) 0#8
  zeroPastEnd i past := by
    rw [if_neg (by omega), List.getD_eq_getElem?_getD, List.getElem?_eq_none (by omega)]
    rfl

/-- The header of a program linked with `-N -T 0`: the code at address 0 and the data
right after it, in memory as in the file. -/
def linkedHeader (codeSize dataSize bssSize : Nat) : NoffHeader where
  noffMagic := noffMagicNumber
  code := ⟨0#32, BitVec.ofNat 32 noffHeaderSize, BitVec.ofNat 32 codeSize⟩
  initData := ⟨BitVec.ofNat 32 codeSize, BitVec.ofNat 32 (noffHeaderSize + codeSize),
    BitVec.ofNat 32 dataSize⟩
  uninitData := ⟨BitVec.ofNat 32 (codeSize + dataSize), 0#32, BitVec.ofNat 32 bssSize⟩

def fourBytes : File := noffFile (linkedHeader 4 0 0) [1#8, 2#8, 3#8, 4#8]

namespace NoffHeader

def spaceSize (noffH : NoffHeader) : BitVec 32 :=
  noffH.code.size + noffH.initData.size + noffH.uninitData.size +
    BitVec.ofNat 32 userStackSize

def codeDataSize (noffH : NoffHeader) : BitVec 32 := noffH.code.size + noffH.initData.size

end NoffHeader

end Nachos
