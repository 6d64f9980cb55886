import Nachos.FileSys.Disk
import Nachos.UserProg.Noff

/-!
# From COFF to NOFF

`coff2noff.c` on a little-endian host whose `long` has 32 bits: the file header, the system header
and the section headers are read, the sections are copied one by one, and the NOFF header is written
in front of them.  `open`, `malloc` and `write` do not fail here, except for a negative count.
-/

namespace Nachos

/-- How the program ends without an output file: `exit(1)` after the message, or a sum of two `int`s
that is no `int`. -/
inductive Exited where
  | exited (message : String)
  | overflow
  deriving DecidableEq, Repr

def addInt (a b : BitVec 32) : Except Exited (BitVec 32) :=
  if -2 ^ 31 ≤ a.toInt + b.toInt ∧ a.toInt + b.toInt < 2 ^ 31 then .ok (a + b)
  else .error .overflow

/-! ## COFF files -/

def mipselMagic : BitVec 16 := 0x0162#16

def omagic : BitVec 16 := 0x0107#16

def filehdrSize : Nat := 20

def aouthdrSize : Nat := 56

def scnhdrSize : Nat := 40

structure ScnHdr where
  name : Nat → Byte
  paddr : BitVec 32
  size : BitVec 32
  scnptr : BitVec 32

def File.short (file : File) (position : Nat) : BitVec 16 :=
  hostShort false fun i => file.bytes (position + i)

def File.word (file : File) (position : Nat) : BitVec 32 :=
  hostWord false fun i => file.bytes (position + i)

def File.scnHdr (file : File) (i : Nat) : ScnHdr :=
  let position := filehdrSize + aouthdrSize + i * scnhdrSize
  { name := fun k => file.bytes (position + k)
    paddr := file.word (position + 8)
    size := file.word (position + 16)
    scnptr := file.word (position + 20) }

def File.numsections (file : File) : Nat := (file.short 2).toNat

def File.sections (file : File) : List ScnHdr := (List.range file.numsections).map file.scnHdr

inductive SectionKind where
  | text
  | data
  | bss
  | unknown
  deriving DecidableEq, Repr

/-- `!strcmp(s_name, name)`.  The names compared with are shorter than `s_name`. -/
def ScnHdr.named (header : ScnHdr) (name : String) : Bool :=
  (List.range name.length).all (fun k => header.name k == BitVec.ofNat 8
    (name.toList.getD k ' ').toNat) &&
    header.name name.length == 0#8

def ScnHdr.kind (header : ScnHdr) : SectionKind :=
  if header.named ".text" then .text
  else if header.named ".data" || header.named ".rdata" then .data
  else if header.named ".bss" || header.named ".sbss" then .bss
  else .unknown

/-! ## The conversion -/

/-- The variables of `main`: the position in `fdIn`, the output file and the position in `fdOut`. -/
structure Converter where
  noffH : NoffHeader
  inNoffFile : BitVec 32
  fdIn : Nat
  out : File
  fdOut : Nat

def readChecked (file : File) (position : Nat) (nBytes : Int) : Except Exited Nat :=
  let count : Int :=
    if nBytes < 0 then -1 else (min nBytes.toNat (file.length - position) : Nat)
  if count ≠ nBytes then .error (.exited "File is too short\n")
  else .ok (position + nBytes.toNat)

/-- The bytes of a section are copied, and a segment is recorded for them.  An `lseek` to a negative
position fails and leaves the position. -/
def copySegment (file : File) (header : ScnHdr) (t : Converter) :
    Except Exited (Segment × Converter) := do
  let position := if header.scnptr.toInt < 0 then t.fdIn else header.scnptr.toNat
  let fdIn ← readChecked file position header.size.toInt
  let count := header.size.toInt.toNat
  let inNoffFile ← addInt t.inNoffFile header.size
  return (⟨header.paddr, t.inNoffFile, header.size⟩,
    { t with
      inNoffFile := inNoffFile
      fdIn := fdIn
      out := t.out.write (fun i => file.bytes (position + i)) count t.fdOut
      fdOut := t.fdOut + count })

def ScnHdr.nameString (header : ScnHdr) : String :=
  String.ofList ((((List.range 8).map header.name).takeWhile (· != 0#8)).map fun byte =>
    Char.ofNat byte.toNat)

def convertSection (file : File) (t : Converter) (header : ScnHdr) : Except Exited Converter := do
  if header.size = 0#32 then
    return t
  else match header.kind with
  | .text =>
    let (code, t) ← copySegment file header t
    return { t with noffH := { t.noffH with code := code } }
  | .data =>
    if t.noffH.initData.size ≠ 0#32 then
      .error (.exited "Can't handle both data and rdata\n")
    let (initData, t) ← copySegment file header t
    return { t with noffH := { t.noffH with initData := initData } }
  | .bss =>
    let uninitData := t.noffH.uninitData
    if uninitData.size ≠ 0#32 then
      let behind ← addInt uninitData.virtualAddr uninitData.size
      if header.paddr = behind then
        .error (.exited "Can't handle both bss and sbss\n")
      let size ← addInt uninitData.size header.size
      return { t with noffH := { t.noffH with uninitData := { uninitData with size := size } } }
    else
      let uninitData := { uninitData with virtualAddr := header.paddr, size := header.size }
      return { t with noffH := { t.noffH with uninitData := uninitData } }
  | .unknown => .error (.exited ("Unknown segment type: " ++ header.nameString ++ "\n"))

def initialHeader (junk : NoffHeader) : NoffHeader where
  noffMagic := noffMagicNumber
  code := { junk.code with size := 0#32 }
  initData := { junk.initData with size := 0#32 }
  uninitData := { junk.uninitData with size := 0#32 }

def Converter.start (junk : NoffHeader) (file : File) : Converter where
  noffH := initialHeader junk
  inNoffFile := BitVec.ofNat 32 noffHeaderSize
  fdIn := filehdrSize + aouthdrSize + file.numsections * scnhdrSize
  out := .empty
  fdOut := noffHeaderSize

def coff2noff (junk : NoffHeader) (file : File) : Except Exited File := do
  let _ ← readChecked file 0 filehdrSize
  if file.short 0 ≠ mipselMagic then
    .error (.exited "File is not a MIPSEL COFF file\n")
  let _ ← readChecked file filehdrSize aouthdrSize
  if file.short filehdrSize ≠ omagic then
    .error (.exited "File is not a OMAGIC file\n")
  let _ ← readChecked file (filehdrSize + aouthdrSize) (file.numsections * scnhdrSize : Nat)
  let t ← file.sections.foldlM (convertSection file) (Converter.start junk file)
  return t.out.write (bytesOf t.noffH.word) noffHeaderSize 0

end Nachos
