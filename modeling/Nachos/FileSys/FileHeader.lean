import Nachos.FileSys.Disk
import Nachos.UserProg.BitMap

/-!
# File headers and the files on disk

`filehdr.cc` and `openfile.cc` without `FILESYS_STUB`, and the two routines of `bitmap.cc` that
use files.  A header is one sector: the counts `numBytes` and `numSectors`, and the array
`dataSectors`.  `WriteAt` reads the sectors that it changes in part into a new buffer, and
writes the whole buffer, so what the buffer held before is an argument here.
-/

namespace Nachos

open Loops

def intSize : Nat := 4

def numDirect : Nat := (sectorSize - 2 * intSize) / intSize

def maxFileSize : Nat := numDirect * sectorSize

structure FileHeader where
  words : Nat → BitVec 32

namespace FileHeader

def numBytes (hdr : FileHeader) : Int := (hdr.words 0).toInt

def numSectors (hdr : FileHeader) : Int := (hdr.words 1).toInt

def dataSector (hdr : FileHeader) (i : Nat) : Int := (hdr.words (2 + i)).toInt

/-- The expression `dataSectors[i]`.  Nothing checks the index: two places before the array
the object begins, so the indices `-1` and `-2` read the counts. -/
def dataSectors (hdr : FileHeader) (i : Int) : Except Fault Int :=
  if 0 ≤ 2 + i ∧ 2 + i < 2 + numDirect then .ok (hdr.words (2 + i).toNat).toInt
  else .error .outOfRange

def setWord (hdr : FileHeader) (k : Nat) (value : Int) : FileHeader :=
  ⟨Function.update hdr.words k (BitVec.ofInt 32 value)⟩

def setDataSector (hdr : FileHeader) (i : Nat) (sector : Int) : Except Fault FileHeader :=
  if i < numDirect then .ok (hdr.setWord (2 + i) sector) else .error .outOfRange

def allocateSectors (count : Nat) (hdr : FileHeader) (freeMap : BitMap) :
    Except Fault (FileHeader × BitMap) :=
  forUpToM (fun i (hdr, freeMap) => do
    let (sector, freeMap) := freeMap.find
    let hdr ← hdr.setDataSector i sector
    return (hdr, freeMap)) count (hdr, freeMap)

def allocate (hdr : FileHeader) (freeMap : BitMap) (fileSize : Int) :
    Except Fault (Bool × FileHeader × BitMap) := do
  let hdr := hdr.setWord 0 fileSize
  let hdr := hdr.setWord 1 (divRoundUpInt fileSize sectorSize)
  if freeMap.numClear < hdr.numSectors then
    return (false, hdr, freeMap)
  else
    let (hdr, freeMap) ← allocateSectors hdr.numSectors.toNat hdr freeMap
    return (true, hdr, freeMap)

def deallocate (hdr : FileHeader) (freeMap : BitMap) : Except Fault BitMap :=
  forUpToM (fun i freeMap => do
    let sector ← hdr.dataSectors i
    let marked ← freeMap.test sector
    assert marked
    freeMap.clear sector) hdr.numSectors.toNat freeMap

def fetchFrom (disk : Disk) (sector : Int) : Except Fault FileHeader := do
  let data ← disk.readSector sector
  return ⟨wordsOf data⟩

def writeBack (hdr : FileHeader) (disk : Disk) (sector : Int) : Except Fault Disk :=
  disk.writeSector sector (bytesOf hdr.words)

def byteToSector (hdr : FileHeader) (offset : Int) : Except Fault Int :=
  hdr.dataSectors (offset.tdiv sectorSize)

def fileLength (hdr : FileHeader) : Int := hdr.numBytes

end FileHeader

/-! ## Open files -/

/-- The constructor's argument `sector` is kept to identify the file; no routine reads it. -/
structure OpenFile where
  sector : Int
  hdr : FileHeader
  seekPosition : Int

namespace OpenFile

def new (disk : Disk) (sector : Int) : Except Fault OpenFile := do
  let hdr ← FileHeader.fetchFrom disk sector
  return { sector := sector, hdr := hdr, seekPosition := 0 }

/-- The sum of two `int`s that are added without a test.  A sum that wraps around is a
request for a buffer of negative size. -/
def checkedSum (position numBytes : Int) : Except Fault Int :=
  if position + numBytes < 2 ^ 31 then .ok (position + numBytes) else .error .outOfRange

def clip (fileLength sum numBytes position : Int) : Int :=
  if sum > fileLength then fileLength - position else numBytes

def readSectors (file : OpenFile) (disk : Disk) (firstSector : Int) (count : Nat)
    (buf : Nat → Byte) : Except Fault (Nat → Byte) :=
  forUpToM (fun k buf => do
    let sector ← file.hdr.byteToSector ((firstSector + k) * sectorSize)
    let data ← disk.readSector sector
    return bcopy data (k * sectorSize) sectorSize buf) count buf

def writeSectors (file : OpenFile) (firstSector : Int) (count : Nat) (buf : Nat → Byte)
    (disk : Disk) : Except Fault Disk :=
  forUpToM (fun k disk => do
    let sector ← file.hdr.byteToSector ((firstSector + k) * sectorSize)
    disk.writeSector sector fun j => buf (k * sectorSize + j)) count disk

def readAt (file : OpenFile) (disk : Disk) (into : Nat → Byte) (numBytes position : Int) :
    Except Fault ((Nat → Byte) × Int) := do
  let fileLength := file.hdr.fileLength
  if numBytes ≤ 0 ∨ position ≥ fileLength then
    return (into, 0)
  else
    let sum ← checkedSum position numBytes
    let numBytes := clip fileLength sum numBytes position
    let firstSector := divRoundDownInt position sectorSize
    let lastSector := divRoundDownInt (position + numBytes - 1) sectorSize
    let numSectors := 1 + lastSector - firstSector
    -- the loop fills the whole buffer, so its first contents do not matter
    let buf ← file.readSectors disk firstSector numSectors.toNat fun _ => 0#8
    let start := position - firstSector * sectorSize
    if start < 0 then
      .error .outOfRange
    else
      return (bcopy (fun j => buf (start.toNat + j)) 0 numBytes.toNat into, numBytes)

def readInto (file : OpenFile) (disk : Disk) (needed : Bool) (buf : Nat → Byte) (start : Nat)
    (position : Int) : Except Fault (Nat → Byte) :=
  if needed then do
    let (sector, _) ← file.readAt disk (fun j => buf (start + j)) sectorSize position
    return bcopy sector start sectorSize buf
  else return buf

def readPartial (file : OpenFile) (disk : Disk) (buf : Nat → Byte)
    (numBytes position firstSector lastSector : Int) : Except Fault (Nat → Byte) := do
  let firstAligned := decide (position = firstSector * sectorSize)
  let lastAligned := decide (position + numBytes = (lastSector + 1) * sectorSize)
  let buf ← file.readInto disk (!firstAligned) buf 0 (firstSector * sectorSize)
  file.readInto disk (!lastAligned && (decide (firstSector ≠ lastSector) || firstAligned)) buf
    ((lastSector - firstSector) * sectorSize).toNat (lastSector * sectorSize)

def writeAt (file : OpenFile) (disk : Disk) (buf source : Nat → Byte) (numBytes position : Int) :
    Except Fault (Disk × Int) := do
  let fileLength := file.hdr.fileLength
  if numBytes ≤ 0 ∨ position ≥ fileLength then
    return (disk, 0)
  else
    let sum ← checkedSum position numBytes
    let numBytes := clip fileLength sum numBytes position
    let firstSector := divRoundDownInt position sectorSize
    let lastSector := divRoundDownInt (position + numBytes - 1) sectorSize
    let numSectors := 1 + lastSector - firstSector
    let buf ← file.readPartial disk buf numBytes position firstSector lastSector
    let start := position - firstSector * sectorSize
    if start < 0 then
      .error .outOfRange
    else
      let buf := bcopy source start.toNat numBytes.toNat buf
      let disk ← file.writeSectors firstSector numSectors.toNat buf disk
      return (disk, numBytes)

def read (file : OpenFile) (disk : Disk) (into : Nat → Byte) (numBytes : Int) :
    Except Fault ((Nat → Byte) × Int × OpenFile) := do
  let (into, result) ← file.readAt disk into numBytes file.seekPosition
  return (into, result, { file with seekPosition := file.seekPosition + result })

def write (file : OpenFile) (disk : Disk) (buf source : Nat → Byte) (numBytes : Int) :
    Except Fault (Disk × Int × OpenFile) := do
  let (disk, result) ← file.writeAt disk buf source numBytes file.seekPosition
  return (disk, result, { file with seekPosition := file.seekPosition + result })

end OpenFile

namespace BitMap

def numWords (b : BitMap) : Nat := divRoundUp b.numBits bitsInWord

def fetchFrom (b : BitMap) (disk : Disk) (file : OpenFile) : Except Fault BitMap := do
  let (bytes, _) ← file.readAt disk (bytesOf b.map) (b.numWords * intSize : Nat) 0
  return { b with map := wordsOf bytes }

def writeBack (b : BitMap) (disk : Disk) (file : OpenFile) (buf : Nat → Byte) :
    Except Fault Disk := do
  let (disk, _) ← file.writeAt disk buf (bytesOf b.map) (b.numWords * intSize : Nat) 0
  return disk

/-- `BitMap::FetchFrom`, with a file of the stub file system. -/
def fetchFromStub (b : BitMap) (file : File) : Except Fault BitMap := do
  let (bytes, _) ← file.readAt (bytesOf b.map) (b.numWords * intSize : Nat) 0
  return { b with map := wordsOf bytes }

/-- `BitMap::WriteBack`, with a file of the stub file system. -/
def writeBackStub (b : BitMap) (file : File) : Except Fault File :=
  file.writeAt (bytesOf b.map) (b.numWords * intSize : Nat) 0

end BitMap

end Nachos
