import Nachos.Machine.Machine

/-!
# The disk

`SynchDisk` and the `Disk` behind it, as the file system sees them when one thread uses
them: a sector number that is checked against the size of the disk, and the 128 bytes of that
sector.  File headers and bitmaps go to disk as the words that they are in memory, so this
module also has the two ways between words and bytes on the host.
-/

namespace Nachos

def sectorSize : Nat := 128

def sectorsPerTrack : Nat := 32

def numTracks : Nat := 32

def numSectors : Nat := sectorsPerTrack * numTracks

/-- The bytes of each sector; only the first `sectorSize` of them exist. -/
abbrev Disk := Nat → Nat → Byte

variable {sector : Int} {bytes : Nat → Byte}

namespace Disk

def inRange (sectorNumber : Int) : Bool := decide (0 ≤ sectorNumber ∧ sectorNumber < numSectors)

def readSector (disk : Disk) (sectorNumber : Int) : Except Fault (Nat → Byte) := do
  assert (inRange sectorNumber)
  return disk sectorNumber.toNat

def writeSector (disk : Disk) (sectorNumber : Int) (data : Nat → Byte) : Except Fault Disk := do
  assert (inRange sectorNumber)
  return Function.update disk sectorNumber.toNat
    (bcopy data 0 sectorSize (disk sectorNumber.toNat))

theorem readSector_ok {disk : Disk} (inside : inRange sector = true) :
    disk.readSector sector = .ok (disk sector.toNat) := by
  simp [readSector, assert, inside, Loops.ok_bind, Loops.pure_eq]

theorem writeSector_ok {disk : Disk} {data : Nat → Byte} (inside : inRange sector = true) :
    disk.writeSector sector data = .ok (Function.update disk sector.toNat
      (bcopy data 0 sectorSize (disk sector.toNat))) := by
  simp [writeSector, assert, inside, Loops.ok_bind, Loops.pure_eq]

theorem inRange_iff : inRange sector = true ↔ 0 ≤ sector ∧ sector < numSectors := by
  simp [inRange]

theorem toNat_inj {s t : Int} (first : inRange s = true) (second : inRange t = true)
    (same : s.toNat = t.toNat) : s = t := by
  rw [inRange_iff] at first second
  omega

end Disk

/-! ## Words in memory -/

def wordsOf (bytes : Nat → Byte) : Nat → BitVec 32 :=
  fun k => hostWord false fun j => bytes (4 * k + j)

def bytesOf (words : Nat → BitVec 32) : Nat → Byte := fun i => byteOf (words (i / 4)) (i % 4)

theorem wordsOf_eq {words : Nat → BitVec 32} {k : Nat}
    (same : ∀ i, 4 * k ≤ i → i < 4 * k + 4 → bytes i = bytesOf words i) :
    wordsOf bytes k = words k := by
  calc wordsOf bytes k
      = hostWord false (byteOf (words k)) := by
        apply hostWord_congr
        intro j small
        rw [same (4 * k + j) (by omega) (by omega), bytesOf]
        congr 2 <;> omega
    _ = words k := hostWord_byteOf (words k)

theorem wordsOf_congr {bytes bytes' : Nat → Byte} {k : Nat}
    (same : ∀ i, 4 * k ≤ i → i < 4 * k + 4 → bytes i = bytes' i) :
    wordsOf bytes k = wordsOf bytes' k :=
  hostWord_congr fun j small => same (4 * k + j) (by omega) (by omega)

end Nachos
