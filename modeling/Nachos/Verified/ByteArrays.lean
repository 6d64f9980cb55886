import Nachos.Lib.Segments
import Nachos.Verified.DiskFiles

/-!
# Open files refine arrays of bytes

The contents of a file are a list of bytes.  `ReadAt` takes a slice of it and `WriteAt`
overwrites a part of it, cut off at the end of the file.
-/

namespace Nachos

open Loops Segments

variable {numBytes : Int} {position : Nat}

namespace FileHeader

variable {hdr : FileHeader} {disk disk' : Disk}

def contents (hdr : FileHeader) (disk : Disk) : List Byte :=
  (List.range hdr.fileLength.toNat).map (hdr.fileByte disk)

@[simp] theorem length_contents : (hdr.contents disk).length = hdr.fileLength.toNat := by
  simp [contents]

theorem getElem?_contents (p : Nat) :
    (hdr.contents disk)[p]? =
      if p < hdr.fileLength.toNat then some (hdr.fileByte disk p) else none := by
  by_cases inside : p < hdr.fileLength.toNat
  · rw [if_pos inside, contents, List.getElem?_map, List.getElem?_range inside, Option.map_some]
  · rw [if_neg inside, List.getElem?_eq_none (by rw [length_contents]; omega)]

theorem contents_congr (same : ∀ p : Nat, (p : Int) < hdr.fileLength →
    hdr.fileByte disk' p = hdr.fileByte disk p) : hdr.contents disk' = hdr.contents disk := by
  apply List.map_congr_left
  intro p member
  have bound := List.mem_range.mp member
  exact same p (by omega)

theorem slice_contents :
    slice (hdr.contents disk) position (hdr.transferred numBytes position) =
      (List.range (hdr.transferred numBytes position)).map
        fun j => hdr.fileByte disk (position + j) := by
  apply List.ext_getElem?
  intro j
  simp only [slice, List.getElem?_take, List.getElem?_drop, List.getElem?_map, getElem?_contents]
  by_cases transferred : j < hdr.transferred numBytes position
  · have inside : position + j < hdr.fileLength.toNat := by
      unfold FileHeader.transferred at transferred
      omega
    rw [if_pos transferred, if_pos inside, List.getElem?_range transferred, Option.map_some]
  · rw [if_neg transferred, List.getElem?_eq_none (by simpa using transferred), Option.map_none]

theorem contents_of_written {source : Nat → Byte} (written : ∀ p : Nat, (p : Int) < hdr.fileLength →
      hdr.fileByte disk' p = if position ≤ p ∧ p < position + hdr.transferred numBytes position then
      source (p - position) else hdr.fileByte disk p) :
    hdr.contents disk' = overwrite (hdr.contents disk) position
      ((List.range (hdr.transferred numBytes position)).map source) := by
  have size : ((List.range (hdr.transferred numBytes position)).map source).length =
      hdr.transferred numBytes position := by simp
  by_cases none : hdr.transferred numBytes position = 0
  · rw [none, List.range_zero, List.map_nil, overwrite_nil]
    apply contents_congr
    intro p inside
    rw [written p inside, if_neg (by omega)]
  · have fits : position + hdr.transferred numBytes position ≤ (hdr.contents disk).length := by
      rw [length_contents]
      unfold FileHeader.transferred at none ⊢
      omega
    apply List.ext_getElem?
    intro p
    rw [getElem?_overwrite (by rw [size]; exact fits), size, getElem?_contents, getElem?_contents]
    by_cases inside : p < hdr.fileLength.toNat
    · rw [if_pos inside, if_pos inside, written p (by omega)]
      by_cases request : position ≤ p ∧ p < position + hdr.transferred numBytes position
      · rw [if_pos request, if_pos request, List.getElem?_map, List.getElem?_range (by omega),
          Option.map_some]
      · rw [if_neg request, if_neg request]
    · rw [length_contents] at fits
      rw [if_neg inside, if_neg inside, if_neg (by omega)]

end FileHeader

namespace OpenFile

open FileHeader

variable {file : OpenFile}

theorem readAt_slice (covering : file.hdr.Covering) (disk : Disk) (into : Nat → Byte)
    (noOverflow : position + numBytes < 2 ^ 31) :
    ∃ into', file.readAt disk into numBytes position =
        .ok (into', (file.hdr.transferred numBytes position : Nat)) ∧
      (List.range (file.hdr.transferred numBytes position)).map into' =
        slice (file.hdr.contents disk) position (file.hdr.transferred numBytes position) ∧
      ∀ j, file.hdr.transferred numBytes position ≤ j → into' j = into j := by
  obtain ⟨into', done, arrived⟩ := readAt_ok covering disk into noOverflow
  refine ⟨into', done, ?_, ?_⟩
  · rw [slice_contents]
    apply List.map_congr_left
    intro j member
    rw [arrived, if_pos (List.mem_range.mp member)]
  · intro j past
    rw [arrived, if_neg (by omega)]

theorem writeAt_overwrite (covering : file.hdr.Covering) (disk : Disk) (buf source : Nat → Byte)
    (noOverflow : position + numBytes < 2 ^ 31) :
    ∃ disk', file.writeAt disk buf source numBytes position =
        .ok (disk', (file.hdr.transferred numBytes position : Nat)) ∧
      file.hdr.contents disk' = overwrite (file.hdr.contents disk) position
        ((List.range (file.hdr.transferred numBytes position)).map source) ∧
      OnlyChanges disk disk' file.hdr.blocks := by
  obtain ⟨disk', done, only, written⟩ := writeAt_ok covering disk buf source noOverflow
  exact ⟨disk', done, contents_of_written written, only⟩

end OpenFile

theorem FileHeader.transferred_cast (hdr : FileHeader) (numBytes : Int) (position : Nat) :
    (hdr.transferred numBytes position : Int) =
      max 0 (min numBytes (hdr.fileLength - position)) := by
  unfold transferred
  omega

/-- `ReadAt` and `WriteAt` are the reads and writes of an array of `fileLength` bytes. -/
theorem openFile_refines_byte_array (file : OpenFile) (covering : file.hdr.Covering) (disk : Disk)
    (numBytes position : Int) (nonneg : 0 ≤ position) (noOverflow : position + numBytes < 2 ^ 31)
    (k : Nat) (count : (k : Int) = max 0 (min numBytes (file.hdr.fileLength - position))) :
    (∀ into, ∃ into', file.readAt disk into numBytes position = .ok (into', (k : Int)) ∧
      (List.range k).map into' = slice (file.hdr.contents disk) position.toNat k ∧
      ∀ j, k ≤ j → into' j = into j) ∧
    ∀ buf source, ∃ disk', file.writeAt disk buf source numBytes position = .ok (disk', (k : Int)) ∧
      file.hdr.contents disk' =
        overwrite (file.hdr.contents disk) position.toNat ((List.range k).map source) ∧
      OnlyChanges disk disk' file.hdr.blocks := by
  obtain ⟨p, rfl⟩ := Int.eq_ofNat_of_zero_le nonneg
  have isTransferred : k = file.hdr.transferred numBytes p := by
    have cast := file.hdr.transferred_cast numBytes p
    omega
  rw [isTransferred, Int.toNat_natCast]
  exact ⟨fun into => OpenFile.readAt_slice covering disk into noOverflow,
    fun buf source => OpenFile.writeAt_overwrite covering disk buf source noOverflow⟩

def twoSectorFile : OpenFile where
  sector := 9
  hdr := ⟨fun k => if k = 0 then 200#32 else if k = 1 then 2#32 else if k = 2 then 5#32 else 7#32⟩
  seekPosition := 0

theorem twoSectorFile_covering : twoSectorFile.hdr.Covering where
  direct := by decide
  covers := by decide
  inRange := by decide
  distinct := by decide

/-- A request for 100 bytes that begins in the first sector is cut off in the second. -/
theorem two_sector_request :
    (∀ into, ∃ into', twoSectorFile.readAt (fun _ _ => 0#8) into 100 120 = .ok (into', 80) ∧
      (List.range 80).map into' = slice (twoSectorFile.hdr.contents fun _ _ => 0#8) 120 80 ∧
      ∀ j, 80 ≤ j → into' j = into j) ∧
    ∀ buf source, ∃ disk',
      twoSectorFile.writeAt (fun _ _ => 0#8) buf source 100 120 = .ok (disk', 80) ∧
      twoSectorFile.hdr.contents disk' = overwrite (twoSectorFile.hdr.contents fun _ _ => 0#8) 120
        ((List.range 80).map source) ∧
      OnlyChanges (fun _ _ => 0#8) disk' twoSectorFile.hdr.blocks :=
  openFile_refines_byte_array twoSectorFile twoSectorFile_covering (fun _ _ => 0#8) 100 120
    (by decide) (by decide) 80 (by decide)

end Nachos
