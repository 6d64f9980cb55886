import Nachos.FileSys.FileHeader

/-!
# Files on disk are byte arrays

When the data sectors of a header are distinct sectors of the disk and enough for the length,
`ReadAt` and `WriteAt` read and write an array of bytes, at any alignment of a request, and
no other sector changes.
-/

namespace Nachos

open Loops

def OnlyChanges (disk disk' : Disk) (changed : List Int) : Prop :=
  ∀ s, (∀ b ∈ changed, b.toNat ≠ s) → disk' s = disk s

variable {i position first count : Nat} {numBytes : Int}

namespace FileHeader

variable {hdr : FileHeader} {disk : Disk}

def blocks (hdr : FileHeader) : List Int := (List.range hdr.numSectors.toNat).map hdr.dataSector

def fileByte (hdr : FileHeader) (disk : Disk) (p : Nat) : Byte :=
  disk (hdr.dataSector (p / sectorSize)).toNat (p % sectorSize)

def transferred (hdr : FileHeader) (numBytes : Int) (position : Nat) : Nat :=
  (min numBytes (hdr.fileLength - position)).toNat

/-- The data sectors are distinct sectors of the disk and hold the whole file. -/
structure Covering (hdr : FileHeader) : Prop where
  direct : hdr.numSectors ≤ numDirect
  covers : hdr.fileLength ≤ hdr.numSectors * sectorSize
  inRange : ∀ b ∈ hdr.blocks, Disk.inRange b = true
  distinct : hdr.blocks.Nodup

theorem mem_blocks {b : Int} : b ∈ hdr.blocks ↔ ∃ i < hdr.numSectors.toNat, hdr.dataSector i = b := by
  simp [blocks]

theorem dataSector_mem (bound : i < hdr.numSectors.toNat) :
    hdr.dataSector i ∈ hdr.blocks :=
  mem_blocks.mpr ⟨i, bound, rfl⟩

theorem dataSectors_ok (bound : i < numDirect) :
    hdr.dataSectors i = .ok (hdr.dataSector i) := by
  have inside : (0 : Int) ≤ 2 + i ∧ (2 : Int) + i < 2 + numDirect := by omega
  have index : ((2 : Int) + i).toNat = 2 + i := by omega
  simp only [dataSectors, if_pos inside, index, dataSector]

theorem byteToSector_ok (bound : i < numDirect) :
    hdr.byteToSector (i * sectorSize) = .ok (hdr.dataSector i) := by
  have index : ((i : Int) * sectorSize).tdiv sectorSize = i :=
    Int.mul_tdiv_cancel _ (by decide)
  rw [byteToSector, index, dataSectors_ok bound]

namespace Covering

theorem lt_numDirect (covering : hdr.Covering) (bound : i < hdr.numSectors.toNat) :
    i < numDirect := by
  have direct := covering.direct
  omega

theorem dataSector_inRange (covering : hdr.Covering) (bound : i < hdr.numSectors.toNat) :
    Disk.inRange (hdr.dataSector i) = true :=
  covering.inRange _ (dataSector_mem bound)

theorem index_unique (covering : hdr.Covering) {i j : Nat} (first : i < hdr.numSectors.toNat)
    (second : j < hdr.numSectors.toNat)
    (same : (hdr.dataSector i).toNat = (hdr.dataSector j).toNat) : i = j := by
  have equal := Disk.toNat_inj (covering.dataSector_inRange first)
    (covering.dataSector_inRange second) same
  exact List.inj_on_of_nodup_map covering.distinct (List.mem_range.mpr first)
    (List.mem_range.mpr second) equal

theorem index_lt (covering : hdr.Covering) {p : Nat} (inside : (p : Int) < hdr.fileLength) :
    p / sectorSize < hdr.numSectors.toNat := by
  have covers := covering.covers
  simp only [sectorSize] at *
  omega

end Covering

end FileHeader

theorem divRoundDownInt_ofNat (n s : Nat) : divRoundDownInt n s = (n / s : Nat) :=
  (Int.ofNat_tdiv n s).symm

namespace FileHeader

variable {hdr : FileHeader} {disk : Disk}

theorem fileByte_add {i o : Nat} (small : o < sectorSize) :
    hdr.fileByte disk (i * sectorSize + o) = disk (hdr.dataSector i).toNat o := by
  have index : (i * sectorSize + o) / sectorSize = i := by
    simp only [sectorSize] at *
    omega
  have offset : (i * sectorSize + o) % sectorSize = o := by
    simp only [sectorSize] at *
    omega
  rw [fileByte, index, offset]

/-- The byte count after the request is checked, as the routines compute it. -/
theorem transferred_eq (positive : 0 < numBytes) (before : (position : Int) < hdr.fileLength) :
    OpenFile.clip hdr.fileLength (position + numBytes) numBytes position =
      (hdr.transferred numBytes position : Nat) := by
  unfold OpenFile.clip transferred
  split <;> omega

theorem transferred_pos (positive : 0 < numBytes) (before : (position : Int) < hdr.fileLength) :
    0 < hdr.transferred numBytes position := by
  unfold transferred
  omega

theorem transferred_le (numBytes : Int) (before : (position : Int) < hdr.fileLength) :
    ((position + hdr.transferred numBytes position : Nat) : Int) ≤ hdr.fileLength := by
  unfold transferred
  omega

theorem transferred_eq_zero (refused : numBytes ≤ 0 ∨ (position : Int) ≥ hdr.fileLength) :
    hdr.transferred numBytes position = 0 := by
  unfold transferred
  omega

end FileHeader

namespace OpenFile

open FileHeader

variable {file : OpenFile}

/-! ## Whole sectors -/

section

variable (covering : file.hdr.Covering)

include covering

theorem byteToSector_request (bound : first + i < file.hdr.numSectors.toNat) :
    file.hdr.byteToSector (((first : Int) + i) * sectorSize) =
      .ok (file.hdr.dataSector (first + i)) := by
  have found : file.hdr.byteToSector ((first + i : Nat) * sectorSize) = _ :=
    byteToSector_ok (covering.lt_numDirect bound)
  rwa [Nat.cast_add] at found

theorem readSectors_ok (disk : Disk)
    (inside : first + count ≤ file.hdr.numSectors.toNat) (buf : Nat → Byte) :
    ∃ buf', file.readSectors disk first count buf = .ok buf' ∧
      ∀ q < count * sectorSize, buf' q = file.hdr.fileByte disk (first * sectorSize + q) := by
  -- after `i` rounds the first `i` sectors of the request are in the buffer
  apply forUpToM_total fun i (buf : Nat → Byte) => ∀ q < i * sectorSize,
    buf q = file.hdr.fileByte disk (first * sectorSize + q)
  · intro q impossible
    omega
  · intro i bound buf filled
    have here : first + i < file.hdr.numSectors.toNat := by omega
    simp only [byteToSector_request covering here,
      Disk.readSector_ok (covering.dataSector_inRange here), ok_bind, pure_eq,
      Except.ok.injEq, exists_eq_left']
    intro q below
    rw [Nat.succ_mul] at below
    by_cases last : i * sectorSize ≤ q
    · obtain ⟨o, rfl⟩ := Nat.exists_eq_add_of_le last
      rw [← Nat.add_assoc, ← Nat.add_mul, fileByte_add (by omega), bcopy,
        if_pos ⟨last, below⟩, Nat.add_sub_cancel_left]
    · rw [bcopy, if_neg fun both => last both.1]
      exact filled q (by omega)

theorem writeSectors_ok (disk : Disk)
    (inside : first + count ≤ file.hdr.numSectors.toNat) (buf : Nat → Byte) :
    ∃ disk', file.writeSectors first count buf disk = .ok disk' ∧
      (∀ s, (∀ i, first ≤ i → i < first + count → (file.hdr.dataSector i).toNat ≠ s) →
        disk' s = disk s) ∧
      ∀ q < count * sectorSize, file.hdr.fileByte disk' (first * sectorSize + q) = buf q := by
  -- after `i` rounds the first `i` sectors of the buffer are on disk
  apply forUpToM_total fun i (disk' : Disk) =>
    (∀ s, (∀ j, first ≤ j → j < first + i → (file.hdr.dataSector j).toNat ≠ s) →
      disk' s = disk s) ∧
    ∀ q < i * sectorSize, file.hdr.fileByte disk' (first * sectorSize + q) = buf q
  · exact ⟨fun s _ => rfl, fun q impossible => by omega⟩
  · intro i bound disk' ⟨untouched, written⟩
    have here : first + i < file.hdr.numSectors.toNat := by omega
    simp only [byteToSector_request covering here,
      Disk.writeSector_ok (covering.dataSector_inRange here), ok_bind,
      Except.ok.injEq, exists_eq_left']
    constructor
    · intro s outside
      have different : s ≠ (file.hdr.dataSector (first + i)).toNat :=
        (outside (first + i) (by omega) (by omega)).symm
      rw [Function.update_of_ne different]
      exact untouched s fun j low high => outside j low (by omega)
    · intro q below
      rw [Nat.succ_mul] at below
      by_cases last : i * sectorSize ≤ q
      · obtain ⟨o, rfl⟩ := Nat.exists_eq_add_of_le last
        rw [← Nat.add_assoc, ← Nat.add_mul, fileByte_add (by omega), Function.update_self, bcopy,
          if_pos (by omega), Nat.sub_zero]
      · have earlier : q < i * sectorSize := by omega
        have index : (first * sectorSize + q) / sectorSize < first + i := by
          simp only [sectorSize] at *
          omega
        -- the sector written last is none of the earlier ones
        have different : (file.hdr.dataSector ((first * sectorSize + q) / sectorSize)).toNat ≠
            (file.hdr.dataSector (first + i)).toNat := by
          intro same
          have equal := covering.index_unique (by omega) here same
          omega
        rw [fileByte, Function.update_of_ne different]
        exact written q earlier

/-! ## Requests -/

theorem request_sectors {k position : Nat} (positive : 0 < k)
    (inside : ((position + k : Nat) : Int) ≤ file.hdr.fileLength) :
    position / sectorSize +
        ((1 : Int) + ((position + k - 1) / sectorSize : Nat) - (position / sectorSize : Nat)).toNat =
      (position + k - 1) / sectorSize + 1 ∧
      (position + k - 1) / sectorSize + 1 ≤ file.hdr.numSectors.toNat := by
  have last : (position + k - 1) / sectorSize < file.hdr.numSectors.toNat :=
    covering.index_lt (by omega)
  have ordered : position / sectorSize ≤ (position + k - 1) / sectorSize :=
    Nat.div_le_div_right (by omega)
  omega

omit covering in
theorem request_offset (position : Nat) :
    ¬ ((position : Int) - (position / sectorSize : Nat) * sectorSize < 0) ∧
      ((position : Int) - (position / sectorSize : Nat) * sectorSize).toNat =
        position % sectorSize := by
  simp only [sectorSize]
  omega

theorem readAt_ok (disk : Disk) (into : Nat → Byte) (noOverflow : position + numBytes < 2 ^ 31) :
    ∃ into', file.readAt disk into numBytes position =
        .ok (into', (file.hdr.transferred numBytes position : Nat)) ∧
      ∀ j, into' j = if j < file.hdr.transferred numBytes position then
        file.hdr.fileByte disk (position + j) else into j := by
  by_cases refused : numBytes ≤ 0 ∨ (position : Int) ≥ file.hdr.fileLength
  · have none := transferred_eq_zero refused
    exact ⟨into, by simp [readAt, if_pos refused, none, pure_eq], by simp [none]⟩
  · have positive : 0 < numBytes := by omega
    have before : (position : Int) < file.hdr.fileLength := by omega
    have count := transferred_eq positive before
    have someBytes := transferred_pos positive before
    have inside := transferred_le numBytes before
    generalize file.hdr.transferred numBytes position = k at *
    obtain ⟨sectors, bound⟩ := request_sectors covering someBytes inside
    have lastByte : (position : Int) + (k : Nat) - 1 = (position + k - 1 : Nat) := by omega
    obtain ⟨buf, done, filled⟩ := readSectors_ok covering disk
      (Nat.le_trans (Nat.le_of_eq sectors) bound) fun _ => 0#8
    obtain ⟨start, offset⟩ := request_offset position
    refine ⟨bcopy (fun j => buf (position % sectorSize + j)) 0 k into, ?_, ?_⟩
    · simp only [readAt, if_neg refused, checkedSum, if_pos noOverflow, ok_bind,
        count, lastByte, divRoundDownInt_ofNat, done, if_neg start, offset, pure_eq,
        Int.toNat_natCast]
    · intro j
      simp only [bcopy, Nat.zero_le, true_and, Nat.zero_add, Nat.sub_zero]
      split
      next inRequest =>
        rw [filled]
        · congr 1
          simp only [sectorSize]
          omega
        · simp only [sectorSize] at *
          omega
      next => rfl

theorem readInto_ok (disk : Disk) (needed : Bool) (buf : Nat → Byte)
    (start : Nat) (bound : i < file.hdr.numSectors.toNat) :
    ∃ buf', file.readInto disk needed buf start (i * sectorSize) = .ok buf' ∧
      (∀ j, needed = false ∨ j < start → buf' j = buf j) ∧
      (needed = true → ∀ q : Nat, i * sectorSize ≤ q → q < (i + 1) * sectorSize →
        (q : Int) < file.hdr.fileLength →
        buf' (start + (q - i * sectorSize)) = file.hdr.fileByte disk q) := by
  cases needed with
  | false => exact ⟨buf, rfl, fun _ _ => rfl, fun impossible => by cases impossible⟩
  | true =>
    have small := covering.lt_numDirect bound
    have noOverflow : ((i * sectorSize : Nat) : Int) + sectorSize < 2 ^ 31 := by
      simp only [sectorSize, numDirect, intSize] at *
      omega
    obtain ⟨part, done, arrived⟩ := readAt_ok covering disk (fun j => buf (start + j)) noOverflow
    rw [Nat.cast_mul] at done
    refine ⟨bcopy part start sectorSize buf, ?_, ?_, ?_⟩
    · simp only [readInto, if_true, done, ok_bind, pure_eq]
    · intro j either
      have before : j < start := by simpa using either
      rw [bcopy, if_neg (by omega)]
    · intro _ q low high inFile
      rw [Nat.succ_mul] at high
      have counted : q - i * sectorSize < file.hdr.transferred sectorSize (i * sectorSize) := by
        unfold transferred
        omega
      rw [bcopy, if_pos (by omega), Nat.add_sub_cancel_left, arrived, if_pos counted]
      congr 1
      omega

/-- The buffer has the bytes of the file around the request. -/
theorem readPartial_ok (disk : Disk) (buf : Nat → Byte)
    {k position first last : Nat} (firstIs : first = position / sectorSize)
    (lastIs : last = (position + k - 1) / sectorSize) (positive : 0 < k)
    (inside : ((position + k : Nat) : Int) ≤ file.hdr.fileLength) :
    ∃ buf', file.readPartial disk buf k position first last = .ok buf' ∧
      ∀ q, first * sectorSize ≤ q → q < (last + 1) * sectorSize →
        (q : Int) < file.hdr.fileLength → ¬ (position ≤ q ∧ q < position + k) →
        buf' (q - first * sectorSize) = file.hdr.fileByte disk q := by
  have lastBound : last < file.hdr.numSectors.toNat := by
    rw [lastIs]
    exact covering.index_lt (by omega)
  have ordered : first ≤ last := by
    rw [firstIs, lastIs]
    exact Nat.div_le_div_right (by omega)
  have start : (((last : Int) - first) * sectorSize).toNat = (last - first) * sectorSize := by
    rw [← Nat.cast_sub ordered]
    exact_mod_cast Int.toNat_natCast _
  obtain ⟨buf₁, firstDone, _, firstRead⟩ := readInto_ok covering disk
    (!decide ((position : Int) = first * sectorSize)) buf 0 (Nat.lt_of_le_of_lt ordered lastBound)
  obtain ⟨buf₂, lastDone, kept, lastRead⟩ := readInto_ok covering disk
    (!decide ((position : Int) + k = (last + 1) * sectorSize) &&
      (decide ((first : Int) ≠ last) || decide ((position : Int) = first * sectorSize)))
    buf₁ ((last - first) * sectorSize) lastBound
  refine ⟨buf₂, ?_, ?_⟩
  · simp only [readPartial, firstDone, start, lastDone, ok_bind]
  · intro q low high inFile outside
    simp only [Bool.and_eq_true, Bool.or_eq_true, Bool.not_eq_true', decide_eq_false_iff_not,
      decide_eq_true_eq, Bool.and_eq_false_iff, Bool.or_eq_false_iff, Bool.not_eq_false',
      Nat.zero_add] at kept lastRead firstRead
    by_cases before : q < position
    · -- in front of the request: the first sector was read, and the second read is behind it
      rw [kept]
      · apply firstRead _ q low _ inFile
        · simp only [sectorSize] at *
          omega
        · simp only [sectorSize] at *
          omega
      · simp only [sectorSize] at *
        omega
    · -- behind the request: the last sector was read, alone or as the first
      by_cases second : (first : Int) ≠ last ∨ (position : Int) = first * sectorSize
      · have place : (last - first) * sectorSize + (q - last * sectorSize) =
            q - first * sectorSize := by
          simp only [sectorSize] at *
          omega
        rw [← place]
        apply lastRead ⟨_, second⟩ q _ high inFile
        · simp only [sectorSize] at *
          omega
        · simp only [sectorSize] at *
          omega
      · rw [kept]
        · apply firstRead _ q low _ inFile
          · simp only [sectorSize] at *
            omega
          · simp only [sectorSize] at *
            omega
        · simp only [sectorSize] at *
          omega

theorem writeAt_ok (disk : Disk) (buf source : Nat → Byte)
    (noOverflow : position + numBytes < 2 ^ 31) :
    ∃ disk', file.writeAt disk buf source numBytes position =
        .ok (disk', (file.hdr.transferred numBytes position : Nat)) ∧
      OnlyChanges disk disk' file.hdr.blocks ∧
      ∀ p : Nat, (p : Int) < file.hdr.fileLength → file.hdr.fileByte disk' p =
        if position ≤ p ∧ p < position + file.hdr.transferred numBytes position then
          source (p - position) else file.hdr.fileByte disk p := by
  by_cases refused : numBytes ≤ 0 ∨ (position : Int) ≥ file.hdr.fileLength
  · have none := transferred_eq_zero refused
    refine ⟨disk, by simp [writeAt, if_pos refused, none, pure_eq], fun _ _ => rfl, ?_⟩
    intro p _
    rw [if_neg (by omega)]
  · have positive : 0 < numBytes := by omega
    have before : (position : Int) < file.hdr.fileLength := by omega
    have count := transferred_eq positive before
    have someBytes := transferred_pos positive before
    have inside := transferred_le numBytes before
    generalize file.hdr.transferred numBytes position = k at *
    obtain ⟨sectors, bound⟩ := request_sectors covering someBytes inside
    have lastByte : (position : Int) + (k : Nat) - 1 = (position + k - 1 : Nat) := by omega
    obtain ⟨start, offset⟩ := request_offset position
    obtain ⟨buf', partialDone, around⟩ := readPartial_ok covering disk buf rfl rfl someBytes inside
    obtain ⟨disk', done, untouched, written⟩ := writeSectors_ok covering disk
      (Nat.le_trans (Nat.le_of_eq sectors) bound) (bcopy source (position % sectorSize) k buf')
    refine ⟨disk', ?_, ?_, ?_⟩
    · simp only [writeAt, if_neg refused, checkedSum, if_pos noOverflow, ok_bind,
        count, lastByte, divRoundDownInt_ofNat, partialDone, if_neg start, offset, done, pure_eq, Int.toNat_natCast]
    · intro s outside
      apply untouched
      intro i _ high
      exact outside _ (dataSector_mem (by omega))
    · intro p inFile
      by_cases touched : position / sectorSize * sectorSize ≤ p ∧
          p < ((position + k - 1) / sectorSize + 1) * sectorSize
      · have place : position / sectorSize * sectorSize +
            (p - position / sectorSize * sectorSize) = p := by omega
        have here := written (p - position / sectorSize * sectorSize)
          (by simp only [sectorSize] at *; omega)
        rw [place] at here
        rw [here, bcopy]
        by_cases request : position ≤ p ∧ p < position + k
        · rw [if_pos request, if_pos (by simp only [sectorSize] at *; omega)]
          congr 1
          simp only [sectorSize]
          omega
        · rw [if_neg request, if_neg (by simp only [sectorSize] at *; omega)]
          exact around p touched.1 touched.2 inFile request
      · have outside : ¬ (position ≤ p ∧ p < position + k) := by
          simp only [sectorSize] at *
          omega
        rw [if_neg outside, fileByte, fileByte, untouched]
        intro i low high same
        have index := covering.index_unique (by omega) (covering.index_lt inFile) same
        simp only [sectorSize] at *
        omega

end

/-! ## From the beginning of the file -/

theorem transferred_front (within : (count : Int) ≤ file.hdr.fileLength) :
    file.hdr.transferred count 0 = count := by
  unfold transferred
  omega

theorem noOverflow_front (covering : file.hdr.Covering)
    (within : (count : Int) ≤ file.hdr.fileLength) : ((0 : Nat) : Int) + count < 2 ^ 31 := by
  have direct := covering.direct
  have covers := covering.covers
  simp only [numDirect, intSize, sectorSize] at *
  omega

theorem readAt_front (covering : file.hdr.Covering) (disk : Disk) (into : Nat → Byte)
    (within : (count : Int) ≤ file.hdr.fileLength) :
    ∃ into', file.readAt disk into count 0 = .ok (into', (count : Int)) ∧
      ∀ p < count, into' p = file.hdr.fileByte disk p := by
  obtain ⟨into', done, arrived⟩ := readAt_ok covering disk into (noOverflow_front covering within)
  rw [transferred_front within] at done arrived
  refine ⟨into', done, ?_⟩
  intro p bound
  rw [arrived, if_pos bound, Nat.zero_add]

theorem writeAt_front (covering : file.hdr.Covering) (disk : Disk) (buf source : Nat → Byte)
    (within : (count : Int) ≤ file.hdr.fileLength) :
    ∃ disk', file.writeAt disk buf source count 0 = .ok (disk', (count : Int)) ∧
      OnlyChanges disk disk' file.hdr.blocks ∧
      ∀ p < count, file.hdr.fileByte disk' p = source p := by
  obtain ⟨disk', done, only, written⟩ := writeAt_ok covering disk buf source
    (noOverflow_front covering within)
  rw [transferred_front within] at done written
  refine ⟨disk', done, only, ?_⟩
  intro p bound
  rw [written p (by omega), if_pos (by omega), Nat.sub_zero]

end OpenFile

end Nachos
