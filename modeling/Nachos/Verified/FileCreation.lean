import Nachos.Verified.DiskConsistency

/-!
# Creating a file

`Create` changes copies of the directory and of the bitmap, and writes nothing before it knows that
all of it will succeed.  For a file that a header can describe it is atomic.  For a larger one
`Allocate` compares the number of sectors only with the number of free ones, and its loop goes on
past the end of `dataSectors`.
-/

namespace Nachos

open Loops

/-! ## A size that a header can describe -/

/-- `Create` succeeds exactly when the name, the directory and the disk allow it; if it fails the
disk is as before, and otherwise the file can be opened and the other files are as before. -/
theorem create_atomic {fs : FileSystem} (valid : fs.Valid) {size : Int} (nonneg : 0 ≤ size)
    (most : size ≤ maxFileSize) (name : Nat → Byte) (heap heap' : Heap) :
    ∃ success disk', fs.create name size heap = .ok (success, disk') ∧
      (success = true ↔ Creatable fs.disk name size) ∧
      (success = false → disk' = fs.disk) ∧
      (success = true → ∃ file,
        FileSystem.openFile { fs with disk := disk' } name heap' = .ok (some file) ∧
          file.hdr.fileLength = size) ∧
      FilesKept fs.disk disk' := by
  obtain ⟨success, disk', created, valid', succeeds, isNew, unchanged, kept⟩ :=
    FileSystem.create_ok valid nonneg most name heap
  refine ⟨success, disk', created, succeeds, unchanged, fun isSuccess => ?_, kept⟩
  obtain ⟨i, new⟩ := isNew isSuccess
  have absent := (succeeds.mp isSuccess).1
  exact ⟨_, FileSystem.open_unique valid' heap' new.inUse new.named (new.unique kept absent),
    new.fileLength⟩

/-- A file of 300 bytes on a formatted disk. -/
theorem create_atomic_formatted :
    ∃ start disk' file, FileSystem.format (fun _ _ => 0#8) zeroHeap = .ok start ∧
      start.create nameA 300 zeroHeap = .ok (true, disk') ∧
      FileSystem.openFile { start with disk := disk' } nameA zeroHeap = .ok (some file) ∧
      file.hdr.fileLength = 300 := by
  obtain ⟨start, formatted, valid, empty, -⟩ := format_ok (fun _ _ => 0#8) zeroHeap
  obtain ⟨success, disk', created, succeeds, -, opens, -⟩ :=
    create_atomic valid (show (0 : Int) ≤ 300 by decide) (by decide) nameA zeroHeap zeroHeap
  have isSuccess := succeeds.mpr (empty.creatable nameA (by decide))
  obtain ⟨file, opened, length⟩ := opens isSuccess
  exact ⟨start, disk', file, formatted, isSuccess ▸ created, opened, length⟩

/-! ## Any size -/

namespace FileHeader

variable {m : BitMap} {size : Int}

/-- `Allocate` returns, and a header that it has filled can be written to disk and read back. -/
def Allocates (junk : FileHeader) (m : BitMap) (size : Int) : Prop :=
  ∃ success hdr m', junk.allocate m size = .ok (success, hdr, m') ∧
    (success = true → hdr.numSectors ≤ numDirect ∧
      ∀ disk sector, Disk.inRange sector = true → ∃ disk' hdr',
        hdr.writeBack disk sector = .ok disk' ∧ fetchFrom disk' sector = .ok hdr' ∧
          hdr'.fileLength = hdr.fileLength ∧ hdr'.blocks = hdr.blocks)

theorem writeBack_fetchFrom {hdr : FileHeader} (direct : hdr.numSectors ≤ numDirect) (disk : Disk)
    {sector : Int} (inside : Disk.inRange sector = true) : ∃ disk' hdr',
      hdr.writeBack disk sector = .ok disk' ∧ fetchFrom disk' sector = .ok hdr' ∧
        hdr'.fileLength = hdr.fileLength ∧ hdr'.blocks = hdr.blocks := by
  obtain ⟨disk', written, -, words⟩ := hdr.writeBack_ok disk inside
  refine ⟨disk', headerAt disk' sector, written, fetchFrom_ok inside, ?_, blocks_congr words direct⟩
  rw [fileLength, numBytes, words 0 (by omega), fileLength, numBytes]

theorem allocateSectors_past_end {count : Nat} (disk : m.numBits = Nachos.numSectors)
    (large : numDirect < count) (enough : count ≤ m.numClear) (start : FileHeader) :
    allocateSectors count start m = .error .outOfRange := by
  obtain ⟨hdr, m', done, -⟩ := allocateSectors_ok disk (le_refl numDirect) (by omega) start
  exact forUpToM_error done rfl large

theorem divRoundUpInt_of_neg (negative : size < 0) :
    divRoundUpInt size sectorSize ≤ 0 ∧ size ≤ divRoundUpInt size sectorSize := by
  obtain ⟨n, rfl⟩ : ∃ n : Nat, size = -n := ⟨size.natAbs, by omega⟩
  have remainder : ¬ (-(n : Int)).tmod sectorSize > 0 := by
    rw [Int.neg_tmod, ← Int.ofNat_tmod]
    omega
  rw [divRoundUpInt, if_neg remainder, Int.neg_tdiv, ← Int.ofNat_tdiv]
  simp only [sectorSize]
  omega

theorem numSectors_setWord (junk : FileHeader) {count : Int} (least : -2 ^ 31 ≤ count)
    (small : count < 2 ^ 31) : (junk.setWord 1 count).numSectors = count := by
  show (Function.update junk.words 1 (BitVec.ofInt 32 count) 1).toInt = count
  rw [Function.update_self, BitVec.toInt_ofInt]
  exact Int.bmod_eq_of_le (by omega) (by omega)

theorem ceilDiv_small (nonneg : 0 ≤ size) (int : size < 2 ^ 31) :
    -2 ^ 31 ≤ ceilDiv size sectorSize ∧ ceilDiv size sectorSize < 2 ^ 31 := by
  simp only [ceilDiv, sectorSize]
  omega

theorem numDirect_lt (large : maxFileSize < size) :
    numDirect < (ceilDiv size sectorSize).toNat := by
  simp only [ceilDiv, sectorSize, maxFileSize, numDirect, intSize] at *
  omega

/-- `Allocate` of more sectors than a header has room for. -/
theorem allocate_past_end (disk : m.numBits = Nachos.numSectors) (large : maxFileSize < size)
    (int : size < 2 ^ 31) (enough : (ceilDiv size sectorSize).toNat ≤ m.numClear)
    (junk : FileHeader) : junk.allocate m size = .error .outOfRange := by
  have nonneg : 0 ≤ size := by omega
  have count : ((junk.setWord 0 size).setWord 1 (ceilDiv size sectorSize)).numSectors =
      ceilDiv size sectorSize :=
    numSectors_setWord _ (ceilDiv_small nonneg int).1 (ceilDiv_small nonneg int).2
  have notFewer : ¬ (m.numClear : Int) < ceilDiv size sectorSize := by omega
  simp only [allocate, divRoundUpInt_eq nonneg, count, if_neg notFewer,
    allocateSectors_past_end disk (numDirect_lt large) enough, bind, Except.bind]

theorem allocate_refused (nonneg : 0 ≤ size) (int : size < 2 ^ 31)
    (short : (m.numClear : Int) < ceilDiv size sectorSize) (junk : FileHeader) :
    ∃ hdr, junk.allocate m size = .ok (false, hdr, m) := by
  have count : ((junk.setWord 0 size).setWord 1 (ceilDiv size sectorSize)).numSectors =
      ceilDiv size sectorSize :=
    numSectors_setWord _ (ceilDiv_small nonneg int).1 (ceilDiv_small nonneg int).2
  refine ⟨(junk.setWord 0 size).setWord 1 (ceilDiv size sectorSize), ?_⟩
  simp only [allocate, divRoundUpInt_eq nonneg, count, if_pos short, pure_eq]

theorem allocates_of_neg (negative : size < 0) (least : -2 ^ 31 ≤ size) (junk : FileHeader)
    (m : BitMap) : junk.Allocates m size := by
  obtain ⟨none, bound⟩ := divRoundUpInt_of_neg negative
  have count : ((junk.setWord 0 size).setWord 1 (divRoundUpInt size sectorSize)).numSectors =
      divRoundUpInt size sectorSize := numSectors_setWord _ (by omega) (by omega)
  have notFewer : ¬ (m.numClear : Int) < divRoundUpInt size sectorSize := by omega
  have noRounds : (divRoundUpInt size sectorSize).toNat = 0 := by omega
  refine ⟨true, (junk.setWord 0 size).setWord 1 (divRoundUpInt size sectorSize), m, ?_, fun _ => ?_⟩
  · simp only [allocate, count, if_neg notFewer, noRounds, allocateSectors, forUpToM, ok_bind, pure_eq]
  · have direct : ((junk.setWord 0 size).setWord 1 (divRoundUpInt size sectorSize)).numSectors ≤
        numDirect := by
      rw [count]
      omega
    exact ⟨direct, fun disk sector inside => writeBack_fetchFrom direct disk inside⟩

theorem allocates_iff (disk : m.numBits = Nachos.numSectors) (least : -2 ^ 31 ≤ size)
    (int : size < 2 ^ 31) (junk : FileHeader) :
    junk.Allocates m size ↔ size ≤ maxFileSize ∨ (m.numClear : Int) < ceilDiv size sectorSize := by
  by_cases negative : size < 0
  · exact iff_of_true (allocates_of_neg negative least junk m) (.inl (by omega))
  have nonneg : 0 ≤ size := by omega
  constructor
  · rintro ⟨success, hdr, m', done, -⟩
    by_contra against
    rw [not_or] at against
    rw [allocate_past_end disk (by omega) int (by omega)] at done
    cases done
  · rintro (most | short)
    · obtain ⟨success, hdr, m', done, -, allocated⟩ := allocate_ok disk nonneg most junk
      refine ⟨success, hdr, m', done, fun isSuccess => ?_⟩
      have direct := ((allocated isSuccess).covering most).direct
      exact ⟨direct, fun disk sector inside => writeBack_fetchFrom direct disk inside⟩
    · obtain ⟨hdr, done⟩ := allocate_refused nonneg int short junk
      exact ⟨false, hdr, m, done, fun impossible => by cases impossible⟩

end FileHeader

/-- `Create` of a file that is too large: the loop of `Allocate` leaves the header, unless the call
is refused for another reason. -/
theorem create_oversized {fs : FileSystem} (valid : fs.Valid) {size : Int}
    (large : maxFileSize < size) (int : size < 2 ^ 31) (name : Nat → Byte) (heap : Heap) :
    (Creatable fs.disk name size → fs.create name size heap = .error .outOfRange) ∧
      (¬ Creatable fs.disk name size → fs.create name size heap = .ok (false, fs.disk)) := by
  cases FileSystem.create_stages valid name heap with
  | inl early => exact ⟨fun needed => absurd needed (early size).2, fun _ => (early size).1⟩
  | inr stages =>
    obtain ⟨m, d, sector, m₁, i, d', prepared, stages⟩ := stages
    obtain ⟨goesOn, creatable⟩ := stages size
    have numBits := prepared.numBits.trans prepared.laid.numBits
    rw [goesOn, creatable]
    constructor
    · intro enough
      simp only [FileSystem.createFrom, FileHeader.allocate_past_end numBits large int enough, bind,
        Except.bind]
    · intro short
      obtain ⟨hdr, done⟩ := FileHeader.allocate_refused (show 0 ≤ size by omega) int
        (show (m₁.numClear : Int) < ceilDiv size sectorSize by omega) ⟨heap.words 1⟩
      simp only [FileSystem.createFrom, done, ok_bind, Bool.not_false, if_true, pure_eq]

/-- A size above `MaxFileSize` is refused exactly when the name is taken, the directory is full or
there are too few free sectors; and `Allocate` stays within the header exactly when the size is at
most `MaxFileSize` or there are too few free sectors. -/
theorem oversized_rejected_iff {fs : FileSystem} (valid : fs.Valid) (name : Nat → Byte)
    (heap : Heap) {m : BitMap} (disk : m.numBits = numSectors) (junk : FileHeader) {size : Int}
    (least : -2 ^ 31 ≤ size) (int : size < 2 ^ 31) :
    (maxFileSize < size →
      (fs.create name size heap = .ok (false, fs.disk) ↔ ¬ Creatable fs.disk name size)) ∧
    (junk.Allocates m size ↔
      size ≤ maxFileSize ∨ (m.numClear : Int) < ceilDiv size sectorSize) := by
  refine ⟨fun large => ?_, FileHeader.allocates_iff disk least int junk⟩
  obtain ⟨past, refused⟩ := create_oversized valid large int name heap
  refine ⟨fun done needed => ?_, refused⟩
  rw [past needed] at done
  cases done

/-- A file of one byte more than `MaxFileSize` is refused under the name of another file. -/
theorem oversized_rejected_formatted :
    ∃ start fs file, FileSystem.format (fun _ _ => 0#8) zeroHeap = .ok start ∧
      FileSystemStep start (.create nameA 300 zeroHeap) fs ∧
      fs.openFile nameA zeroHeap = .ok (some file) ∧
      fs.create nameA 3841 zeroHeap = .ok (false, fs.disk) := by
  obtain ⟨start, fs, file, formatted, created, valid, -, opens, -⟩ :=
    exists_created (fun _ _ => 0#8) zeroHeap nameA (show (0 : Int) ≤ 300 by decide) (by decide)
  have rejected := (oversized_rejected_iff valid nameA zeroHeap
    (BitMap.new_numBits numSectors fun _ => 0#32) ⟨fun _ => 0#32⟩
    (show -2 ^ 31 ≤ (3841 : Int) by decide) (by decide)).1 (by decide)
  obtain ⟨result, found, entry, -⟩ := FileSystem.openFile_ok valid nameA zeroHeap
  cases found.symm.trans opens
  obtain ⟨i, held, named, -⟩ := entry file rfl
  refine ⟨start, fs, file, formatted, created, opens, rejected.mpr fun needed => ?_⟩
  rw [needed.1 i held.1] at named
  cases named

/-- One byte more than `MaxFileSize` fits on a formatted disk, and is not refused. -/
theorem oversized_not_rejected :
    ∃ start, FileSystem.format (fun _ _ => 0#8) zeroHeap = .ok start ∧ start.Valid ∧
      1 + (ceilDiv 3841 sectorSize).toNat ≤ (storedMap start.disk).numClear ∧
      start.create nameA 3841 zeroHeap ≠ .ok (false, start.disk) ∧
      ¬ FileHeader.Allocates ⟨fun _ => 0#32⟩ (BitMap.new numSectors fun _ => 0#32) 3841 := by
  obtain ⟨start, formatted, valid, empty, -⟩ := format_ok (fun _ _ => 0#8) zeroHeap
  have creatable := empty.creatable nameA (show ceilDiv 3841 sectorSize ≤ 1018 by decide)
  obtain ⟨past, -⟩ := create_oversized valid (show (maxFileSize : Int) < 3841 by decide) (by decide)
    nameA zeroHeap
  refine ⟨start, formatted, valid, creatable.2.2, ?_, ?_⟩
  · rw [past creatable]
    exact nofun
  · rw [FileHeader.allocates_iff (BitMap.new_numBits _ _) (by decide) (by decide),
      BitMap.numClear_new]
    decide

end Nachos
