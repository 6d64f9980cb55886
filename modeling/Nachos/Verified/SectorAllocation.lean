import Nachos.Verified.DiskFiles

/-!
# Allocating and freeing the sectors of a file

`Allocate` tests the number of free sectors before it takes any, so that every `Find` in its
loop succeeds; the sectors it takes are distinct and were free.  `Deallocate` gives back
exactly the sectors of the header, and its assertion holds when they are marked.
-/

namespace Nachos

open Loops

theorem divRoundUpInt_eq {n : Int} (nonneg : 0 ≤ n) :
    divRoundUpInt n sectorSize = ceilDiv n sectorSize := by
  obtain ⟨m, rfl⟩ := Int.eq_ofNat_of_zero_le nonneg
  unfold divRoundUpInt ceilDiv
  rw [← Int.ofNat_tdiv, ← Int.ofNat_tmod]
  by_cases remainder : ((m % sectorSize : Nat) : Int) > 0
  · rw [if_pos remainder]
    simp only [sectorSize] at *
    omega
  · rw [if_neg remainder]
    simp only [sectorSize] at *
    omega

theorem ceilDiv_nonneg {n : Int} (nonneg : 0 ≤ n) : 0 ≤ ceilDiv n sectorSize := by
  simp only [ceilDiv, sectorSize]
  omega

theorem ceilDiv_le_numDirect {n : Int} (most : n ≤ maxFileSize) :
    ceilDiv n sectorSize ≤ numDirect := by
  simp only [ceilDiv, maxFileSize, numDirect, intSize, sectorSize] at *
  omega

theorem le_ceilDiv_mul (n : Int) : n ≤ ceilDiv n sectorSize * sectorSize := by
  simp only [ceilDiv, sectorSize]
  omega

namespace FileHeader

variable {hdr : FileHeader} {m : BitMap}

/-! ## The words of a header -/

theorem setWord_same {value : Int} (k : Nat) (nonneg : 0 ≤ value) (small : value < 2 ^ 31) :
    ((hdr.setWord k value).words k).toInt = value := by
  show (Function.update hdr.words k (BitVec.ofInt 32 value) k).toInt = value
  rw [Function.update_self]
  exact toInt_ofInt nonneg small

theorem setWord_other {k j : Nat} (value : Int) (different : j ≠ k) :
    (hdr.setWord k value).words j = hdr.words j :=
  Function.update_of_ne different _ _

theorem setDataSector_ok {i : Nat} (bound : i < numDirect) (sector : Int) :
    hdr.setDataSector i sector = .ok (hdr.setWord (2 + i) sector) := by
  rw [setDataSector, if_pos bound]

/-! ## Allocate -/

/-- After the loop has taken `count` sectors from `m`: they are in the header, they are
distinct and were free, and the bitmap has them and nothing else in addition. -/
structure Taken (m : BitMap) (start : FileHeader) (count : Nat) (hdr : FileHeader) (m' : BitMap) :
    Prop where
  counts : ∀ k < 2, hdr.words k = start.words k
  distinct : ((List.range count).map hdr.dataSector).Nodup
  free : ∀ i < count, Disk.inRange (hdr.dataSector i) = true ∧ ¬ m.Marked (hdr.dataSector i)
  numBits : m'.numBits = m.numBits
  marked : ∀ b, m'.Marked b ↔ m.Marked b ∨ b ∈ (List.range count).map hdr.dataSector
  numClear : m'.numClear + count = m.numClear

theorem Taken.next {start : FileHeader} {count : Nat} {m' m'' : BitMap} {sector : Int}
    (taken : Taken m start count hdr m') (disk : m.numBits = Nachos.numSectors)
    (numBits : m''.numBits = m'.numBits) (numClear : m''.numClear + 1 = m'.numClear)
    (inRange : m'.inRange sector = true) (unmarked : ¬ m'.Marked sector)
    (marked : ∀ b, m''.Marked b ↔ m'.Marked b ∨ b = sector) :
    Taken m start (count + 1) (hdr.setWord (2 + count) sector) m'' := by
  rw [BitMap.inRange_iff, taken.numBits, disk] at inRange
  have here : (hdr.setWord (2 + count) sector).dataSector count = sector := by
    apply setWord_same _ inRange.1
    have size : Nachos.numSectors = 1024 := rfl
    omega
  have earlier : ∀ i < count, (hdr.setWord (2 + count) sector).dataSector i = hdr.dataSector i := by
    intro i before
    rw [dataSector, setWord_other _ (by omega), dataSector]
  have sectors : (List.range (count + 1)).map (hdr.setWord (2 + count) sector).dataSector =
      (List.range count).map hdr.dataSector ++ [sector] := by
    rw [List.range_succ, List.map_append, List.map_singleton, here]
    congr 1
    exact List.map_congr_left fun i member => earlier i (List.mem_range.mp member)
  -- the new sector was not marked, so it is new to the header and was free from the start
  have fresh : sector ∉ (List.range count).map hdr.dataSector ∧ ¬ m.Marked sector := by
    constructor
    · exact fun member => unmarked ((taken.marked sector).mpr (.inr member))
    · exact fun before => unmarked ((taken.marked sector).mpr (.inl before))
  exact {
    counts := fun k small => by rw [setWord_other _ (by omega), taken.counts k small]
    distinct := by
      rw [sectors]
      exact taken.distinct.append (List.nodup_singleton _) (by simpa using fresh.1)
    free := by
      intro i bound
      by_cases last : i = count
      · rw [last, here]
        exact ⟨Disk.inRange_iff.mpr inRange, fresh.2⟩
      · rw [earlier i (by omega)]
        exact taken.free i (by omega)
    numBits := numBits.trans taken.numBits
    marked := by
      intro b
      rw [marked, taken.marked, sectors, List.mem_append, List.mem_singleton, or_assoc]
    numClear := by
      have before := taken.numClear
      omega }

theorem allocateSectors_ok {count : Nat} (disk : m.numBits = Nachos.numSectors)
    (direct : count ≤ numDirect) (enough : count ≤ m.numClear) (start : FileHeader) :
    ∃ hdr m', allocateSectors count start m = .ok (hdr, m') ∧ Taken m start count hdr m' := by
  have loop : ∃ result : FileHeader × BitMap, allocateSectors count start m = .ok result ∧
      Taken m start count result.1 result.2 := by
    apply forUpToM_total fun i (state : FileHeader × BitMap) =>
      Taken m start i state.1 state.2
    · exact {
        counts := fun _ _ => rfl
        distinct := List.nodup_nil
        free := fun i impossible => by omega
        numBits := rfl
        marked := by simp
        numClear := rfl }
    · intro i bound ⟨hdr, m'⟩ taken
      have before : m'.numClear + i = m.numClear := taken.numClear
      obtain ⟨sector, m'', found, numBits, numClear, inRange, unmarked, marked⟩ :=
        BitMap.find_marked (show 0 < m'.numClear by omega)
      refine ⟨(hdr.setWord (2 + i) sector, m''), ?_,
        taken.next disk numBits numClear inRange unmarked marked⟩
      simp only [found, setDataSector_ok (show i < numDirect by omega), ok_bind, pure_eq]
  obtain ⟨⟨hdr, m'⟩, done, taken⟩ := loop
  exact ⟨hdr, m', done, taken⟩

structure Allocated (m : BitMap) (fileSize : Int) (hdr : FileHeader) (m' : BitMap) : Prop where
  fileLength : hdr.fileLength = fileSize
  sized : hdr.numSectors = ceilDiv fileSize sectorSize
  distinct : hdr.blocks.Nodup
  free : ∀ b ∈ hdr.blocks, Disk.inRange b = true ∧ ¬ m.Marked b
  numBits : m'.numBits = m.numBits
  marked : ∀ b, m'.Marked b ↔ m.Marked b ∨ b ∈ hdr.blocks
  numClear : m'.numClear + (ceilDiv fileSize sectorSize).toNat = m.numClear

theorem Allocated.covering {fileSize : Int} {m' : BitMap} (allocated : Allocated m fileSize hdr m')
    (most : fileSize ≤ maxFileSize) : hdr.Covering where
  direct := by
    rw [allocated.sized]
    exact ceilDiv_le_numDirect most
  covers := by
    rw [allocated.fileLength, allocated.sized]
    exact le_ceilDiv_mul fileSize
  inRange b member := (allocated.free b member).1
  distinct := allocated.distinct

/-- `Allocate` succeeds exactly when there are enough free sectors, and does not touch the
bitmap otherwise. -/
theorem allocate_ok (disk : m.numBits = Nachos.numSectors) {fileSize : Int}
    (nonneg : 0 ≤ fileSize) (most : fileSize ≤ maxFileSize) (junk : FileHeader) :
    ∃ success hdr m', junk.allocate m fileSize = .ok (success, hdr, m') ∧
      (success = true ↔ (ceilDiv fileSize sectorSize).toNat ≤ m.numClear) ∧
      (success = true → Allocated m fileSize hdr m') := by
  have sectorsNonneg := ceilDiv_nonneg nonneg
  have direct := ceilDiv_le_numDirect most
  have sizeSmall : fileSize < 2 ^ 31 := by
    have size : maxFileSize = 3840 := rfl
    omega
  have countSmall : ceilDiv fileSize sectorSize < 2 ^ 31 := by
    have size : numDirect = 30 := rfl
    omega
  have numSectors : ((junk.setWord 0 fileSize).setWord 1 (ceilDiv fileSize sectorSize)).numSectors =
      ceilDiv fileSize sectorSize := setWord_same 1 sectorsNonneg countSmall
  have numBytes : ((junk.setWord 0 fileSize).setWord 1 (ceilDiv fileSize sectorSize)).numBytes =
      fileSize := by
    rw [numBytes, setWord_other _ (by omega)]
    exact setWord_same 0 nonneg sizeSmall
  by_cases enough : (ceilDiv fileSize sectorSize).toNat ≤ m.numClear
  · obtain ⟨hdr, m', done, taken⟩ := allocateSectors_ok disk (by omega) enough
      ((junk.setWord 0 fileSize).setWord 1 (ceilDiv fileSize sectorSize))
    have sized : hdr.numSectors = ceilDiv fileSize sectorSize := by
      rw [FileHeader.numSectors, taken.counts 1 (by omega)]
      exact numSectors
    refine ⟨true, hdr, m', ?_, by simp [enough], fun _ => ?_⟩
    · have notFewer : ¬ (m.numClear : Int) < ceilDiv fileSize sectorSize := by omega
      simp only [allocate, divRoundUpInt_eq nonneg, numSectors, if_neg notFewer, done, ok_bind, pure_eq]
    · exact {
        fileLength := by
          rw [fileLength, FileHeader.numBytes, taken.counts 0 (by omega)]
          exact numBytes
        sized := sized
        distinct := by
          rw [blocks, sized]
          exact taken.distinct
        free := by
          intro b member
          obtain ⟨i, bound, rfl⟩ := mem_blocks.mp member
          exact taken.free i (by omega)
        numBits := taken.numBits
        marked := by
          rw [blocks, sized]
          exact taken.marked
        numClear := taken.numClear }
  · refine ⟨false, (junk.setWord 0 fileSize).setWord 1 (ceilDiv fileSize sectorSize), m, ?_,
      by simp [enough], fun impossible => by cases impossible⟩
    have fewer : (m.numClear : Int) < ceilDiv fileSize sectorSize := by omega
    simp only [allocate, divRoundUpInt_eq nonneg, numSectors, if_pos fewer, pure_eq]

/-! ## Deallocate -/

/-- The assertion of `Deallocate` holds when the sectors of the header are distinct and
marked. -/
theorem deallocate_ok (direct : hdr.numSectors ≤ numDirect) (distinct : hdr.blocks.Nodup)
    (held : ∀ b ∈ hdr.blocks, m.Marked b) :
    ∃ m', hdr.deallocate m = .ok m' ∧ m'.numBits = m.numBits ∧
      ∀ b, m'.Marked b ↔ m.Marked b ∧ b ∉ hdr.blocks := by
  -- after `i` rounds the first `i` sectors are no longer marked
  apply forUpToM_total fun i (m' : BitMap) => m'.numBits = m.numBits ∧
    ∀ b, m'.Marked b ↔ m.Marked b ∧ b ∉ (List.range i).map hdr.dataSector
  · exact ⟨rfl, by simp⟩
  · intro i bound m' ⟨numBits, marked⟩
    have notYet : hdr.dataSector i ∉ (List.range i).map hdr.dataSector := by
      intro member
      obtain ⟨j, before, same⟩ := List.mem_map.mp member
      have small := List.mem_range.mp before
      have equal := List.inj_on_of_nodup_map distinct (List.mem_range.mpr (by omega))
        (List.mem_range.mpr bound) same
      omega
    have here : m'.Marked (hdr.dataSector i) :=
      (marked _).mpr ⟨held _ (dataSector_mem bound), notYet⟩
    have tested := BitMap.test_eq_ok.mpr ⟨here.1, here.2.symm⟩
    have cleared := BitMap.clear_eq_ok.mpr ⟨here.1, rfl⟩
    refine ⟨m'.clearBit (hdr.dataSector i).toNat, ?_, numBits, ?_⟩
    · simp only [dataSectors_ok (show i < numDirect by omega), tested, assert, if_true, cleared,
        ok_bind]
    · intro b
      rw [BitMap.marked_clearBit here.1, marked, List.range_succ, List.map_append,
        List.map_singleton, List.mem_append, List.mem_singleton, not_or, and_assoc]

end FileHeader

end Nachos
