import Nachos.Verified.Inversion

/-!
# Where the segments of an executable end up

A NOFF header gives each segment its own place in the file and in memory.
`AllocateSwapFile` uses none of this for the data: it copies one block, as long as code and
data together, from the place of the code in the file to offset 0 of the swap file.  That
puts the segments where the header wants them exactly when they are such a block.
-/

namespace Nachos

open Loops

def Segment.Has (segment : Segment) (o : Nat) : Prop :=
  segment.virtualAddr.toInt ≤ o ∧ o < segment.virtualAddr.toInt + segment.size.toInt

/-- The segment has a place in the file and in a memory of `size` bytes.  Of an empty
segment the header says nothing. -/
structure Segment.Within (segment : Segment) (size : Nat) : Prop where
  count : 0 ≤ segment.size.toInt
  inFile : 0 < segment.size.toInt → 0 ≤ segment.inFileAddr.toInt
  inMemory : 0 < segment.size.toInt → 0 ≤ segment.virtualAddr.toInt ∧
    segment.virtualAddr.toInt + segment.size.toInt ≤ size

structure NoffHeader.Segmented (noffH : NoffHeader) (size : Nat) : Prop where
  code : noffH.code.Within size
  initData : noffH.initData.Within size
  disjoint : ∀ o, noffH.code.Has o → ¬ noffH.initData.Has o

/-- The bytes of each segment are at its address, and there are no others. -/
structure SegmentsPlaced (noffH : NoffHeader) (executable swap : File) : Prop where
  code : ∀ i : Nat, (i : Int) < noffH.code.size.toInt →
    swap.bytes (noffH.code.virtualAddr.toInt.toNat + i) =
      executable.bytes (noffH.code.inFileAddr.toInt.toNat + i)
  initData : ∀ i : Nat, (i : Int) < noffH.initData.size.toInt →
    swap.bytes (noffH.initData.virtualAddr.toInt.toNat + i) =
      executable.bytes (noffH.initData.inFileAddr.toInt.toNat + i)
  elsewhere : ∀ o, ¬ noffH.code.Has o → ¬ noffH.initData.Has o → swap.bytes o = 0#8

/-- The code is at address 0 and the data right after it, in memory as in the file. -/
structure NoffHeader.OneBlock (noffH : NoffHeader) : Prop where
  code : 0 < noffH.code.size.toInt → noffH.code.virtualAddr.toInt = 0
  initData : 0 < noffH.initData.size.toInt →
    noffH.initData.virtualAddr.toInt = noffH.code.size.toInt ∧
      noffH.initData.inFileAddr.toInt = noffH.code.inFileAddr.toInt + noffH.code.size.toInt

/-! ## The block that is copied -/

variable {noffH : NoffHeader} {size : Nat} {executable : File}

theorem NoffHeader.Segmented.sizes_le (segmented : noffH.Segmented size) :
    noffH.code.size.toInt + noffH.initData.size.toInt ≤ size := by
  obtain ⟨⟨codeCount, -, codeInside⟩, ⟨dataCount, -, dataInside⟩, disjoint⟩ := segmented
  by_cases noCode : noffH.code.size.toInt = 0
  · by_cases noData : noffH.initData.size.toInt = 0
    · omega
    · have := dataInside (by omega)
      omega
  · have code := codeInside (by omega)
    by_cases noData : noffH.initData.size.toInt = 0
    · omega
    · have data := dataInside (by omega)
      -- the segment that starts later starts outside the other one
      have codeFirst := disjoint noffH.initData.virtualAddr.toInt.toNat
      have dataFirst := disjoint noffH.code.virtualAddr.toInt.toNat
      simp only [Segment.Has] at codeFirst dataFirst
      omega

theorem NoffHeader.toInt_codeDataSize (code : 0 ≤ noffH.code.size.toInt)
    (data : 0 ≤ noffH.initData.size.toInt)
    (total : noffH.code.size.toInt + noffH.initData.size.toInt < 2 ^ 31) :
    noffH.codeDataSize.toInt = noffH.code.size.toInt + noffH.initData.size.toInt := by
  simp only [NoffHeader.codeDataSize, BitVec.toInt_add]
  apply Int.bmod_eq_of_le <;> omega

theorem NoffHeader.Segmented.codeDataSize_eq {size : BitVec 32}
    (segmented : noffH.Segmented size.toNat) (sized : 0 ≤ size.toInt) :
    noffH.codeDataSize.toInt = noffH.code.size.toInt + noffH.initData.size.toInt := by
  have fits := segmented.sizes_le
  have bound := BitVec.toInt_lt (x := size)
  have same := toInt_of_nonneg sized
  exact toInt_codeDataSize segmented.code.count segmented.initData.count (by omega)

/-- With room for code and data, `AllocateSwapFile` completes. -/
theorem allocateSwapFile_completes {pid : Nat} {openFile : FileName}
    {codeDataSize codeDataFileAddr swapFileSize : BitVec 32} {files : Files}
    (opened : files.create (.swap pid) openFile = some executable)
    (seeks : 0 ≤ codeDataFileAddr.toInt) (sized : 0 ≤ swapFileSize.toInt)
    (fits : codeDataSize.toInt ≤ swapFileSize.toNat) :
    ∃ swap, allocateSwapFile pid openFile codeDataSize codeDataFileAddr swapFileSize files =
        .ok (files.set (.swap pid) swap) ∧
      ∀ o, swap.bytes o = swapImage executable codeDataSize codeDataFileAddr o := by
  have read : ∃ buffer rcount, executable.readAt (fun _ => 0#8) codeDataSize.toInt
      codeDataFileAddr.toInt = .ok (buffer, rcount) ∧ rcount ≤ swapFileSize.toNat := by
    by_cases negative : codeDataSize.toInt < 0
    · exact ⟨_, _, File.readAt_eq_ok.mpr ⟨seeks, Or.inl ⟨negative, rfl, rfl⟩⟩, by omega⟩
    · exact ⟨_, _, File.readAt_eq_ok.mpr ⟨seeks, Or.inr ⟨by omega, rfl, rfl⟩⟩, by omega⟩
  obtain ⟨buffer, rcount, read, inside⟩ := read
  have written : File.empty.writeAt buffer swapFileSize.toInt 0 = .ok _ :=
    File.writeAt_eq_ok.mpr ⟨le_refl 0, sized, rfl⟩
  have completes : ∃ files', allocateSwapFile pid openFile codeDataSize codeDataFileAddr
      swapFileSize files = .ok files' := by
    simp only [allocateSwapFile, opened, read, written, ok_bind,
      if_neg (not_lt.mpr inside)]
    exact ⟨_, rfl⟩
  obtain ⟨files', run⟩ := completes
  obtain ⟨executable', swap, opened', -, -, -, image, rfl⟩ := allocateSwapFile_inv run
  cases opened.symm.trans opened'
  exact ⟨swap, run, image⟩

/-- What the swap file of an executable with header `noffH` has at offset `o`. -/
theorem swapImage_block {o : Nat}
    (total : noffH.codeDataSize.toInt = noffH.code.size.toInt + noffH.initData.size.toInt) :
    swapImage executable noffH.codeDataSize noffH.code.inFileAddr o =
      if (o : Int) < noffH.code.size.toInt + noffH.initData.size.toInt then
        executable.bytes (noffH.code.inFileAddr.toInt.toNat + o) else 0#8 := by
  simp only [swapImage, total]

/-! ## A block is placed right -/

theorem NoffHeader.OneBlock.placed {executable swap : File} (block : noffH.OneBlock)
    (segmented : noffH.Segmented size) (seeks : 0 ≤ noffH.code.inFileAddr.toInt)
    (total : noffH.codeDataSize.toInt = noffH.code.size.toInt + noffH.initData.size.toInt)
    (image : ∀ o, swap.bytes o = swapImage executable noffH.codeDataSize noffH.code.inFileAddr o) :
    SegmentsPlaced noffH executable swap := by
  have codeCount := segmented.code.count
  have dataCount := segmented.initData.count
  refine ⟨?_, ?_, ?_⟩
  · intro i inside
    have atZero := block.code (by omega)
    rw [image, swapImage_block total, if_pos (by omega), atZero]
    simp
  · intro i inside
    obtain ⟨address, inFile⟩ := block.initData (by omega)
    rw [image, swapImage_block total, if_pos (by omega)]
    congr 1
    omega
  · intro o outsideCode outsideData
    simp only [Segment.Has] at outsideCode outsideData
    rw [image, swapImage_block total]
    -- an offset below the end of the block would be in one of the segments
    apply if_neg
    intro inside
    by_cases inCode : (o : Int) < noffH.code.size.toInt
    · have := block.code (by omega)
      omega
    · have := block.initData (by omega)
      omega

/-! ## Nothing else is -/

def File.single (position : Nat) : File where
  length := position + 1
  bytes i := if i = position then 1#8 else 0#8
  zeroPastEnd i past := if_neg (by omega)

/-- If the one byte of a file is found at offset `o`, it was copied there. -/
theorem swapImage_single {position o : Nat}
    (total : noffH.codeDataSize.toInt = noffH.code.size.toInt + noffH.initData.size.toInt) (found :
      swapImage (File.single position) noffH.codeDataSize noffH.code.inFileAddr o = (File.single
      position).bytes position) :
    (o : Int) < noffH.code.size.toInt + noffH.initData.size.toInt ∧
      noffH.code.inFileAddr.toInt.toNat + o = position := by
  rw [swapImage_block total] at found
  simp only [File.single, if_true] at found
  split at found
  next inside =>
    split at found
    next same => exact ⟨inside, same⟩
    next => cases found
  next => cases found

theorem oneBlock_of_placed (segmented : noffH.Segmented size)
    (seeks : 0 ≤ noffH.code.inFileAddr.toInt)
    (total : noffH.codeDataSize.toInt = noffH.code.size.toInt + noffH.initData.size.toInt) (placed :
      ∀ position, ∃ swap : File, (∀ o, swap.bytes o = swapImage (File.single position)
      noffH.codeDataSize noffH.code.inFileAddr o) ∧ SegmentsPlaced noffH (File.single position)
      swap) : noffH.OneBlock := by
  have codeAtZero : 0 < noffH.code.size.toInt → noffH.code.virtualAddr.toInt = 0 := by
    intro some
    obtain ⟨swap, image, placed⟩ := placed noffH.code.inFileAddr.toInt.toNat
    have found := (image _).symm.trans (placed.code 0 (by omega))
    obtain ⟨-, position⟩ := swapImage_single total found
    have := segmented.code.inMemory some
    omega
  refine ⟨codeAtZero, ?_⟩
  intro some
  have inMemory := segmented.initData.inMemory some
  have inFile := segmented.initData.inFile some
  -- the first byte of the data says where it is in the file, the last one where in memory
  obtain ⟨swap, image, first⟩ := placed noffH.initData.inFileAddr.toInt.toNat
  obtain ⟨-, position⟩ :=
    swapImage_single total ((image _).symm.trans (first.initData 0 (by omega)))
  obtain ⟨swap', image', last⟩ := placed
    (noffH.initData.inFileAddr.toInt.toNat + (noffH.initData.size.toInt.toNat - 1))
  obtain ⟨below, -⟩ :=
    swapImage_single total ((image' _).symm.trans (last.initData _ (by omega)))
  have afterCode : noffH.code.size.toInt ≤ noffH.initData.virtualAddr.toInt := by
    by_contra before
    refine segmented.disjoint noffH.initData.virtualAddr.toInt.toNat ?_ ?_ <;>
      simp only [Segment.Has] <;> omega
  omega

/-- Whatever the bytes of the executable, `AllocateSwapFile` completes with the segments at
their addresses in the swap file and zeroes elsewhere: this holds exactly of the headers
whose code and data are one block that starts at address 0. -/
theorem segments_placed_iff {noffH : NoffHeader} {swapFileSize : BitVec 32}
    (segmented : noffH.Segmented swapFileSize.toNat) (seeks : 0 ≤ noffH.code.inFileAddr.toInt)
    (sized : 0 ≤ swapFileSize.toInt) :
    (∀ pid openFile files executable, files.create (.swap pid) openFile = some executable →
      ∃ swap, allocateSwapFile pid openFile noffH.codeDataSize noffH.code.inFileAddr swapFileSize
          files = .ok (files.set (.swap pid) swap) ∧
        SegmentsPlaced noffH executable swap) ↔ noffH.OneBlock := by
  have total := segmented.codeDataSize_eq sized
  have fits : noffH.codeDataSize.toInt ≤ swapFileSize.toNat := total ▸ segmented.sizes_le
  constructor
  · intro places
    apply oneBlock_of_placed segmented seeks total
    intro position
    have opened : (Files.only (.path "") (File.single position)).create (.swap 0) (.path "") =
        some (File.single position) := rfl
    obtain ⟨swap, run, placed⟩ := places 0 (.path "") _ _ opened
    obtain ⟨swap', run', image⟩ := allocateSwapFile_completes opened seeks sized fits
    -- both are the file that the run leaves
    have same := congrFun (Except.ok.inj (run.symm.trans run')) (.swap 0)
    simp only [Files.set_same, Option.some.injEq] at same
    exact ⟨swap, same ▸ image, placed⟩
  · intro block pid openFile files executable opened
    obtain ⟨swap, run, image⟩ := allocateSwapFile_completes opened seeks sized fits
    exact ⟨swap, run, block.placed segmented seeks total image⟩

/-- Four bytes of code with four bytes of data after them. -/
theorem segments_placed_linked :
    (linkedHeader 4 4 0).Segmented (1152#32).toNat ∧
    ∀ pid openFile files executable, files.create (.swap pid) openFile = some executable →
      ∃ swap, allocateSwapFile pid openFile (linkedHeader 4 4 0).codeDataSize
          (linkedHeader 4 4 0).code.inFileAddr 1152#32 files =
          .ok (files.set (.swap pid) swap) ∧
        SegmentsPlaced (linkedHeader 4 4 0) executable swap := by
  have segmented : (linkedHeader 4 4 0).Segmented (1152#32).toNat := by
    refine ⟨⟨by decide, by decide, by decide⟩, ⟨by decide, by decide, by decide⟩, ?_⟩
    intro o inCode inData
    have codeEnd : (o : Int) < 0 + 4 := inCode.2
    have dataStart : (4 : Int) ≤ o := inData.1
    omega
  have block : (linkedHeader 4 4 0).OneBlock := ⟨by decide, by decide⟩
  exact ⟨segmented, (segments_placed_iff segmented (by decide) (by decide)).mpr block⟩

def gapHeader : NoffHeader :=
  { linkedHeader 4 4 0 with initData := ⟨8#32, 44#32, 4#32⟩ }

/-- The loader puts data that is linked to address 8 right after the code. -/
theorem data_after_gap_misplaced :
    gapHeader.Segmented (1152#32).toNat ∧
    ∃ space files swap, construct false 0 (.path "prog")
        (Files.only (.path "prog") (noffFile gapHeader [1#8, 2#8, 3#8, 4#8, 5#8, 6#8, 7#8, 8#8])) =
        .ok (space, files) ∧ space.swapFileSize = 1152#32 ∧ files (.swap 0) = some swap ∧
      swap.bytes 8 = 0#8 ∧
      ¬ SegmentsPlaced gapHeader (noffFile gapHeader [1#8, 2#8, 3#8, 4#8, 5#8, 6#8, 7#8, 8#8])
        swap := by
  have segmented : gapHeader.Segmented (1152#32).toNat := by
    refine ⟨⟨by decide, by decide, by decide⟩, ⟨by decide, by decide, by decide⟩, ?_⟩
    intro o inCode inData
    have codeEnd : (o : Int) < 0 + 4 := inCode.2
    have dataStart : (8 : Int) ≤ o := inData.1
    omega
  have loaded : ∃ space files, construct false 0 (.path "prog") (Files.only (.path "prog")
      (noffFile gapHeader [1#8, 2#8, 3#8, 4#8, 5#8, 6#8, 7#8, 8#8])) = .ok (space, files) ∧
      space.swapFileSize = 1152#32 ∧ ∃ swap, files (.swap 0) = some swap ∧ swap.bytes 8 = 0#8 := by
    decide +kernel
  obtain ⟨space, files, result, size, swap, stored, isZero⟩ := loaded
  refine ⟨segmented, space, files, swap, result, size, stored, isZero, ?_⟩
  intro placed
  -- the first byte of the data is 5
  have first : swap.bytes 8 = 5#8 := placed.initData 0 (by decide)
  rw [isZero] at first
  cases first

end Nachos
