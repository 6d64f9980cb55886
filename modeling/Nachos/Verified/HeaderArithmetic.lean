import Nachos.Verified.ExecLoad

/-!
# The sizes of an executable

The constructor of an address space adds the sizes of the header in 32 bits, rounds the sum up to
pages, and allocates a buffer of that size for `CodeDataSize` bytes of the file.  It tests nothing
but the magic number.  A sum that does not fit in 32 bits, or that fits only before it is rounded
up, gives a buffer that is smaller than what is read into it.
-/

namespace Nachos

namespace NoffHeader

def unboundedSize (noffH : NoffHeader) : Nat :=
  noffH.code.size.toNat + noffH.initData.size.toNat + noffH.uninitData.size.toNat + userStackSize

theorem toNat_spaceSize_mod (noffH : NoffHeader) :
    noffH.spaceSize.toNat = noffH.unboundedSize % 2 ^ 32 := by
  simp only [spaceSize, unboundedSize, BitVec.toNat_add, BitVec.toNat_ofNat, userStackSize]
  omega

theorem toNat_codeDataSize_mod (noffH : NoffHeader) :
    noffH.codeDataSize.toNat = (noffH.code.size.toNat + noffH.initData.size.toNat) % 2 ^ 32 := by
  rw [codeDataSize, BitVec.toNat_add]

end NoffHeader

/-- The address space has room for the segments and the stack, its swap file for code and data, and
the read of `AllocateSwapFile` stays within its buffer. -/
structure SoundSizes (noffH : NoffHeader) (space : AddrSpace) (executable : File) : Prop where
  room : noffH.unboundedSize ≤ space.numPages * pageSize
  fits : space.codeDataSize.toNat ≤ space.swapFileSize.toNat
  reads : ∀ buffer count, executable.readAt (fun _ => 0#8) space.codeDataSize.toInt
    space.codeDataFileAddr.toInt = .ok (buffer, count) → count ≤ space.swapFileSize.toNat

section Fresh

variable (filename : FileName) (noffH : NoffHeader)

theorem numPages_room :
    noffH.unboundedSize ≤ (freshSpace filename noffH).numPages * pageSize ↔
      noffH.unboundedSize < 2 ^ 32 := by
  have size := noffH.toNat_spaceSize_mod
  simp only [freshSpace, divRoundUp, pageSize]
  split <;> omega

/-- The swap file is as large as the pages, unless they take all of the 32-bit addresses. -/
theorem toNat_swapFileSize (small : noffH.unboundedSize < 2 ^ 32) :
    (freshSpace filename noffH).swapFileSize.toNat =
      if noffH.unboundedSize ≤ 2 ^ 32 - pageSize then
        (freshSpace filename noffH).numPages * pageSize
      else 0 := by
  have size := noffH.toNat_spaceSize_mod
  simp only [freshSpace, divRoundUp, pageSize, BitVec.toNat_ofNat]
  split <;> split <;> omega

end Fresh

theorem File.count_le {file : File} {into buffer : Nat → Byte} {numBytes : BitVec 32}
    {position count : Int} (read : file.readAt into numBytes.toInt position = .ok (buffer, count)) :
    count ≤ numBytes.toNat := by
  obtain ⟨-, ⟨-, -, isCount⟩ | ⟨nonneg, isCount, -⟩⟩ := File.readAt_eq_ok.mp read
  · omega
  · have same := toInt_of_nonneg nonneg
    omega

/-- The sizes of an executable are sound if and only if their sum can be rounded up to pages within
32 bits, or it fits in 32 bits and there is neither code nor data. -/
theorem header_sizes_sound_iff {bigEndian : Bool} {filename : FileName} {files : Files}
    {executable : File} {noffH : NoffHeader} (opened : files filename = some executable)
    (header : readHeader bigEndian executable = .ok noffH) :
    (∀ pid space files', construct bigEndian pid filename files = .ok (space, files') →
      space = freshSpace filename noffH) ∧
    (SoundSizes noffH (freshSpace filename noffH) executable ↔
      noffH.unboundedSize ≤ 2 ^ 32 - pageSize ∨
        (noffH.unboundedSize < 2 ^ 32 ∧
          noffH.code.size.toNat + noffH.initData.size.toNat = 0)) := by
  have codeData := noffH.toNat_codeDataSize_mod
  have isCodeData : (freshSpace filename noffH).codeDataSize = noffH.codeDataSize := rfl
  have sum : noffH.code.size.toNat + noffH.initData.size.toNat + userStackSize ≤
      noffH.unboundedSize := by
    unfold NoffHeader.unboundedSize
    omega
  refine ⟨?_, ?_, ?_⟩
  · intro pid space files' constructed
    obtain ⟨executable', noffH', opened', header', isSpace, -⟩ := construct_eq_ok.mp constructed
    cases opened.symm.trans opened'
    obtain rfl : noffH = noffH' := Except.ok.inj (header.symm.trans header')
    exact isSpace
  · rintro ⟨room, fits, -⟩
    have small := (numPages_room filename noffH).mp room
    rw [toNat_swapFileSize filename noffH small, isCodeData, codeData] at fits
    split at fits
    next rounded => exact .inl rounded
    next =>
      right
      exact ⟨small, by omega⟩
  · intro condition
    have small : noffH.unboundedSize < 2 ^ 32 := by
      rcases condition with rounded | ⟨small, -⟩
      · simp only [pageSize] at rounded
        omega
      · exact small
    have room := (numPages_room filename noffH).mpr small
    have fits : (freshSpace filename noffH).codeDataSize.toNat ≤
        (freshSpace filename noffH).swapFileSize.toNat := by
      rw [toNat_swapFileSize filename noffH small, isCodeData, codeData]
      split
      next => omega
      next notRounded =>
        omega
    refine ⟨room, fits, fun buffer count read => ?_⟩
    exact (File.count_le read).trans (Int.ofNat_le.mpr fits)

/-- Four bytes of code. -/
theorem header_sizes_sound_linked :
    readHeader false fourBytes = .ok (linkedHeader 4 0 0) ∧
      SoundSizes (linkedHeader 4 0 0) (freshSpace (.path "prog") (linkedHeader 4 0 0)) fourBytes := by
  have header : readHeader false fourBytes = .ok (linkedHeader 4 0 0) := rfl
  have opened : Files.only (.path "prog") fourBytes (.path "prog") = some _ := rfl
  exact ⟨header, (header_sizes_sound_iff opened header).2.mpr (.inl (by decide))⟩

def hugeHeader : NoffHeader where
  noffMagic := noffMagicNumber
  code := ⟨0#32, BitVec.ofNat 32 noffHeaderSize, 0x7fffffff#32⟩
  initData := ⟨0#32, 0#32, 0#32⟩
  uninitData := ⟨0x7fffffff#32, 0#32, 0x7ffffc01#32⟩

/-- The sum wraps around to zero, and the four bytes of the file go to a buffer without bytes. -/
theorem huge_header_overruns :
    readHeader false (noffFile hugeHeader [1#8, 2#8, 3#8, 4#8]) = .ok hugeHeader ∧
      hugeHeader.unboundedSize = 2 ^ 32 ∧
      (freshSpace (.path "prog") hugeHeader).numPages = 0 ∧
      (freshSpace (.path "prog") hugeHeader).swapFileSize = 0#32 ∧
      (freshSpace (.path "prog") hugeHeader).codeDataSize = 0x7fffffff#32 ∧
      (∃ buffer, (noffFile hugeHeader [1#8, 2#8, 3#8, 4#8]).readAt (fun _ => 0#8)
        hugeHeader.codeDataSize.toInt hugeHeader.code.inFileAddr.toInt = .ok (buffer, 4)) ∧
      construct false 0 (.path "prog")
        (Files.only (.path "prog") (noffFile hugeHeader [1#8, 2#8, 3#8, 4#8])) =
        .error .outOfRange ∧
      ¬ SoundSizes hugeHeader (freshSpace (.path "prog") hugeHeader)
        (noffFile hugeHeader [1#8, 2#8, 3#8, 4#8]) :=
  ⟨rfl, by decide, by decide, by decide, by decide, ⟨_, rfl⟩, rfl, fun sound =>
    absurd sound.room (by decide)⟩

end Nachos
