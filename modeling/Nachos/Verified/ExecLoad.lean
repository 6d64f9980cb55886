import Nachos.Verified.PageCells

/-!
# Exec and a fresh load

`ReplaceMemory` repeats the loader for a process that exists.  It computes the new number
of pages, but then uses the old one for the page table and for the swap file, and it leaves
out the bits `zeroFilled`.  So it builds the address space of a fresh load only when the
two programs have the same number of pages, and memory from `new` happens to have those
bits clear.
-/

namespace Nachos

open Loops Runs

def NoffHeader.totalSize (noffH : NoffHeader) : Int :=
  noffH.code.size.toInt + noffH.initData.size.toInt + noffH.uninitData.size.toInt + userStackSize

structure LoadedAlike (noffH : NoffHeader) (space fresh : AddrSpace) (swap freshSwap : Option File) :
    Prop where
  numPages : space.numPages = fresh.numPages
  swapFileSize : space.swapFileSize = fresh.swapFileSize
  codeDataSize : space.codeDataSize = fresh.codeDataSize
  pageTable : ∀ i < fresh.numPages, space.pageTable i = fresh.pageTable i
  swap : swap = freshSwap
  rounded : (space.numPages : Int) = ceilDiv noffH.totalSize pageSize
  fits : space.codeDataSize.toNat ≤ space.swapFileSize.toNat

/-! ## Sizes -/

theorem spaceSize_eq (noffH : NoffHeader) :
    noffH.spaceSize = BitVec.ofInt 32 noffH.totalSize := by
  simp only [NoffHeader.spaceSize, NoffHeader.totalSize, BitVec.ofInt_add, BitVec.ofInt_toInt]
  rfl

theorem toNat_spaceSize (noffH : NoffHeader) :
    (noffH.spaceSize.toNat : Int) = noffH.totalSize % 2 ^ 32 := by
  rw [spaceSize_eq, BitVec.toNat_ofInt]
  omega

theorem divRoundUp_eq (n : Nat) : (divRoundUp n pageSize : Int) = ceilDiv n pageSize := by
  unfold divRoundUp ceilDiv pageSize
  split <;> omega

theorem divRoundUp_spaceSize {noffH : NoffHeader} :
    (divRoundUp noffH.spaceSize.toNat pageSize : Int) = ceilDiv noffH.totalSize pageSize ↔
      0 ≤ noffH.totalSize ∧ noffH.totalSize < 2 ^ 32 := by
  have size := toNat_spaceSize noffH
  rw [divRoundUp_eq, size]
  unfold ceilDiv pageSize
  constructor
  · intro equal
    omega
  · intro range
    rw [Int.emod_eq_of_lt range.1 range.2]

/-! ## The two loads -/

/-- The program with header `noffH` takes as many pages as `old` has, `old` has room for
its code and data, and the new entries come with `zeroFilled` clear. -/
def ReplacesExactly (old : AddrSpace) (noffH : NoffHeader) (junk : Nat → Bool) : Prop :=
  (0 ≤ noffH.totalSize ∧ noffH.totalSize < 2 ^ 32) ∧
    (old.numPages : Int) = ceilDiv noffH.totalSize pageSize ∧
    noffH.codeDataSize.toNat ≤ (BitVec.ofNat 32 (old.numPages * pageSize)).toNat ∧
    ∀ i < old.numPages, junk i = false

/-- The page counts of the two loads, given what the header says. -/
theorem numPages_iff {old : AddrSpace} {noffH : NoffHeader} :
    (old.numPages = divRoundUp noffH.spaceSize.toNat pageSize ∧
      (old.numPages : Int) = ceilDiv noffH.totalSize pageSize) ↔
    ((0 ≤ noffH.totalSize ∧ noffH.totalSize < 2 ^ 32) ∧
      (old.numPages : Int) = ceilDiv noffH.totalSize pageSize) := by
  constructor
  · rintro ⟨same, rounded⟩
    refine ⟨divRoundUp_spaceSize.mp ?_, rounded⟩
    rw [← same]
    exact rounded
  · rintro ⟨range, rounded⟩
    refine ⟨?_, rounded⟩
    have fresh := divRoundUp_spaceSize.mpr range
    rw [← rounded] at fresh
    exact_mod_cast fresh.symm

def twoPrograms : Files :=
  (Files.only (.path "small") fourBytes).set
    (.path "large") (noffFile (linkedHeader 4 0 4224) [5#8, 6#8, 7#8, 8#8])

instance (old : AddrSpace) (noffH : NoffHeader) (junk : Nat → Bool) :
    Decidable (ReplacesExactly old noffH junk) :=
  inferInstanceAs (Decidable (_ ∧ _ ∧ _ ∧ ∀ i < old.numPages, junk i = false))

end Nachos
