import Nachos.FileSys.OpenFile

/-!
# The simulated machine

`machine.h` and `translate.cc`: main memory, page-table entries, and the address
translation that every access of a user program goes through.  The kernel is built
without `USE_TLB`, so `tlb` is `NULL` and only the page-table branch of
`Machine::Translate` is live.
-/

namespace Nachos

abbrev pageSize : Nat := 128

abbrev numPhysPages : Nat := 32

abbrev memorySize : Nat := numPhysPages * pageSize

structure TranslationEntry where
  virtualPage : Int
  physicalPage : Int
  valid : Bool
  readOnly : Bool
  use : Bool
  dirty : Bool
  zeroFilled : Bool
  deriving DecidableEq, Repr

structure Machine where
  mainMemory : Nat → Byte
  bigEndian : Bool

inductive ExceptionType where
  | noException
  | syscallException
  | pageFaultException
  | readOnlyException
  | busErrorException
  | addressErrorException
  | overflowException
  | illegalInstrException
  deriving DecidableEq, Repr

/-! ## Byte order -/

def wordToHost (bigEndian : Bool) (word : BitVec 32) : BitVec 32 :=
  if bigEndian then
    ((word >>> 24) &&& 0x000000ff#32) ||| ((word >>> 8) &&& 0x0000ff00#32) |||
      ((word <<< 8) &&& 0x00ff0000#32) ||| ((word <<< 24) &&& 0xff000000#32)
  else word

def shortToHost (bigEndian : Bool) (shortword : BitVec 16) : BitVec 16 :=
  if bigEndian then
    ((shortword <<< 8) &&& 0xff00#16) ||| ((shortword >>> 8) &&& 0x00ff#16)
  else shortword

def byteOf {width : Nat} (word : BitVec width) (k : Nat) : Byte := word.extractLsb' (8 * k) 8

def hostWord (bigEndian : Bool) (bytes : Nat → Byte) : BitVec 32 :=
  if bigEndian then bytes 0 ++ bytes 1 ++ bytes 2 ++ bytes 3
  else bytes 3 ++ bytes 2 ++ bytes 1 ++ bytes 0

def hostShort (bigEndian : Bool) (bytes : Nat → Byte) : BitVec 16 :=
  if bigEndian then bytes 0 ++ bytes 1 else bytes 1 ++ bytes 0

def hostWordBytes (bigEndian : Bool) (word : BitVec 32) : Nat → Byte :=
  fun k => if bigEndian then byteOf word (3 - k) else byteOf word k

def hostShortBytes (bigEndian : Bool) (shortword : BitVec 16) : Nat → Byte :=
  fun k => if bigEndian then byteOf shortword (1 - k) else byteOf shortword k

theorem byteOf_getLsbD {width : Nat} (word : BitVec width) {i j k : Nat} (small : j < 8)
    (index : 8 * k + j = i) : (byteOf word k).getLsbD j = word.getLsbD i := by
  simp only [byteOf, BitVec.getLsbD_extractLsb', small, decide_true, Bool.true_and, index]

/-- Four bytes, least significant first, make up the word they were taken from. -/
theorem hostWord_byteOf (word : BitVec 32) : hostWord false (byteOf word) = word := by
  simp only [hostWord, Bool.false_eq_true, if_false]
  apply BitVec.eq_of_getLsbD_eq
  intro i bound
  simp only [BitVec.getLsbD_append]
  split
  next => exact byteOf_getLsbD word (by omega) (by omega)
  next =>
  split
  next => exact byteOf_getLsbD word (by omega) (by omega)
  next =>
  split
  next => exact byteOf_getLsbD word (by omega) (by omega)
  next => exact byteOf_getLsbD word (by omega) (by omega)

theorem hostWord_congr {bytes bytes' : Nat → Byte} (same : ∀ j < 4, bytes j = bytes' j) :
    hostWord false bytes = hostWord false bytes' := by
  simp [hostWord, same]

/-! ## Memory -/

def bcopy (source : Nat → Byte) (dest size : Nat) (memory : Nat → Byte) : Nat → Byte :=
  fun address =>
    if dest ≤ address ∧ address < dest + size then source (address - dest) else memory address

def bzero (dest size : Nat) (memory : Nat → Byte) : Nat → Byte :=
  bcopy (fun _ => 0#8) dest size memory

def frame (memory : Nat → Byte) (f : Nat) : Nat → Byte :=
  fun offset => memory (f * pageSize + offset)

variable {f offset : Nat} {addr : BitVec 32}

theorem frame_bcopy_same (source memory : Nat → Byte) (bound : offset < pageSize) :
    frame (bcopy source (f * pageSize) pageSize memory) f offset = source offset := by
  have inside : f * pageSize ≤ f * pageSize + offset ∧
      f * pageSize + offset < f * pageSize + pageSize := by omega
  simp only [frame, bcopy, if_pos inside, Nat.add_sub_cancel_left]

theorem frame_bcopy_other (source memory : Nat → Byte) {f g offset start size : Nat}
    (bound : offset < pageSize) (within : start + size ≤ pageSize) (different : g ≠ f) :
    frame (bcopy source (f * pageSize + start) size memory) g offset = frame memory g offset := by
  have outside : ¬ (f * pageSize + start ≤ g * pageSize + offset ∧
      g * pageSize + offset < f * pageSize + start + size) := by
    simp only [pageSize] at *
    omega
  simp only [frame, bcopy, if_neg outside]

theorem frame_bcopy_frame (source memory : Nat → Byte) {f g offset : Nat}
    (bound : offset < pageSize) (different : g ≠ f) :
    frame (bcopy source (f * pageSize) pageSize memory) g offset = frame memory g offset := by
  have outside : ¬ (f * pageSize ≤ g * pageSize + offset ∧
      g * pageSize + offset < f * pageSize + pageSize) := by
    simp only [pageSize] at *
    omega
  simp only [frame, bcopy, if_neg outside]

/-! ## Translation -/

inductive Outcome (α : Type) where
  | raised (exception : ExceptionType)
  | done (result : α)

/-- `Machine::Translate` on the page table of the running process: the physical
address, and the entry with its `use` and `dirty` bits set. -/
def translate (pageTable : Nat → TranslationEntry) (pageTableSize : Nat)
    (virtAddr : BitVec 32) (size : Nat) (writing : Bool) :
    Except Fault (Outcome (Nat × TranslationEntry)) := do
  if (size == 4 && virtAddr &&& 3#32 != 0#32) || (size == 2 && virtAddr &&& 1#32 != 0#32) then
    return .raised .addressErrorException
  let vpn := virtAddr.toNat / pageSize
  let offset := virtAddr.toNat % pageSize
  if vpn ≥ pageTableSize then
    return .raised .addressErrorException
  let entry := pageTable vpn
  if !entry.valid then
    return .raised .pageFaultException
  if entry.readOnly && writing then
    return .raised .readOnlyException
  -- `physicalPage` is compared as an unsigned number, so that -1 is too big
  let pageFrame := (BitVec.ofInt 32 entry.physicalPage).toNat
  if pageFrame ≥ numPhysPages then
    return .raised .busErrorException
  let physAddr := pageFrame * pageSize + offset
  assert (physAddr + size ≤ memorySize)
  return .done (physAddr, { entry with use := true, dirty := writing || entry.dirty })

theorem aligned_four (aligned : ¬ addr &&& 3#32 ≠ 0#32) :
    addr.toNat % 4 = 0 := by
  have low : (addr &&& 3#32).toNat = 0 := by
    rw [not_not.mp aligned]
    rfl
  rw [BitVec.toNat_and] at low
  exact (Nat.and_two_pow_sub_one_eq_mod addr.toNat 2).symm.trans low

theorem aligned_two (aligned : ¬ addr &&& 1#32 ≠ 0#32) :
    addr.toNat % 2 = 0 := by
  have low : (addr &&& 1#32).toNat = 0 := by
    rw [not_not.mp aligned]
    rfl
  rw [BitVec.toNat_and] at low
  exact (Nat.and_two_pow_sub_one_eq_mod addr.toNat 1).symm.trans low

theorem aligned_within {size : Nat} (sized : size = 1 ∨ size = 2 ∨ size = 4)
    (four : ¬ (size = 4 ∧ addr &&& 3#32 ≠ 0#32)) (two : ¬ (size = 2 ∧ addr &&& 1#32 ≠ 0#32)) :
    addr.toNat % pageSize + size ≤ pageSize := by
  simp only [pageSize]
  rcases sized with rfl | rfl | rfl
  · omega
  · have even := aligned_two fun misaligned => two ⟨rfl, misaligned⟩
    omega
  · have multiple := aligned_four fun misaligned => four ⟨rfl, misaligned⟩
    omega

/-- The value `Machine::ReadMem` takes from memory: sign extended for a `char`,
zero extended for an `unsigned short`. -/
def loadValue (machine : Machine) (physAddr size : Nat) : Except Fault (BitVec 32) :=
  let bytes := fun k => machine.mainMemory (physAddr + k)
  match size with
  | 1 => .ok ((bytes 0).signExtend 32)
  | 2 => .ok ((shortToHost machine.bigEndian (hostShort machine.bigEndian bytes)).zeroExtend 32)
  | 4 => .ok (wordToHost machine.bigEndian (hostWord machine.bigEndian bytes))
  | _ => .error .assertion

def storeBytes (machine : Machine) (size : Nat) (value : BitVec 32) : Except Fault (Nat → Byte) :=
  match size with
  | 1 => .ok fun _ => (value &&& 0xff#32).truncate 8
  | 2 => .ok (hostShortBytes machine.bigEndian
      (shortToHost machine.bigEndian ((value &&& 0xffff#32).truncate 16)))
  | 4 => .ok (hostWordBytes machine.bigEndian (wordToHost machine.bigEndian value))
  | _ => .error .assertion

end Nachos
