import Nachos.UserProg.UserReadWrite
import Nachos.Verified.PageCells

/-!
# Kernel stores into user memory

`userReadWrite` with `'r'` against the same stores made by the program.  Both load a page
with the same call of `PageIn`, and both put the same bytes into its frame.  The kernel
does not look at `readOnly`, though, and does not set `dirty`.  So they agree on pages
that are dirty already and are not shared.
-/

namespace Nachos

open Loops Runs

theorem pageOffset_lt (addr : BitVec 32) : addr.toNat % pageSize < pageSize :=
  Nat.mod_lt _ (by decide)

/-! ## One store -/

def Kernel.storeInto (s : Kernel) (pid : Nat) (space : AddrSpace) (vpn : Nat) (writing : Bool)
    (bytes : Nat → Byte) (physAddr count : Nat) : Kernel :=
  (s.setMemory (bcopy bytes physAddr count s.machine.mainMemory)).setSpace pid
    (some (space.setEntry vpn ((space.pageTable vpn).touched writing)))

theorem bcopy_bzero (source memory : Nat → Byte) (dest count : Nat) :
    bcopy source dest count (bzero dest count memory) = bcopy source dest count memory := by
  funext address
  simp only [bzero, bcopy]
  split
  next => rfl
  next => rfl

structure InFrame (s : Kernel) (pid : Nat) (space : AddrSpace) (addr : BitVec 32) (f : Nat) :
    Prop where
  found : s.allPCB pid = some space
  inTable : addr.toNat / pageSize < space.numPages
  valid : (space.pageTable (addr.toNat / pageSize)).valid = true
  maps : (space.pageTable (addr.toNat / pageSize)).physicalPage = (f : Int)
  frame : f < numPhysPages

structure Absent (s : Kernel) (pid : Nat) (space : AddrSpace) (addr : BitVec 32) : Prop where
  found : s.allPCB pid = some space
  inTable : addr.toNat / pageSize < space.numPages
  invalid : (space.pageTable (addr.toNat / pageSize)).valid = false

variable {s s' s₁ : Kernel} {pid f n : Nat} {space space₁ : AddrSpace} {addr virtAddr : BitVec 32}
  {t t' : Transfer} {pages : Nat → Prop} {opt : TransferOpt}

theorem InFrame.frameNumber (inFrame : InFrame s pid space addr f) :
    (BitVec.ofInt 32 (space.pageTable (addr.toNat / pageSize)).physicalPage).toNat = f := by
  have bound := inFrame.frame
  rw [inFrame.maps, BitVec.ofInt_natCast, BitVec.toNat_ofNat]
  simp only [numPhysPages] at bound
  omega

/-! ## One access of the program -/

theorem translate_inFrame (inFrame : InFrame s pid space addr f) (writing : Bool)
    (writable : writing = true → (space.pageTable (addr.toNat / pageSize)).readOnly = false) :
    translate space.pageTable space.numPages addr 1 writing =
      .ok (.done (f * pageSize + addr.toNat % pageSize,
        (space.pageTable (addr.toNat / pageSize)).touched writing)) := by
  have inMemory : f * pageSize + addr.toNat % pageSize + 1 ≤ memorySize := by
    have bound := inFrame.frame
    simp only [memorySize, numPhysPages, pageSize] at *
    omega
  have allowed : ((space.pageTable (addr.toNat / pageSize)).readOnly && writing) = false := by
    cases writing with
    | false => exact Bool.and_false _
    | true => rw [writable rfl, Bool.false_and]
  simp [translate, ok_bind, pure_eq, inFrame.valid, allowed, inFrame.frameNumber, inFrame.frame,
    inFrame.inTable, inMemory, assert, Nat.not_le.mpr, TranslationEntry.touched]

theorem translate_absent (absent : Absent s pid space addr) (writing : Bool) :
    translate space.pageTable space.numPages addr 1 writing =
      .ok (.raised .pageFaultException) := by
  simp [translate, pure_eq, absent.invalid, absent.inTable, Nat.not_le.mpr]

theorem toNat_add_ofNat {i : Nat} (bound : addr.toNat + i < 2 ^ 32) :
    (addr + BitVec.ofNat 32 i).toNat = addr.toNat + i := by
  rw [BitVec.toNat_add, BitVec.toNat_ofNat]
  omega

/-! ## One copy of the kernel -/

theorem toInt_nonneg (addressable : addr.toNat < 2 ^ 31) : ¬ addr.toInt < 0 := by
  rw [BitVec.toInt_eq_toNat_cond]
  split <;> omega

theorem addrSpaceTranslate_resident (inFrame : InFrame s pid space addr f)
    (addressable : addr.toNat < 2 ^ 31) (within : addr.toNat % pageSize + n ≤ pageSize) :
    addrSpaceTranslate pid addr n s =
      .ok (some (f * pageSize + addr.toNat % pageSize), s.setSpace pid
        (some (space.setEntry (addr.toNat / pageSize)
          ((space.pageTable (addr.toNat / pageSize)).touched false)))) := by
  have inMemory : (f : Int) * 128 + (addr.toNat : Int) % 128 + n ≤ 4096 := by
    have bound := inFrame.frame
    simp only [numPhysPages, pageSize] at *
    omega
  have number := inFrame.frameNumber
  have bound := inFrame.frame
  have inTable := inFrame.inTable
  simp only [addrSpaceTranslate, if_neg (toInt_nonneg addressable), Kernel.space, inFrame.found]
  simp [bind, Except.bind, pure_eq, inFrame.valid, inFrame.found, number, bound, inTable,
    inMemory, assert, Nat.not_le.mpr, TranslationEntry.touched]

/-- The translation of a page that is not in memory loads it and starts over. -/
theorem addrSpaceTranslate_loads (absent : Absent s pid space addr)
    (addressable : addr.toNat < 2 ^ 31) (loaded : pageIn pid addr s = .ok s₁)
    (inFrame : InFrame s₁ pid space₁ addr f) (size : Int) :
    addrSpaceTranslate pid addr size s = addrSpaceTranslate pid addr size s₁ := by
  have inTable := absent.inTable
  have inTable₁ := inFrame.inTable
  have valid₁ := inFrame.valid
  simp only [addrSpaceTranslate, if_neg (toInt_nonneg addressable), Kernel.space, absent.found,
    inFrame.found]
  simp [ok_bind, absent.invalid, inTable, Nat.not_le.mpr, loaded, inFrame.found, inTable₁,
    valid₁]

theorem addrSpaceTranslate_fails {fault : Fault} (absent : Absent s pid space addr)
    (addressable : addr.toNat < 2 ^ 31) (fails : pageIn pid addr s = .error fault) (size : Int) :
    addrSpaceTranslate pid addr size s = .error fault := by
  have inTable := absent.inTable
  simp only [addrSpaceTranslate, if_neg (toInt_nonneg addressable), Kernel.space, absent.found]
  simp [bind, Except.bind, absent.invalid, inTable, Nat.not_le.mpr, fails]

def Transfer.advance (t : Transfer) (n : Nat) (s : Kernel) : Transfer where
  kernel := s
  buffer := t.buffer
  curVirtAddr := t.curVirtAddr + BitVec.ofNat 32 n
  curBuffer := t.curBuffer + n
  leftSize := t.leftSize - n

def Transfer.rest (t : Transfer) : Nat → Byte := fun k => t.buffer (t.curBuffer.toNat + k)

theorem copyChunk_resident (inFrame : InFrame t.kernel pid space t.curVirtAddr f)
    (addressable : t.curVirtAddr.toNat < 2 ^ 31)
    (within : t.curVirtAddr.toNat % pageSize + n ≤ pageSize) :
    copyChunk pid .r n t =
      .ok (true, t.advance n (t.kernel.storeInto pid space (t.curVirtAddr.toNat / pageSize) false
        t.rest (f * pageSize + t.curVirtAddr.toNat % pageSize) n)) := by
  have nonneg : ¬ ((n : Int) < 0) := by omega
  simp only [copyChunk, addrSpaceTranslate_resident inFrame addressable within, ok_bind,
    if_neg nonneg, pure_eq, Int.toNat_natCast, BitVec.ofInt_natCast, bcopy_bzero]
  rfl

theorem copyChunk_loads (absent : Absent t.kernel pid space t.curVirtAddr)
    (addressable : t.curVirtAddr.toNat < 2 ^ 31) (loaded : pageIn pid t.curVirtAddr t.kernel = .ok s₁)
    (inFrame : InFrame s₁ pid space₁ t.curVirtAddr f) (opt : TransferOpt) (size : Int) :
    copyChunk pid opt size t = copyChunk pid opt size { t with kernel := s₁ } := by
  unfold copyChunk
  rw [addrSpaceTranslate_loads absent addressable loaded inFrame]

theorem copyChunk_fails {fault : Fault} (absent : Absent t.kernel pid space t.curVirtAddr)
    (addressable : t.curVirtAddr.toNat < 2 ^ 31)
    (fails : pageIn pid t.curVirtAddr t.kernel = .error fault) (opt : TransferOpt) (size : Int) :
    copyChunk pid opt size t = .error fault := by
  unfold copyChunk
  rw [addrSpaceTranslate_fails absent addressable fails]
  rfl

/-! ## The pages of a range -/

theorem touched_sound {pid vpn : Nat} (writing : Bool) (sound : Sound s)
    (found : s.allPCB pid = some space) (bound : vpn < space.numPages) (tables : s'.allPCB =
    (s.setSpace pid (some (space.setEntry vpn
      ((space.pageTable vpn).touched writing)))).allPCB) (manager : s'.memoryMgr = s.memoryMgr)
    (pidMap : s'.pidMap = s.pidMap) : Sound s' := by
  refine ⟨sound.setEntry found ((sound.entries found _ bound).touched _) tables (by rw [manager])
    pidMap, ?_⟩
  rw [sharing_touched found bound tables manager]
  exact sound.coherent

/-- The page that `PageIn` has loaded, and the other pages of the process. -/
theorem pageIn_entries {s s₁ : Kernel} (wf : WellFormed s) (found : s.allPCB pid = some space)
    (run : pageIn pid addr s = .ok s₁) :
    ∃ space₁ f, InFrame s₁ pid space₁ addr f ∧ space₁.numPages = space.numPages ∧
      (space₁.pageTable (addr.toNat / pageSize)).readOnly = false ∧
      (space₁.pageTable (addr.toNat / pageSize)).dirty =
        (space.pageTable (addr.toNat / pageSize)).dirty ∧
      ∀ v, v ≠ addr.toNat / pageSize → space₁.pageTable v = space.pageTable v ∨
        space₁.pageTable v = (space.pageTable v).evicted := by
  obtain ⟨f, t, space', page, zeroFilled, got, found', below, -, rfl⟩ := pageIn_inv wf.memoryBits run
  obtain ⟨space'', found'', pages, entries⟩ := got.onlyEvicted.entries found
  cases found'.symm.trans found''
  refine ⟨_, f, ⟨if_pos rfl, below, ?_, ?_, got.bound⟩, pages, ?_, ?_, fun v other => ?_⟩
  · rw [AddrSpace.setEntry_pageTable, if_pos rfl]
    rfl
  · rw [AddrSpace.setEntry_pageTable, if_pos rfl]
    rfl
  · rw [AddrSpace.setEntry_pageTable, if_pos rfl]
    rfl
  · rw [AddrSpace.setEntry_pageTable, if_pos rfl]
    obtain same | evicted := entries (addr.toNat / pageSize)
    · simp [TranslationEntry.pagedIn, same]
    · simp [TranslationEntry.pagedIn, evicted, TranslationEntry.evicted]
  · rw [AddrSpace.setEntry_pageTable, if_neg other]
    exact entries v

theorem InFrame.of_valid (wf : WellFormed s) (found : s.allPCB pid = some space)
    (inTable : addr.toNat / pageSize < space.numPages)
    (valid : (space.pageTable (addr.toNat / pageSize)).valid = true) :
    ∃ f, InFrame s pid space addr f := by
  obtain ⟨f, bound, maps⟩ := (wf.entries found _ inTable).frame valid
  exact ⟨f, found, inTable, valid, maps, bound⟩

/-! ## All copies of a call -/

def rangePages (addr count : Nat) (v : Nat) : Prop := addr <
    (v + 1) * pageSize ∧ v * pageSize < addr + count

theorem userReadWrite_eq (pid : Nat) (buffer : Nat → Byte) (virtAddr : BitVec 32) (size : Int)
    (opt : TransferOpt) (s : Kernel) :
    userReadWrite pid buffer virtAddr size opt s =
      (((if virtAddr.toInt.tmod pageSize = 0 then .ok ⟨s, buffer, virtAddr, 0, size⟩
        else tryChunk pid opt (min size (pageSize - virtAddr.toInt.tmod pageSize))
          ⟨s, buffer, virtAddr, 0, size⟩) >>=
        fun t => copyPages pid opt (t.leftSize.toNat / pageSize) t) >>=
        fun t => if t.leftSize = 0 then .ok t else tryChunk pid opt t.leftSize t) >>=
        fun t => assert (t.curBuffer == size) >>= fun _ => .ok (t.buffer, t.kernel) := by
  unfold userReadWrite
  dsimp only
  split
  next =>
    simp only [bind, Except.bind]
    split <;> rfl
  next =>
    simp only [bind, Except.bind]
    cases tryChunk pid opt (min size (pageSize - virtAddr.toInt.tmod pageSize))
      ⟨s, buffer, virtAddr, 0, size⟩ with
    | error => rfl
    | ok t =>
      dsimp only
      split <;> rfl

end Nachos
