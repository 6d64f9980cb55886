import Nachos.Verified.PageCells
import Nachos.Verified.PageVisits

/-!
# What a child finds in its pages

`Fork` shares the frames of the parent with the child and gives the child a swap file of
its own, which it makes from the executable and not from the swap file of the parent.  So
a page that the parent had written to and that was paged out since is lost to the child.
-/

namespace Nachos

open Loops Runs

def swapRead (files : Files) (pid v : Nat) : Option Page :=
  (readSwapPage files pid v).toOption.map pageOf

def newSwapPage (executable : File) (space : AddrSpace) (v : Nat) : Option Page :=
  if (v + 1) * pageSize ≤ space.swapFileSize.toNat then some (imagePage executable space.program v)
  else none

def AddrSpace.LoadsFromSwap (space : AddrSpace) (v : Nat) : Prop :=
  (space.pageTable v).valid = false ∧
    ((space.pageTable v).zeroFilled = true ∨ v * pageSize < space.codeDataEnd)

/-- The pages of `pid` that are in its swap file only are still those of the executable. -/
def SwappedUnchanged (s : Kernel) (pid : Nat) (executable : File) : Prop :=
  ∀ space v, s.allPCB pid = some space → v < space.numPages → space.LoadsFromSwap v →
    swapRead s.files pid v = newSwapPage executable space v

/-! ## Reading swap files -/

variable {s : Kernel} {pid : Nat} {virtAddr : BitVec 32}

theorem swapRead_eq {files : Files} {pid v : Nat} {file : File}
    (opened : files (.swap pid) = some file) (bound : v * pageSize < 2 ^ 32) :
    swapRead files pid v =
      if 0 ≤ toInt32 (v * pageSize) ∧ v * pageSize + pageSize ≤ file.length then
        some (pageOf fun i => file.bytes (v * pageSize + i)) else none := by
  unfold swapRead
  cases read : readSwapPage files pid v with
  | error fault =>
    -- had both conditions held, the read would have succeeded
    rw [if_neg]
    · rfl
    · intro conditions
      have succeeds := (readSwapPage_eq_ok bound).mpr
        ⟨file, opened, conditions.1, conditions.2, rfl⟩
      rw [read] at succeeds
      cases succeeds
  | ok page =>
    obtain ⟨file', opened', seek, within, rfl⟩ := (readSwapPage_eq_ok bound).mp read
    cases opened.symm.trans opened'
    rw [if_pos ⟨seek, within⟩]
    simp only [Except.toOption, Option.map_some, Option.some.injEq]
    funext i
    simp [pageOf]

theorem swapRead_new {childPID : Nat} {space : AddrSpace} {files files' : Files}
    (allocated : allocateSwapFile childPID space.execfilename space.codeDataSize
      space.codeDataFileAddr space.swapFileSize files = .ok files') :
    ∃ executable, files.create (.swap childPID) space.execfilename = some executable ∧
      ∀ v < space.numPages, swapRead files' childPID v = newSwapPage executable space v := by
  obtain ⟨executable, swap, opened, -, sized, length, image, rfl⟩ := allocateSwapFile_inv allocated
  refine ⟨executable, opened, fun v below => ?_⟩
  have next : (v + 1) * pageSize = v * pageSize + pageSize := Nat.succ_mul v pageSize
  have size := toInt_of_nonneg sized
  have signed := BitVec.toInt_lt (x := space.swapFileSize)
  rw [swapRead_eq (Files.set_same _ _ _) (space.offset_lt below), length, newSwapPage]
  by_cases within : (v + 1) * pageSize ≤ space.swapFileSize.toNat
  · have seek : 0 ≤ toInt32 (v * pageSize) := toInt32_nonneg (by omega)
    rw [if_pos ⟨seek, by omega⟩, if_pos within]
    congr 1
    funext i
    simp only [pageOf, imagePage, image]
    rfl
  · rw [if_neg (fun both => within (by omega)), if_neg within]

/-! ## Accesses after the fork -/

def entryPage (memory : Nat → Byte) (entry : TranslationEntry) (codeDataEnd : Nat)
    (virtAddr : BitVec 32) (swap : Option Page) : Option Page :=
  if entry.valid then some (pageOf (frame memory entry.physicalPage.toNat))
  else if codeDataEnd ≤ virtAddr.toNat && !entry.zeroFilled then some fun _ => 0#8
  else swap

theorem accessPage_shared (space space' : AddrSpace) (found : s.allPCB pid = some space')
    (pages : space'.numPages = space.numPages) (ends : space'.codeDataEnd = space.codeDataEnd)
    (entry : virtAddr.toNat / pageSize < space.numPages → space'.pageTable (virtAddr.toNat /
      pageSize) = (space.pageTable (virtAddr.toNat / pageSize)).shared) :
    accessPage s pid virtAddr =
      if virtAddr.toNat / pageSize < space.numPages then
        entryPage s.machine.mainMemory (space.pageTable (virtAddr.toNat / pageSize))
          space.codeDataEnd virtAddr (swapRead s.files pid (virtAddr.toNat / pageSize))
      else none := by
  simp only [accessPage, found, pages, ends]
  by_cases below : virtAddr.toNat / pageSize < space.numPages
  · rw [if_neg (Nat.not_le.mpr below), if_pos below, entry below]
    rfl
  · rw [if_pos (Nat.not_lt.mp below), if_neg below]

/-- Two swap files give the same at every address of a page exactly when they agree on
it or it is never read from them. -/
theorem entryPage_iff (memory : Nat → Byte) {space : AddrSpace} {v : Nat}
    {first second : Option Page} (below : v < space.numPages) :
    (∀ virtAddr : BitVec 32, virtAddr.toNat / pageSize = v →
      entryPage memory (space.pageTable v) space.codeDataEnd virtAddr first =
        entryPage memory (space.pageTable v) space.codeDataEnd virtAddr second) ↔
      (space.LoadsFromSwap v → second = first) := by
  constructor
  · rintro same ⟨invalid, loads⟩
    -- the first address of the page is read from swap whenever any is
    have offset := space.offset_lt below
    have toNat : (BitVec.ofNat 32 (v * pageSize)).toNat = v * pageSize :=
      (BitVec.toNat_ofNat _ _).trans (Nat.mod_eq_of_lt offset)
    have page : (BitVec.ofNat 32 (v * pageSize)).toNat / pageSize = v := by
      rw [toNat]
      exact Nat.mul_div_cancel v (by decide)
    have notZeroed : ¬ (space.codeDataEnd ≤ (BitVec.ofNat 32 (v * pageSize)).toNat &&
        !(space.pageTable v).zeroFilled) = true := by
      rw [toNat]
      obtain zeroed | inside := loads
      · simp [zeroed]
      · simp only [Bool.and_eq_true, decide_eq_true_eq, not_and]
        omega
    have result := same _ page
    simp only [entryPage, invalid, Bool.false_eq_true, if_false, if_neg notZeroed] at result
    exact result.symm
  · intro agree virtAddr page
    unfold entryPage
    split
    next => rfl
    next invalid =>
      split
      next => rfl
      next notZeroed =>
        have start : v * pageSize ≤ virtAddr.toNat := page ▸ Nat.div_mul_le_self _ _
        refine (agree ⟨by simpa using invalid, ?_⟩).symm
        simp only [Bool.and_eq_true, decide_eq_true_eq, not_and, Bool.not_eq_true,
          Bool.not_eq_false'] at notZeroed
        by_cases beyond : space.codeDataEnd ≤ virtAddr.toNat
        · exact Or.inl (notZeroed beyond)
        · exact Or.inr (by omega)

/-- Parent and child after a fork have the same pages but for their swap files. -/
theorem fork_accessPage {s s' : Kernel} {parent child : Nat} {entries : Nat → TranslationEntry}
    (wf : WellFormed s) (forked : forkSystemcall parent entries s = .ok (some child, s')) :
    ∃ space executable, s.allPCB parent = some space ∧
      s.files.create (.swap child) space.execfilename = some executable ∧
      ∀ virtAddr : BitVec 32, let v := virtAddr.toNat / pageSize
        let found := entryPage s.machine.mainMemory (space.pageTable v) space.codeDataEnd virtAddr
        accessPage s' parent virtAddr =
          (if v < space.numPages then found (swapRead s.files parent v) else none) ∧
        accessPage s' child virtAddr =
          (if v < space.numPages then found (newSwapPage executable space v) else none) := by
  obtain ⟨space, m, files', -, free, found, -, allocated, rfl⟩ :=
    forkSystemcall_inv wf.pidBits forked
  obtain ⟨executable, opened, new⟩ := swapRead_new allocated
  obtain ⟨-, swap, -, -, -, -, -, rfl⟩ := allocateSwapFile_inv allocated
  have other : parent ≠ child := by
    intro same
    rw [same, wf.free_pid free] at found
    cases found
  refine ⟨space, executable, found, opened, fun virtAddr => ⟨?_, ?_⟩⟩
  · -- the parent's swap file is not the one that was made
    have sameSwap : swapRead (s.files.set (.swap child) swap) parent (virtAddr.toNat / pageSize) =
        swapRead s.files parent (virtAddr.toNat / pageSize) := by
      simp only [swapRead, readSwapPage, swapFile, Files.set_other _ (swap_name_ne other)]
    rw [← sameSwap]
    exact accessPage_shared space space.forkParent (if_neg other |>.trans (if_pos rfl)) rfl rfl
      fun below => if_pos below
  · refine (accessPage_shared space (space.forkChild entries) (if_pos rfl) rfl rfl
      fun below => if_pos below).trans ?_
    by_cases below : virtAddr.toNat / pageSize < space.numPages
    · rw [if_pos below, if_pos below, ← new _ below]
      rfl
    · rw [if_neg below, if_neg below]

/-- In a reachable state, what the child of a fork finds in every page is what the parent
finds there, if and only if the pages of the parent that are in its swap file only are
still those of the executable, as `Fork` opens it. -/
theorem fork_copies_memory_iff {bigEndian : Bool} {junk : Nat → BitVec 32} {files : Files}
    {history : List (Kernel × SystemOp)} {s s' : Kernel} {parent child : Nat}
    {entries : Nat → TranslationEntry}
    (run : Run SystemStep (boot bigEndian junk files) history s)
    (forked : forkSystemcall parent entries s = .ok (some child, s')) :
    ∃ space executable, s.allPCB parent = some space ∧
      s.files.create (.swap child) space.execfilename = some executable ∧
      ((∀ virtAddr, accessPage s' child virtAddr = accessPage s' parent virtAddr) ↔
        SwappedUnchanged s parent executable) := by
  obtain ⟨wf, -⟩ := system_sound run
  obtain ⟨space, executable, found, opened, access⟩ := fork_accessPage wf forked
  refine ⟨space, executable, found, opened, ?_, ?_⟩
  · intro same space' v found' below loads
    cases found.symm.trans found'
    refine (entryPage_iff s.machine.mainMemory below).mp (fun virtAddr page => ?_) loads
    have equal := same virtAddr
    rw [(access virtAddr).1, (access virtAddr).2, page, if_pos below, if_pos below] at equal
    exact equal
  · intro unchanged virtAddr
    rw [(access virtAddr).1, (access virtAddr).2]
    by_cases below : virtAddr.toNat / pageSize < space.numPages
    · rw [if_pos below, if_pos below]
      exact (entryPage_iff s.machine.mainMemory below).mpr (unchanged space _ found below) virtAddr rfl
    · rw [if_neg below, if_neg below]

instance (space : AddrSpace) (v : Nat) : Decidable (space.LoadsFromSwap v) :=
  inferInstanceAs (Decidable ((space.pageTable v).valid = false ∧
    ((space.pageTable v).zeroFilled = true ∨ v * pageSize < space.codeDataEnd)))

instance (s : Kernel) (pid : Nat) (executable : File) :
    Decidable (SwappedUnchanged s pid executable) :=
  decidable_of_iff (∀ space ∈ s.allPCB pid, ∀ v < space.numPages, space.LoadsFromSwap v →
      swapRead s.files pid v = newSwapPage executable space v)
    ⟨fun each space v found => each space found v, fun each space found v => each space v found⟩

/-- A program writes to page 5 only and uses 32 others, so that page 0 is paged out. -/
theorem fork_copies_memory_at_once : ∃ history s s' space,
    Run SystemStep (bootWith (noffFile (linkedHeader 4 0 4224) [1#8, 2#8, 3#8, 4#8])) history s ∧
    forkSystemcall 0 (fun _ => freshEntry 0 false) s = .ok (some 1, s') ∧
    s.allPCB 0 = some space ∧ (space.pageTable 0).valid = false ∧
    (space.pageTable 5).valid = true ∧
    ∀ virtAddr, accessPage s' 1 virtAddr = accessPage s' 0 virtAddr := by
  simp only [exists_and_left]
  refine computed_run performSystem_step (fun _ s =>
    (∃ s', forkSystemcall 0 (fun _ => freshEntry 0 false) s = .ok (some 1, s') ∧ True) ∧
      ∃ space, s.allPCB 0 = some space ∧
        ((space.pageTable 0).valid = false ∧ (space.pageTable 5).valid = true) ∧
        ∃ executable, s.files.create (.swap 1) space.execfilename = some executable ∧
          SwappedUnchanged s 0 executable)
    ((.start (.path "prog") 0 :: touchPages 0 0 32 ++ .store 0 640#32 1 77#32 ::
      touchPages 0 32 1).map .user) (by decide +kernel) fun _ s run _ checked => ?_
  obtain ⟨⟨s', forked, -⟩, space, found, ⟨out, resident⟩, executable, opened, unchanged⟩ :=
    checked
  obtain ⟨space', executable', found', opened', exact_condition⟩ := fork_copies_memory_iff run forked
  cases found.symm.trans found'
  cases opened.symm.trans opened'
  exact ⟨s', forked, space, found, out, resident, exact_condition.mpr unchanged⟩

/-- A program writes to its first page and then uses 32 others, so that the first is paged
out; its child finds the byte of the executable there again. -/
theorem fork_loses_swapped_page : ∃ history s s',
    Run Step (bootWith (noffFile (linkedHeader 4 0 4224) [1#8, 2#8, 3#8, 4#8])) history s ∧
    forkSystemcall 0 (fun _ => freshEntry 0 false) s = .ok (some 1, s') ∧
    (accessPage s' 0 0#32).map (fun page => page 0) = some 77#8 ∧
    (accessPage s' 1 0#32).map (fun page => page 0) = some 1#8 := by
  simp only [exists_and_left]
  exact computed_run perform_step _ ([.start (.path "prog") 0, .pageFault 0 0#32,
    .store 0 0#32 1 77#32] ++ touchPages 0 1 32) (by decide +kernel) fun _ _ _ _ checked => checked

end Nachos
