import Nachos.UserProg.UserMemory

/-!
# What the routines do when they complete

One inversion lemma for each routine of the memory manager and of `AddrSpace`: from a
call that returned, the state it found and the state it left.  The invariants and
the content proofs start from these and do not unfold the routines again.
-/

namespace Nachos

open Loops

variable {v f pid childPID size : Nat} {space : AddrSpace} {files files' : Files} {s s' : Kernel}
  {filename : FileName} {pageTable junk : Nat → TranslationEntry} {addr : BitVec 32}

theorem AddrSpace.offset_lt (space : AddrSpace) (bound : v < space.numPages) :
    v * pageSize < 2 ^ 32 := by
  have pages := space.numPages_le
  simp only [pageSize]
  omega

/-! ## `findPage` -/

theorem findPage_spec (bound : space.findPage f < space.numPages) :
    (space.pageTable (space.findPage f)).physicalPage = (f : Int) := by
  have holds := firstIndex_spec bound
  simpa [AddrSpace.findPage] using holds

theorem findPage_lt (bound : v < space.numPages)
    (maps : (space.pageTable v).physicalPage = (f : Int)) : space.findPage f < space.numPages :=
  firstIndex_lt bound (by simpa using maps)

/-! ## Paging out -/

/-- The files after page `v` of `pid`, in frame `f`, has been paged out: a dirty page
is in its swap file. -/
def SwappedOut (s : Kernel) (pid : Nat) (space : AddrSpace) (v f : Nat) (files : Files) : Prop :=
  ((space.pageTable v).dirty = false ∧ files = s.files) ∨
    ((space.pageTable v).dirty = true ∧ ∃ file, s.files (.swap pid) = some file ∧
      files = s.files.set (.swap pid)
        (file.write (frame s.machine.mainMemory f) pageSize (v * pageSize)))

theorem writeSwapPage_inv {page : Nat → Byte} (bound : v * pageSize < 2 ^ 32)
    (run : writeSwapPage pid v page files = .ok files') :
    ∃ file, files (.swap pid) = some file ∧
      files' = files.set (.swap pid) (file.write page pageSize (v * pageSize)) := by
  obtain ⟨file, opened, run⟩ := bind_eq_ok.mp run
  obtain ⟨file', written, run⟩ := bind_eq_ok.mp run
  obtain ⟨seek, -, rfl⟩ := File.writeAt_eq_ok.mp written
  cases run
  rw [toInt32_of_nonneg bound seek]
  exact ⟨file, swapFile_eq_ok.mp opened, rfl⟩

theorem pageOut_inv (run : pageOut pid f s = .ok s') :
    ∃ space files, s.allPCB pid = some space ∧ space.findPage f < space.numPages ∧
      SwappedOut s pid space (space.findPage f) f files ∧
      s' = { s with files := files }.setSpace pid
        (some (space.setEntry (space.findPage f)
          (space.pageTable (space.findPage f)).evicted)) := by
  obtain ⟨space, found, run⟩ := bind_eq_ok.mp run
  dsimp only at run
  split at run
  next bound =>
    obtain ⟨files, swapped, run⟩ := bind_eq_ok.mp run
    cases run
    refine ⟨space, files, Kernel.space_eq_ok.mp found, bound, ?_, rfl⟩
    split at swapped
    next dirty => exact Or.inr ⟨dirty, writeSwapPage_inv (space.offset_lt bound) swapped⟩
    next clean =>
      cases swapped
      exact Or.inl ⟨by simpa using clean, rfl⟩
  next unbound => cases run

inductive EvictedOwner (f pid : Nat) (s : Kernel) : Kernel → Prop where
  | skipped : s.memoryMgr.framePID f pid = false → EvictedOwner f pid s s
  | pagedOut {space : AddrSpace} {files : Files} : s.memoryMgr.framePID f pid = true →
      s.allPCB pid = some space → space.findPage f < space.numPages →
      SwappedOut s pid space (space.findPage f) f files →
      EvictedOwner f pid s
        ({ s with files := files, memoryMgr := s.memoryMgr.setFramePID f pid false }.setSpace pid
          (some (space.setEntry (space.findPage f) (space.pageTable (space.findPage f)).evicted)))

theorem evictOwner_inv (run : evictOwner f pid s = .ok s') :
    EvictedOwner f pid s s' := by
  unfold evictOwner at run
  split at run
  next owned =>
    obtain ⟨t, out, run⟩ := bind_eq_ok.mp run
    cases run
    obtain ⟨space, files, found, bound, swapped, rfl⟩ := pageOut_inv out
    exact .pagedOut owned found bound swapped
  next unowned =>
    cases run
    exact .skipped (by simpa using unowned)

/-! ## Getting a frame -/

theorem victim_spec (m : MemoryMgr) (sharedPage : Int) :
    victim m sharedPage < numPhysPages ∧ (victim m sharedPage : Int) ≠ sharedPage := by
  unfold victim
  apply forUpTo_invariant _ fun _ (best : Int × Nat) =>
    best.2 < numPhysPages ∧ (best.2 : Int) ≠ sharedPage
  · split
    next same => exact ⟨(by decide : 1 < numPhysPages), by simp [same]⟩
    next other => exact ⟨(by decide : 0 < numPhysPages), fun same => other same.symm⟩
  · intro i bound best kept
    split
    next earlier =>
      simp only [Bool.and_eq_true, decide_eq_true_eq, bne_iff_ne, ne_eq] at earlier
      exact ⟨bound, earlier.2⟩
    next => exact kept

def MemoryMgr.markFrame (m : MemoryMgr) (f : Nat) : MemoryMgr :=
  { m with memoryMap := m.memoryMap.markBit f }

inductive GotPage (pid : Nat) (sharedPage : Int) (s : Kernel) : Nat → Kernel → Prop where
  | evicted {f : Nat} {t : Kernel} : f = victim s.memoryMgr sharedPage →
      (∀ g < numPhysPages, s.memoryMgr.memoryMap.bit g = true) →
      forUpToM (evictOwner f) pidMapSize s = .ok t →
      GotPage pid sharedPage s f { t with memoryMgr := stampFrame t.memoryMgr f pid }
  | clear {f : Nat} : f < numPhysPages → s.memoryMgr.memoryMap.bit f = false →
      s.memoryMgr.memoryMap.find = ((f : Int), s.memoryMgr.memoryMap.markBit f) →
      GotPage pid sharedPage s f { s with
        memoryMgr := stampFrame (s.memoryMgr.markFrame f) f pid }

theorem GotPage.bound {sharedPage : Int} {s t : Kernel} (got : GotPage pid sharedPage s f t) :
    f < numPhysPages := by
  cases got with
  | evicted isVictim => exact isVictim ▸ (victim_spec s.memoryMgr sharedPage).1
  | clear bound => exact bound

theorem getPage_inv {sharedPage : Int} (sized : s.memoryMgr.memoryMap.numBits = numPhysPages)
    (run : getPage pid sharedPage s = .ok (f, s')) : GotPage pid sharedPage s f s' := by
  unfold getPage at run
  split at run
  next full =>
    obtain ⟨t, evicted, run⟩ := bind_eq_ok.mp run
    obtain ⟨rfl, rfl⟩ := Prod.mk.inj (Except.ok.inj run)
    have inUse := (BitMap.numClear_eq_zero _).mp full
    rw [sized] at inUse
    exact .evicted rfl inUse evicted
  next notFull =>
    obtain ⟨j, below, found, -, result⟩ := BitMap.find_of_numClear notFull
    rw [result] at run
    cases run
    exact .clear (sized ▸ below) found result

/-! ## Lifting a protection -/

def AddrSpace.unprotect (space : AddrSpace) (f : Nat) : AddrSpace :=
  if space.findPage f < space.numPages then
    space.setEntry (space.findPage f) { space.pageTable (space.findPage f) with readOnly := false }
  else space

theorem Kernel.setSpace_self (found : s.allPCB pid = some space) :
    s.setSpace pid (some space) = s := by
  have same : (fun q => if q = pid then some space else s.allPCB q) = s.allPCB := by
    funext q
    split
    next here => rw [here, found]
    next => rfl
  simp only [Kernel.setSpace, same]

theorem unsetReadOnly_inv (run : unsetReadOnly pid f s = .ok s') :
    ∃ space, s.allPCB pid = some space ∧ s' = s.setSpace pid (some (space.unprotect f)) := by
  obtain ⟨space, found, run⟩ := bind_eq_ok.mp run
  have found := Kernel.space_eq_ok.mp found
  refine ⟨space, found, ?_⟩
  dsimp only at run
  split at run
  next bound =>
    cases run
    rw [AddrSpace.unprotect, if_pos bound]
  next unbound =>
    cases run
    rw [AddrSpace.unprotect, if_neg unbound, Kernel.setSpace_self found]

/-- The count is one exactly when the pid found last is the only owner. -/
theorem countOwners_spec (m : MemoryMgr) (f : Nat) :
    ((countOwners m f).2 = 1 ∧ (countOwners m f).1 < pidMapSize ∧
        ∀ i < pidMapSize, m.framePID f i = true ↔ i = (countOwners m f).1) ∨
      ((countOwners m f).2 ≠ 1 ∧
        ¬ ∃ q < pidMapSize, ∀ i < pidMapSize, m.framePID f i = true ↔ i = q) := by
  let owners (n : Nat) := (Finset.range n).filter fun i => m.framePID f i = true
  have mem : ∀ n i, i ∈ owners n ↔ i < n ∧ m.framePID f i = true := by simp [owners]
  have counted : (countOwners m f).2 = (owners pidMapSize).card ∧
      ((countOwners m f).2 ≠ 0 → (countOwners m f).1 ∈ owners pidMapSize) := by
    unfold countOwners
    apply forUpTo_invariant _ fun n (found : Nat × Nat) =>
      found.2 = (owners n).card ∧ (found.2 ≠ 0 → found.1 ∈ owners n)
    · simp [owners]
    · rintro n - ⟨last, count⟩ ⟨isCard, isLast⟩
      have next : owners (n + 1) = if m.framePID f n then insert n (owners n) else owners n := by
        simp only [owners, Finset.range_add_one, Finset.filter_insert]
      rw [next]
      split
      next =>
        rw [Finset.card_insert_of_notMem (by simp [mem])]
        exact ⟨congrArg (· + 1) isCard, fun _ => Finset.mem_insert_self ..⟩
      next => exact ⟨isCard, isLast⟩
  obtain ⟨isCard, isLast⟩ := counted
  by_cases one : (countOwners m f).2 = 1
  · obtain ⟨q, sole⟩ := Finset.card_eq_one.mp (isCard.symm.trans one)
    have isOwner := isLast (by omega)
    have isQ : (countOwners m f).1 = q := by rwa [sole, Finset.mem_singleton] at isOwner
    refine Or.inl ⟨one, ((mem _ _).mp isOwner).1, fun i bound => ?_⟩
    have isSole : i ∈ owners pidMapSize ↔ i = q := by rw [sole, Finset.mem_singleton]
    rwa [mem, and_iff_right bound, ← isQ] at isSole
  · refine Or.inr ⟨one, ?_⟩
    rintro ⟨q, bound, sole⟩
    refine one (isCard.trans (Finset.card_eq_one.mpr ⟨q, Finset.ext fun i => ?_⟩))
    rw [mem, Finset.mem_singleton]
    exact ⟨fun owner => (sole i owner.1).mp owner.2, fun isQ => isQ ▸ ⟨bound, (sole q bound).mpr rfl⟩⟩

/-- After `pid` is struck from the owners of `f`, a sole owner that is left gets its
page unprotected. -/
inductive UnsharedPage (f pid : Nat) (s : Kernel) : Kernel → Prop where
  | sole {q : Nat} {space : AddrSpace} : q < pidMapSize →
      (∀ i < pidMapSize, (s.memoryMgr.setFramePID f pid false).framePID f i = true ↔ i = q) →
      s.allPCB q = some space →
      UnsharedPage f pid s
        ({ s with memoryMgr := s.memoryMgr.setFramePID f pid false }.setSpace q
          (some (space.unprotect f)))
  | notSole :
      (¬ ∃ q < pidMapSize, ∀ i < pidMapSize,
        (s.memoryMgr.setFramePID f pid false).framePID f i = true ↔ i = q) →
      UnsharedPage f pid s { s with memoryMgr := s.memoryMgr.setFramePID f pid false }

theorem unsetShare_inv {physicalPage : Int} (run : unsetShare physicalPage pid s = .ok s') :
    ∃ f, f < numPhysPages ∧ physicalPage = f ∧ UnsharedPage f pid s s' := by
  obtain ⟨f, index, run⟩ := bind_eq_ok.mp run
  obtain ⟨isFrame, bound⟩ := frameIndex_eq_ok.mp index
  refine ⟨f, bound, isFrame, ?_⟩
  dsimp only at run
  rcases countOwners_spec (s.memoryMgr.setFramePID f pid false) f with
    ⟨one, below, sole⟩ | ⟨notOne, notSole⟩
  · rw [if_pos one] at run
    obtain ⟨space, found, rfl⟩ := unsetReadOnly_inv run
    exact .sole below sole found
  · rw [if_neg notOne] at run
    cases run
    exact .notSole notSole

/-! ## Paging in -/

theorem readSwapPage_eq_ok {pid vpn : Nat} {page : Nat → Byte} (bound : vpn * pageSize < 2 ^ 32) :
    readSwapPage files pid vpn = .ok page ↔
      ∃ file, files (.swap pid) = some file ∧ 0 ≤ toInt32 (vpn * pageSize) ∧
        vpn * pageSize + pageSize ≤ file.length ∧
        page = fun i => if i < pageSize then file.bytes (vpn * pageSize + i) else 0#8 := by
  unfold readSwapPage
  rw [bind_eq_ok]
  apply exists_congr
  intro file
  rw [swapFile_eq_ok, bind_eq_ok]
  apply and_congr_right
  intro opened
  constructor
  · rintro ⟨⟨buffer, count⟩, read, result⟩
    obtain ⟨seek, ⟨negative, -⟩ | ⟨-, rfl, rfl⟩⟩ := File.readAt_eq_ok.mp read
    · simp [pageSize] at negative
    · rw [toInt32_of_nonneg bound seek] at result
      dsimp only at result
      split at result
      next short => cases result
      next whole =>
        cases result
        have complete : vpn * pageSize + pageSize ≤ file.length := by
          simp only [pageSize] at whole ⊢
          omega
        refine ⟨seek, complete, ?_⟩
        funext i
        have count : min pageSize (file.length - vpn * pageSize) = pageSize := by omega
        simp only [Int.toNat_natCast, count]
  · rintro ⟨seek, complete, rfl⟩
    refine ⟨_, File.readAt_eq_ok.mpr ⟨seek, Or.inr ⟨by simp [pageSize], rfl, rfl⟩⟩, ?_⟩
    rw [toInt32_of_nonneg bound seek]
    have count : min pageSize (file.length - vpn * pageSize) = pageSize := by omega
    simp only [Int.toNat_natCast, count, lt_irrefl, if_false]
    rfl

inductive PageContents (files : Files) (pid : Nat) (space : AddrSpace) (virtAddr : BitVec 32) :
    (Nat → Byte) → Bool → Prop where
  | zeroed : space.codeDataEnd ≤ virtAddr.toNat →
      (space.pageTable (virtAddr.toNat / pageSize)).zeroFilled = false →
      PageContents files pid space virtAddr (fun _ => 0#8) true
  | swapped {page : Nat → Byte} :
      (space.codeDataEnd ≤ virtAddr.toNat →
        (space.pageTable (virtAddr.toNat / pageSize)).zeroFilled = true) →
      readSwapPage files pid (virtAddr.toNat / pageSize) = .ok page →
      PageContents files pid space virtAddr page
        (space.pageTable (virtAddr.toNat / pageSize)).zeroFilled

def TranslationEntry.pagedIn (entry : TranslationEntry) (vpn f : Nat) (zeroFilled : Bool) :
    TranslationEntry :=
  { entry with
    virtualPage := vpn
    physicalPage := f
    valid := true
    readOnly := false
    zeroFilled := zeroFilled }

def Kernel.fillPage (t : Kernel) (pid : Nat) (space : AddrSpace) (vpn f : Nat)
    (page : Nat → Byte) (entry : TranslationEntry) : Kernel :=
  (t.setMemory (bcopy page (f * pageSize) pageSize t.machine.mainMemory)).setSpace pid
    (some (space.setEntry vpn entry))

theorem pageIn_inv {virtAddr : BitVec 32} (sized : s.memoryMgr.memoryMap.numBits = numPhysPages)
    (run : pageIn pid virtAddr s = .ok s') :
    ∃ f t space page zeroFilled, GotPage pid (-1) s f t ∧ t.allPCB pid = some space ∧
      virtAddr.toNat / pageSize < space.numPages ∧
      PageContents t.files pid space virtAddr page zeroFilled ∧
      s' = t.fillPage pid space (virtAddr.toNat / pageSize) f page
        ((space.pageTable (virtAddr.toNat / pageSize)).pagedIn (virtAddr.toNat / pageSize) f
          zeroFilled) := by
  obtain ⟨⟨f, t⟩, got, run⟩ := bind_eq_ok.mp run
  obtain ⟨space, found, run⟩ := bind_eq_ok.mp run
  refine ⟨f, t, space, ?_⟩
  split at run
  next outside => cases run
  next inside =>
    dsimp only at run
    split at run
    next zeroed =>
      simp only [ge_iff_le, Bool.and_eq_true, decide_eq_true_eq, Bool.not_eq_eq_eq_not] at zeroed
      cases run
      exact ⟨_, _, getPage_inv sized got, Kernel.space_eq_ok.mp found, by omega,
        .zeroed zeroed.1 zeroed.2, rfl⟩
    next notZeroed =>
      obtain ⟨page, read, run⟩ := bind_eq_ok.mp run
      cases run
      refine ⟨_, _, getPage_inv sized got, Kernel.space_eq_ok.mp found, by omega,
        .swapped ?_ read, rfl⟩
      intro beyond
      simpa [beyond] using notZeroed

/-! ## Copy on write -/

def TranslationEntry.copied (entry : TranslationEntry) (f : Nat) : TranslationEntry :=
  { entry with physicalPage := f, readOnly := false }

@[simp] theorem TranslationEntry.copied_physicalPage (entry : TranslationEntry) (f : Nat) :
    (entry.copied f).physicalPage = f := rfl

@[simp] theorem TranslationEntry.copied_readOnly (entry : TranslationEntry) (f : Nat) :
    (entry.copied f).readOnly = false := rfl

theorem cow_inv {virtAddr : BitVec 32} (sized : s.memoryMgr.memoryMap.numBits = numPhysPages)
    (run : cow pid virtAddr s = .ok s') :
    ∃ space f t space' oppn, s.allPCB pid = some space ∧
      virtAddr.toNat / pageSize < space.numPages ∧
      GotPage pid (space.pageTable (virtAddr.toNat / pageSize)).physicalPage s f t ∧
      t.allPCB pid = some space' ∧
      (space'.pageTable (virtAddr.toNat / pageSize)).physicalPage = (oppn : Nat) ∧
      oppn < numPhysPages ∧
      UnsharedPage oppn pid
        (t.fillPage pid space' (virtAddr.toNat / pageSize) f (frame t.machine.mainMemory oppn)
          ((space'.pageTable (virtAddr.toNat / pageSize)).copied f)) s' := by
  obtain ⟨space, found, run⟩ := bind_eq_ok.mp run
  dsimp only at run
  split at run
  next outside => cases run
  next inside =>
    obtain ⟨⟨f, t⟩, got, run⟩ := bind_eq_ok.mp run
    obtain ⟨space', found', run⟩ := bind_eq_ok.mp run
    obtain ⟨oppn, index, run⟩ := bind_eq_ok.mp run
    obtain ⟨isFrame, bound⟩ := frameIndex_eq_ok.mp index
    obtain ⟨g, -, same, unshared⟩ := unsetShare_inv run
    obtain rfl : oppn = g := by exact_mod_cast same
    exact ⟨space, f, t, space', oppn, Kernel.space_eq_ok.mp found, by omega,
      getPage_inv sized got, Kernel.space_eq_ok.mp found', isFrame, bound, unshared⟩

/-! ## New address spaces -/

/-- The image of a program in its swap file: code and data from the executable, then
zeros.  A negative size reads nothing. -/
def swapImage (executable : File) (codeDataSize codeDataFileAddr : BitVec 32) : Nat → Byte :=
  fun i => if (i : Int) < codeDataSize.toInt then executable.bytes (codeDataFileAddr.toInt.toNat + i)
    else 0#8

theorem Files.set_set (files : Files) (name : FileName) (first second : File) :
    (files.set name first).set name second = files.set name second := by
  funext other
  simp only [Files.set]
  split <;> rfl

/-- The read of `AllocateSwapFile` fills its buffer with the image, which ends where
the read stopped. -/
theorem readAt_swapImage {executable : File} {codeDataSize codeDataFileAddr : BitVec 32}
    {buffer : Nat → Byte} {rcount : Int}
    (read : executable.readAt (fun _ => 0#8) codeDataSize.toInt codeDataFileAddr.toInt =
      .ok (buffer, rcount)) :
    0 ≤ codeDataFileAddr.toInt ∧ buffer = swapImage executable codeDataSize codeDataFileAddr ∧
      ∀ i : Nat, rcount ≤ i → swapImage executable codeDataSize codeDataFileAddr i = 0#8 := by
  obtain ⟨seek, ⟨negative, rfl, rfl⟩ | ⟨nonneg, rfl, rfl⟩⟩ := File.readAt_eq_ok.mp read
  · have nothing : ∀ i : Nat, swapImage executable codeDataSize codeDataFileAddr i = 0#8 :=
      fun i => if_neg (by omega)
    exact ⟨seek, funext fun i => (nothing i).symm, fun i _ => nothing i⟩
  · have stopped : ∀ i : Nat, (min codeDataSize.toInt.toNat
        (executable.length - codeDataFileAddr.toInt.toNat) : Nat) ≤ i →
        swapImage executable codeDataSize codeDataFileAddr i = 0#8 := by
      intro i beyond
      unfold swapImage
      split
      next within => exact executable.zeroPastEnd _ (by omega)
      next => rfl
    refine ⟨seek, funext fun i => ?_, fun i beyond => stopped i (by exact_mod_cast beyond)⟩
    split
    next within => exact (if_pos (by omega)).symm
    next beyond => exact (stopped i (by omega)).symm

/-- The swap file has `SwapFileSize` bytes, those of the image. -/
theorem allocateSwapFile_inv {openFile : FileName}
    {codeDataSize codeDataFileAddr swapFileSize : BitVec 32} (run : allocateSwapFile pid openFile
      codeDataSize codeDataFileAddr swapFileSize files = .ok files') :
    ∃ executable swap, files.create (.swap pid) openFile = some executable ∧
      0 ≤ codeDataFileAddr.toInt ∧ 0 ≤ swapFileSize.toInt ∧ swap.length = swapFileSize.toNat ∧
      (∀ i, swap.bytes i = swapImage executable codeDataSize codeDataFileAddr i) ∧
      files' = files.set (.swap pid) swap := by
  unfold allocateSwapFile at run
  dsimp only at run
  split at run
  next missing => cases run
  next executable opened =>
    obtain ⟨⟨buffer, rcount⟩, read, run⟩ := bind_eq_ok.mp run
    dsimp only at run
    split at run
    next overrun => cases run
    next fits =>
      obtain ⟨swap, written, run⟩ := bind_eq_ok.mp run
      obtain ⟨-, positive, rfl⟩ := File.writeAt_eq_ok.mp written
      cases run
      have size : swapFileSize.toInt.toNat = swapFileSize.toNat := by
        rw [BitVec.toInt_eq_toNat_cond] at positive ⊢
        split at positive <;> omega
      obtain ⟨seek, rfl, stopped⟩ := readAt_swapImage read
      refine ⟨executable, File.empty.write (swapImage executable codeDataSize codeDataFileAddr)
        swapFileSize.toNat 0, opened, seek, positive, ?_, ?_, ?_⟩
      · simp only [File.write, File.empty]
        split <;> omega
      · intro i
        simp only [File.write, File.empty, Nat.zero_le, Nat.zero_add, true_and, Nat.sub_zero]
        split
        next => rfl
        next beyond => exact (stopped i (by omega)).symm
      · rw [size]
        exact Files.set_set _ _ _ _

def freshSpace (filename : FileName) (noffH : NoffHeader) : AddrSpace where
  numPages := divRoundUp noffH.spaceSize.toNat pageSize
  pageTable i := freshEntry i false
  codeDataSize := noffH.codeDataSize
  codeDataVirtAddr := noffH.code.virtualAddr
  codeDataFileAddr := noffH.code.inFileAddr
  swapFileSize := BitVec.ofNat 32 (divRoundUp noffH.spaceSize.toNat pageSize * pageSize)
  execfilename := filename
  numPages_le := noffH.numPages_le

theorem construct_eq_ok {bigEndian : Bool} :
    construct bigEndian pid filename files = .ok (space, files') ↔
      ∃ executable noffH, files filename = some executable ∧
        readHeader bigEndian executable = .ok noffH ∧ space = freshSpace filename noffH ∧
        allocateSwapFile pid filename space.codeDataSize space.codeDataFileAddr
          space.swapFileSize files = .ok files' := by
  unfold construct
  cases files filename with
  | none => simp
  | some executable =>
    simp only [Option.some.injEq, bind_eq_ok]
    constructor
    · rintro ⟨noffH, header, files'', allocated, result⟩
      obtain ⟨rfl, rfl⟩ := Prod.mk.inj (Except.ok.inj result)
      exact ⟨executable, noffH, rfl, header, rfl, allocated⟩
    · rintro ⟨_, noffH, rfl, header, rfl, allocated⟩
      exact ⟨noffH, header, files', allocated, rfl⟩

theorem createPCB_inv (sized : s.pidMap.numBits = pidMapSize) (run : createPCB s = some (pid, s')) :
    pid < pidMapSize ∧ s.pidMap.bit pid = false ∧
      s' = { s with pidMap := s.pidMap.markBit pid } := by
  unfold createPCB at run
  split at run
  next full => cases run
  next notFull =>
    obtain ⟨j, below, found, -, result⟩ := BitMap.find_of_numClear notFull
    rw [result] at run
    cases run
    exact ⟨sized ▸ below, found, rfl⟩

theorem startProcess_inv (sized : s.pidMap.numBits = pidMapSize)
    (run : startProcess filename s = .ok (some pid, s')) :
    ∃ space files, pid < pidMapSize ∧ s.pidMap.bit pid = false ∧
      construct s.machine.bigEndian pid filename s.files = .ok (space, files) ∧
      s' = { s with pidMap := s.pidMap.markBit pid, files := files }.setSpace pid (some space) := by
  unfold startProcess at run
  split at run
  next missing => cases run
  next =>
    split at run
    next full => cases run
    next newPID t created =>
      obtain ⟨⟨space, files⟩, constructed, result⟩ := bind_eq_ok.mp run
      obtain ⟨bound, free, rfl⟩ := createPCB_inv sized created
      cases result
      exact ⟨space, files, bound, free, constructed, rfl⟩

/-! ## Fork -/

def TranslationEntry.shared (entry : TranslationEntry) : TranslationEntry :=
  { entry with readOnly := entry.physicalPage != -1 || entry.readOnly }

def AddrSpace.forkParent (space : AddrSpace) : AddrSpace :=
  { space with
    pageTable := fun v => if v < space.numPages then (space.pageTable v).shared
      else space.pageTable v }

def AddrSpace.forkChild (space : AddrSpace) (junk : Nat → TranslationEntry) : AddrSpace :=
  { space with
    pageTable := fun v => if v < space.numPages then (space.pageTable v).shared else junk v }

structure SharedFrames (m : MemoryMgr) (pageTable : Nat → TranslationEntry) (n childPID : Nat)
    (m' : MemoryMgr) : Prop where
  frames : ∀ v < n, (pageTable v).physicalPage = -1 ∨
    ∃ f < numPhysPages, (pageTable v).physicalPage = (f : Int)
  owners : ∀ f q, m'.framePID f q = true ↔ m.framePID f q = true ∨
    (q = childPID ∧ ∃ v < n, (pageTable v).physicalPage = (f : Int))
  others : m' = { m with framePID := m'.framePID, frametime := m'.frametime }

theorem setShare_inv {physicalPage : Int} {m m' : MemoryMgr}
    (run : setShare physicalPage pid m = .ok m') :
    (physicalPage = -1 ∧ m' = overrunFrametime m pid) ∨
      ∃ f < numPhysPages, physicalPage = (f : Int) ∧ m' = m.setFramePID f pid true := by
  unfold setShare at run
  split at run
  next absent =>
    cases run
    exact Or.inl ⟨absent, rfl⟩
  next present =>
    obtain ⟨f, index, run⟩ := bind_eq_ok.mp run
    obtain ⟨isFrame, bound⟩ := frameIndex_eq_ok.mp index
    cases run
    exact Or.inr ⟨f, bound, isFrame, rfl⟩

theorem SharedFrames.next {m t t' : MemoryMgr} {n childPID : Nat}
    (earlier : SharedFrames m pageTable n childPID t)
    (run : setShare (pageTable n).physicalPage childPID t = .ok t') :
    SharedFrames m pageTable (n + 1) childPID t' := by
  rcases setShare_inv run with ⟨absent, rfl⟩ | ⟨f, bound, isFrame, rfl⟩
  · refine ⟨Nat.forall_lt_succ_right.mpr ⟨earlier.frames, Or.inl absent⟩, fun g q => ?_, ?_⟩
    · show t.framePID g q = true ↔ _
      rw [earlier.owners, Nat.exists_lt_succ_right, absent]
      simp
    · rw [earlier.others]
      rfl
  · refine ⟨Nat.forall_lt_succ_right.mpr ⟨earlier.frames, Or.inr ⟨f, bound, isFrame⟩⟩,
      fun g q => ?_, ?_⟩
    · rw [Nat.exists_lt_succ_right, isFrame]
      simp only [MemoryMgr.setFramePID, Nat.cast_inj]
      split
      next entered => simp [entered.1, entered.2]
      next other =>
        rw [earlier.owners]
        constructor
        · rintro (owner | ⟨child, held⟩)
          · exact Or.inl owner
          · exact Or.inr ⟨child, Or.inl held⟩
        · rintro (owner | ⟨child, held | same⟩)
          · exact Or.inl owner
          · exact Or.inr ⟨child, held⟩
          · exact absurd ⟨same.symm, child⟩ other
    · rw [earlier.others]
      rfl

theorem forkLoop_inv {childPID n : Nat} {m m' : MemoryMgr}
    {pageTable junk parent child : Nat → TranslationEntry}
    (run : forUpToM (forkEntry childPID) n (m, pageTable, junk) = .ok (m', parent, child)) :
    SharedFrames m pageTable n childPID m' ∧
      parent = (fun v => if v < n then (pageTable v).shared else pageTable v) ∧
      child = fun v => if v < n then (pageTable v).shared else junk v := by
  apply forUpToM_invariant (fun n (t : MemoryMgr × (Nat → TranslationEntry) ×
    (Nat → TranslationEntry)) => SharedFrames m pageTable n childPID t.1 ∧
      t.2.1 = (fun v => if v < n then (pageTable v).shared else pageTable v) ∧
      t.2.2 = fun v => if v < n then (pageTable v).shared else junk v) run
  · refine ⟨⟨by simp, by simp, rfl⟩, by simp, by simp⟩
  · rintro i - ⟨t, parent, child⟩ t' ⟨shared, rfl, rfl⟩ round
    obtain ⟨t'', set, round⟩ := bind_eq_ok.mp round
    simp only [lt_irrefl, if_false] at set
    have next (rest : Nat → TranslationEntry) (v : Nat) : (if v = i then (pageTable i).shared
        else if v < i then (pageTable v).shared else rest v) =
        if v < i + 1 then (pageTable v).shared else rest v := by
      by_cases here : v = i
      · simp [here]
      · have same : v < i + 1 ↔ v < i := by omega
        simp only [here, if_false, same]
    cases round
    simp only [lt_irrefl, if_false]
    exact ⟨shared.next set, funext (next pageTable), funext (next junk)⟩

theorem fork_inv (run : fork pid childPID junk s = .ok s') :
    ∃ space m files, s.allPCB pid = some space ∧
      SharedFrames s.memoryMgr space.pageTable space.numPages childPID m ∧
      allocateSwapFile childPID space.execfilename space.codeDataSize space.codeDataFileAddr
        space.swapFileSize s.files = .ok files ∧
      s' = ({ s with memoryMgr := m, files := files }.setSpace pid (some space.forkParent)).setSpace
        childPID (some (space.forkChild junk)) := by
  obtain ⟨space, found, run⟩ := bind_eq_ok.mp run
  obtain ⟨⟨m, parent, child⟩, loop, run⟩ := bind_eq_ok.mp run
  obtain ⟨files, allocated, run⟩ := bind_eq_ok.mp run
  obtain ⟨shared, rfl, rfl⟩ := forkLoop_inv loop
  cases run
  exact ⟨space, m, files, Kernel.space_eq_ok.mp found, shared, allocated, rfl⟩

theorem forkSystemcall_inv (sized : s.pidMap.numBits = pidMapSize)
    (run : forkSystemcall pid junk s = .ok (some childPID, s')) :
    ∃ space m files, childPID < pidMapSize ∧ s.pidMap.bit childPID = false ∧
      s.allPCB pid = some space ∧
      SharedFrames s.memoryMgr space.pageTable space.numPages childPID m ∧
      allocateSwapFile childPID space.execfilename space.codeDataSize space.codeDataFileAddr
        space.swapFileSize s.files = .ok files ∧
      s' = ({ s with
          pidMap := s.pidMap.markBit childPID
          memoryMgr := m
          files := files }.setSpace pid (some space.forkParent)).setSpace
        childPID (some (space.forkChild junk)) := by
  unfold forkSystemcall at run
  split at run
  next full => cases run
  next newPID t created =>
    obtain ⟨t', forked, result⟩ := bind_eq_ok.mp run
    obtain ⟨bound, free, rfl⟩ := createPCB_inv sized created
    cases result
    obtain ⟨space, m, files, found, shared, allocated, rfl⟩ := fork_inv forked
    exact ⟨space, m, files, bound, free, found, shared, allocated, rfl⟩

/-! ## Exit, Kill and Exec -/

/-- One round of `ReleaseMemory` skips a page that is not resident, clears the frame
of a writable one, and gives up the share in a read-only one. -/
inductive ReleasedEntry (pid : Nat) (entry : TranslationEntry) (s : Kernel) : Kernel → Prop where
  | skipped : entry.physicalPage = -1 → ReleasedEntry pid entry s s
  | cleared {f : Nat} : entry.physicalPage = (f : Int) → entry.readOnly = false →
      ReleasedEntry pid entry s { s with
        memoryMgr := { s.memoryMgr with memoryMap := s.memoryMgr.memoryMap.clearBit f } }
  | unshared {f : Nat} {s' : Kernel} : entry.physicalPage = (f : Int) → f < numPhysPages →
      entry.readOnly = true → UnsharedPage f pid s s' → ReleasedEntry pid entry s s'

theorem releaseEntry_inv {entry : TranslationEntry} (run : releaseEntry pid entry s = .ok s') :
    ReleasedEntry pid entry s s' := by
  unfold releaseEntry at run
  split at run
  next writable =>
    simp only [Bool.and_eq_true, bne_iff_ne, Bool.not_eq_eq_eq_not, Bool.not_true] at writable
    obtain ⟨memoryMap, cleared, run⟩ := bind_eq_ok.mp run
    obtain ⟨inside, rfl⟩ := BitMap.clear_eq_ok.mp cleared
    cases run
    refine .cleared (Int.toNat_of_nonneg ?_).symm writable.2
    simp only [BitMap.inRange, decide_eq_true_eq] at inside
    exact inside.1
  next =>
    split at run
    next shared =>
      simp only [Bool.and_eq_true, bne_iff_ne] at shared
      obtain ⟨f, bound, isFrame, unshared⟩ := unsetShare_inv run
      exact .unshared isFrame bound shared.2 unshared
    next notWritable notShared =>
      cases run
      apply ReleasedEntry.skipped
      by_contra resident
      cases protectedPage : entry.readOnly with
      | true => simp [resident, protectedPage] at notShared
      | false => simp [resident, protectedPage] at notWritable

theorem terminate_inv (run : terminate pid s = .ok s') :
    ∃ space, s.allPCB pid = some space ∧
      releaseMemory pid space
        ({ s with pidMap := s.pidMap.clearBit pid }.setSpace pid none) = .ok s' := by
  obtain ⟨space, found, run⟩ := bind_eq_ok.mp run
  obtain ⟨pidMap, cleared, run⟩ := bind_eq_ok.mp run
  obtain ⟨-, rfl⟩ := BitMap.clear_eq_ok.mp cleared
  exact ⟨space, Kernel.space_eq_ok.mp found, run⟩

def AddrSpace.replaced (space : AddrSpace) (filename : FileName) (noffH : NoffHeader)
    (junk : Nat → Bool) : AddrSpace :=
  { space with
    pageTable := fun i => freshEntry i (junk i)
    codeDataSize := noffH.codeDataSize
    codeDataVirtAddr := noffH.code.virtualAddr
    codeDataFileAddr := noffH.code.inFileAddr
    swapFileSize := BitVec.ofNat 32 (space.numPages * pageSize)
    execfilename := filename }

theorem replaceMemory_inv {junk : Nat → Bool} (run : replaceMemory pid filename junk s = .ok s') :
    ∃ space executable noffH files t, s.allPCB pid = some space ∧
      s.files filename = some executable ∧
      readHeader s.machine.bigEndian executable = .ok noffH ∧
      allocateSwapFile pid filename noffH.codeDataSize noffH.code.inFileAddr
        (BitVec.ofNat 32 (space.numPages * pageSize)) s.files = .ok files ∧
      releaseMemory pid space { s with files := files } = .ok t ∧
      s' = t.setSpace pid (some (space.replaced filename noffH junk)) := by
  obtain ⟨space, found, run⟩ := bind_eq_ok.mp run
  split at run
  next missing => cases run
  next executable opened =>
    obtain ⟨noffH, header, run⟩ := bind_eq_ok.mp run
    obtain ⟨files, allocated, run⟩ := bind_eq_ok.mp run
    obtain ⟨t, released, run⟩ := bind_eq_ok.mp run
    cases run
    exact ⟨space, executable, noffH, files, t, Kernel.space_eq_ok.mp found, opened, header,
      allocated, released, rfl⟩

/-! ## Accesses -/

structure Accessed (pageTable : Nat → TranslationEntry) (numPages : Nat) (addr : BitVec 32)
    (size : Nat) (writing : Bool) (f : Nat) : Prop where
  inTable : addr.toNat / pageSize < numPages
  valid : (pageTable (addr.toNat / pageSize)).valid = true
  permitted : writing = true → (pageTable (addr.toNat / pageSize)).readOnly = false
  aligned : ¬ (size = 4 ∧ addr &&& 3#32 ≠ 0#32) ∧ ¬ (size = 2 ∧ addr &&& 1#32 ≠ 0#32)
  frame : f < numPhysPages
  frameNumber : f = (BitVec.ofInt 32 (pageTable (addr.toNat / pageSize)).physicalPage).toNat
  inMemory : f * pageSize + addr.toNat % pageSize + size ≤ memorySize

def TranslationEntry.touched (entry : TranslationEntry) (writing : Bool) : TranslationEntry :=
  { entry with use := true, dirty := writing || entry.dirty }

theorem translate_inv {numPages size physAddr : Nat} {writing : Bool} {entry : TranslationEntry}
    (run : translate pageTable numPages addr size writing = .ok (.done (physAddr, entry))) :
    ∃ f, Accessed pageTable numPages addr size writing f ∧
      physAddr = f * pageSize + addr.toNat % pageSize ∧
      entry = (pageTable (addr.toNat / pageSize)).touched writing := by
  unfold translate at run
  dsimp only at run
  split at run
  next => cases run
  next aligned =>
  split at run
  next => cases run
  next inTable =>
  split at run
  next => cases run
  next valid =>
  split at run
  next => cases run
  next permitted =>
  split at run
  next => cases run
  next frame =>
    obtain ⟨_, inMemory, run⟩ := bind_eq_ok.mp run
    cases run
    refine ⟨_, ⟨by omega, by simpa using valid, ?_, ?_, by omega, rfl, by simpa using inMemory⟩,
      rfl, rfl⟩
    · rintro rfl
      simpa using permitted
    · simpa [not_or] using aligned

theorem readMem_inv {addr value : BitVec 32}
    (run : readMem pid addr size s = .ok (.done (value, s'))) :
    ∃ space f, s.allPCB pid = some space ∧
      Accessed space.pageTable space.numPages addr size false f ∧
      loadValue s.machine (f * pageSize + addr.toNat % pageSize) size = .ok value ∧
      s' = s.setSpace pid (some (space.setEntry (addr.toNat / pageSize)
        ((space.pageTable (addr.toNat / pageSize)).touched false))) := by
  obtain ⟨space, found, run⟩ := bind_eq_ok.mp run
  obtain ⟨outcome, translated, run⟩ := bind_eq_ok.mp run
  split at run
  next => cases run
  next physAddr entry =>
    obtain ⟨value', loaded, result⟩ := bind_eq_ok.mp run
    obtain ⟨f, accessed, rfl, rfl⟩ := translate_inv translated
    cases result
    exact ⟨space, f, Kernel.space_eq_ok.mp found, accessed, loaded, rfl⟩

theorem writeMem_inv {addr value : BitVec 32}
    (run : writeMem pid addr size value s = .ok (.done s')) :
    ∃ space f bytes, s.allPCB pid = some space ∧
      Accessed space.pageTable space.numPages addr size true f ∧
      storeBytes s.machine size value = .ok bytes ∧
      s' = (s.setMemory (bcopy bytes (f * pageSize + addr.toNat % pageSize) size
          s.machine.mainMemory)).setSpace pid
        (some (space.setEntry (addr.toNat / pageSize)
          ((space.pageTable (addr.toNat / pageSize)).touched true))) := by
  obtain ⟨space, found, run⟩ := bind_eq_ok.mp run
  obtain ⟨outcome, translated, run⟩ := bind_eq_ok.mp run
  split at run
  next => cases run
  next physAddr entry =>
    obtain ⟨bytes, stored, result⟩ := bind_eq_ok.mp run
    obtain ⟨f, accessed, rfl, rfl⟩ := translate_inv translated
    cases result
    exact ⟨space, f, bytes, Kernel.space_eq_ok.mp found, accessed, stored, rfl⟩

end Nachos
