import Nachos.Verified.DiskConsistency

/-!
# Writes reach one file only

An `OpenFile` has its own copy of the header.  While the file is in the directory the copy is the
header on disk, and a write at a position that is not negative stays within the data sectors of the
file.  `Remove` frees these sectors, but does not know of open files: a handle that is still used
afterwards writes into whatever file `Create` has given the sectors to.
-/

namespace Nachos

open Loops Runs

/-! ## The handle's file is in the directory -/

/-- From `disk` to `disk'` the bitmap, the directory and the headers are as before, and so are the
contents of all files but that of the handle. -/
structure Isolated (disk disk' : Disk) (h : Handle) : Prop where
  map : ∀ b < numSectors, (storedMap disk').bit b = (storedMap disk).bit b
  directory : (storedDirectory disk).Agrees (storedDirectory disk')
  headers : HeadersKept disk disk' (storedDirectory disk)
  contents : ∀ i, (Owner.entry i).InUse (storedDirectory disk) →
    ¬ (h.inDirectory = true ∧ (storedDirectory disk).sector i = h.file.sector) →
    ((Owner.entry i).header disk (storedDirectory disk)).contents disk' =
      ((Owner.entry i).header disk (storedDirectory disk)).contents disk

theorem FileSystem.Valid.isolated {fs : FileSystem} {disk' : Disk} {h : Handle} {i : Nat}
    (valid : fs.Valid) (held : (Owner.entry i).InUse (storedDirectory fs.disk))
    (inDirectory : h.inDirectory = true)
    (sector : (storedDirectory fs.disk).sector i = h.file.sector)
    (only : OnlyChanges fs.disk disk'
      ((Owner.entry i).header fs.disk (storedDirectory fs.disk)).blocks) :
    Isolated fs.disk disk' h where
  map _ bound :=
    bit_congr (fun _ small => valid.laid.storedMap_unchanged held only (by simp) small) bound
  directory := valid.laid.storedDirectory_unchanged held only (by simp)
  headers _ other := valid.laid.header_unchanged held only other
  contents j other notHandle := by
    apply (valid.write_other held only other ?_).contents
    intro same
    exact notHandle ⟨inDirectory, same ▸ sector⟩

namespace FileSystem

variable {fs fs' : FileSystem}

theorem Valid.writeAt_isolated {handle : Nat} {buf source : Nat → Byte} {numBytes position : Int}
    (valid : fs.Valid)
    (proper : FileSystemCall.Proper fs (.writeAt handle buf source numBytes position))
    (nonneg : 0 ≤ position)
    (step : FileSystemStep fs (.writeAt handle buf source numBytes position) fs') :
    ∃ h, fs.handles[handle]? = some h ∧ Isolated fs.disk fs'.disk h := by
  obtain ⟨h, isHandle, inDirectory⟩ := proper
  refine ⟨h, isHandle, ?_⟩
  simp only [FileSystemStep, perform, isHandle] at step
  obtain ⟨⟨disk', count⟩, done, result⟩ := bind_eq_ok.mp step
  cases result
  have current := valid.handles h (List.mem_of_getElem? isHandle) inDirectory
  obtain ⟨i, held, sector, only⟩ := writeAt_only valid current nonneg done
  exact valid.isolated held inDirectory sector only

end FileSystem

/-- In every run after formatting in which `WriteAt` gets handles of files that are in the directory
and positions that are not negative, each `WriteAt` changes the contents of its own file only. -/
theorem writes_isolated (disk : Disk) (heap : Heap) :
    ∃ start, FileSystem.format disk heap = .ok start ∧
      ∀ history s, Run FileSystemStep start history s →
        Guarded (fun fs call => call.Proper fs) history →
        Guarded (fun _ call => call.NonnegPosition) history →
        ∀ fs handle buf source numBytes position fs',
          (fs, .writeAt handle buf source numBytes position, fs') ∈ transitions history s →
          ∃ h, fs.handles[handle]? = some h ∧ Isolated fs.disk fs'.disk h := by
  obtain ⟨start, formatted, initial, _⟩ := format_ok disk heap
  refine ⟨start, formatted, fun history s run proper nonneg => ?_⟩
  have both : Guarded (fun fs call => call.Proper fs ∧ call.NonnegPosition) history :=
    fun taken member => ⟨proper taken member, nonneg taken member⟩
  have each := run.eachTransition
    (Q := fun (fs, call, fs') => ∀ handle buf source numBytes position,
      call = .writeAt handle buf source numBytes position →
        ∃ h, fs.handles[handle]? = some h ∧ Isolated fs.disk fs'.disk h)
    initial (fun _ _ _ before guard => before.step guard.1 guard.2)
    (by
      intro fs call fs' valid guard step handle buf source numBytes position isWrite
      subst isWrite
      exact valid.writeAt_isolated guard.1 guard.2 step) both
  intro fs handle buf source numBytes position fs' member
  exact each _ member handle buf source numBytes position rfl

/-- A write into a new file. -/
theorem first_write_isolated : ∃ start fs fs' s h,
    FileSystem.format (fun _ _ => 0#8) zeroHeap = .ok start ∧
      Run FileSystemStep start [(fs', .writeAt 0 (fun _ => 0#8) (fun _ => 1#8) 200 100),
        (fs, .openFile nameA zeroHeap), (start, .create nameA 300 zeroHeap)] s ∧
      fs'.handles[0]? = some h ∧ Isolated fs'.disk s.disk h := by
  obtain ⟨start, fs, fs', h, formatted, created, opened, _, handles, inDirectory, covering, _⟩ :=
    exists_opened (fun _ _ => 0#8) zeroHeap nameA (show (0 : Int) ≤ 300 by decide) (by decide)
  obtain ⟨disk', written, _⟩ := OpenFile.writeAt_ok covering fs'.disk (fun _ => 0#8) (fun _ => 1#8)
    (show ((100 : Nat) : Int) + 200 < 2 ^ 31 by decide)
  have run := ((Run.start.next created).next opened).next (writeAt_step handles written)
  obtain ⟨start', formatted', isolated⟩ := writes_isolated (fun _ _ => 0#8) zeroHeap
  obtain rfl : start = start' := Except.ok.inj (formatted.symm.trans formatted')
  have isHandle : fs'.handles[0]? = some h := by rw [handles, List.getElem?_cons_zero]
  have small : (0 : Int) ≤ 300 ∧ (300 : Int) ≤ maxFileSize := by decide
  obtain ⟨h', isHandle', holds⟩ := isolated _ _ run
    (guarded_cons.mpr ⟨⟨h, isHandle, inDirectory⟩,
      guarded_cons.mpr ⟨trivial, guarded_cons.mpr ⟨small, nofun⟩⟩⟩)
    (by simp [Guarded, FileSystemCall.NonnegPosition]) _ _ _ _ _ _ _ (List.mem_cons_self ..)
  exact ⟨start, fs, fs', _, h', formatted, run, isHandle', holds⟩

/-! ## The handle's file has been removed -/

structure LowestFree (used : Int → Prop) (sector : Int) : Prop where
  nonneg : 0 ≤ sector
  free : ¬ used sector
  lowest : ∀ b, 0 ≤ b → b < sector → used b

theorem LowestFree.unique {used : Int → Prop} {sector sector' : Int}
    (first : LowestFree used sector) (second : LowestFree used sector') : sector = sector' := by
  by_contra different
  rcases Int.lt_or_lt_of_ne different with before | before
  · exact first.free (second.lowest _ first.nonneg before)
  · exact second.free (first.lowest _ second.nonneg before)

def TwoLowest (m : BitMap) (sector data : Int) : Prop :=
  LowestFree m.Marked sector ∧ LowestFree (fun b => m.Marked b ∨ b = sector) data

variable {m m' : BitMap}

theorem TwoLowest.unique {sector sector' data data' : Int} (same : ∀ b, m.Marked b ↔ m'.Marked b)
    (first : TwoLowest m sector data) (second : TwoLowest m' sector' data') : data = data' := by
  have marked : m.Marked = m'.Marked := funext fun b => propext (same b)
  obtain ⟨header, block⟩ := first
  obtain ⟨header', block'⟩ := second
  rw [marked] at header block
  obtain rfl := header.unique header'
  exact block.unique block'

theorem FileHeader.allocate_lowest {junk hdr : FileHeader} {size : Int} (positive : 0 < size)
    (small : size ≤ sectorSize) (disk : m.numBits = Nachos.numSectors)
    (done : junk.allocate m size = .ok (true, hdr, m')) :
    LowestFree m.Marked (hdr.dataSector 0) := by
  have one : divRoundUpInt size sectorSize = 1 := by
    rw [divRoundUpInt_eq (by omega)]
    simp only [ceilDiv, sectorSize] at *
    omega
  have count : ((junk.setWord 0 size).setWord 1 1).numSectors = 1 :=
    setWord_same 1 (by decide) (by decide)
  simp only [allocate, one, count] at done
  split at done
  next => cases done
  next enough =>
    obtain ⟨sector, m₁, found, -, -, inRange, unmarked, -⟩ :=
      BitMap.find_marked (show 0 < m.numClear by omega)
    have taken : allocateSectors 1 ((junk.setWord 0 size).setWord 1 1) m =
        .ok (((junk.setWord 0 size).setWord 1 1).setWord 2 sector, m₁) := by
      simp only [allocateSectors, forUpToM, found, setDataSector_ok (show 0 < numDirect by decide),
        ok_bind, pure_eq]
    rw [BitMap.inRange_iff, disk] at inRange
    have isSector :
        (((junk.setWord 0 size).setWord 1 1).setWord 2 sector).dataSector 0 = sector := by
      apply setWord_same 2 inRange.1
      have total : Nachos.numSectors = 1024 := rfl
      omega
    simp only [Int.toNat_one, taken, ok_bind, pure_eq, Except.ok.injEq,
      Prod.mk.injEq, true_and] at done
    rw [← done.1, isSector]
    exact ⟨inRange.1, unmarked, fun b => BitMap.find_lowest found⟩

/-- The marked sectors of a layout depend on the directory only. -/
theorem Laid.marked_iff {disk : Disk} {d d' : Directory} (laid : Laid disk m d)
    (laid' : Laid disk m' d') (agrees : d.Agrees d') (b : Int) : m.Marked b ↔ m'.Marked b := by
  rw [laid.exact.used_iff, laid'.exact.used_iff]
  apply exists_congr
  intro o
  rw [← Owner.inUse_congr agrees]
  apply and_congr_right
  intro held
  rw [Owner.sectors, Owner.sectors, Owner.header, Owner.header,
    Owner.headerSector_congr agrees held]

namespace FileSystem

variable {fs : FileSystem} {name : Nat → Byte}

/-- `Create` of a file of one sector takes the two lowest sectors that are free. -/
theorem Valid.create_lowest (valid : fs.Valid) {size : Int} (positive : 0 < size)
    (small : size ≤ sectorSize) (creatable : Creatable fs.disk name size) (heap : Heap) :
    ∃ disk' i, fs.create name size heap = .ok (true, disk') ∧ Valid { fs with disk := disk' } ∧
      NewFile fs.disk disk' name size i ∧ FilesKept fs.disk disk' ∧
      TwoLowest (storedMap fs.disk) ((storedDirectory disk').sector i)
        (((Owner.entry i).header disk' (storedDirectory disk')).dataSector 0) := by
  cases create_stages valid name heap with
  | inl early => exact absurd creatable (early size).2
  | inr stages =>
    obtain ⟨m, d, sector, m₁, i, d', prepared, stages⟩ := stages
    obtain ⟨goesOn, needs⟩ := stages size
    have numBits := prepared.numBits.trans prepared.laid.numBits
    have most : size ≤ maxFileSize := small.trans (by decide)
    obtain ⟨success, hdr, m₂, allocateDone, enough, allocated⟩ :=
      FileHeader.allocate_ok numBits (by omega) most ⟨heap.words 1⟩
    obtain rfl : success = true := enough.mpr (needs.mp creatable)
    obtain ⟨disk', done, valid', newFile, filesKept, isSector, isHeader⟩ :=
      prepared.commit valid allocateDone (allocated rfl) (by omega) most
    have same : m.Marked = (storedMap fs.disk).Marked :=
      funext fun b => propext (prepared.laid.marked_iff valid.laid prepared.agrees b)
    have sameNext : m₁.Marked = fun b => (storedMap fs.disk).Marked b ∨ b = sector :=
      funext fun b => propext (by rw [prepared.marked, same])
    have isDataSector : (headerAt disk' sector).dataSector 0 = hdr.dataSector 0 := by
      rw [FileHeader.dataSector, isHeader 2 (by omega), FileHeader.dataSector]
    refine ⟨disk', i, goesOn.trans done, valid', newFile, filesKept, ⟨?_, ?_⟩⟩
    · rw [isSector, ← same]
      exact ⟨(Disk.inRange_iff.mp prepared.inRange).1, prepared.unmarked, prepared.lowest⟩
    · rw [isSector, Owner.header, Owner.headerSector, isSector, isDataSector, ← sameNext]
      exact FileHeader.allocate_lowest positive small numBits allocateDone

/-- With no file in the directory, the bitmap has the sectors of the bitmap and directory files. -/
theorem Valid.marked_of_empty (valid : fs.Valid)
    (empty : ∀ i, ¬ (Owner.entry i).InUse (storedDirectory fs.disk)) (b : Int) :
    (storedMap fs.disk).Marked b ↔ b ∈ freeMapSector :: fs.freeMapFile.hdr.blocks ∨
      b ∈ directorySector :: fs.directoryFile.hdr.blocks := by
  rw [valid.laid.exact.used_iff, valid.freeMapFile, valid.directoryFile]
  constructor
  · rintro ⟨o, held, member⟩
    cases o with
    | freeMap => exact .inl member
    | directory => exact .inr member
    | entry i => exact absurd held (empty i)
  · rintro (member | member)
    · exact ⟨.freeMap, trivial, member⟩
    · exact ⟨.directory, trivial, member⟩

end FileSystem

/-- A formatted disk on which a file has been created, opened and removed is formatted as before;
what is left is the handle. -/
theorem exists_stale {start : FileSystem} (valid : start.Valid) (empty : Formatted start.disk)
    (noHandles : start.handles = []) (name : Nat → Byte) (heap : Heap) :
    ∃ fs fs' fs'' file sector, FileSystemStep start (.create name 128 heap) fs ∧
      FileSystemStep fs (.openFile name heap) fs' ∧ FileSystemStep fs' (.remove name heap) fs'' ∧
      fs''.Valid ∧ Formatted fs''.disk ∧ fs''.handles = [⟨file, false⟩] ∧
      (∀ b, (storedMap start.disk).Marked b ↔ (storedMap fs''.disk).Marked b) ∧
      file.hdr.Covering ∧ file.hdr.fileLength = 128 ∧
      TwoLowest (storedMap start.disk) sector (file.hdr.dataSector 0) := by
  have creatable := empty.creatable name (show ceilDiv 128 sectorSize ≤ 1018 by decide)
  obtain ⟨disk₁, i, created, valid₁, new, kept, lowest⟩ :=
    valid.create_lowest (show (0 : Int) < 128 by decide) (by decide) creatable heap
  have only : ∀ j, (Owner.entry j).InUse (storedDirectory disk₁) → j = i :=
    fun j held => (new.others j held).resolve_left (empty.not_inUse j)
  have opened := FileSystem.open_unique valid₁ heap new.inUse new.named fun j held _ => only j held
  have handle := FileSystem.current_of_opened new.inUse
  have valid₂ := valid₁.openStep handle
  obtain ⟨d, removed, disk₃, fetched, removeDone, valid₃, absent, present⟩ :=
    FileSystem.remove_ok valid₂ name heap
  obtain rfl : removed = true := by
    by_contra notRemoved
    have unnamed := absent (by simpa using notRemoved) i new.inUse.1
    rw [new.named] at unnamed
    cases unnamed
  obtain ⟨j, held, -, isSector, still⟩ := present rfl
  obtain rfl := only j held
  -- the directory is empty again, so the bitmap is what it was
  have emptyAgain : ∀ k, ¬ (Owner.entry k).InUse (storedDirectory disk₃) := by
    intro k heldAfter
    obtain ⟨heldBefore, different⟩ := (still k).mp heldAfter
    exact different (only k heldBefore)
  have same : ∀ b, (storedMap start.disk).Marked b ↔ (storedMap disk₃).Marked b := by
    intro b
    rw [valid.marked_of_empty empty.not_inUse, valid₃.marked_of_empty emptyAgain]
  have formattedAgain : Formatted disk₃ := {
    empty := fun k bound => by
      by_contra used
      exact emptyAgain k ⟨bound, by simpa using used⟩
    free := by
      rw [← empty.free]
      exact BitMap.numClear_congr rfl fun k bound => BitMap.bit_congr_of_marked bound (same k) rfl }
  refine ⟨_, _, _, ⟨(storedDirectory disk₁).sector j,
    (Owner.entry j).header disk₁ (storedDirectory disk₁), 0⟩, (storedDirectory disk₁).sector j,
    create_step created, openFile_step opened, ?_, valid₃, formattedAgain, ?_, same,
    valid₁.laid.covering new.inUse, new.fileLength, lowest⟩
  · simp only [FileSystemStep, FileSystem.perform, fetched, removeDone, ok_bind, pure_eq]
  · simp [noHandles, FileSystem.forget, isSector]

def nameB : Nat → Byte := fun k => if k = 0 then 98#8 else 0#8

theorem complement_ne (b : Byte) : ~~~ b ≠ b := by
  intro same
  have low := congrArg (fun b => b.getLsbD 0) same
  simp at low

/-- A file is created, opened and removed, and another one is created.  A byte that is then written
through the handle of the first file is the first byte of the second. -/
theorem stale_handle_writes :
    ∃ start history fs s value h i,
      FileSystem.format (fun _ _ => 0#8) zeroHeap = .ok start ∧
      Run FileSystemStep start
        ((fs, .writeAt 0 (fun _ => 0#8) (fun _ => value) 1 0) :: history) s ∧
      history.map Prod.snd = [.create nameB 128 zeroHeap, .remove nameA zeroHeap,
        .openFile nameA zeroHeap, .create nameA 128 zeroHeap] ∧
      fs.handles = [h] ∧ h.inDirectory = false ∧
      (Owner.entry i).InUse (storedDirectory fs.disk) ∧
      (storedDirectory fs.disk).isNamed nameB i = true ∧
      ((Owner.entry i).header fs.disk (storedDirectory fs.disk)).contents s.disk ≠
        ((Owner.entry i).header fs.disk (storedDirectory fs.disk)).contents fs.disk ∧
      ¬ Isolated fs.disk s.disk h := by
  obtain ⟨start, formatted, valid, empty, noHandles⟩ := format_ok (fun _ _ => 0#8) zeroHeap
  obtain ⟨fs₁, fs₂, fs₃, file, sector, created, opened, removed, valid₃, empty₃, handles, same,
    covering, length, lowest⟩ := exists_stale valid empty noHandles nameA zeroHeap
  have creatable := empty₃.creatable nameB (show ceilDiv 128 sectorSize ≤ 1018 by decide)
  obtain ⟨disk₄, i, createdAgain, valid₄, new, kept, lowest₄⟩ :=
    valid₃.create_lowest (show (0 : Int) < 128 by decide) (by decide) creatable zeroHeap
  -- the second file has the data sector of the first
  have reused : file.hdr.dataSector 0 =
      ((Owner.entry i).header disk₄ (storedDirectory disk₄)).dataSector 0 :=
    lowest.unique same lowest₄
  obtain ⟨disk₅, written, -, bytes⟩ := OpenFile.writeAt_ok covering disk₄ (fun _ => 0#8)
    (fun _ => ~~~ file.hdr.fileByte disk₄ 0) (show ((0 : Nat) : Int) + 1 < 2 ^ 31 by decide)
  have changed : ((Owner.entry i).header disk₄ (storedDirectory disk₄)).contents disk₅ ≠
      ((Owner.entry i).header disk₄ (storedDirectory disk₄)).contents disk₄ := by
    have first := bytes 0 (by rw [length]; decide)
    have one : file.hdr.transferred 1 0 = 1 := by
      rw [FileHeader.transferred, length]
      rfl
    rw [one, if_pos (by decide)] at first
    intro unchanged
    have byte := congrArg (fun contents => contents[0]?) unchanged
    simp only [FileHeader.getElem?_contents, new.fileLength] at byte
    rw [if_pos (by decide), if_pos (by decide), Option.some.injEq] at byte
    simp only [FileHeader.fileByte, Nat.zero_div, reused] at first byte
    rw [byte] at first
    exact absurd first.symm (complement_ne _)
  have handles₄ : FileSystem.handles { fs₃ with disk := disk₄ } = [⟨file, false⟩] := handles
  have run := ((((Run.start.next created).next opened).next removed).next
    (create_step createdAgain)).next (writeAt_step handles₄ written)
  refine ⟨start, _, _, _, _, _, i, formatted, run, rfl, handles, rfl, new.inUse, new.named, changed,
    fun isolated => changed (isolated.contents i new.inUse (by simp))⟩

end Nachos
