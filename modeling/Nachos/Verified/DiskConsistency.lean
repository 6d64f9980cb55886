import Nachos.Verified.DiskCalls

/-!
# The file system on disk stays consistent

Formatting lays out the bitmap and the directory, and every call after it keeps the layout:
no sector belongs to two files, the bitmap has exactly the sectors that belong to one, and
`Deallocate` finds all sectors of a header marked.  The exception is `WriteAt` at a negative
position, which nothing refuses: it takes the words in front of `dataSectors` for sector
numbers.
-/

namespace Nachos

open Allocation Loops Runs

/-! ## Formatting -/

structure Formatted (disk : Disk) : Prop where
  empty : ∀ i < numDirEntries, (storedDirectory disk).inUse i = false
  free : (storedMap disk).numClear = 1019

def reservedMap (heap : Heap) : BitMap := ((BitMap.new numSectors (heap.words 0)).markBit 0).markBit 1

theorem reservedMap_numBits (heap : Heap) : (reservedMap heap).numBits = numSectors := by
  rw [reservedMap, BitMap.markBit_numBits, BitMap.markBit_numBits, BitMap.new_numBits]

theorem reservedMap_marked (heap : Heap) (b : Int) :
    (reservedMap heap).Marked b ↔ b = freeMapSector ∨ b = directorySector := by
  have size : (BitMap.new numSectors (heap.words 0)).numBits = numSectors :=
    BitMap.new_numBits _ _
  have clear : ¬ (BitMap.new numSectors (heap.words 0)).Marked b := by
    intro ⟨inside, set⟩
    rw [BitMap.inRange_iff, size] at inside
    rw [BitMap.new_bit _ (by omega)] at set
    cases set
  rw [reservedMap, BitMap.marked_markBit (by rw [BitMap.markBit_numBits, size]; decide),
    BitMap.marked_markBit (by rw [size]; decide)]
  simp [clear, freeMapSector, directorySector]

theorem reservedMap_numClear (heap : Heap) : (reservedMap heap).numClear = 1022 := by
  have size : (BitMap.new numSectors (heap.words 0)).numBits = numSectors :=
    BitMap.new_numBits _ _
  have all := BitMap.numClear_new numSectors (heap.words 0)
  have first := BitMap.numClear_markBit (i := 0) (by rw [size]; decide)
    (BitMap.new_bit (heap.words 0) (show 0 < numSectors by decide))
  have second := BitMap.numClear_markBit (b := (BitMap.new numSectors (heap.words 0)).markBit 0)
    (i := 1) (by rw [BitMap.markBit_numBits, size]; decide)
    (by simp [BitMap.new_bit (heap.words 0) (show 1 < numSectors by decide)])
  have total : numSectors = 1024 := rfl
  unfold reservedMap
  omega

variable {disk : Disk} {fs : FileSystem} {size : Int}

theorem laid_formatted {m m₁ m₂ : BitMap} {d : Directory} {mapHdr dirHdr : FileHeader}
    (numBits : m.numBits = numSectors)
    (reserved : ∀ b, m.Marked b ↔ b = freeMapSector ∨ b = directorySector)
    (mapAllocated : FileHeader.Allocated m freeMapFileSize mapHdr m₁)
    (dirAllocated : FileHeader.Allocated m₁ directoryFileSize dirHdr m₂)
    (mapWritten : ∀ k < 32, (headerAt disk freeMapSector).words k = mapHdr.words k)
    (dirWritten : ∀ k < 32, (headerAt disk directorySector).words k = dirHdr.words k)
    (tableSize : d.tableSize = numDirEntries) (empty : ∀ i < numDirEntries, d.inUse i = false) :
    Laid disk m₂ d := by
  have mapSectors : Owner.freeMap.sectors disk d = freeMapSector :: mapHdr.blocks := by
    rw [Owner.sectors, Owner.header, Owner.headerSector,
      FileHeader.blocks_congr mapWritten (mapAllocated.covering (by decide)).direct]
  have dirSectors : Owner.directory.sectors disk d = directorySector :: dirHdr.blocks := by
    rw [Owner.sectors, Owner.header, Owner.headerSector,
      FileHeader.blocks_congr dirWritten (dirAllocated.covering (by decide)).direct]
  have mapFree : ∀ b ∈ mapHdr.blocks, b ≠ freeMapSector ∧ b ≠ directorySector := by
    intro b member
    have unmarked := (mapAllocated.free b member).2
    rwa [reserved, not_or] at unmarked
  have dirFree : ∀ b ∈ dirHdr.blocks,
      (b ≠ freeMapSector ∧ b ≠ directorySector) ∧ b ∉ mapHdr.blocks := by
    intro b member
    have unmarked := (dirAllocated.free b member).2
    rwa [mapAllocated.marked, reserved, not_or, not_or] at unmarked
  have owners : ∀ o : Owner, o.InUse d ↔ o = .freeMap ∨ o = .directory := by
    intro o
    cases o with
    | freeMap => simp [Owner.InUse]
    | directory => simp [Owner.InUse]
    | entry i =>
      simp only [Owner.InUse, reduceCtorEq, or_false, iff_false, not_and]
      intro bound
      simp [empty i (tableSize ▸ bound)]
  -- first the bitmap file takes its sectors, then the directory file
  have exactMap : Exact (fun o => o = Owner.freeMap) (Owner.sectors disk d)
      fun b => b ∈ Owner.freeMap.sectors disk d := by
    apply (Exact.empty (Owner.sectors disk d)).grant .freeMap
    · simp
    · exact fun _ held => held.elim
    · rw [mapSectors, List.nodup_cons]
      exact ⟨fun member => (mapFree _ member).1 rfl, mapAllocated.distinct⟩
    · simp
    · simp
  have exactBoth : Exact (fun o => o = Owner.freeMap ∨ o = .directory) (Owner.sectors disk d)
      fun b => b ∈ Owner.freeMap.sectors disk d ∨ b ∈ Owner.directory.sectors disk d := by
    apply exactMap.grant .directory
    · simp
    · exact fun _ _ => rfl
    · rw [dirSectors, List.nodup_cons]
      exact ⟨fun member => (dirFree _ member).1.2 rfl, dirAllocated.distinct⟩
    · intro b member
      rw [dirSectors, List.mem_cons] at member
      rw [mapSectors, List.mem_cons, not_or]
      cases member with
      | inl isHeader =>
        subst isHeader
        exact ⟨by decide, fun block => (mapFree _ block).2 rfl⟩
      | inr isBlock => exact ⟨(dirFree b isBlock).1.1, (dirFree b isBlock).2⟩
    · simp
  have mapSized := mapAllocated.isSized (by decide) (by decide)
  have dirSized := dirAllocated.isSized (by decide) (by decide)
  exact {
    numBits := by rw [dirAllocated.numBits, mapAllocated.numBits, numBits]
    tableSize := tableSize
    exact := by
      apply exactBoth.congr owners (fun _ _ => rfl)
      intro b
      rw [dirAllocated.marked, mapAllocated.marked, reserved, mapSectors, dirSectors, List.mem_cons,
        List.mem_cons]
      tauto
    sized := by
      intro o held
      cases (owners o).mp held with
      | inl isMap => exact isMap ▸ mapSized.congr mapWritten
      | inr isDirectory => exact isDirectory ▸ dirSized.congr dirWritten
    freeMapLength := by
      rw [FileHeader.fileLength, FileHeader.numBytes, mapWritten 0 (by omega)]
      exact mapAllocated.fileLength
    directoryLength := by
      rw [FileHeader.fileLength, FileHeader.numBytes, dirWritten 0 (by omega)]
      exact dirAllocated.fileLength }

theorem allocate_at_format {m : BitMap} (size sectors : Nat) (numBits : m.numBits = numSectors)
    (most : size ≤ maxFileSize) (count : ceilDiv size sectorSize = sectors)
    (enough : sectors ≤ m.numClear) (junk : FileHeader) :
    ∃ hdr m', junk.allocate m size = .ok (true, hdr, m') ∧
      FileHeader.Allocated m size hdr m' ∧ m'.numClear + sectors = m.numClear := by
  obtain ⟨success, hdr, m', done, exactly, allocated⟩ :=
    FileHeader.allocate_ok numBits (Int.natCast_nonneg size) (Int.ofNat_le.mpr most) junk
  have succeeded : success = true := exactly.mpr (by rw [count]; exact enough)
  have result := allocated succeeded
  have clear := result.numClear
  rw [count] at clear
  exact ⟨hdr, m', succeeded ▸ done, result, clear⟩

theorem format_ok (disk : Disk) (heap : Heap) :
    ∃ fs, FileSystem.format disk heap = .ok fs ∧ fs.Valid ∧ Formatted fs.disk ∧ fs.handles = [] := by
  have mapSize : (BitMap.new numSectors (heap.words 0)).numBits = numSectors :=
    BitMap.new_numBits _ _
  have marked : (BitMap.new numSectors (heap.words 0)).mark freeMapSector = .ok _ :=
    BitMap.mark_ok (i := 0) (by rw [mapSize]; decide)
  have markedTwice : ((BitMap.new numSectors (heap.words 0)).markBit 0).mark directorySector =
      .ok (reservedMap heap) :=
    BitMap.mark_ok (i := 1) (by rw [BitMap.markBit_numBits, mapSize]; decide)
  have numBits := reservedMap_numBits heap
  have clear := reservedMap_numClear heap
  obtain ⟨mapHdr, m₁, mapDone, mapAllocated, clear₁⟩ := allocate_at_format freeMapFileSize 1
    numBits (by decide) rfl (by omega) ⟨heap.words 1⟩
  obtain ⟨dirHdr, m₂, dirDone, dirAllocated, clear₂⟩ := allocate_at_format directoryFileSize 2
    (mapAllocated.numBits.trans numBits) (by decide) rfl (by omega) ⟨heap.words 2⟩
  obtain ⟨disk₁, mapHdrDone, only₁, written₁⟩ := mapHdr.writeBack_ok disk
    (show Disk.inRange freeMapSector = true by decide)
  obtain ⟨disk₂, dirHdrDone, only₂, written₂⟩ := dirHdr.writeBack_ok disk₁
    (show Disk.inRange directorySector = true by decide)
  have mapHeader : headerAt disk₂ freeMapSector = headerAt disk₁ freeMapSector := by
    rw [headerAt, only₂ _ (by simp [freeMapSector, directorySector]), headerAt]
  have tableSize : (Directory.new numDirEntries (heap.bytes 0)).tableSize = numDirEntries :=
    Directory.new_tableSize _ _
  have empty : ∀ i < numDirEntries, (Directory.new numDirEntries (heap.bytes 0)).inUse i = false :=
    fun i bound => Directory.new_inUse _ bound
  have laid := laid_formatted numBits (reservedMap_marked heap) mapAllocated dirAllocated
    (mapHeader ▸ written₁) written₂ tableSize empty
  -- the two files are opened after their headers are on disk
  have mapOpened := OpenFile.new_ok disk₂ (show Disk.inRange freeMapSector = true by decide)
  have dirOpened := OpenFile.new_ok disk₂
    (show Disk.inRange directorySector = true by decide)
  obtain ⟨disk₃, disk₄, mapFlushed, dirFlushed, kept, _, laid₄, stores⟩ := laid.flushMapFirst
    ⟨disk₂, ⟨freeMapSector, headerAt disk₂ freeMapSector, 0⟩,
      ⟨directorySector, headerAt disk₂ directorySector, 0⟩, []⟩ rfl rfl (heap.bytes 1) (heap.bytes 2)
  refine ⟨⟨disk₄, ⟨freeMapSector, headerAt disk₂ freeMapSector, 0⟩,
    ⟨directorySector, headerAt disk₂ directorySector, 0⟩, []⟩, ?_, ?_, ?_, rfl⟩
  · -- the calls of the constructor, one after the other
    have asserted : assert true = .ok () := rfl
    refine bind_eq_ok.mpr ⟨_, marked, ?_⟩
    refine bind_eq_ok.mpr ⟨_, markedTwice, ?_⟩
    refine bind_eq_ok.mpr ⟨_, mapDone, bind_eq_ok.mpr ⟨_, asserted, ?_⟩⟩
    refine bind_eq_ok.mpr ⟨_, dirDone, bind_eq_ok.mpr ⟨_, asserted, ?_⟩⟩
    refine bind_eq_ok.mpr ⟨_, mapHdrDone, bind_eq_ok.mpr ⟨_, dirHdrDone, ?_⟩⟩
    refine bind_eq_ok.mpr ⟨_, mapOpened, bind_eq_ok.mpr ⟨_, dirOpened, ?_⟩⟩
    exact bind_eq_ok.mpr ⟨_, mapFlushed, bind_eq_ok.mpr ⟨_, dirFlushed, rfl⟩⟩
  · exact {
      laid := laid₄.stored stores
      freeMapFile := kept.freeMap.symm
      directoryFile := kept.directory.symm
      handles := by simp }
  · exact {
      empty := by
        intro i bound
        rw [← stores.directory.inUse_eq (tableSize ▸ bound)]
        exact empty i bound
      free := by
        have same : (storedMap disk₄).numClear = m₂.numClear :=
          BitMap.numClear_congr laid.numBits.symm
            fun i bound => bit_congr stores.map (laid.numBits ▸ bound)
        show (storedMap disk₄).numClear = 1019
        omega }

/-! ## Runs -/

def owners (d : Directory) : List Owner :=
  .freeMap :: .directory :: ((List.range d.tableSize).filter fun i => d.inUse i).map .entry

/-- The header sectors 0 and 1, the data sectors of the bitmap and of the directory, and the
header sector and data sectors of every file in the directory. -/
def usedSectors (disk : Disk) : List Int :=
  (owners (storedDirectory disk)).flatMap (Owner.sectors disk (storedDirectory disk))

structure Consistent (disk : Disk) : Prop where
  distinct : (usedSectors disk).Nodup
  inRange : ∀ b ∈ usedSectors disk, 0 ≤ b ∧ b < numSectors
  marked : ∀ b < numSectors, (storedMap disk).bit b = true ↔ (b : Int) ∈ usedSectors disk
  sized : ∀ o ∈ owners (storedDirectory disk),
    (o.header disk (storedDirectory disk)).numSectors =
        ceilDiv (o.header disk (storedDirectory disk)).numBytes sectorSize ∧
      (o.header disk (storedDirectory disk)).numSectors ≤ numDirect

theorem mem_owners {d : Directory} {o : Owner} : o ∈ owners d ↔ o.InUse d := by
  cases o <;> simp [owners, Owner.InUse]

theorem nodup_owners (d : Directory) : (owners d).Nodup := by
  have entries : (((List.range d.tableSize).filter fun i => d.inUse i).map Owner.entry).Nodup :=
    (List.nodup_range.filter _).map fun _ _ same => Owner.entry.inj same
  simp [owners, entries]

theorem FileSystem.Valid.consistent (valid : fs.Valid) : Consistent fs.disk := by
  have laid := valid.laid
  have used : ∀ b, b ∈ usedSectors fs.disk ↔ (storedMap fs.disk).Marked b := by
    intro b
    rw [laid.exact.used_iff, usedSectors, List.mem_flatMap]
    exact exists_congr fun o => and_congr_left fun _ => mem_owners
  exact {
    distinct := laid.exact.nodup_flatMap (nodup_owners _) fun o member => mem_owners.mp member
    inRange := by
      intro b member
      exact Disk.inRange_iff.mp (laid.inRange ((used b).mp member))
    marked := by
      intro b bound
      rw [used, BitMap.Marked, BitMap.inRange_ofNat bound, Int.toNat_natCast]
      simp
    sized := by
      intro o member
      have held := mem_owners.mp member
      exact ⟨(laid.sized o held).sized, (laid.covering held).direct⟩ }

/-- `Create` gets a size that a header can describe, and `WriteAt` a handle of a file that is
in the directory. -/
def FileSystemCall.Proper (fs : FileSystem) : FileSystemCall → Prop
  | .create _ initialSize _ => 0 ≤ initialSize ∧ initialSize ≤ maxFileSize
  | .openFile _ _ => True
  | .remove _ _ => True
  | .writeAt handle _ _ _ _ => ∃ h, fs.handles[handle]? = some h ∧ h.inDirectory = true

def FileSystemCall.NonnegPosition : FileSystemCall → Prop
  | .writeAt _ _ _ _ position => 0 ≤ position
  | _ => True

namespace FileSystem

variable {fs fs' : FileSystem}

theorem Valid.openStep (valid : fs.Valid) {file : OpenFile}
    (current : Handle.Current fs.disk ⟨file, true⟩) :
    Valid { fs with handles := fs.handles ++ [⟨file, true⟩] } where
  laid := valid.laid
  freeMapFile := valid.freeMapFile
  directoryFile := valid.directoryFile
  handles h member inDirectory := by
    cases List.mem_append.mp member with
    | inl before => exact valid.handles h before inDirectory
    | inr isNew =>
      rw [List.mem_singleton.mp isNew]
      exact current

theorem Valid.step {call : FileSystemCall} (valid : fs.Valid) (proper : call.Proper fs)
    (nonneg : call.NonnegPosition) (step : FileSystemStep fs call fs') : fs'.Valid := by
  unfold FileSystemStep at step
  cases call with
  | create name initialSize heap =>
    obtain ⟨success, disk', done, valid', _⟩ := create_ok valid proper.1 proper.2 name heap
    simp only [perform, done, ok_bind, pure_eq, Except.ok.injEq] at step
    exact step ▸ valid'
  | openFile name heap =>
    obtain ⟨result, done, current, _⟩ := openFile_ok valid name heap
    simp only [perform, done, ok_bind, pure_eq] at step
    cases result with
    | none =>
      cases step
      exact valid
    | some file =>
      cases step
      obtain ⟨i, held, _, isFile⟩ := current file rfl
      exact valid.openStep (isFile ▸ current_of_opened held)
  | remove name heap =>
    obtain ⟨d, removed, disk', fetched, done, valid', _⟩ := remove_ok valid name heap
    simp only [perform, fetched, done, ok_bind, pure_eq, Except.ok.injEq] at step
    exact step ▸ valid'
  | writeAt handle buf source numBytes position =>
    obtain ⟨h, isHandle, inDirectory⟩ := proper
    simp only [perform, isHandle] at step
    obtain ⟨⟨disk', count⟩, done, result⟩ := bind_eq_ok.mp step
    cases result
    have current := valid.handles h (List.mem_of_getElem? isHandle) inDirectory
    exact writeAt_valid valid current nonneg done

end FileSystem

theorem Formatted.not_inUse (formatted : Formatted disk) (i : Nat) :
    ¬ (Owner.entry i).InUse (storedDirectory disk) := by
  intro held
  have unused := formatted.empty i held.1
  rw [held.2] at unused
  cases unused

theorem Formatted.creatable (formatted : Formatted disk) (name : Nat → Byte)
    (few : ceilDiv size sectorSize ≤ 1018) : Creatable disk name size := by
  refine ⟨?_, ⟨0, by decide, formatted.empty 0 (by decide)⟩, by rw [formatted.free]; omega⟩
  intro i bound
  simp [Directory.isNamed, formatted.empty i bound]

theorem create_step {name : Nat → Byte} {heap : Heap} {success : Bool} {disk' : Disk}
    (created : fs.create name size heap = .ok (success, disk')) :
    FileSystemStep fs (.create name size heap) { fs with disk := disk' } := by
  simp only [FileSystemStep, FileSystem.perform, created, ok_bind, pure_eq]

theorem openFile_step {name : Nat → Byte} {heap : Heap} {file : OpenFile}
    (opened : fs.openFile name heap = .ok (some file)) :
    FileSystemStep fs (.openFile name heap)
      { fs with handles := fs.handles ++ [⟨file, true⟩] } := by
  simp only [FileSystemStep, FileSystem.perform, opened, ok_bind, pure_eq]

theorem exists_created (disk : Disk) (heap : Heap) (name : Nat → Byte) (nonneg : 0 ≤ size)
    (most : size ≤ maxFileSize) :
    ∃ start fs file, FileSystem.format disk heap = .ok start ∧
      FileSystemStep start (.create name size heap) fs ∧ fs.Valid ∧ fs.handles = [] ∧
      fs.openFile name heap = .ok (some file) ∧ Handle.Current fs.disk ⟨file, true⟩ ∧
      file.hdr.Covering ∧ file.hdr.fileLength = size ∧
      file.hdr.numSectors = ceilDiv size sectorSize := by
  obtain ⟨start, formatted, valid, empty, noHandles⟩ := format_ok disk heap
  obtain ⟨success, disk', created, valid', creatable, newFile, _⟩ :=
    FileSystem.create_ok valid nonneg most name heap
  have succeeded : success = true := 
    creatable.mpr (empty.creatable name ((ceilDiv_le_numDirect most).trans (by decide)))
  obtain ⟨i, newFile⟩ := newFile succeeded
  obtain ⟨result, opened, current, missing⟩ := FileSystem.openFile_ok valid' name heap
  cases result with
  | none =>
    have unnamed := missing rfl i newFile.inUse.1
    rw [newFile.named] at unnamed
    cases unnamed
  | some file =>
    obtain ⟨j, held, _, isFile⟩ := current file rfl
    have handle : Handle.Current disk' ⟨file, true⟩ := isFile ▸ FileSystem.current_of_opened held
    refine ⟨start, { start with disk := disk' }, file, formatted, create_step created, valid',
      noHandles,
      opened, handle, ?_⟩
    -- the directory was empty, so the file is that of the new entry
    have isNew : j = i := (newFile.others j held).resolve_left (empty.not_inUse j)
    have isHeader : file.hdr = (Owner.entry i).header disk' (storedDirectory disk') := by
      rw [isFile, isNew]
    have fileLength : file.hdr.fileLength = size := isHeader ▸ newFile.fileLength
    have sized : file.hdr.Sized := isHeader ▸ valid'.laid.sized _ newFile.inUse
    exact ⟨isHeader ▸ valid'.laid.covering newFile.inUse, fileLength, by
      rw [sized.sized, fileLength]⟩

theorem exists_opened (disk : Disk) (heap : Heap) (name : Nat → Byte) (nonneg : 0 ≤ size)
    (most : size ≤ maxFileSize) :
    ∃ start fs fs' h, FileSystem.format disk heap = .ok start ∧
      FileSystemStep start (.create name size heap) fs ∧
      FileSystemStep fs (.openFile name heap) fs' ∧ fs'.Valid ∧ fs'.handles = [h] ∧
      h.inDirectory = true ∧ h.file.hdr.Covering ∧ h.file.hdr.fileLength = size ∧
      h.file.hdr.numSectors = ceilDiv size sectorSize := by
  obtain ⟨start, fs, file, formatted, created, valid, noHandles, opened, handle, described⟩ :=
    exists_created disk heap name nonneg most
  refine ⟨start, fs, _, ⟨file, true⟩, formatted, created, openFile_step opened,
    valid.openStep handle, ?_, rfl, described⟩
  simp [noHandles]

theorem writeAt_step {h : Handle} {disk' : Disk} {buf source : Nat → Byte}
    {numBytes position count : Int} (handles : fs.handles = [h])
    (done : h.file.writeAt fs.disk buf source numBytes position = .ok (disk', count)) :
    FileSystemStep fs (.writeAt 0 buf source numBytes position) { fs with disk := disk' } := by
  simp only [FileSystemStep, FileSystem.perform, handles, List.getElem?_cons_zero, done, ok_bind,
    pure_eq]

theorem remove_step (valid : fs.Valid) (name : Nat → Byte) (heap : Heap) :
    ∃ fs', FileSystemStep fs (.remove name heap) fs' := by
  obtain ⟨d, removed, disk', fetched, done, _⟩ := FileSystem.remove_ok valid name heap
  simp only [FileSystemStep, FileSystem.perform, fetched, done, ok_bind, pure_eq]
  exact ⟨_, rfl⟩

/-- After formatting, whatever the disk held, every run of calls leaves the disk consistent, and
no assertion in `Deallocate` fails. -/
theorem disk_stays_consistent (disk : Disk) (heap : Heap) :
    ∃ start, FileSystem.format disk heap = .ok start ∧
      ∀ history s, Run FileSystemStep start history s →
        Guarded (fun fs call => call.Proper fs) history →
        Guarded (fun _ call => call.NonnegPosition) history →
        Consistent s.disk ∧ ∀ name heap, ∃ result, s.remove name heap = .ok result := by
  obtain ⟨start, formatted, initial, _⟩ := format_ok disk heap
  refine ⟨start, formatted, fun history s run proper nonneg => ?_⟩
  have both : Guarded (fun fs call => call.Proper fs ∧ call.NonnegPosition) history :=
    fun taken member => ⟨proper taken member, nonneg taken member⟩
  have valid : s.Valid :=
    run.invariant initial (fun _ _ _ before guard => before.step guard.1 guard.2) both
  refine ⟨valid.consistent, fun name heap => ?_⟩
  obtain ⟨_, removed, disk', _, done, _⟩ := FileSystem.remove_ok valid name heap
  exact ⟨_, done⟩

def zeroHeap : Heap := ⟨fun _ _ => 0#32, fun _ _ => 0#8⟩

def nameA : Nat → Byte := fun k => if k = 0 then 97#8 else 0#8

/-- A file is created, written and removed. -/
theorem consistent_after_removal : ∃ start history s,
    FileSystem.format (fun _ _ => 0#8) zeroHeap = .ok start ∧
      Run FileSystemStep start history s ∧
      history.map Prod.snd = [.remove nameA zeroHeap,
        .writeAt 0 (fun _ => 0#8) (fun _ => 1#8) 200 100,
        .openFile nameA zeroHeap,
        .create nameA 300 zeroHeap] ∧ Consistent s.disk := by
  obtain ⟨start, fs, fs', h, formatted, created, opened, valid, handles, inDirectory, covering, _⟩ :=
    exists_opened (fun _ _ => 0#8) zeroHeap nameA
      (show (0 : Int) ≤ 300 by decide) (by decide)
  obtain ⟨disk', written, _⟩ := OpenFile.writeAt_ok covering fs'.disk (fun _ => 0#8) (fun _ => 1#8)
    (show ((100 : Nat) : Int) + 200 < 2 ^ 31 by decide)
  have step := writeAt_step handles written
  have proper : FileSystemCall.Proper fs' (.writeAt 0 (fun _ => 0#8) (fun _ => 1#8) 200 100) :=
    ⟨h, by simp [handles], inDirectory⟩
  have nonneg : (0 : Int) ≤ 100 := by decide
  have small : (0 : Int) ≤ 300 ∧ (300 : Int) ≤ maxFileSize := by decide
  obtain ⟨s, removed⟩ := remove_step (valid.step proper nonneg step) nameA zeroHeap
  have run := (((Run.start.next created).next opened).next step).next removed
  obtain ⟨start', formatted', consistent⟩ := disk_stays_consistent (fun _ _ => 0#8) zeroHeap
  obtain rfl : start = start' := Except.ok.inj (formatted.symm.trans formatted')
  refine ⟨start, _, s, formatted, run, rfl, (consistent _ s run ?_ ?_).1⟩
  · exact guarded_cons.mpr ⟨trivial, guarded_cons.mpr ⟨proper, guarded_cons.mpr ⟨trivial,
      guarded_cons.mpr ⟨small, nofun⟩⟩⟩⟩
  · simp [Guarded, FileSystemCall.NonnegPosition]

/-! ## A negative position -/

namespace OpenFile

variable {file : OpenFile}

theorem numSectors_inRange (covering : file.hdr.Covering) (sectors : 1 ≤ file.hdr.numSectors) :
    Disk.inRange file.hdr.numSectors = true := by
  have direct := covering.direct
  have size : numDirect = 30 := rfl
  have total : numSectors = 1024 := rfl
  rw [Disk.inRange_iff]
  omega

/-- The sector in front of the file is the one with the number `numSectors`: the index `-1` of
`dataSectors` is the word before the array. -/
theorem byteToSector_before (hdr : FileHeader) :
    hdr.byteToSector (-1 * sectorSize) = .ok hdr.numSectors := rfl

theorem readAt_before (covering : file.hdr.Covering) (length : 0 ≤ file.hdr.fileLength)
    (sectors : 1 ≤ file.hdr.numSectors) (disk : Disk) (into : Nat → Byte) :
    ∃ into', file.readAt disk into sectorSize (-1 * sectorSize) = .ok (into', sectorSize) ∧
      ∀ o < sectorSize, into' o = disk file.hdr.numSectors.toNat o := by
  have accepted : ¬ ((sectorSize : Int) ≤ 0 ∨ -1 * (sectorSize : Int) ≥ file.hdr.fileLength) := by
    simp only [sectorSize]
    omega
  have sum : checkedSum (-1 * sectorSize) sectorSize = .ok 0 := rfl
  have count : clip file.hdr.fileLength 0 sectorSize (-1 * sectorSize) = sectorSize := by
    rw [clip, if_neg (by omega)]
  have first : divRoundDownInt (-1 * sectorSize) sectorSize = -1 := rfl
  have last : divRoundDownInt (-1 * sectorSize + sectorSize - 1) sectorSize = 0 := rfl
  -- the request ends with the byte before the file, but `-1 / SectorSize` is zero
  have read : ∃ buf, file.readSectors disk (-1) 2 (fun _ => 0#8) = .ok buf ∧
      ∀ o < sectorSize, buf o = disk file.hdr.numSectors.toNat o := by
    have second : file.hdr.byteToSector 0 = .ok (file.hdr.dataSector 0) := rfl
    have secondInRange := covering.dataSector_inRange (i := 0) (by omega)
    refine ⟨bcopy (disk (file.hdr.dataSector 0).toNat) sectorSize sectorSize
      (bcopy (disk file.hdr.numSectors.toNat) 0 sectorSize fun _ => 0#8), ?_, ?_⟩
    · have zero : ((-1 : Int) + (0 : Nat)) * sectorSize = -1 * sectorSize := rfl
      have one : ((-1 : Int) + (0 + 1 : Nat)) * sectorSize = 0 := rfl
      simp only [readSectors, forUpToM, ok_bind, zero, byteToSector_before,
        Disk.readSector_ok (numSectors_inRange covering sectors), one, second,
        Disk.readSector_ok secondInRange, pure_eq, Nat.zero_mul, Nat.one_mul]
    · intro o small
      rw [bcopy, if_neg (by omega), bcopy, if_pos (by omega), Nat.sub_zero]
  obtain ⟨buf, done, filled⟩ := read
  refine ⟨bcopy (fun j => buf (0 + j)) 0 sectorSize into, ?_, ?_⟩
  · have two : ((1 : Int) + 0 - -1).toNat = 2 := rfl
    have start : ¬ (-1 * (sectorSize : Int) - -1 * sectorSize < 0) := by omega
    have offset : (-1 * (sectorSize : Int) - -1 * sectorSize).toNat = 0 := rfl
    simp only [readAt, if_neg accepted, sum, count, first, last, two, done, if_neg start, offset,
      Int.toNat_natCast, ok_bind, pure_eq]
  · intro o small
    rw [bcopy, if_pos (by omega), Nat.zero_add, Nat.sub_zero, filled o small]

/-- `WriteAt` of one byte at the beginning of the sector in front of the file. -/
theorem writeAt_before (covering : file.hdr.Covering) (length : 0 ≤ file.hdr.fileLength)
    (sectors : 1 ≤ file.hdr.numSectors) (disk : Disk) (buf source : Nat → Byte) :
    ∃ disk', file.writeAt disk buf source 1 (-1 * sectorSize) = .ok (disk', 1) ∧
      ∀ o < sectorSize, disk' file.hdr.numSectors.toNat o =
        if o = 0 then source 0 else disk file.hdr.numSectors.toNat o := by
  have accepted : ¬ ((1 : Int) ≤ 0 ∨ -1 * (sectorSize : Int) ≥ file.hdr.fileLength) := by
    simp only [sectorSize]
    omega
  have sum : checkedSum (-1 * sectorSize) 1 = .ok (-127) := rfl
  have count : clip file.hdr.fileLength (-127) 1 (-1 * sectorSize) = 1 := by
    rw [clip, if_neg (by omega)]
  have first : divRoundDownInt (-1 * sectorSize) sectorSize = -1 := rfl
  have last : divRoundDownInt (-1 * sectorSize + 1 - 1) sectorSize = -1 := rfl
  obtain ⟨part, done, arrived⟩ := readAt_before covering length sectors disk fun j => buf (0 + j)
  have partialDone : file.readPartial disk buf 1 (-1 * sectorSize) (-1) (-1) =
      .ok (bcopy part 0 sectorSize buf) := by
    have lastUnaligned : decide (-1 * (sectorSize : Int) + 1 = (-1 + 1) * sectorSize) = false := rfl
    have start : (((-1 : Int) - -1) * sectorSize).toNat = 0 := rfl
    simp only [readPartial, decide_true, lastUnaligned, readInto, start, done, Bool.not_true,
      Bool.not_false, Bool.or_true, Bool.and_true, Bool.false_eq_true, if_false, if_true, ok_bind,
        pure_eq]
  refine ⟨Function.update disk file.hdr.numSectors.toNat (bcopy (fun j =>
    bcopy source 0 1 (bcopy part 0 sectorSize buf) (0 + j)) 0 sectorSize
      (disk file.hdr.numSectors.toNat)), ?_, ?_⟩
  · have one : ((1 : Int) + -1 - -1).toNat = 1 := rfl
    have start : ¬ (-1 * (sectorSize : Int) - -1 * sectorSize < 0) := by omega
    have offset : (-1 * (sectorSize : Int) - -1 * sectorSize).toNat = 0 := rfl
    have zero : ((-1 : Int) + (0 : Nat)) * sectorSize = -1 * sectorSize := rfl
    have oneByte : (1 : Int).toNat = 1 := rfl
    simp only [writeAt, if_neg accepted, sum, count, first, last, partialDone, if_neg start, offset,
      one, oneByte, writeSectors, forUpToM, zero, byteToSector_before, Nat.zero_mul,
      Disk.writeSector_ok (numSectors_inRange covering sectors), ok_bind, pure_eq]
  · intro o small
    rw [Function.update_self, bcopy, if_pos (by omega), Nat.sub_zero, Nat.zero_add, bcopy]
    by_cases isFirst : o = 0
    · subst isFirst
      simp
    · rw [if_neg (by omega), if_neg isFirst, bcopy, if_pos (by omega), Nat.sub_zero,
        arrived o small]

end OpenFile

theorem hostWord_mod (bytes : Nat → Byte) :
    (hostWord false bytes).toNat % 256 = (bytes 0).toNat := by
  have low : (hostWord false bytes).setWidth 8 = bytes 0 := by
    apply BitVec.eq_of_getLsbD_eq
    intro i small
    simp only [hostWord, Bool.false_eq_true, if_false, BitVec.getLsbD_setWidth,
      BitVec.getLsbD_append, small, decide_true, Bool.true_and, if_true]
  have value := congrArg BitVec.toNat low
  rwa [BitVec.toNat_setWidth] at value

/-- A directory header whose first byte is 1 does not describe two sectors. -/
theorem not_consistent_of_low_byte (sectors : (headerAt disk directorySector).numSectors = 2)
    (low : disk 1 0 = 1#8) : ¬ Consistent disk := by
  intro consistent
  have sized := (consistent.sized .directory (mem_owners.mpr trivial)).1
  simp only [Owner.header, Owner.headerSector] at sized
  rw [sectors] at sized
  have lowByte := hostWord_mod fun j => disk 1 (4 * 0 + j)
  rw [low] at lowByte
  have value : (headerAt disk directorySector).numBytes =
    (hostWord false fun j => disk 1 (4 * 0 + j)).toInt := rfl
  generalize (hostWord false fun j => disk 1 (4 * 0 + j)) = word at value lowByte
  rw [value] at sized
  simp only [ceilDiv, sectorSize] at sized
  have nonneg : 0 ≤ word.toInt := by omega
  rw [toInt_of_nonneg nonneg] at sized
  have one : (1#8).toNat = 1 := rfl
  omega

/-- One byte written at position -128 of a file with one sector goes to sector 1, which has the
header of the directory. -/
theorem negative_position_changes_directory_header : ∃ start history s,
    FileSystem.format (fun _ _ => 0#8) zeroHeap = .ok start ∧
      Run FileSystemStep start history s ∧
      history.map Prod.snd = [.writeAt 0 (fun _ => 0#8) (fun _ => 1#8) 1 (-128),
        .openFile nameA zeroHeap,
        .create nameA 1 zeroHeap] ∧
      Guarded (fun fs call => call.Proper fs) history ∧ ¬ Consistent s.disk := by
  obtain ⟨start, fs, fs', h, formatted, created, opened, valid, handles, inDirectory, covering,
    fileLength, sectors⟩ := exists_opened (fun _ _ => 0#8) zeroHeap
      nameA (show (0 : Int) ≤ 1 by decide) (by decide)
  have oneSector : h.file.hdr.numSectors = 1 := sectors
  obtain ⟨disk', written, changed⟩ := OpenFile.writeAt_before covering (by omega) (by omega) fs'.disk
    (fun _ => 0#8) fun _ => 1#8
  rw [oneSector] at changed
  refine ⟨start, _, _, formatted,
    ((Run.start.next created).next opened).next (writeAt_step handles written), rfl, ?_, ?_⟩
  · intro taken member
    simp only [List.mem_cons, List.not_mem_nil, or_false] at member
    rcases member with rfl | rfl | rfl
    · exact ⟨h, by simp [handles], inDirectory⟩
    · trivial
    · exact ⟨by decide, by decide⟩
  · apply not_consistent_of_low_byte
    · have before : (headerAt fs'.disk directorySector).numSectors = 2 := by
        have sized := (valid.laid.sized .directory trivial).sized
        simp only [Owner.header, Owner.headerSector] at sized
        rw [sized, valid.laid.directoryLength]
        rfl
      -- the count of sectors is in the bytes 4 to 7
      have word : wordsOf (disk' 1) 1 = wordsOf (fs'.disk 1) 1 := by
        apply wordsOf_congr
        intro i low high
        have byte := changed i (by simp only [sectorSize]; omega)
        rwa [if_neg (by omega)] at byte
      have after : (headerAt disk' directorySector).numSectors =
          (headerAt fs'.disk directorySector).numSectors := congrArg BitVec.toInt word
      exact after.trans before
    · have byte := changed 0 (by decide)
      rw [if_pos rfl] at byte
      exact byte

end Nachos
