import Nachos.Verified.DiskLayout

/-!
# The calls of the file system

Every call finds the disk laid out as the stored bitmap and the stored directory say, and
leaves it so.  `Create` writes a header into a sector that was free, and only then the
directory and the bitmap that mention it; `Remove` clears the sectors of a header in the
bitmap before it writes either file.  `WriteAt` stays within the data sectors of its file as
long as its position is not negative.
-/

namespace Nachos

open Allocation Loops Runs

def Handle.Current (disk : Disk) (h : Handle) : Prop :=
  ∃ i, (Owner.entry i).InUse (storedDirectory disk) ∧
    (storedDirectory disk).sector i = h.file.sector ∧ h.file.hdr = headerAt disk h.file.sector

structure FileSystem.Valid (fs : FileSystem) : Prop where
  laid : Laid fs.disk (storedMap fs.disk) (storedDirectory fs.disk)
  freeMapFile : fs.freeMapFile.hdr = headerAt fs.disk freeMapSector
  directoryFile : fs.directoryFile.hdr = headerAt fs.disk directorySector
  handles : ∀ h ∈ fs.handles, h.inDirectory = true → h.Current fs.disk

/-! ## Headers on disk -/

namespace FileHeader

variable {disk : Disk} {sector : Int}

theorem writeBack_ok (hdr : FileHeader) (disk : Disk) (inside : Disk.inRange sector = true) :
    ∃ disk', hdr.writeBack disk sector = .ok disk' ∧ OnlyChanges disk disk' [sector] ∧
      ∀ k < 32, (headerAt disk' sector).words k = hdr.words k := by
  refine ⟨_, Disk.writeSector_ok inside, ?_, ?_⟩
  · intro s outside
    exact Function.update_of_ne (outside sector (by simp)).symm _ _
  · intro k small
    apply wordsOf_eq
    intro i low high
    rw [Function.update_self, bcopy, if_pos (by simp only [sectorSize]; omega), Nat.sub_zero]

theorem fetchFrom_ok (inside : Disk.inRange sector = true) :
    fetchFrom disk sector = .ok (headerAt disk sector) := by
  simp only [fetchFrom, Disk.readSector_ok inside, ok_bind, pure_eq, headerAt]

end FileHeader

theorem OpenFile.new_ok (disk : Disk) {sector : Int} (inside : Disk.inRange sector = true) :
    OpenFile.new disk sector =
      .ok { sector := sector, hdr := headerAt disk sector, seekPosition := 0 } := by
  simp only [OpenFile.new, FileHeader.fetchFrom_ok inside, ok_bind, pure_eq]

/-! ## A file is added -/

section Grant

variable {disk disk' : Disk} {m m₁ m₂ : BitMap} {d d' : Directory} {hdr : FileHeader}
  {i : Nat} {name : Nat → Byte} {sector size : Int}

theorem Directory.Added.inUse_iff (added : d.Added i name sector d') (o : Owner) :
    o.InUse d' ↔ o.InUse d ∨ o = .entry i := by
  cases o with
  | freeMap => simp [Owner.InUse]
  | directory => simp [Owner.InUse]
  | entry j =>
    simp only [Owner.InUse, added.tableSize, added.inUse, Owner.entry.injEq]
    by_cases same : j = i
    · simp [same, added.bound]
    · simp [same]

theorem Directory.Added.headerSector_eq (added : d.Added i name sector d') {o : Owner}
    (held : o.InUse d) : o.headerSector d' = o.headerSector d := by
  cases o with
  | freeMap => rfl
  | directory => rfl
  | entry j =>
    have different : j ≠ i := by
      intro same
      have inUse := held.2
      rw [same, added.free] at inUse
      cases inUse
    exact added.other j different

section

variable (laid : Laid disk m d) (inRange : Disk.inRange sector = true)
  (unmarked : ¬ m.Marked sector)

include laid inRange unmarked

theorem Laid.header_of_fresh (only : OnlyChanges disk disk' [sector]) :
    HeadersKept disk disk' d := by
  intro o held
  have marked := laid.header_marked held
  have same : disk' (o.headerSector d).toNat = disk (o.headerSector d).toNat := by
    apply only
    intro b member equal
    rw [List.mem_singleton.mp member] at equal
    exact unmarked (Disk.toNat_inj inRange (laid.inRange marked) equal ▸ marked)
  rw [Owner.header, Owner.header, headerAt, headerAt, same]

theorem Laid.contents_of_fresh (only : OnlyChanges disk disk' [sector]) :
    ContentsKept disk disk' d := by
  intro i held
  apply FileHeader.contents_congr
  intro q inside
  have member := List.mem_cons_of_mem ((Owner.entry i).headerSector d)
    (FileHeader.dataSector_mem ((laid.covering held).index_lt inside))
  have marked := laid.sector_marked held member
  rw [FileHeader.fileByte, FileHeader.fileByte, only]
  intro b isSector equal
  rw [List.mem_singleton.mp isSector] at equal
  exact unmarked (Disk.toNat_inj inRange (laid.inRange marked) equal ▸ marked)

/-- `Find`, `Allocate`, `Add` and the new header give a layout with one more file. -/
theorem Laid.grant (numBits : m₁.numBits = m.numBits)
    (found : ∀ b, m₁.Marked b ↔ m.Marked b ∨ b = sector)
    (allocated : FileHeader.Allocated m₁ size hdr m₂) (nonneg : 0 ≤ size) (most : size ≤ maxFileSize)
    (added : d.Added i name sector d') (only : OnlyChanges disk disk' [sector])
    (written : ∀ k < 32, (headerAt disk' sector).words k = hdr.words k) : Laid disk' m₂ d' := by
  have kept := laid.header_of_fresh inRange unmarked only
  have oldHeader : ∀ o : Owner, o.InUse d → o.header disk' d' = o.header disk d := by
    intro o held
    have same := kept o held
    rwa [Owner.header, ← added.headerSector_eq held] at same
  have newHeader : (Owner.entry i).header disk' d' = headerAt disk' sector := by
    rw [Owner.header, Owner.headerSector, added.sector]
  have newSectors : (Owner.entry i).sectors disk' d' = sector :: hdr.blocks := by
    rw [Owner.sectors, newHeader, Owner.headerSector, added.sector,
      FileHeader.blocks_congr written (allocated.covering most).direct]
  have free : ∀ b ∈ hdr.blocks, b ≠ sector ∧ ¬ m.Marked b := by
    intro b member
    have unmarkedBefore := (allocated.free b member).2
    rw [found, not_or] at unmarkedBefore
    exact ⟨unmarkedBefore.2, unmarkedBefore.1⟩
  exact {
    numBits := by rw [allocated.numBits, numBits, laid.numBits]
    tableSize := added.tableSize.trans laid.tableSize
    exact := by
      apply laid.exact.grant (.entry i) added.inUse_iff
      · intro o held
        rw [Owner.sectors, oldHeader o held, added.headerSector_eq held, Owner.sectors]
      · rw [newSectors, List.nodup_cons]
        exact ⟨fun member => (free sector member).1 rfl, allocated.distinct⟩
      · intro b member
        rw [newSectors, List.mem_cons] at member
        cases member with
        | inl isHeader => exact isHeader ▸ unmarked
        | inr isBlock => exact (free b isBlock).2
      · intro b
        rw [newSectors, allocated.marked, found, List.mem_cons, or_assoc]
    sized := by
      intro o held
      cases (added.inUse_iff o).mp held with
      | inl before =>
        rw [oldHeader o before]
        exact laid.sized o before
      | inr isNew =>
        rw [isNew, newHeader]
        exact (allocated.isSized nonneg most).congr written
    freeMapLength := by
      rw [kept.freeMap]
      exact laid.freeMapLength
    directoryLength := by
      rw [kept.directory]
      exact laid.directoryLength }

end

end Grant

/-! ## A file is removed -/

section Revoke

variable {disk : Disk} {m m' : BitMap} {d : Directory} {i : Nat}

theorem Owner.inUse_removed (o : Owner) :
    o.InUse (d.setInUse i false) ↔ o.InUse d ∧ o ≠ .entry i := by
  cases o with
  | freeMap => simp [Owner.InUse]
  | directory => simp [Owner.InUse]
  | entry j =>
    simp only [Owner.InUse, Directory.setInUse_inUse, ne_eq, Owner.entry.injEq]
    by_cases same : j = i
    · simp [same]
    · simp only [same, if_false, not_false_eq_true, and_true]
      rfl

theorem Owner.headerSector_removed (o : Owner) :
    o.headerSector (d.setInUse i false) = o.headerSector d := by
  cases o with
  | freeMap => rfl
  | directory => rfl
  | entry j => exact Directory.setInUse_sector d i j false

/-- Without its entry, and with its sectors cleared, a file leaves a layout behind. -/
theorem Laid.revoke (laid : Laid disk m d) (held : (Owner.entry i).InUse d)
    (numBits : m'.numBits = m.numBits)
    (cleared : ∀ b, m'.Marked b ↔ m.Marked b ∧ b ∉ (Owner.entry i).sectors disk d) :
    Laid disk m' (d.setInUse i false) := by
  have sameHeader : ∀ o : Owner, o.header disk (d.setInUse i false) = o.header disk d := by
    intro o
    rw [Owner.header, Owner.headerSector_removed, Owner.header]
  exact {
    numBits := numBits.trans laid.numBits
    tableSize := laid.tableSize
    exact := by
      apply laid.exact.revoke held Owner.inUse_removed _ cleared
      intro o _
      rw [Owner.sectors, sameHeader, Owner.headerSector_removed, Owner.sectors]
    sized := by
      intro o still
      rw [sameHeader]
      exact laid.sized o (o.inUse_removed.mp still).1
    freeMapLength := laid.freeMapLength
    directoryLength := laid.directoryLength }

end Revoke

/-! ## The calls -/

def Creatable (disk : Disk) (name : Nat → Byte) (size : Int) : Prop :=
  (∀ i < numDirEntries, (storedDirectory disk).isNamed name i = false) ∧
    (∃ i < numDirEntries, (storedDirectory disk).inUse i = false) ∧
    1 + (ceilDiv size sectorSize).toNat ≤ (storedMap disk).numClear

structure NewFile (disk disk' : Disk) (name : Nat → Byte) (size : Int) (i : Nat) : Prop where
  inUse : (Owner.entry i).InUse (storedDirectory disk')
  named : (storedDirectory disk').isNamed name i = true
  fileLength : ((Owner.entry i).header disk' (storedDirectory disk')).fileLength = size
  others : ∀ j, (Owner.entry j).InUse (storedDirectory disk') →
    (Owner.entry j).InUse (storedDirectory disk) ∨ j = i

structure SameEntry (disk disk' : Disk) (i : Nat) : Prop where
  inUse : (Owner.entry i).InUse (storedDirectory disk')
  named : ∀ name, (storedDirectory disk').isNamed name i = (storedDirectory disk).isNamed name i
  sector : (storedDirectory disk').sector i = (storedDirectory disk).sector i
  header : (Owner.entry i).header disk' (storedDirectory disk') =
    (Owner.entry i).header disk (storedDirectory disk)

structure SameFile (disk disk' : Disk) (i : Nat) : Prop extends SameEntry disk disk' i where
  contents : ((Owner.entry i).header disk (storedDirectory disk)).contents disk' =
    ((Owner.entry i).header disk (storedDirectory disk)).contents disk

def FilesKept (disk disk' : Disk) : Prop :=
  ∀ i, (Owner.entry i).InUse (storedDirectory disk) → SameFile disk disk' i

variable {disk : Disk} {i j : Nat} {h : Handle}

theorem SameEntry.refl (held : (Owner.entry i).InUse (storedDirectory disk)) :
    SameEntry disk disk i :=
  ⟨held, fun _ => rfl, rfl, rfl⟩

theorem FilesKept.refl (disk : Disk) : FilesKept disk disk :=
  fun _ held => ⟨.refl held, rfl⟩

theorem SameEntry.trans {disk disk₁ disk₂ : Disk} (first : SameEntry disk disk₁ i)
    (second : SameEntry disk₁ disk₂ i) : SameEntry disk disk₂ i where
  inUse := second.inUse
  named name := (second.named name).trans (first.named name)
  sector := second.sector.trans first.sector
  header := second.header.trans first.header

theorem SameFile.trans {disk disk₁ disk₂ : Disk} (first : SameFile disk disk₁ i)
    (second : SameFile disk₁ disk₂ i) : SameFile disk disk₂ i where
  toSameEntry := first.toSameEntry.trans second.toSameEntry
  contents := by
    have later := second.contents
    rw [first.header] at later
    exact later.trans first.contents

namespace NewFile

variable {disk disk' : Disk} {name : Nat → Byte} {size : Int} {i j : Nat}

theorem ne_of_inUse (new : NewFile disk disk' name size i) (kept : FilesKept disk disk')
    (fresh : ∀ k < numDirEntries, (storedDirectory disk).isNamed name k = false)
    (held : (Owner.entry j).InUse (storedDirectory disk)) : j ≠ i := by
  intro same
  have unnamed := fresh j held.1
  rw [← (kept j held).named name, same, new.named] at unnamed
  cases unnamed

theorem unique (new : NewFile disk disk' name size i) (kept : FilesKept disk disk')
    (fresh : ∀ k < numDirEntries, (storedDirectory disk).isNamed name k = false) (j : Nat)
    (held : (Owner.entry j).InUse (storedDirectory disk'))
    (named : (storedDirectory disk').isNamed name j = true) : j = i := by
  cases new.others j held with
  | inl before =>
    have unnamed := fresh j before.1
    rw [← (kept j before).named name, named] at unnamed
    cases unnamed
  | inr same => exact same

end NewFile

namespace Laid

variable {disk : Disk} {m : BitMap} {d : Directory} {name : Nat → Byte}

theorem find_cases (laid : Laid disk m d) (name : Nat → Byte) :
    (d.findIndex name = -1 ∧ d.find name = -1) ∨
      ∃ i : Nat, d.findIndex name = i ∧ d.find name = d.sector i ∧ d.isNamed name i = true ∧
        (Owner.entry i).InUse d ∧ 0 ≤ d.sector i := by
  cases d.findIndex_cases name with
  | inl absent => exact .inl ⟨absent, by simp [Directory.find, absent]⟩
  | inr present =>
    obtain ⟨i, bound, found, named⟩ := present
    have held : (Owner.entry i).InUse d := ⟨bound, Directory.inUse_of_isNamed named⟩
    have inRange := Disk.inRange_iff.mp (laid.inRange (laid.header_marked held))
    have isSector : d.find name = d.sector i := by simp [Directory.find, found]
    exact .inr ⟨i, found, isSector, named, held, inRange.1⟩

end Laid

/-- A handle stays current through a call that keeps the entry of its file, in the directories
`d` and `d'` that the call fetched and wrote back, and the header. -/
theorem Handle.Current.transfer {disk disk' : Disk} {d d' : Directory} (current : h.Current disk)
    (before : d.Agrees (storedDirectory disk)) (after : d'.Agrees (storedDirectory disk')) (still :
      ∀ i, (Owner.entry i).InUse d → d.sector i = h.file.sector → (Owner.entry i).InUse d' ∧
      d'.sector i = d.sector i ∧ headerAt disk' (d.sector i) = headerAt disk (d.sector i)) :
    h.Current disk' := by
  obtain ⟨i, heldStored, sectorStored, header⟩ := current
  have held := (Owner.inUse_congr before _).mpr heldStored
  have sector : d.sector i = h.file.sector := by
    rw [← sectorStored, before.sector_eq held.1]
  obtain ⟨heldAfter, sectorAfter, headerAfter⟩ := still i held sector
  refine ⟨i, (Owner.inUse_congr after _).mp heldAfter, ?_, ?_⟩
  · rw [← after.sector_eq heldAfter.1, sectorAfter, sector]
  · rw [header, ← sector, headerAfter]

namespace FileSystem

variable {fs : FileSystem} {disk' : Disk} {m : BitMap} {d d' : Directory} {name : Nat → Byte}
  {size sector : Int}

theorem Valid.fetchDirectory_ok (valid : fs.Valid) (heap : Heap) :
    ∃ d, fs.fetchDirectory heap = .ok d ∧ d.Agrees (storedDirectory fs.disk) :=
  Directory.fetchFrom_ok valid.laid valid.directoryFile (Directory.new_tableSize _ _)

theorem Valid.fetchFreeMap_ok (valid : fs.Valid) (heap : Heap)
    (agrees : d.Agrees (storedDirectory fs.disk)) :
    ∃ m, fs.fetchFreeMap heap = .ok m ∧ m.numClear = (storedMap fs.disk).numClear ∧
      Laid fs.disk m d := by
  obtain ⟨m, fetched, numBits, same⟩ :=
    BitMap.fetchFrom_ok valid.laid valid.freeMapFile (BitMap.new_numBits numSectors (heap.words 0))
  have bits : ∀ i < numSectors, m.bit i = (storedMap fs.disk).bit i :=
    fun i bound => bit_congr same bound
  exact ⟨m, fetched, BitMap.numClear_congr numBits bits, valid.laid.congr numBits bits agrees.symm⟩

/-- After a call has written both files back, its bitmap and directory are those on disk.  The files
of the handles are those that the call keeps. -/
theorem Valid.flushed (valid : fs.Valid) (agrees : d.Agrees (storedDirectory fs.disk))
    (laid : Laid disk' m d') (stores : Stores disk' m d') (kept : HeadersKept disk disk' d')
    (freeMap : headerAt disk freeMapSector = headerAt fs.disk freeMapSector)
    (directory : headerAt disk directorySector = headerAt fs.disk directorySector)
    {handles : List Handle}
    (among : ∀ h ∈ handles, h.inDirectory = true → h ∈ fs.handles ∧ ∀ i,
      (Owner.entry i).InUse d → d.sector i = h.file.sector → (Owner.entry i).InUse d' ∧
      d'.sector i = d.sector i ∧ headerAt disk' (d.sector i) = headerAt fs.disk (d.sector i)) :
    Valid { fs with disk := disk', handles := handles } where
  laid := laid.stored stores
  freeMapFile := by rw [valid.freeMapFile, kept.freeMap, freeMap]
  directoryFile := by rw [valid.directoryFile, kept.directory, directory]
  handles h member inDirectory := by
    obtain ⟨before, still⟩ := among h member inDirectory
    exact (valid.handles h before inDirectory).transfer agrees stores.directory still

/-- What `Create` has in memory when it comes to `Allocate`: the bitmap with the sector for the header,
and the directory with the new entry. -/
structure Prepared (fs : FileSystem) (name : Nat → Byte) (m : BitMap) (d : Directory) (sector : Int)
    (m₁ : BitMap) (i : Nat) (d' : Directory) : Prop where
  agrees : d.Agrees (storedDirectory fs.disk)
  laid : Laid fs.disk m d
  inRange : Disk.inRange sector = true
  unmarked : ¬ m.Marked sector
  lowest : ∀ b, 0 ≤ b → b < sector → m.Marked b
  numBits : m₁.numBits = m.numBits
  marked : ∀ b, m₁.Marked b ↔ m.Marked b ∨ b = sector
  added : d.Added i name sector d'
  names : ∀ j, d.inUse j = true → ∀ other, d'.isNamed other j = d.isNamed other j

def createFrom (fs : FileSystem) (sector : Int) (freeMap : BitMap) (directory : Directory)
    (size : Int) (heap : Heap) : Except Fault (Bool × Disk) := do
  let (allocated, hdr, freeMap) ← (FileHeader.mk (heap.words 1)).allocate freeMap size
  if !allocated then
    return (false, fs.disk)
  else
    let disk ← hdr.writeBack fs.disk sector
    let disk ← directory.writeBack disk fs.directoryFile (heap.bytes 1)
    let disk ← freeMap.writeBack disk fs.freeMapFile (heap.bytes 2)
    return (true, disk)

theorem Prepared.commit {m₁ m₂ : BitMap} (prepared : Prepared fs name m d sector m₁ i d')
    (valid : fs.Valid) {hdr : FileHeader} {heap : Heap}
    (allocateDone : (FileHeader.mk (heap.words 1)).allocate m₁ size = .ok (true, hdr, m₂))
    (allocated : FileHeader.Allocated m₁ size hdr m₂) (nonneg : 0 ≤ size)
    (most : size ≤ maxFileSize) :
    ∃ disk', createFrom fs sector m₁ d' size heap = .ok (true, disk') ∧
      Valid { fs with disk := disk' } ∧ NewFile fs.disk disk' name size i ∧
      FilesKept fs.disk disk' ∧ (storedDirectory disk').sector i = sector ∧
      ∀ k < 32, (headerAt disk' sector).words k = hdr.words k := by
  have agrees := prepared.agrees
  have laid := prepared.laid
  have added := prepared.added
  obtain ⟨disk₀, headerDone, only, written⟩ := hdr.writeBack_ok fs.disk prepared.inRange
  have kept₀ := laid.header_of_fresh prepared.inRange prepared.unmarked only
  have same₀ := laid.contents_of_fresh prepared.inRange prepared.unmarked only
  have laid₀ := laid.grant prepared.inRange prepared.unmarked prepared.numBits prepared.marked
    allocated nonneg most added only written
  obtain ⟨disk₁, disk₂, directoryDone, mapDone, kept, same, laid₂, stores⟩ :=
    laid₀.flushDirectoryFirst fs (valid.freeMapFile.trans kept₀.freeMap.symm)
      (valid.directoryFile.trans kept₀.directory.symm) (heap.bytes 1) (heap.bytes 2)
  -- an entry of the old directory is one of the new, with the same header
  have entries : ∀ j, (Owner.entry j).InUse d → (Owner.entry j).InUse d' ∧
      d'.sector j = d.sector j ∧ headerAt disk₂ (d.sector j) = headerAt fs.disk (d.sector j) ∧
      (headerAt fs.disk (d.sector j)).contents disk₂ =
        (headerAt fs.disk (d.sector j)).contents fs.disk := by
    intro j heldBefore
    have heldAfter := (added.inUse_iff _).mpr (.inl heldBefore)
    have sameSector : d'.sector j = d.sector j := added.headerSector_eq heldBefore
    have header₀ := kept₀ _ heldBefore
    have header₂ := kept _ heldAfter
    have contents₀ := same₀ _ heldBefore
    have contents₂ := same _ heldAfter
    simp only [Owner.header, Owner.headerSector, sameSector] at header₀ header₂ contents₀ contents₂
    rw [header₀] at contents₂
    exact ⟨heldAfter, sameSector, header₂.trans header₀, contents₂.trans contents₀⟩
  have held := (added.inUse_iff (.entry i)).mpr (.inr rfl)
  have sector₂ : (storedDirectory disk₂).sector i = sector := by
    rw [← stores.directory.sector_eq held.1, added.sector]
  have header : headerAt disk₂ sector = headerAt disk₀ sector := by
    have header := kept _ held
    simpa only [Owner.header, Owner.headerSector, added.sector] using header
  refine ⟨disk₂, ?_, ?_, ?_, ?_, sector₂, header ▸ written⟩
  · simp only [createFrom, allocateDone, ok_bind, headerDone, directoryDone, mapDone, Bool.not_true,
      Bool.false_eq_true, if_false, pure_eq]
  · refine valid.flushed agrees laid₂ stores kept kept₀.freeMap kept₀.directory
      fun h member _ => ⟨member, fun j heldBefore _ => ?_⟩
    obtain ⟨heldAfter, sameSector, header, _⟩ := entries j heldBefore
    exact ⟨heldAfter, sameSector, header⟩
  · exact {
      inUse := (Owner.inUse_congr stores.directory _).mp held
      named := by rw [← stores.directory.isNamed_eq name held.1, added.named]
      fileLength := by
        rw [Owner.header, Owner.headerSector, sector₂, header, FileHeader.fileLength,
          FileHeader.numBytes, written 0 (by omega)]
        exact allocated.fileLength
      others := by
        intro j heldAfter
        cases (added.inUse_iff _).mp ((Owner.inUse_congr stores.directory _).mpr heldAfter) with
        | inl heldBefore => exact .inl ((Owner.inUse_congr agrees _).mp heldBefore)
        | inr isNew => exact .inr (Owner.entry.inj isNew) }
  · intro j heldStored
    have heldBefore := (Owner.inUse_congr agrees _).mpr heldStored
    obtain ⟨heldAfter, sameSector, header, contents⟩ := entries j heldBefore
    have sectorBefore := agrees.sector_eq heldBefore.1
    have sectorAfter := stores.directory.sector_eq heldAfter.1
    have storedSector : (storedDirectory disk₂).sector j = (storedDirectory fs.disk).sector j := by
      rw [← sectorAfter, sameSector, sectorBefore]
    rw [sectorBefore] at header contents
    exact {
      inUse := (Owner.inUse_congr stores.directory _).mp heldAfter
      named := by
        intro other
        rw [← stores.directory.isNamed_eq other heldAfter.1, prepared.names j heldBefore.2,
          agrees.isNamed_eq other heldBefore.1]
      sector := storedSector
      header := by
        simp only [Owner.header, Owner.headerSector, storedSector]
        exact header
      contents := contents }

/-- What `Create` needs, in terms of the objects that it fetches. -/
theorem creatable_iff (agrees : d.Agrees (storedDirectory fs.disk))
    (clear : m.numClear = (storedMap fs.disk).numClear) :
    Creatable fs.disk name size ↔ (∀ i < d.tableSize, d.isNamed name i = false) ∧
      (∃ i < d.tableSize, d.inUse i = false) ∧
      1 + (ceilDiv size sectorSize).toNat ≤ m.numClear := by
  have tableSize : d.tableSize = numDirEntries := agrees.tableSize
  unfold Creatable
  rw [clear, tableSize]
  apply and_congr
  · exact forall₂_congr fun i bound => by rw [agrees.isNamed_eq name (tableSize ▸ bound)]
  · apply and_congr_left'
    exact exists_congr fun i => and_congr_right fun bound => by
      rw [agrees.inUse_eq (tableSize ▸ bound)]

/-- `Create` is refused whatever the size, or comes to `Allocate`. -/
theorem create_stages (valid : fs.Valid) (name : Nat → Byte) (heap : Heap) :
    (∀ size, fs.create name size heap = .ok (false, fs.disk) ∧ ¬ Creatable fs.disk name size) ∨
    ∃ m d sector m₁ i d', Prepared fs name m d sector m₁ i d' ∧
      ∀ size, fs.create name size heap = createFrom fs sector m₁ d' size heap ∧
        (Creatable fs.disk name size ↔ (ceilDiv size sectorSize).toNat ≤ m₁.numClear) := by
  obtain ⟨d, fetchedDirectory, agrees⟩ := valid.fetchDirectory_ok heap
  obtain ⟨m, fetchedMap, clear, laid⟩ := valid.fetchFreeMap_ok heap agrees
  have needs : ∀ size : Int, Creatable fs.disk name size ↔
      (∀ i < d.tableSize, d.isNamed name i = false) ∧ (∃ i < d.tableSize, d.inUse i = false) ∧
        1 + (ceilDiv size sectorSize).toNat ≤ m.numClear := fun _ => creatable_iff agrees clear
  cases laid.find_cases name with
  | inr present =>
    obtain ⟨i, found, isSector, named, held, positive⟩ := present
    have present : d.find name ≠ -1 := by omega
    refine .inl fun size => ⟨?_, ?_⟩
    · simp only [create, fetchedDirectory, ok_bind, if_pos present, pure_eq]
    · rw [needs]
      intro ⟨absent, _⟩
      rw [absent i held.1] at named
      cases named
  | inl absent =>
    have notFound : ¬ d.find name ≠ -1 := by simp [absent.2]
    by_cases free : 0 < m.numClear
    · obtain ⟨sector, m₁, found, numBits, numClear, inRange, unmarked, marked⟩ :=
        BitMap.find_marked free
      rw [BitMap.inRange_iff, laid.numBits] at inRange
      have isSector : ¬ sector = -1 := by omega
      by_cases room : ∃ i < d.tableSize, d.inUse i = false
      · obtain ⟨i, bound, unused⟩ := room
        have small : sector < 2 ^ 31 := by
          have disk : numSectors = 1024 := rfl
          omega
        obtain ⟨j, d', addDone, added⟩ := Directory.add_of_free absent.1 bound unused inRange.1 small
        refine .inr ⟨m, d, sector, m₁, j, d', ⟨agrees, laid, Disk.inRange_iff.mpr inRange, unmarked,
          fun _ => BitMap.find_lowest found, numBits, marked, added,
            fun _ inUse other => Directory.add_isNamed addDone inUse other⟩,
          fun size => ⟨?_, ?_⟩⟩
        · simp only [create, createFrom, fetchedDirectory, fetchedMap, ok_bind,
            if_neg notFound, found, if_neg isSector, addDone, Bool.not_true, Bool.false_eq_true,
            if_false]
        · have nameless := Directory.findIndex_eq_neg_one.mp absent.1
          rw [needs]
          constructor
          · intro ⟨_, _, sectors⟩
            omega
          · intro sectors
            exact ⟨nameless, ⟨i, bound, unused⟩, by omega⟩
      · have full : ∀ i < d.tableSize, d.inUse i = true := by
          intro i bound
          by_contra unused
          exact room ⟨i, bound, by simpa using unused⟩
        refine .inl fun size => ⟨?_, ?_⟩
        · simp only [create, fetchedDirectory, fetchedMap, ok_bind, if_neg notFound,
            found, if_neg isSector, Directory.add_of_full sector full, Bool.not_false, if_true, pure_eq]
        · rw [needs]
          exact fun needed => room needed.2.1
    · have none : m.find = (-1, m) :=
        BitMap.find_of_full ((BitMap.numClear_eq_zero m).mp (by omega))
      refine .inl fun size => ⟨?_, ?_⟩
      · simp only [create, fetchedDirectory, fetchedMap, ok_bind, if_neg notFound, none,
          if_true, pure_eq]
      · rw [needs]
        intro ⟨_, _, sectors⟩
        omega

theorem create_ok (valid : fs.Valid) (nonneg : 0 ≤ size) (most : size ≤ maxFileSize)
    (name : Nat → Byte) (heap : Heap) :
    ∃ success disk', fs.create name size heap = .ok (success, disk') ∧
      Valid { fs with disk := disk' } ∧ (success = true ↔ Creatable fs.disk name size) ∧
      (success = true → ∃ i, NewFile fs.disk disk' name size i) ∧
      (success = false → disk' = fs.disk) ∧ FilesKept fs.disk disk' := by
  -- a call that returns early leaves the disk alone
  by_cases refused : fs.create name size heap = .ok (false, fs.disk) ∧
    ¬ Creatable fs.disk name size
  · exact ⟨false, fs.disk, refused.1, valid, by simp [refused.2], by simp, fun _ => rfl,
      .refl fs.disk⟩
  cases create_stages valid name heap with
  | inl early => exact absurd (early size) refused
  | inr stages =>
    obtain ⟨m, d, sector, m₁, i, d', prepared, stages⟩ := stages
    obtain ⟨goesOn, creatable⟩ := stages size
    obtain ⟨success, hdr, m₂, allocateDone, enough, allocated⟩ :=
      FileHeader.allocate_ok (prepared.numBits.trans prepared.laid.numBits) nonneg most
        ⟨heap.words 1⟩
    cases success with
    | true =>
      obtain ⟨disk', done, valid', newFile, filesKept, -⟩ :=
        prepared.commit valid allocateDone (allocated rfl) nonneg most
      exact ⟨true, disk', goesOn.trans done, valid',
        iff_of_true rfl (creatable.mpr (enough.mp rfl)), fun _ => ⟨i, newFile⟩, by simp, filesKept⟩
    | false =>
      refine absurd ⟨?_, fun needed => ?_⟩ refused
      · simp only [goesOn, createFrom, allocateDone, ok_bind, Bool.not_false, if_true, pure_eq]
      · have short := enough.mpr (creatable.mp needed)
        cases short

theorem mem_forget {handles : List Handle} (member : h ∈ forget sector handles)
    (inDirectory : h.inDirectory = true) : h ∈ handles ∧ h.file.sector ≠ sector := by
  obtain ⟨before, wasThere, rfl⟩ := List.mem_map.mp member
  split at inDirectory
  next => cases inDirectory
  next other =>
    rw [if_neg other]
    exact ⟨wasThere, other⟩

/-- `Remove` completes, so that no assertion in `Deallocate` fails, and takes an entry with the name
from the directory when there is one. -/
theorem remove_ok (valid : fs.Valid) (name : Nat → Byte) (heap : Heap) :
    ∃ d removed disk', fs.fetchDirectory heap = .ok d ∧ fs.remove name heap = .ok (removed, disk') ∧
      Valid { fs with disk := disk', handles :=
        if removed then forget (d.find name) fs.handles else fs.handles } ∧
      (removed = false → ∀ i < numDirEntries, (storedDirectory fs.disk).isNamed name i = false) ∧
      (removed = true → ∃ i, (Owner.entry i).InUse (storedDirectory fs.disk) ∧
        (storedDirectory fs.disk).isNamed name i = true ∧
        d.find name = (storedDirectory fs.disk).sector i ∧
        ∀ j, (Owner.entry j).InUse (storedDirectory disk') ↔
          (Owner.entry j).InUse (storedDirectory fs.disk) ∧ j ≠ i) := by
  obtain ⟨d, fetchedDirectory, agrees⟩ := valid.fetchDirectory_ok heap
  obtain ⟨m, fetchedMap, clear, laid⟩ := valid.fetchFreeMap_ok heap agrees
  cases laid.find_cases name with
  | inl absent =>
    refine ⟨d, false, fs.disk, fetchedDirectory, ?_, valid, fun _ i bound => ?_, by simp⟩
    · simp only [remove, fetchedDirectory, ok_bind, if_pos absent.2, pure_eq]
    · have inTable : i < d.tableSize := agrees.tableSize ▸ bound
      rw [← agrees.isNamed_eq name inTable]
      exact Directory.findIndex_eq_neg_one.mp absent.1 i inTable
  | inr present =>
    obtain ⟨i, found, isSector, named, held, positive⟩ := present
    have present : ¬ d.sector i = -1 := by omega
    have inRange := laid.inRange (laid.header_marked held)
    have covering := laid.covering held
    obtain ⟨m₁, deallocateDone, numBits, marked⟩ := FileHeader.deallocate_ok covering.direct
      covering.distinct fun b member => laid.sector_marked held (List.mem_cons_of_mem _ member)
    -- the header sector is none of the data sectors, so it is still marked
    have stillMarked : m₁.Marked (d.sector i) :=
      (marked _).mpr ⟨laid.header_marked held, laid.header_not_block held held⟩
    have clearDone := BitMap.clear_eq_ok.mpr ⟨stillMarked.1, rfl⟩
    have cleared : ∀ b, (m₁.clearBit (d.sector i).toNat).Marked b ↔
        m.Marked b ∧ b ∉ (Owner.entry i).sectors fs.disk d := by
      intro b
      rw [BitMap.marked_clearBit stillMarked.1, marked, Owner.sectors, List.mem_cons, not_or,
        and_assoc, and_comm (a := b ∉ _)]
      exact Iff.rfl
    have numBits₂ : (m₁.clearBit (d.sector i).toNat).numBits = m.numBits := numBits
    generalize m₁.clearBit (d.sector i).toNat = m₂ at clearDone cleared numBits₂
    have laid₀ := laid.revoke held numBits₂ cleared
    obtain ⟨disk₁, disk₂, mapDone, directoryDone, kept, _, laid₂, stores⟩ :=
      laid₀.flushMapFirst fs valid.freeMapFile valid.directoryFile (heap.bytes 1) (heap.bytes 2)
    refine ⟨d, true, disk₂, fetchedDirectory, ?_, ?_, by simp, fun _ =>
      ⟨i, (Owner.inUse_congr agrees _).mp held, ?_, ?_, fun j => ?_⟩⟩
    · have headerDone : FileHeader.fetchFrom fs.disk (d.sector i) = .ok _ :=
        FileHeader.fetchFrom_ok inRange
      simp only [Owner.header, Owner.headerSector] at deallocateDone
      simp only [remove, fetchedDirectory, fetchedMap, ok_bind, isSector, if_neg present,
        headerDone, deallocateDone, clearDone, Directory.remove_of_found found, mapDone,
        directoryDone, pure_eq]
    · apply valid.flushed agrees laid₂ stores kept rfl rfl
      intro h member inDirectory
      rw [if_pos rfl, isSector] at member
      obtain ⟨before, other⟩ := mem_forget member inDirectory
      -- the entry of another file is still there
      refine ⟨before, fun j heldBefore sector => ?_⟩
      have different : j ≠ i := by
        intro same
        rw [same] at sector
        exact other sector.symm
      have heldAfter : (Owner.entry j).InUse (d.setInUse i false) :=
        (Owner.inUse_removed _).mpr ⟨heldBefore, by simpa using different⟩
      have sameSector := d.setInUse_sector i j false
      have header := kept _ heldAfter
      simp only [Owner.header, Owner.headerSector, sameSector] at header
      exact ⟨heldAfter, sameSector, header⟩
    · rw [← agrees.isNamed_eq name held.1, named]
    · rw [isSector, agrees.sector_eq held.1]
    · rw [← Owner.inUse_congr stores.directory, Owner.inUse_removed, Owner.inUse_congr agrees]
      simp

theorem openFile_ok (valid : fs.Valid) (name : Nat → Byte) (heap : Heap) :
    ∃ result, fs.openFile name heap = .ok result ∧
      (∀ file, result = some file → ∃ i, (Owner.entry i).InUse (storedDirectory fs.disk) ∧
        (storedDirectory fs.disk).isNamed name i = true ∧
        file = ⟨(storedDirectory fs.disk).sector i,
          (Owner.entry i).header fs.disk (storedDirectory fs.disk), 0⟩) ∧
      (result = none → ∀ i < numDirEntries, (storedDirectory fs.disk).isNamed name i = false) := by
  obtain ⟨d, fetchedDirectory, agrees⟩ := valid.fetchDirectory_ok heap
  have tableSize : d.tableSize = numDirEntries := agrees.tableSize
  have laid := valid.laid.congr rfl (fun _ _ => rfl) agrees.symm
  cases laid.find_cases name with
  | inl absent =>
    have missing : ¬ d.find name ≥ 0 := by omega
    refine ⟨none, ?_, by simp, fun _ i bound => ?_⟩
    · simp only [openFile, fetchedDirectory, ok_bind, if_neg missing, pure_eq]
    · rw [← agrees.isNamed_eq name (tableSize ▸ bound)]
      exact Directory.findIndex_eq_neg_one.mp absent.1 i (tableSize ▸ bound)
  | inr present =>
    obtain ⟨i, found, isSector, named, held, positive⟩ := present
    have inRange : Disk.inRange (d.sector i) = true := laid.inRange (laid.header_marked held)
    refine ⟨some ⟨d.sector i, headerAt fs.disk (d.sector i), 0⟩, ?_, ?_, by simp⟩
    · simp only [openFile, fetchedDirectory, ok_bind, isSector, if_pos positive,
        OpenFile.new_ok fs.disk inRange, pure_eq, ge_iff_le]
    · intro file isFile
      cases isFile
      refine ⟨i, (Owner.inUse_congr agrees _).mp held, ?_, ?_⟩
      · rw [← agrees.isNamed_eq name held.1, named]
      · rw [agrees.sector_eq held.1]
        rfl

theorem open_unique (valid : fs.Valid) (heap : Heap)
    (held : (Owner.entry i).InUse (storedDirectory fs.disk))
    (named : (storedDirectory fs.disk).isNamed name i = true) (unique : ∀ j, (Owner.entry j).InUse
      (storedDirectory fs.disk) → (storedDirectory fs.disk).isNamed name j = true → j = i) :
    fs.openFile name heap = .ok (some ⟨(storedDirectory fs.disk).sector i,
      (Owner.entry i).header fs.disk (storedDirectory fs.disk), 0⟩) := by
  obtain ⟨result, opened, present, absent⟩ := openFile_ok valid name heap
  cases result with
  | none =>
    have unnamed := absent rfl i held.1
    rw [named] at unnamed
    cases unnamed
  | some file =>
    obtain ⟨j, inUse, namedToo, isFile⟩ := present file rfl
    rw [opened, isFile, unique j inUse namedToo]

theorem current_of_opened (held : (Owner.entry i).InUse (storedDirectory disk)) :
    Handle.Current disk ⟨⟨(storedDirectory disk).sector i,
      (Owner.entry i).header disk (storedDirectory disk), 0⟩, true⟩ :=
  ⟨i, held, rfl, rfl⟩

section

variable (valid : fs.Valid) (held : (Owner.entry i).InUse (storedDirectory fs.disk))
  (only : OnlyChanges fs.disk disk' ((Owner.entry i).header fs.disk (storedDirectory fs.disk)).blocks)

include valid held only

theorem Valid.write :
    Valid { fs with disk := disk' } := by
  have laid := valid.laid
  have kept : HeadersKept fs.disk disk' (storedDirectory fs.disk) :=
    fun _ other => laid.header_unchanged held only other
  -- the bitmap and the directory are contents of other files
  have stores : Stores disk' (storedMap fs.disk) (storedDirectory fs.disk) := {
    map := fun _ small => laid.storedMap_unchanged held only (by simp) small
    directory := laid.storedDirectory_unchanged held only (by simp) }
  refine valid.flushed (.refl _) (laid.of_headers kept) stores kept rfl rfl
    fun h member _ => ⟨member, fun j other _ => ?_⟩
  have header := kept _ other
  simp only [Owner.header, Owner.headerSector] at header
  exact ⟨other, rfl, header⟩

theorem Valid.write_entry
    (other : (Owner.entry j).InUse (storedDirectory fs.disk)) : SameEntry fs.disk disk' j := by
  have agrees := valid.laid.storedDirectory_unchanged held only (by simp)
  have sector := (agrees.sector_eq other.1).symm
  exact {
    inUse := (Owner.inUse_congr agrees _).mp other
    named := fun name => (agrees.isNamed_eq name other.1).symm
    sector := sector
    header := by
      have header := valid.laid.header_unchanged held only other
      simp only [Owner.header, Owner.headerSector, sector] at header ⊢
      exact header }

theorem Valid.write_inUse (other : (Owner.entry j).InUse (storedDirectory disk')) :
    (Owner.entry j).InUse (storedDirectory fs.disk) :=
  (Owner.inUse_congr (valid.laid.storedDirectory_unchanged held only (by simp)) _).mpr other

theorem Valid.write_other
    (other : (Owner.entry j).InUse (storedDirectory fs.disk)) (different : j ≠ i) :
    SameFile fs.disk disk' j where
  toSameEntry := valid.write_entry held only other
  contents := FileHeader.contents_congr fun _ inside =>
    valid.laid.contents_unchanged held only other (by simpa using different) inside

end

/-- `WriteAt` through a current handle, at a position that is not negative. -/
theorem writeAt_only (valid : fs.Valid) (current : h.Current fs.disk) {buf source : Nat → Byte}
    {numBytes position count : Int} (nonneg : 0 ≤ position)
    (done : h.file.writeAt fs.disk buf source numBytes position = .ok (disk', count)) :
    ∃ i, (Owner.entry i).InUse (storedDirectory fs.disk) ∧
      (storedDirectory fs.disk).sector i = h.file.sector ∧
      OnlyChanges fs.disk disk'
        ((Owner.entry i).header fs.disk (storedDirectory fs.disk)).blocks := by
  obtain ⟨i, held, sector, header⟩ := current
  refine ⟨i, held, sector, ?_⟩
  have isHeader : h.file.hdr = (Owner.entry i).header fs.disk (storedDirectory fs.disk) := by
    rw [header, Owner.header, Owner.headerSector, sector]
  have covering : h.file.hdr.Covering := isHeader ▸ valid.laid.covering held
  obtain ⟨p, rfl⟩ := Int.eq_ofNat_of_zero_le nonneg
  by_cases noOverflow : (p : Int) + numBytes < 2 ^ 31
  · obtain ⟨written, same, only, _⟩ := OpenFile.writeAt_ok covering fs.disk buf source noOverflow
    rw [same, Except.ok.injEq, Prod.mk.injEq] at done
    rw [isHeader] at only
    exact done.1 ▸ only
  · -- the sum is computed only for a request that is not refused
    by_cases refused : numBytes ≤ 0 ∨ (p : Int) ≥ h.file.hdr.fileLength
    · simp only [OpenFile.writeAt, if_pos refused, pure_eq, Except.ok.injEq,
        Prod.mk.injEq] at done
      exact done.1 ▸ fun _ _ => rfl
    · simp only [OpenFile.writeAt, if_neg refused, OpenFile.checkedSum, if_neg noOverflow, bind,
        Except.bind, reduceCtorEq] at done

theorem writeAt_valid (valid : fs.Valid) (current : h.Current fs.disk) {buf source : Nat → Byte}
    {numBytes position count : Int} (nonneg : 0 ≤ position)
    (done : h.file.writeAt fs.disk buf source numBytes position = .ok (disk', count)) :
    Valid { fs with disk := disk' } := by
  obtain ⟨i, held, _, only⟩ := writeAt_only valid current nonneg done
  exact valid.write held only

end FileSystem

end Nachos
