import Nachos.FileSys.FileSystem
import Nachos.Lib.Allocation
import Nachos.Verified.ByteArrays
import Nachos.Verified.SectorAllocation

/-!
# The layout of the disk

The sectors of the disk belong to the bitmap file, to the directory file and to the files in
the directory; each of these owners has a header sector and the data sectors of its header.
`Laid` relates the headers on disk to a bitmap and a directory in memory, which are ahead of
those on disk while a call is changing them.  Writing into the data sectors of one owner keeps
every header and the contents of every other owner, so the two files can be written back one
after the other.
-/

namespace Nachos

open Allocation

def headerAt (disk : Disk) (sector : Int) : FileHeader := ⟨wordsOf (disk sector.toNat)⟩

def storedMap (disk : Disk) : BitMap :=
  ⟨numSectors, wordsOf ((headerAt disk freeMapSector).fileByte disk)⟩

def storedDirectory (disk : Disk) : Directory :=
  ⟨numDirEntries, (headerAt disk directorySector).fileByte disk⟩

inductive Owner where
  | freeMap
  | directory
  | entry (i : Nat)
  deriving DecidableEq

namespace Owner

def headerSector (d : Directory) : Owner → Int
  | freeMap => freeMapSector
  | directory => directorySector
  | entry i => d.sector i

def InUse (d : Directory) : Owner → Prop
  | freeMap => True
  | directory => True
  | entry i => i < d.tableSize ∧ d.inUse i = true

def header (disk : Disk) (d : Directory) (o : Owner) : FileHeader :=
  headerAt disk (o.headerSector d)

def sectors (disk : Disk) (d : Directory) (o : Owner) : List Int :=
  o.headerSector d :: (o.header disk d).blocks

theorem inUse_congr {d d' : Directory} (agrees : d.Agrees d') (o : Owner) :
    o.InUse d ↔ o.InUse d' := by
  cases o with
  | freeMap => exact Iff.rfl
  | directory => exact Iff.rfl
  | entry i =>
    simp only [InUse, ← agrees.tableSize]
    exact and_congr_right fun bound => by rw [agrees.inUse_eq bound]

theorem headerSector_congr {d d' : Directory} (agrees : d.Agrees d') {o : Owner}
    (held : o.InUse d) : o.headerSector d = o.headerSector d' := by
  cases o with
  | freeMap => rfl
  | directory => rfl
  | entry i => exact agrees.sector_eq held.1

end Owner

namespace FileHeader

structure Sized (hdr : FileHeader) : Prop where
  nonneg : 0 ≤ hdr.fileLength
  most : hdr.fileLength ≤ maxFileSize
  sized : hdr.numSectors = ceilDiv hdr.fileLength sectorSize

theorem blocks_congr {hdr hdr' : FileHeader} (same : ∀ k < 32, hdr'.words k = hdr.words k)
    (direct : hdr.numSectors ≤ numDirect) : hdr'.blocks = hdr.blocks := by
  have count : hdr'.numSectors = hdr.numSectors := by rw [numSectors, same 1 (by omega), numSectors]
  unfold blocks
  rw [count]
  apply List.map_congr_left
  intro i member
  have bound := List.mem_range.mp member
  have size : numDirect = 30 := rfl
  rw [dataSector, same (2 + i) (by omega), dataSector]

theorem Sized.congr {hdr hdr' : FileHeader} (sized : hdr.Sized)
    (same : ∀ k < 32, hdr'.words k = hdr.words k) : hdr'.Sized := by
  have count : hdr'.numSectors = hdr.numSectors := by rw [numSectors, same 1 (by omega), numSectors]
  have length : hdr'.fileLength = hdr.fileLength := by
    rw [fileLength, numBytes, same 0 (by omega), fileLength, numBytes]
  exact ⟨length ▸ sized.nonneg, length ▸ sized.most, by rw [count, length, sized.sized]⟩

theorem Allocated.isSized {m m' : BitMap} {fileSize : Int} {hdr : FileHeader}
    (allocated : Allocated m fileSize hdr m') (nonneg : 0 ≤ fileSize)
    (most : fileSize ≤ maxFileSize) : hdr.Sized :=
  ⟨allocated.fileLength ▸ nonneg, allocated.fileLength ▸ most,
    by rw [allocated.sized, allocated.fileLength]⟩

end FileHeader

/-- The sectors of the disk are divided among the owners: no sector has two, and the bitmap
has exactly those that have one. -/
structure Laid (disk : Disk) (m : BitMap) (d : Directory) : Prop where
  numBits : m.numBits = numSectors
  tableSize : d.tableSize = numDirEntries
  exact : Exact (Owner.InUse d) (Owner.sectors disk d) m.Marked
  sized : ∀ o : Owner, o.InUse d → (o.header disk d).Sized
  freeMapLength : (headerAt disk freeMapSector).fileLength = freeMapFileSize
  directoryLength : (headerAt disk directorySector).fileLength = directoryFileSize

def HeadersKept (disk disk' : Disk) (d : Directory) : Prop :=
  ∀ o : Owner, o.InUse d → o.header disk' d = o.header disk d

def ContentsKept (disk disk' : Disk) (d : Directory) : Prop :=
  ∀ i, (Owner.entry i).InUse d →
    ((Owner.entry i).header disk d).contents disk' = ((Owner.entry i).header disk d).contents disk

variable {d : Directory} {b : Int} {disk : Disk} {m : BitMap}

theorem HeadersKept.trans {disk disk₁ disk₂ : Disk} (first : HeadersKept disk disk₁ d)
    (second : HeadersKept disk₁ disk₂ d) :
    HeadersKept disk disk₂ d :=
  fun o held => (second o held).trans (first o held)

theorem ContentsKept.trans {disk disk₁ disk₂ : Disk} (headers : HeadersKept disk disk₁ d)
    (first : ContentsKept disk disk₁ d) (second : ContentsKept disk₁ disk₂ d) :
    ContentsKept disk disk₂ d := by
  intro i held
  have later := second i held
  rw [headers _ held] at later
  exact later.trans (first i held)

theorem HeadersKept.freeMap {disk disk' : Disk} (kept : HeadersKept disk disk' d) :
    headerAt disk' freeMapSector = headerAt disk freeMapSector :=
  kept .freeMap trivial

theorem HeadersKept.directory {disk disk' : Disk} (kept : HeadersKept disk disk' d) :
    headerAt disk' directorySector = headerAt disk directorySector :=
  kept .directory trivial

namespace Laid

variable {disk disk' : Disk} {m m' : BitMap} {d d' : Directory} {o p : Owner}

theorem inRange (laid : Laid disk m d) (marked : m.Marked b) : Disk.inRange b = true := by
  have range := BitMap.inRange_iff.mp marked.1
  rw [laid.numBits] at range
  exact Disk.inRange_iff.mpr range

theorem sector_marked (laid : Laid disk m d) (held : o.InUse d) (member : b ∈ o.sectors disk d) :
    m.Marked b :=
  laid.exact.used_of_mem held member

theorem header_marked (laid : Laid disk m d) (held : o.InUse d) : m.Marked (o.headerSector d) :=
  laid.sector_marked held List.mem_cons_self

theorem covering (laid : Laid disk m d) (held : o.InUse d) : (o.header disk d).Covering where
  direct := by
    rw [(laid.sized o held).sized]
    exact ceilDiv_le_numDirect (laid.sized o held).most
  covers := by
    rw [(laid.sized o held).sized]
    exact le_ceilDiv_mul _
  inRange b member := laid.inRange (laid.sector_marked held (List.mem_cons_of_mem _ member))
  distinct := (List.nodup_cons.mp (laid.exact.nodup o held)).2

theorem header_not_block (laid : Laid disk m d) (held : o.InUse d) (other : p.InUse d) :
    p.headerSector d ∉ (o.header disk d).blocks := by
  by_cases same : p = o
  · subst same
    exact (List.nodup_cons.mp (laid.exact.nodup p held)).1
  · intro member
    exact laid.exact.not_mem_of_ne other held same List.mem_cons_self
      (List.mem_cons_of_mem _ member)

theorem congr (laid : Laid disk m d) (numBits : m'.numBits = m.numBits)
    (bits : ∀ i < m.numBits, m'.bit i = m.bit i) (agrees : d.Agrees d') : Laid disk m' d' where
  numBits := numBits.trans laid.numBits
  tableSize := agrees.tableSize.symm.trans laid.tableSize
  exact := by
    apply laid.exact.congr
    · exact fun o => (Owner.inUse_congr agrees o).symm
    · intro o held
      simp only [Owner.sectors, Owner.header, Owner.headerSector_congr agrees held]
    · exact BitMap.marked_congr numBits bits
  sized o held := by
    have before := (Owner.inUse_congr agrees o).mpr held
    have sized := laid.sized o before
    rwa [Owner.header, Owner.headerSector_congr agrees before] at sized
  freeMapLength := laid.freeMapLength
  directoryLength := laid.directoryLength

/-! ## Writing into the data sectors of one file -/

section

variable (laid : Laid disk m d) (held : o.InUse d)
  (only : OnlyChanges disk disk' (o.header disk d).blocks)

include laid held only

theorem unchanged (marked : m.Marked b)
    (apart : b ∉ (o.header disk d).blocks) : disk' b.toNat = disk b.toNat := by
  apply only
  intro c member same
  have inRange := laid.inRange (laid.sector_marked held (List.mem_cons_of_mem _ member))
  exact apart (Disk.toNat_inj inRange (laid.inRange marked) same ▸ member)

theorem header_unchanged (other : p.InUse d) :
    p.header disk' d = p.header disk d := by
  unfold Owner.header headerAt
  rw [laid.unchanged held only (laid.header_marked other) (laid.header_not_block held other)]

theorem contents_unchanged (other : p.InUse d)
    (different : p ≠ o) {q : Nat} (inside : (q : Int) < (p.header disk d).fileLength) :
    (p.header disk d).fileByte disk' q = (p.header disk d).fileByte disk q := by
  have block : (p.header disk d).dataSector (q / sectorSize) ∈ (p.header disk d).blocks :=
    FileHeader.dataSector_mem ((laid.covering other).index_lt inside)
  have member : (p.header disk d).dataSector (q / sectorSize) ∈ p.sectors disk d :=
    List.mem_cons_of_mem _ block
  have apart : (p.header disk d).dataSector (q / sectorSize) ∉ (o.header disk d).blocks :=
    fun again => laid.exact.not_mem_of_ne other held different member (List.mem_cons_of_mem _ again)
  rw [FileHeader.fileByte, laid.unchanged held only (laid.sector_marked other member) apart,
    FileHeader.fileByte]

theorem contents_kept (notEntry : ∀ i, o ≠ .entry i) :
    ContentsKept disk disk' d :=
  fun i other => FileHeader.contents_congr fun _ inside =>
    laid.contents_unchanged held only other (notEntry i).symm inside

end

theorem of_headers (laid : Laid disk m d) (kept : HeadersKept disk disk' d) : Laid disk' m d where
  numBits := laid.numBits
  tableSize := laid.tableSize
  exact := laid.exact.congr (fun _ => Iff.rfl)
    (fun p other => by rw [Owner.sectors, kept p other, Owner.sectors]) fun _ => Iff.rfl
  sized p other := by
    rw [kept p other]
    exact laid.sized p other
  freeMapLength := by
    rw [kept.freeMap]
    exact laid.freeMapLength
  directoryLength := by
    rw [kept.directory]
    exact laid.directoryLength

end Laid

/-! ## Reading and writing the two files -/

structure Stores (disk : Disk) (m : BitMap) (d : Directory) : Prop where
  map : ∀ k < 32, (storedMap disk).map k = m.map k
  directory : d.Agrees (storedDirectory disk)

theorem bit_congr {m m' : BitMap} (same : ∀ k < 32, m'.map k = m.map k) {i : Nat}
    (bound : i < numSectors) : m'.bit i = m.bit i := by
  have word : i / bitsInWord < 32 := by
    have size : numSectors = 1024 := rfl
    simp only [bitsInWord]
    omega
  rw [BitMap.bit, same _ word, BitMap.bit]

theorem Laid.stored (laid : Laid disk m d) (stores : Stores disk m d) :
    Laid disk (storedMap disk) (storedDirectory disk) :=
  laid.congr laid.numBits.symm
    (fun _ bound => bit_congr stores.map (by rwa [laid.numBits] at bound)) stores.directory

theorem numWords_eq (numBits : m.numBits = numSectors) : m.numWords = 32 := by
  rw [BitMap.numWords, numBits]
  rfl

theorem tableSize_mul (tableSize : d.tableSize = numDirEntries) :
    d.tableSize * directoryEntrySize = directoryFileSize := by
  rw [tableSize, directoryFileSize, Nat.mul_comm]

section Unchanged

variable {disk disk' : Disk} {m : BitMap} {d : Directory} {o : Owner}

theorem Laid.storedMap_unchanged (laid : Laid disk m d) (held : o.InUse d)
    (only : OnlyChanges disk disk' (o.header disk d).blocks) (different : o ≠ .freeMap) {k : Nat}
    (small : k < 32) : (storedMap disk').map k = (storedMap disk).map k := by
  have kept : headerAt disk' freeMapSector = headerAt disk freeMapSector :=
    laid.header_unchanged (p := .freeMap) held only trivial
  apply wordsOf_congr
  intro i low high
  have inside : (i : Int) < (Owner.freeMap.header disk d).fileLength := by
    refine lt_of_lt_of_eq ?_ laid.freeMapLength.symm
    simp only [freeMapFileSize, numSectors, sectorsPerTrack, numTracks]
    omega
  rw [kept]
  exact laid.contents_unchanged (p := .freeMap) held only trivial different.symm inside

theorem Laid.storedDirectory_unchanged (laid : Laid disk m d) (held : o.InUse d)
    (only : OnlyChanges disk disk' (o.header disk d).blocks) (different : o ≠ .directory) :
    (storedDirectory disk).Agrees (storedDirectory disk') := by
  have kept : headerAt disk' directorySector = headerAt disk directorySector :=
    laid.header_unchanged (p := .directory) held only trivial
  refine ⟨rfl, fun q bound => ?_⟩
  have inside : (q : Int) < (Owner.directory.header disk d).fileLength := by
    rw [tableSize_mul rfl] at bound
    exact lt_of_lt_of_eq (Int.ofNat_lt.mpr bound) laid.directoryLength.symm
  simp only [storedDirectory, kept]
  exact (laid.contents_unchanged (p := .directory) held only trivial different.symm inside).symm

end Unchanged

section Files

variable {disk : Disk} {m : BitMap} {d : Directory} {file : OpenFile}

theorem BitMap.fetchFrom_ok {fetched : BitMap} (laid : Laid disk m d)
    (header : file.hdr = headerAt disk freeMapSector) (numBits : fetched.numBits = numSectors) :
    ∃ result, fetched.fetchFrom disk file = .ok result ∧ result.numBits = numSectors ∧
      ∀ k < 32, result.map k = (storedMap disk).map k := by
  have covering : file.hdr.Covering := header ▸ laid.covering (o := .freeMap) trivial
  have length : ((fetched.numWords * intSize : Nat) : Int) = file.hdr.fileLength := by
    rw [header, laid.freeMapLength, numWords_eq numBits]
    rfl
  obtain ⟨bytes, done, arrived⟩ := OpenFile.readAt_front covering disk (bytesOf fetched.map)
    length.le
  refine ⟨{ fetched with map := wordsOf bytes }, ?_, numBits, ?_⟩
  · simp only [fetchFrom, done, Loops.ok_bind, Loops.pure_eq]
  · intro k small
    apply wordsOf_congr
    intro i low high
    rw [arrived i (by rw [numWords_eq numBits]; simp only [intSize]; omega), header]

theorem Laid.writeMap (laid : Laid disk m d) (header : file.hdr = headerAt disk freeMapSector)
    (buf : Nat → Byte) :
    ∃ disk', m.writeBack disk file buf = .ok disk' ∧ HeadersKept disk disk' d ∧
      ContentsKept disk disk' d ∧ (∀ k < 32, (storedMap disk').map k = m.map k) ∧
      (d.Agrees (storedDirectory disk) → d.Agrees (storedDirectory disk')) := by
  have covering : file.hdr.Covering := header ▸ laid.covering (o := .freeMap) trivial
  have length : ((m.numWords * intSize : Nat) : Int) = file.hdr.fileLength := by
    rw [header, laid.freeMapLength, numWords_eq laid.numBits]
    rfl
  obtain ⟨disk', done, only, written⟩ := OpenFile.writeAt_front covering disk buf (bytesOf m.map)
    length.le
  rw [header] at only written
  have kept : HeadersKept disk disk' d := fun p other =>
    laid.header_unchanged (o := .freeMap) trivial only other
  refine ⟨disk', ?_, kept, laid.contents_kept (o := .freeMap) trivial only (by simp), ?_, ?_⟩
  · simp only [BitMap.writeBack, done, Loops.ok_bind, Loops.pure_eq]
  · intro k small
    apply wordsOf_eq
    intro i low high
    rw [kept.freeMap]
    exact written i (by rw [numWords_eq laid.numBits]; simp only [intSize]; omega)
  · intro agrees
    exact agrees.trans (laid.storedDirectory_unchanged (o := .freeMap) trivial only (by simp))

theorem Directory.fetchFrom_ok {fetched : Directory} (laid : Laid disk m d)
    (header : file.hdr = headerAt disk directorySector)
    (tableSize : fetched.tableSize = numDirEntries) :
    ∃ result, fetched.fetchFrom disk file = .ok result ∧ result.Agrees (storedDirectory disk) := by
  have covering : file.hdr.Covering := header ▸ laid.covering (o := .directory) trivial
  have length : ((fetched.tableSize * directoryEntrySize : Nat) : Int) = file.hdr.fileLength := by
    rw [header, laid.directoryLength, tableSize_mul tableSize]
  obtain ⟨table, done, arrived⟩ := OpenFile.readAt_front covering disk fetched.table length.le
  refine ⟨{ fetched with table := table }, ?_, tableSize, ?_⟩
  · simp only [fetchFrom, done, Loops.ok_bind, Loops.pure_eq]
  · intro p bound
    have here := arrived p bound
    rw [header] at here
    exact here

theorem Laid.writeDirectory (laid : Laid disk m d)
    (header : file.hdr = headerAt disk directorySector) (buf : Nat → Byte) :
    ∃ disk', d.writeBack disk file buf = .ok disk' ∧ HeadersKept disk disk' d ∧
      ContentsKept disk disk' d ∧ d.Agrees (storedDirectory disk') ∧
      ((∀ k < 32, (storedMap disk).map k = m.map k) →
        ∀ k < 32, (storedMap disk').map k = m.map k) := by
  have covering : file.hdr.Covering := header ▸ laid.covering (o := .directory) trivial
  have length : ((d.tableSize * directoryEntrySize : Nat) : Int) = file.hdr.fileLength := by
    rw [header, laid.directoryLength, tableSize_mul laid.tableSize]
  obtain ⟨disk', done, only, written⟩ := OpenFile.writeAt_front covering disk buf d.table length.le
  rw [header] at only written
  have kept : HeadersKept disk disk' d := fun p other =>
    laid.header_unchanged (o := .directory) trivial only other
  refine ⟨disk', ?_, kept, laid.contents_kept (o := .directory) trivial only (by simp), ?_, ?_⟩
  · simp only [Directory.writeBack, done, Loops.ok_bind, Loops.pure_eq]
  · refine ⟨laid.tableSize, fun q bound => ?_⟩
    simp only [storedDirectory, kept.directory]
    exact (written q bound).symm
  · intro stored k small
    rw [← stored k small]
    exact laid.storedMap_unchanged (o := .directory) trivial only (by simp) small

section

variable (laid : Laid disk m d) (fs : FileSystem)
  (mapHeader : fs.freeMapFile.hdr = headerAt disk freeMapSector)
  (directoryHeader : fs.directoryFile.hdr = headerAt disk directorySector) (buf buf' : Nat → Byte)

include laid fs mapHeader directoryHeader buf buf'

theorem Laid.flushDirectoryFirst :
    ∃ disk₁ disk₂, d.writeBack disk fs.directoryFile buf = .ok disk₁ ∧
      m.writeBack disk₁ fs.freeMapFile buf' = .ok disk₂ ∧ HeadersKept disk disk₂ d ∧
      ContentsKept disk disk₂ d ∧ Laid disk₂ m d ∧ Stores disk₂ m d := by
  obtain ⟨disk₁, first, kept₁, same₁, directory, _⟩ := laid.writeDirectory directoryHeader buf
  have laid₁ := laid.of_headers kept₁
  obtain ⟨disk₂, second, kept₂, same₂, map, still⟩ := laid₁.writeMap
    (mapHeader.trans kept₁.freeMap.symm) buf'
  exact ⟨disk₁, disk₂, first, second, kept₁.trans kept₂, .trans kept₁ same₁ same₂,
    laid₁.of_headers kept₂, map, still directory⟩

/-- Remove and the constructor write the bitmap first. -/
theorem Laid.flushMapFirst :
    ∃ disk₁ disk₂, m.writeBack disk fs.freeMapFile buf = .ok disk₁ ∧
      d.writeBack disk₁ fs.directoryFile buf' = .ok disk₂ ∧ HeadersKept disk disk₂ d ∧
      ContentsKept disk disk₂ d ∧ Laid disk₂ m d ∧ Stores disk₂ m d := by
  obtain ⟨disk₁, first, kept₁, same₁, map, _⟩ := laid.writeMap mapHeader buf
  have laid₁ := laid.of_headers kept₁
  obtain ⟨disk₂, second, kept₂, same₂, directory, still⟩ := laid₁.writeDirectory
    (directoryHeader.trans kept₁.directory.symm) buf'
  exact ⟨disk₁, disk₂, first, second, kept₁.trans kept₂, .trans kept₁ same₁ same₂,
    laid₁.of_headers kept₂, still map, directory⟩

end

end Files

end Nachos
