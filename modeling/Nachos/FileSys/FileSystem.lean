import Nachos.FileSys.Directory
import Nachos.Lib.Runs

/-!
# The file system on disk

`filesys.cc` without `FILESYS_STUB`.  Sector 0 has the header of the file with the bitmap of
free sectors, and sector 1 that of the file with the directory; both files stay open.  Every
call reads the bitmap and the directory from disk into new objects, and writes them back when
it has changed them.  A run is a sequence of calls by one thread.
-/

namespace Nachos

open Loops Runs

def freeMapSector : Int := 0

def directorySector : Int := 1

def freeMapFileSize : Nat := numSectors / 8

def numDirEntries : Nat := 10

def directoryFileSize : Nat := directoryEntrySize * numDirEntries

/-- What the memory that a call allocates holds before the call writes to it: `words n` is the
`n`-th array of words or header, `bytes n` the `n`-th table or buffer. -/
structure Heap where
  words : Nat → Nat → BitVec 32
  bytes : Nat → Nat → Byte

/-- An `OpenFile` that `Open` has returned.  `inDirectory` says that its file has not been
removed since. -/
structure Handle where
  file : OpenFile
  inDirectory : Bool

structure FileSystem where
  disk : Disk
  freeMapFile : OpenFile
  directoryFile : OpenFile
  handles : List Handle

namespace FileSystem

def format (disk : Disk) (heap : Heap) : Except Fault FileSystem := do
  let freeMap := BitMap.new numSectors (heap.words 0)
  let directory := Directory.new numDirEntries (heap.bytes 0)
  let freeMap ← freeMap.mark freeMapSector
  let freeMap ← freeMap.mark directorySector
  let (allocated, mapHdr, freeMap) ← (FileHeader.mk (heap.words 1)).allocate freeMap freeMapFileSize
  assert allocated
  let (allocated, dirHdr, freeMap) ←
    (FileHeader.mk (heap.words 2)).allocate freeMap directoryFileSize
  assert allocated
  let disk ← mapHdr.writeBack disk freeMapSector
  let disk ← dirHdr.writeBack disk directorySector
  let freeMapFile ← OpenFile.new disk freeMapSector
  let directoryFile ← OpenFile.new disk directorySector
  let disk ← freeMap.writeBack disk freeMapFile (heap.bytes 1)
  let disk ← directory.writeBack disk directoryFile (heap.bytes 2)
  return { disk := disk, freeMapFile := freeMapFile, directoryFile := directoryFile, handles := [] }

def fetchDirectory (fs : FileSystem) (heap : Heap) : Except Fault Directory :=
  (Directory.new numDirEntries (heap.bytes 0)).fetchFrom fs.disk fs.directoryFile

def fetchFreeMap (fs : FileSystem) (heap : Heap) : Except Fault BitMap :=
  (BitMap.new numSectors (heap.words 0)).fetchFrom fs.disk fs.freeMapFile

def create (fs : FileSystem) (name : Nat → Byte) (initialSize : Int) (heap : Heap) :
    Except Fault (Bool × Disk) := do
  let directory ← fs.fetchDirectory heap
  if directory.find name ≠ -1 then
    return (false, fs.disk)
  else
    let freeMap ← fs.fetchFreeMap heap
    let (sector, freeMap) := freeMap.find
    if sector = -1 then
      return (false, fs.disk)
    else
      let (added, directory) := directory.add name sector
      if !added then
        return (false, fs.disk)
      else
        let (allocated, hdr, freeMap) ←
          (FileHeader.mk (heap.words 1)).allocate freeMap initialSize
        if !allocated then
          return (false, fs.disk)
        else
          let disk ← hdr.writeBack fs.disk sector
          let disk ← directory.writeBack disk fs.directoryFile (heap.bytes 1)
          let disk ← freeMap.writeBack disk fs.freeMapFile (heap.bytes 2)
          return (true, disk)

def openFile (fs : FileSystem) (name : Nat → Byte) (heap : Heap) :
    Except Fault (Option OpenFile) := do
  let directory ← fs.fetchDirectory heap
  let sector := directory.find name
  if sector ≥ 0 then
    let file ← OpenFile.new fs.disk sector
    return some file
  else
    return none

def remove (fs : FileSystem) (name : Nat → Byte) (heap : Heap) : Except Fault (Bool × Disk) := do
  let directory ← fs.fetchDirectory heap
  let sector := directory.find name
  if sector = -1 then
    return (false, fs.disk)
  else
    let fileHdr ← FileHeader.fetchFrom fs.disk sector
    let freeMap ← fs.fetchFreeMap heap
    let freeMap ← fileHdr.deallocate freeMap
    let freeMap ← freeMap.clear sector
    let (_, directory) := directory.remove name
    let disk ← freeMap.writeBack fs.disk fs.freeMapFile (heap.bytes 1)
    let disk ← directory.writeBack disk fs.directoryFile (heap.bytes 2)
    return (true, disk)

end FileSystem

/-! ## Runs -/

/-- The calls, with the contents of the memory that each allocates.  A handle is named by its
place among those that `Open` has returned. -/
inductive FileSystemCall where
  | create (name : Nat → Byte) (initialSize : Int) (heap : Heap)
  | openFile (name : Nat → Byte) (heap : Heap)
  | remove (name : Nat → Byte) (heap : Heap)
  | writeAt (handle : Nat) (buf source : Nat → Byte) (numBytes position : Int)

namespace FileSystem

def forget (sector : Int) (handles : List Handle) : List Handle :=
  handles.map fun h => if h.file.sector = sector then { h with inDirectory := false } else h

def perform (fs : FileSystem) : FileSystemCall → Except Fault FileSystem
  | .create name initialSize heap => do
    let (_, disk) ← fs.create name initialSize heap
    return { fs with disk := disk }
  | .openFile name heap => do
    match ← fs.openFile name heap with
    | some file => return { fs with handles := fs.handles ++ [⟨file, true⟩] }
    | none => return fs
  | .remove name heap => do
    let directory ← fs.fetchDirectory heap
    let (removed, disk) ← fs.remove name heap
    let handles := if removed then forget (directory.find name) fs.handles else fs.handles
    return { fs with disk := disk, handles := handles }
  | .writeAt handle buf source numBytes position =>
    match fs.handles[handle]? with
    | some h => do
      let (disk, _) ← h.file.writeAt fs.disk buf source numBytes position
      return { fs with disk := disk }
    | none => .error .nullPointer

end FileSystem

def FileSystemStep (fs : FileSystem) (call : FileSystemCall) (fs' : FileSystem) : Prop :=
  fs.perform call = .ok fs'

end Nachos
