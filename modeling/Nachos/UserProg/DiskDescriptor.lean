import Nachos.FileSys.FileSystem

/-!
# Descriptors of files on disk

`Read` and `Write` on an open descriptor when the kernel is built without `FILESYS_STUB`: the entry
of `pofArray` keeps the offset, and the `SOF` that it names has the `OpenFile`.  The buffer is
given; a call whose `size` is negative does not get past the copy of the buffer.
-/

namespace Nachos

structure DiskDescriptor where
  disk : Disk
  openFile : OpenFile
  offset : BitVec 32

namespace DiskDescriptor

def writeSOF (s : DiskDescriptor) (buf source : Nat → Byte) (size offset : Int) :
    Except Fault (Disk × Int) :=
  s.openFile.writeAt s.disk buf source size offset

def readSOF (s : DiskDescriptor) (buffer : Nat → Byte) (size offset : Int) :
    Except Fault ((Nat → Byte) × Int) :=
  s.openFile.readAt s.disk buffer size offset

/-- `WriteSystemcall` for the open descriptor, with what `WriteSOF` returns.  The call ignores that
value and adds `size`. -/
def writeSystemcall (s : DiskDescriptor) (buf buffer : Nat → Byte) (size : BitVec 32) :
    Except Fault (Int × DiskDescriptor) := do
  let (disk, numWrite) ← s.writeSOF buf buffer size.toInt s.offset.toInt
  return (numWrite, { s with disk := disk, offset := s.offset + size })

def readSystemcall (s : DiskDescriptor) (buffer : Nat → Byte) (size : BitVec 32) :
    Except Fault (Int × DiskDescriptor) := do
  let (_, numRead) ← s.readSOF buffer size.toInt s.offset.toInt
  return (numRead, { s with offset := s.offset + BitVec.ofInt 32 numRead })

end DiskDescriptor

/-! ## Runs -/

/-- The calls on the descriptor, with the new buffer of `WriteAt`.  Between them other processes may
change the disk; the header that the `OpenFile` has in memory stays. -/
inductive DescriptorCall where
  | write (buf buffer : Nat → Byte) (size : BitVec 32)
  | read (buffer : Nat → Byte) (size : BitVec 32)
  | others (disk : Disk)

/-- A descriptor with the sum of the values that `WriteAt` and `ReadAt` have returned for it.  No
variable of the kernel has this sum. -/
structure Tallied where
  descriptor : DiskDescriptor
  moved : Int

inductive DescriptorStep : Tallied → DescriptorCall → Tallied → Prop where
  | write {t : Tallied} {buf buffer : Nat → Byte} {size : BitVec 32} {numWrite : Int}
      {after : DiskDescriptor} : 0 ≤ size.toInt →
      t.descriptor.writeSystemcall buf buffer size = .ok (numWrite, after) →
      DescriptorStep t (.write buf buffer size) ⟨after, t.moved + numWrite⟩
  | read {t : Tallied} {buffer : Nat → Byte} {size : BitVec 32} {numRead : Int}
      {after : DiskDescriptor} : 0 ≤ size.toInt →
      t.descriptor.readSystemcall buffer size = .ok (numRead, after) →
      DescriptorStep t (.read buffer size) ⟨after, t.moved + numRead⟩
  | others {t : Tallied} {disk : Disk} :
      DescriptorStep t (.others disk) { t with descriptor := { t.descriptor with disk := disk } }

def Tallied.opened (disk : Disk) (openFile : OpenFile) : Tallied := ⟨⟨disk, openFile, 0#32⟩, 0⟩

end Nachos
