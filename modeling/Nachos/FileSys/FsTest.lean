import Nachos.FileSys.FileSystem

/-!
# Copy and Print

`fstest.cc`: `Copy` puts a UNIX file on the disk, chunk by chunk, and `Print` reads a file back
until `Read` returns zero.  The source uses `TransferSize` for every chunk and every request;
here both are arbitrary.
-/

namespace Nachos

/-- The loop of `Copy`: each chunk is written with a new buffer in `WriteAt`, given by its first
contents. -/
def writeChunks (file : OpenFile) (disk : Disk) :
    List ((Nat → Byte) × List Byte) → Except Fault (Disk × OpenFile)
  | [] => .ok (disk, file)
  | (buf, chunk) :: chunks => do
    let (disk, _, file) ← file.write disk buf (fun j => chunk.getD j 0#8) chunk.length
    writeChunks file disk chunks

/-- The loop of `Print`, with the size of each request: the bytes that it prints, or nothing
when it has not ended after `fuel` requests. -/
def printLoop (disk : Disk) : Nat → OpenFile → (Nat → Byte) → (Nat → Int) →
    Except Fault (Option (List Byte))
  | 0, _, _, _ => .ok none
  | fuel + 1, file, buffer, requests => do
    let (buffer, amountRead, file) ← file.read disk buffer (requests 0)
    if amountRead > 0 then
      let rest ← printLoop disk fuel file buffer fun n => requests (n + 1)
      return rest.map fun bytes => (List.range amountRead.toNat).map buffer ++ bytes
    else
      return some []

namespace FileSystem

def copy (fs : FileSystem) (name : Nat → Byte) (fileLength : Int)
    (chunks : List ((Nat → Byte) × List Byte)) (heap heap' : Heap) :
    Except Fault (Bool × FileSystem) := do
  let (created, disk) ← fs.create name fileLength heap
  let fs := { fs with disk := disk }
  if !created then
    return (false, fs)
  else
    match ← fs.openFile name heap' with
    | some file => do
      let (disk, _) ← writeChunks file fs.disk chunks
      return (true, { fs with disk := disk })
    | none => .error .assertion

def print (fs : FileSystem) (name : Nat → Byte) (buffer : Nat → Byte) (requests : Nat → Int)
    (heap : Heap) (fuel : Nat) : Except Fault (Option (List Byte)) := do
  match ← fs.openFile name heap with
  | some file => printLoop fs.disk fuel file buffer requests
  | none => return none

end FileSystem

end Nachos
