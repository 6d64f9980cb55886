import Nachos.UserProg.MemoryMgr
import Nachos.UserProg.Noff

/-!
# Address spaces

`addrspace.cc`: loading an executable, paging, copy-on-write, and what `Fork`,
`Exit` and `Exec` do to memory.  A routine of the class takes the pid of its
address space, since paging for one process may change the tables of another.
-/

namespace Nachos

open Loops

/-! ## Loading -/

def freshEntry (vpn : Nat) (zeroFilled : Bool) : TranslationEntry where
  virtualPage := vpn
  physicalPage := -1
  valid := false
  readOnly := false
  use := false
  dirty := false
  zeroFilled := zeroFilled

/-- `AddrSpace::AllocateSwapFile` for process `pid`, with the fields of `this` as
arguments.  The buffer has `SwapFileSize` bytes; a longer read overruns it. -/
def allocateSwapFile (pid : Nat) (openFile : FileName)
    (codeDataSize codeDataFileAddr swapFileSize : BitVec 32) (files : Files) :
    Except Fault Files := do
  let files := files.create (.swap pid)
  match files openFile with
  | none => .error .nullPointer
  | some file =>
    let (buffer, rcount) ← file.readAt (fun _ => 0#8) codeDataSize.toInt codeDataFileAddr.toInt
    if (swapFileSize.toNat : Int) < rcount then
      .error .outOfRange
    let swap ← File.empty.writeAt buffer swapFileSize.toInt 0
    return files.set (.swap pid) swap

theorem NoffHeader.numPages_le (noffH : NoffHeader) :
    divRoundUp noffH.spaceSize.toNat pageSize ≤ 2 ^ 25 := by
  unfold divRoundUp pageSize
  split <;> omega

def construct (bigEndian : Bool) (pid : Nat) (filename : FileName) (files : Files) :
    Except Fault (AddrSpace × Files) :=
  match files filename with
  | none => .error .nullPointer
  | some executable => do
    let noffH ← readHeader bigEndian executable
    let numPages := divRoundUp noffH.spaceSize.toNat pageSize
    let size := BitVec.ofNat 32 (numPages * pageSize)
    let files ← allocateSwapFile pid filename noffH.codeDataSize noffH.code.inFileAddr size files
    return ({ numPages := numPages
              pageTable := fun i => freshEntry i false
              codeDataSize := noffH.codeDataSize
              codeDataVirtAddr := noffH.code.virtualAddr
              codeDataFileAddr := noffH.code.inFileAddr
              swapFileSize := size
              execfilename := filename
              numPages_le := noffH.numPages_le }, files)

/-- `ProcessMgr::CreatePCB`, as one step: the new pid, or `none` when all are taken.
The address space of the new process is filled in by the caller. -/
def createPCB (s : Kernel) : Option (Nat × Kernel) :=
  if s.pidMap.numClear = 0 then none
  else
    let (newPID, pidMap) := s.pidMap.find
    some (newPID.toNat, { s with pidMap := pidMap })

/-- `StartProcess`, up to the jump to user code: `none` when the file cannot be
opened.  Its test for a full process table comes after the first use of the new PCB. -/
def startProcess (filename : FileName) (s : Kernel) : Except Fault (Option Nat × Kernel) :=
  if (s.files filename).isNone then .ok (none, s)
  else
    match createPCB s with
    | none => .error .nullPointer
    | some (pid, s) => do
      let (space, files) ← construct s.machine.bigEndian pid filename s.files
      return (some pid, { s with files := files }.setSpace pid (some space))

/-! ## Paging -/

def readSwapPage (files : Files) (pid vpn : Nat) : Except Fault (Nat → Byte) := do
  let file ← swapFile files pid
  let (buffer, count) ← file.readAt (fun _ => 0#8) pageSize (toInt32 (vpn * pageSize))
  if count < (pageSize : Int) then
    .error .uninitialised
  return buffer

def pageIn (pid : Nat) (virtAddr : BitVec 32) (s : Kernel) : Except Fault Kernel := do
  let vpn := virtAddr.toNat / pageSize
  let (ppn, s) ← getPage pid (-1) s
  let space ← s.space pid
  if space.numPages ≤ vpn then
    .error .outOfRange
  let entry := { space.pageTable vpn with
    virtualPage := vpn, physicalPage := ppn, valid := true, readOnly := false }
  if virtAddr.toNat ≥ space.codeDataEnd && !entry.zeroFilled then
    return (s.setMemory (bzero (ppn * pageSize) pageSize s.machine.mainMemory)).setSpace pid
      (some (space.setEntry vpn { entry with zeroFilled := true }))
  else
    let buffer ← readSwapPage s.files pid vpn
    return (s.setMemory (bcopy buffer (ppn * pageSize) pageSize s.machine.mainMemory)).setSpace pid
      (some (space.setEntry vpn entry))

def cow (pid : Nat) (virtAddr : BitVec 32) (s : Kernel) : Except Fault Kernel := do
  let vpn := virtAddr.toNat / pageSize
  let space ← s.space pid
  if space.numPages ≤ vpn then
    .error .outOfRange
  let (ppn, s) ← getPage pid (space.pageTable vpn).physicalPage s
  let space ← s.space pid
  let entry := space.pageTable vpn
  let oppn ← frameIndex entry.physicalPage
  let memory := s.machine.mainMemory
  let s := (s.setMemory (bcopy (frame memory oppn) (ppn * pageSize) pageSize memory)).setSpace pid
    (some (space.setEntry vpn { entry with physicalPage := ppn, readOnly := false }))
  unsetShare oppn pid s

/-! ## Fork, Exit and Exec -/

/-- One round of the loop of `AddrSpace::Fork`, on the memory manager and the page
tables of parent and child. -/
def forkEntry (childPID i : Nat)
    (t : MemoryMgr × (Nat → TranslationEntry) × (Nat → TranslationEntry)) :
    Except Fault (MemoryMgr × (Nat → TranslationEntry) × (Nat → TranslationEntry)) := do
  let (m, parent, child) := t
  let entry := parent i
  let m ← setShare entry.physicalPage childPID m
  let resident := entry.physicalPage != -1
  let shared := { entry with readOnly := resident || entry.readOnly }
  return (m, fun v => if v = i then shared else parent v, fun v => if v = i then shared else child v)

def fork (pid childPID : Nat) (junk : Nat → TranslationEntry) (s : Kernel) :
    Except Fault Kernel := do
  let space ← s.space pid
  let (m, parent, child) ← forUpToM (forkEntry childPID) space.numPages
    (s.memoryMgr, space.pageTable, junk)
  let files ← allocateSwapFile childPID space.execfilename space.codeDataSize
    space.codeDataFileAddr space.swapFileSize s.files
  let s := { s with memoryMgr := m, files := files }
  return (s.setSpace pid (some { space with pageTable := parent })).setSpace childPID
    (some { space with pageTable := child })

def forkSystemcall (pid : Nat) (junk : Nat → TranslationEntry) (s : Kernel) :
    Except Fault (Option Nat × Kernel) :=
  match createPCB s with
  | none => .ok (none, s)
  | some (childPID, s) => do
    let s ← fork pid childPID junk s
    return (some childPID, s)

def releaseEntry (pid : Nat) (entry : TranslationEntry) (s : Kernel) : Except Fault Kernel :=
  if entry.physicalPage != -1 && !entry.readOnly then clearPage entry.physicalPage s
  else if entry.physicalPage != -1 && entry.readOnly then unsetShare entry.physicalPage pid s
  else .ok s

/-- `AddrSpace::ReleaseMemory` of the address space `space` of `pid`.  No round
changes the table the loop runs over: `UnsetShare` strikes `pid` from the owners
before it looks for the one whose protection is lifted. -/
def releaseMemory (pid : Nat) (space : AddrSpace) (s : Kernel) : Except Fault Kernel :=
  forUpToM (fun i => releaseEntry pid (space.pageTable i)) space.numPages s

/-- The memory part of `ExitSystemcall`, and of `KillSystemcall` for the process
killed: `RemovePCB`, then `ReleaseMemory`. -/
def terminate (pid : Nat) (s : Kernel) : Except Fault Kernel := do
  let space ← s.space pid
  let pidMap ← s.pidMap.clear pid
  releaseMemory pid space ({ s with pidMap := pidMap }.setSpace pid none)

/-- `AddrSpace::ReplaceMemory(executable, filename)`.  `size` is computed from the old
`numPages`, and the new entries keep what `junk` has for their `zeroFilled` bits,
which this loop does not write. -/
def replaceMemory (pid : Nat) (filename : FileName) (junk : Nat → Bool) (s : Kernel) :
    Except Fault Kernel := do
  let space ← s.space pid
  match s.files filename with
  | none => .error .nullPointer
  | some executable =>
    let noffH ← readHeader s.machine.bigEndian executable
    let size := BitVec.ofNat 32 (space.numPages * pageSize)
    let files ← allocateSwapFile pid filename noffH.codeDataSize noffH.code.inFileAddr size s.files
    let s ← releaseMemory pid space { s with files := files }
    return s.setSpace pid (some
      { space with
        pageTable := fun i => freshEntry i (junk i)
        codeDataSize := noffH.codeDataSize
        codeDataVirtAddr := noffH.code.virtualAddr
        codeDataFileAddr := noffH.code.inFileAddr
        swapFileSize := size
        execfilename := filename })

end Nachos
