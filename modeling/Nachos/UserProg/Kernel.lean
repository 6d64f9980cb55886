import Mathlib.Tactic.Simps.Basic
import Nachos.Machine.Machine
import Nachos.UserProg.BitMap

/-!
# The state of the virtual-memory system

Address spaces, the memory manager, the process table and the files, with the
machine's memory.  A process is known by its pid: `allPCB pid` is the address space
`processMgr->allPCB[pid]->thisAddrSpace`, and `none` stands for the `NULL` that
`ProcessMgr::RemovePCB` leaves.  The locks are left out: each routine below runs
under one.
-/

namespace Nachos

abbrev pidMapSize : Nat := 32

/-- `class AddrSpace`, as far as paging uses it.  The byte size of an address space
is an `unsigned int`, which bounds the number of its pages. -/
structure AddrSpace where
  numPages : Nat
  pageTable : Nat → TranslationEntry
  codeDataSize : BitVec 32
  codeDataVirtAddr : BitVec 32
  codeDataFileAddr : BitVec 32
  swapFileSize : BitVec 32
  execfilename : FileName
  numPages_le : numPages ≤ 2 ^ 25

structure MemoryMgr where
  memoryMap : BitMap
  frametime : Nat → Int
  framePID : Nat → Nat → Bool
  timestamp : Int

structure Kernel where
  machine : Machine
  memoryMgr : MemoryMgr
  pidMap : BitMap
  allPCB : Nat → Option AddrSpace
  files : Files

namespace AddrSpace

@[simps numPages pageTable]
def setEntry (space : AddrSpace) (vpn : Nat) (entry : TranslationEntry) : AddrSpace :=
  { space with pageTable := fun v => if v = vpn then entry else space.pageTable v }

def findPage (space : AddrSpace) (physicalPage : Nat) : Nat :=
  Loops.firstIndex (fun v => (space.pageTable v).physicalPage == (physicalPage : Int)) space.numPages

def codeDataEnd (space : AddrSpace) : Nat := (space.codeDataSize + space.codeDataVirtAddr).toNat

end AddrSpace

namespace MemoryMgr

def new (junk : Nat → BitVec 32) : MemoryMgr where
  memoryMap := BitMap.new numPhysPages junk
  frametime _ := -1
  framePID _ _ := false
  timestamp := 0

def setFramePID (m : MemoryMgr) (f pid : Nat) (value : Bool) : MemoryMgr :=
  { m with framePID := fun g q => if g = f ∧ q = pid then value else m.framePID g q }

end MemoryMgr

namespace Kernel

@[simps machine memoryMgr pidMap allPCB]
def setSpace (s : Kernel) (pid : Nat) (space : Option AddrSpace) : Kernel :=
  { s with allPCB := fun q => if q = pid then space else s.allPCB q }

@[simp] theorem setSpace_files (s : Kernel) (pid : Nat) (space : Option AddrSpace) :
    (s.setSpace pid space).files = s.files := rfl

def setMemory (s : Kernel) (memory : Nat → Byte) : Kernel :=
  { s with machine := { s.machine with mainMemory := memory } }

def space (s : Kernel) (pid : Nat) : Except Fault AddrSpace :=
  match s.allPCB pid with
  | some space => .ok space
  | none => .error .nullPointer

@[simp] theorem space_eq_ok {s : Kernel} {pid : Nat} {space : AddrSpace} :
    s.space pid = .ok space ↔ s.allPCB pid = some space := by
  unfold Kernel.space
  cases s.allPCB pid <;> simp

end Kernel

def swapFile (files : Files) (pid : Nat) : Except Fault File :=
  match files (.swap pid) with
  | some file => .ok file
  | none => .error .nullPointer

@[simp] theorem swapFile_eq_ok {files : Files} {pid : Nat} {file : File} :
    swapFile files pid = .ok file ↔ files (.swap pid) = some file := by
  unfold swapFile
  cases files (.swap pid) <;> simp

def frameIndex (physicalPage : Int) : Except Fault Nat :=
  if 0 ≤ physicalPage ∧ physicalPage < numPhysPages then .ok physicalPage.toNat
  else .error .outOfRange

theorem frameIndex_eq_ok {physicalPage : Int} {f : Nat} :
    frameIndex physicalPage = .ok f ↔ physicalPage = f ∧ f < numPhysPages := by
  unfold frameIndex
  split
  next inside =>
    simp only [Except.ok.injEq]
    omega
  next outside =>
    simp only [reduceCtorEq, false_iff]
    omega

end Nachos
