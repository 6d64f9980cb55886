import Nachos.UserProg.Kernel

/-!
# The memory manager

`memorymgr.cc`, and the two routines of `addrspace.cc` that it calls back:
`PageOut`, when a frame is evicted, and `UnsetReadOnly`, when a frame is left with
one owner.
-/

namespace Nachos

open Loops

def TranslationEntry.evicted (entry : TranslationEntry) : TranslationEntry :=
  { entry with physicalPage := -1, valid := false, readOnly := false }

def writeSwapPage (pid virtPage : Nat) (page : Nat → Byte) (files : Files) :
    Except Fault Files := do
  let file ← swapFile files pid
  let file ← file.writeAt page pageSize (toInt32 (virtPage * pageSize))
  return files.set (.swap pid) file

/-- `AddrSpace::PageOut` on the address space of `pid`.  When no page maps the
frame, the loop ends with `virtPage = numPages` and the code goes on to use
`pageTable[numPages]`. -/
def pageOut (pid physicalPage : Nat) (s : Kernel) : Except Fault Kernel := do
  let space ← s.space pid
  let virtPage := space.findPage physicalPage
  if virtPage < space.numPages then
    let entry := space.pageTable virtPage
    let files ← (if entry.dirty then
      writeSwapPage pid virtPage (frame s.machine.mainMemory physicalPage) s.files
      else .ok s.files)
    return { s with files := files }.setSpace pid
      (some (space.setEntry virtPage entry.evicted))
  else .error .outOfRange

def unsetReadOnly (pid physicalPage : Nat) (s : Kernel) : Except Fault Kernel := do
  let space ← s.space pid
  let virtPage := space.findPage physicalPage
  if virtPage < space.numPages then
    return s.setSpace pid
      (some (space.setEntry virtPage { space.pageTable virtPage with readOnly := false }))
  else return s

def victim (m : MemoryMgr) (sharedPage : Int) : Nat :=
  let outpage := if sharedPage = 0 then 1 else 0
  (forUpTo (fun i (best : Int × Nat) =>
    if best.1 > m.frametime i && (i : Int) != sharedPage then (m.frametime i, i) else best)
    numPhysPages (m.frametime outpage, outpage)).2

def evictOwner (outpage outPID : Nat) (s : Kernel) : Except Fault Kernel :=
  if s.memoryMgr.framePID outpage outPID then do
    let s ← pageOut outPID outpage s
    return { s with memoryMgr := s.memoryMgr.setFramePID outpage outPID false }
  else .ok s

/-- The assignments at the end of `GetPage`: the frame gets a new time stamp and
`pid` as an owner.  `timestamp` is a 32-bit counter. -/
def stampFrame (m : MemoryMgr) (pageNumber pid : Nat) : MemoryMgr :=
  { m.setFramePID pageNumber pid true with
    frametime := fun i => if i = pageNumber then m.timestamp else m.frametime i
    timestamp := Int.bmod (m.timestamp + 1) (2 ^ 32) }

/-- `MemoryMgr::GetPage`.  `Find` is called only when a bit is clear, so its `-1`
is never returned. -/
def getPage (pid : Nat) (sharedPage : Int) (s : Kernel) : Except Fault (Nat × Kernel) := do
  if s.memoryMgr.memoryMap.numClear = 0 then
    let outpage := victim s.memoryMgr sharedPage
    let s ← forUpToM (evictOwner outpage) pidMapSize s
    return (outpage, { s with memoryMgr := stampFrame s.memoryMgr outpage pid })
  else
    let (pageNumber, memoryMap) := s.memoryMgr.memoryMap.find
    let m := { s.memoryMgr with memoryMap := memoryMap }
    return (pageNumber.toNat, { s with memoryMgr := stampFrame m pageNumber.toNat pid })

def clearPage (pageNumber : Int) (s : Kernel) : Except Fault Kernel := do
  let memoryMap ← s.memoryMgr.memoryMap.clear pageNumber
  return { s with memoryMgr := { s.memoryMgr with memoryMap := memoryMap } }

def countOwners (m : MemoryMgr) (f : Nat) : Nat × Nat :=
  forUpTo (fun i (found : Nat × Nat) => if m.framePID f i then (i, found.2 + 1) else found)
    pidMapSize (0, 0)

def unsetShare (physicalPage : Int) (pid : Nat) (s : Kernel) : Except Fault Kernel := do
  let f ← frameIndex physicalPage
  let m := s.memoryMgr.setFramePID f pid false
  let s := { s with memoryMgr := m }
  let (last, count) := countOwners m f
  if count = 1 then unsetReadOnly last f s else return s

/-- The assignment `framePID[-1][pid] = TRUE`.  The class has `frametime` directly before `framePID`,
and a row of `framePID` is as long as eight elements of `frametime`, so that a byte of one of the
last eight is set to 1 (on the i386 the byte `pid % 4` counts from the least significant). -/
def overrunFrametime (m : MemoryMgr) (pid : Nat) : MemoryMgr :=
  let shift := 8 * (pid % 4)
  { m with frametime := fun i =>
      if i = numPhysPages - 8 + pid / 4 then
        ((BitVec.ofInt 32 (m.frametime i) &&& ~~~(0xff#32 <<< shift)) ||| (1#32 <<< shift)).toInt
      else m.frametime i }

/-- `MemoryMgr::SetShare`.  For a page that is not resident the call is made with `-1`. -/
def setShare (physicalPage : Int) (pid : Nat) (m : MemoryMgr) : Except Fault MemoryMgr := do
  if physicalPage = -1 then return overrunFrametime m pid
  let f ← frameIndex physicalPage
  return m.setFramePID f pid true

end Nachos
