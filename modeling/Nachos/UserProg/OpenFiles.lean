import Nachos.Lib.Runs
import Nachos.UserProg.Kernel

/-!
# Open files

The table of open files of each process (`class POF`, `pcb.cc`), the table of the whole system
(`class SOF`, `sofmgr.cc`), and the system calls on them.  A process is known by its pid, and
file names are strings.  A system call runs to its end without another process in between.
The copy between the buffer of the kernel and user memory is left out: `Write` is given the
contents of its buffer, and `Read` returns them.
-/

namespace Nachos

open Loops

def pofMaxNum : Nat := 32

def sofMaxNum : Nat := 128

/-! ## Tables -/

/-- `POF::POF` copies the characters of the name without its `NUL`: `behind` is what the heap holds
behind them, up to the next `NUL`. -/
structure POF where
  filename : String
  behind : String
  sofIndex : Int
  offset : BitVec 32
  deriving DecidableEq, Repr

def POF.cString (pof : POF) : String := pof.filename ++ pof.behind

structure SOF where
  filename : String
  openFile : FileName
  counter : BitVec 32
  deriving DecidableEq, Repr

/-- A bitmap with the objects of its set bits: `pofMap` and `pofArray`, or `sofMap` and
`sofArray`.  The pointers of the other entries are not valid. -/
structure Slots (β : Type) where
  map : BitMap
  array : Nat → Option β
  filled : ∀ i < map.numBits, map.bit i = true → (array i).isSome = true

namespace Slots

variable {β : Type}

def empty (size : Nat) (junk : Nat → BitVec 32) : Slots β where
  map := .new size junk
  array _ := none
  filled i bound isSet := by
    rw [BitMap.new_numBits] at bound
    rw [BitMap.new_bit junk bound] at isSet
    cases isSet

def get (t : Slots β) (index : Int) : Except Fault β :=
  if t.map.inRange index then
    match t.array index.toNat with
    | some object => .ok object
    | none => .error .danglingPointer
  else .error .outOfRange

def update (t : Slots β) (i : Nat) (object : β) : Slots β where
  map := t.map
  array j := if j = i then some object else t.array j
  filled j bound isSet := by
    split
    · rfl
    · exact t.filled j bound isSet

def add (t : Slots β) (i : Nat) (object : β) : Slots β where
  map := t.map.markBit i
  array j := if j = i then some object else t.array j
  filled j bound isSet := by
    split
    · rfl
    next other => exact t.filled j bound (by simpa [other] using isSet)

def remove (t : Slots β) (i : Nat) : Slots β where
  map := t.map.clearBit i
  array j := if j = i then none else t.array j
  filled j bound isSet := by
    simp only [BitMap.bit_clearBit, Bool.and_eq_true, Bool.not_eq_true', decide_eq_false_iff_not]
      at isSet
    rw [if_neg isSet.1]
    exact t.filled j bound isSet.2

def findByName (nameOf : β → String) (filename : String) (t : Slots β) : Int :=
  let i := firstIndex (fun i => t.map.bit i && (t.array i).any fun object => nameOf object == filename)
    t.map.numBits
  if i < t.map.numBits then i else -1

def create (object : β) (t : Slots β) : Int × Slots β :=
  let index := t.map.find.1
  if index = -1 then (-1, t) else (index, t.add index.toNat object)

end Slots

/-! ## `class SOFMgr` and the tables of the processes -/

structure OpenFiles where
  allPCB : Nat → Option (Slots POF)
  sofMgr : Slots SOF
  files : Files

namespace OpenFiles

def pcb (s : OpenFiles) (pid : Nat) : Except Fault (Slots POF) :=
  match s.allPCB pid with
  | some table => .ok table
  | none => .error .danglingPointer

def setPCB (s : OpenFiles) (pid : Nat) (table : Option (Slots POF)) : OpenFiles :=
  { s with allPCB := fun other => if other = pid then table else s.allPCB other }

def findSOFByName (filename : String) (s : OpenFiles) : Int :=
  s.sofMgr.findByName SOF.filename filename

def createSOF (filename : String) (s : OpenFiles) : Int × OpenFiles :=
  match s.files (.path filename) with
  | none => (-1, s)
  | some _ =>
    let (sofIndex, sofMgr) := s.sofMgr.create ⟨filename, .path filename, 0#32⟩
    (sofIndex, { s with sofMgr := sofMgr })

def incSOFCounter (sofIndex : Int) (s : OpenFiles) : Except Fault OpenFiles := do
  let sof ← s.sofMgr.get sofIndex
  return { s with sofMgr := s.sofMgr.update sofIndex.toNat { sof with counter := sof.counter + 1#32 } }

def removeSOF (sofIndex : Int) (s : OpenFiles) : Except Fault OpenFiles := do
  if ← s.sofMgr.map.test sofIndex then
    let sof ← s.sofMgr.get sofIndex
    let counter := sof.counter - 1#32
    if counter = 0#32 then
      return { s with sofMgr := s.sofMgr.remove sofIndex.toNat }
    else
      return { s with sofMgr := s.sofMgr.update sofIndex.toNat { sof with counter := counter } }
  else
    return s

def findPOFByName (filename : String) (table : Slots POF) : Int :=
  table.findByName POF.cString filename

def createPOF (sofIndex : Int) (filename behind : String) (table : Slots POF) : Int × Slots POF :=
  table.create ⟨filename, behind, sofIndex, 0#32⟩

def removePOF (pofIndex : Int) (table : Slots POF) : Except Fault (Slots POF) := do
  if ← table.map.test pofIndex then
    return table.remove pofIndex.toNat
  else
    return table

/-! ## System calls -/

def openDescriptor (current : Nat) (filename behind : String) (sofIndex pofIndex : Int)
    (s : OpenFiles) : Except Fault (Int × OpenFiles) := do
  if pofIndex = -1 then
    let table ← s.pcb current
    let (pofIndex, table) := createPOF sofIndex filename behind table
    if pofIndex = -1 then
      return (-1, s)
    else
      let s ← (s.setPCB current (some table)).incSOFCounter sofIndex
      return (pofIndex + 2, s)
  else
    let s ← s.incSOFCounter sofIndex
    return (pofIndex + 2, s)

/-- `OpenSystemcall`.  The name of a new `POF` is put where the heap holds `behind` after it. -/
def openSystemcall (current : Nat) (filename behind : String) (s : OpenFiles) :
    Except Fault (Int × OpenFiles) := do
  let table ← s.pcb current
  let sofIndex := s.findSOFByName filename
  let pofIndex := findPOFByName filename table
  if sofIndex = -1 then
    assert (decide (pofIndex = -1))
    if table.map.numClear = 0 ∨ s.sofMgr.map.numClear = 0 then
      return (-1, s)
    else
      let (sofIndex, s) := s.createSOF filename
      if sofIndex = -1 then
        return (-1, s)
      else
        s.openDescriptor current filename behind sofIndex pofIndex
  else
    s.openDescriptor current filename behind sofIndex pofIndex

def closeSystemcall (current : Nat) (id : Int) (s : OpenFiles) : Except Fault OpenFiles := do
  let table ← s.pcb current
  let pofIndex := id - 2
  let pof ← table.get pofIndex
  let table ← removePOF pofIndex table
  (s.setPCB current (some table)).removeSOF pof.sofIndex

def sofFile (sofIndex : Int) (s : OpenFiles) : Except Fault (FileName × File) := do
  let sof ← s.sofMgr.get sofIndex
  match s.files sof.openFile with
  | some file => return (sof.openFile, file)
  | none => .error .danglingPointer

def setPOFoffset (pofIndex : Int) (offset : BitVec 32) (table : Slots POF) :
    Except Fault (Slots POF) := do
  let pof ← table.get pofIndex
  return table.update pofIndex.toNat { pof with offset := offset }

/-- `WriteSystemcall` of `current` with the `size` bytes of `buffer` on the descriptor `id`.
The console is not a file. -/
def writeSystemcall (current : Nat) (id : Int) (buffer : Nat → Byte) (size : BitVec 32)
    (s : OpenFiles) : Except Fault OpenFiles := do
  if id < 2 then
    return s
  else
    let table ← s.pcb current
    let rpofIndex := id - 2
    if ← table.map.test rpofIndex then
      let pof ← table.get rpofIndex
      let (name, file) ← s.sofFile pof.sofIndex
      let file ← file.writeAt buffer size.toInt pof.offset.toInt
      let table ← setPOFoffset rpofIndex (pof.offset + size) table
      return { s.setPCB current (some table) with files := s.files.set name file }
    else
      return s

/-- `ReadSystemcall` of `current` on the descriptor `id`: the buffer afterwards and the number
of bytes read, when a file is read. -/
def readSystemcall (current : Nat) (id : Int) (buffer : Nat → Byte) (size : BitVec 32)
    (s : OpenFiles) : Except Fault (Option ((Nat → Byte) × Int) × OpenFiles) := do
  if id < 2 then
    return (none, s)
  else
    let table ← s.pcb current
    let rpofIndex := id - 2
    if ← table.map.test rpofIndex then
      let pof ← table.get rpofIndex
      let (_, file) ← s.sofFile pof.sofIndex
      let (buffer, numRead) ← file.readAt buffer size.toInt pof.offset.toInt
      let table ← setPOFoffset rpofIndex (pof.offset + BitVec.ofInt 32 numRead) table
      return (some (buffer, numRead), s.setPCB current (some table))
    else
      return (none, s)

def closeSlot (pid i : Nat) (s : OpenFiles) : Except Fault OpenFiles := do
  let table ← s.pcb pid
  if table.map.bit i then
    let pof ← table.get i
    (s.setPCB pid (some (table.remove i))).removeSOF pof.sofIndex
  else
    return s

def deletePCB (pid : Nat) (s : OpenFiles) : Except Fault OpenFiles := do
  let s ← forUpToM (closeSlot pid) pofMaxNum s
  return s.setPCB pid none

end OpenFiles

/-! ## Runs -/

/-- The system calls, with what `Open` returns and finds behind the name of a new `POF`, and with the
buffers of `Write` and `Read`. -/
inductive FileCall where
  | create (pid : Nat)
  | openFile (current : Nat) (filename behind : String) (id : Int)
  | close (current : Nat) (id : Int)
  | write (current : Nat) (id : Int) (buffer : Nat → Byte) (size : BitVec 32)
  | read (current : Nat) (id : Int) (buffer : Nat → Byte) (size : BitVec 32)
  | exit (current : Nat)
  | kill (current victim : Nat)

def OpenFiles.IsOpen (s : OpenFiles) (current : Nat) (id : Int) : Prop :=
  ∃ table, s.allPCB current = some table ∧ table.map.inRange (id - 2) = true ∧
    table.map.bit (id - 2).toNat = true

inductive FileStep : OpenFiles → FileCall → OpenFiles → Prop where
  | create {s : OpenFiles} {pid : Nat} {junk : Nat → BitVec 32} : pid < pidMapSize →
      s.allPCB pid = none → (∀ other < pid, s.allPCB other ≠ none) →
      FileStep s (.create pid) (s.setPCB pid (some (.empty pofMaxNum junk)))
  | openFile {s s' : OpenFiles} {current : Nat} {filename behind : String} {id : Int} :
      s.openSystemcall current filename behind = .ok (id, s') →
      FileStep s (.openFile current filename behind id) s'
  | close {s s' : OpenFiles} {current : Nat} {id : Int} : s.IsOpen current id →
      s.closeSystemcall current id = .ok s' → FileStep s (.close current id) s'
  | write {s s' : OpenFiles} {current : Nat} {id : Int} {buffer : Nat → Byte} {size : BitVec 32} :
      s.writeSystemcall current id buffer size = .ok s' →
      FileStep s (.write current id buffer size) s'
  | read {s s' : OpenFiles} {current : Nat} {id : Int} {buffer : Nat → Byte} {size : BitVec 32}
      {result : Option ((Nat → Byte) × Int)} :
      s.readSystemcall current id buffer size = .ok (result, s') →
      FileStep s (.read current id buffer size) s'
  | exit {s s' : OpenFiles} {current : Nat} : s.allPCB current ≠ none →
      s.deletePCB current = .ok s' → FileStep s (.exit current) s'
  | kill {s s' : OpenFiles} {current victim : Nat} : s.allPCB current ≠ none →
      s.allPCB victim ≠ none → s.deletePCB victim = .ok s' → FileStep s (.kill current victim) s'

def OpenFiles.boot (files : Files) (junk : Nat → BitVec 32) : OpenFiles where
  allPCB _ := none
  sofMgr := .empty sofMaxNum junk
  files := files

end Nachos
