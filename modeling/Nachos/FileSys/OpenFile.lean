import Nachos.Threads.Utility

/-!
# Files of the stub file system

The kernel is built with `FILESYS_STUB`: `OpenFile` and `FileSystem` pass their
calls on to UNIX.  A file is its length and its bytes; `ReadAt` and `WriteAt` are
the calls of `openfile.h` with the checks of `sysdep.cc`.
-/

namespace Nachos

abbrev Byte := BitVec 8

/-- The contents of a UNIX file.  Past its end every byte is zero, which is what a
later write beyond the end leaves in the gap. -/
@[ext] structure File where
  length : Nat
  bytes : Nat → Byte
  zeroPastEnd : ∀ i, length ≤ i → bytes i = 0#8

namespace File

def empty : File := ⟨0, fun _ => 0#8, fun _ _ => rfl⟩

def write (file : File) (source : Nat → Byte) (count position : Nat) : File where
  length := if count = 0 then file.length else max file.length (position + count)
  bytes i := if position ≤ i ∧ i < position + count then source (i - position) else file.bytes i
  zeroPastEnd i past := by
    have inside : ¬ (position ≤ i ∧ i < position + count) := by
      split at past <;> omega
    rw [if_neg inside]
    apply file.zeroPastEnd
    split at past <;> omega

/-- `OpenFile::ReadAt`: the buffer `into` afterwards, and the number of bytes read.
`Lseek` asserts that the position is valid; `read` fails on a negative count. -/
def readAt (file : File) (into : Nat → Byte) (numBytes position : Int) :
    Except Fault ((Nat → Byte) × Int) := do
  assert (0 ≤ position)
  if numBytes < 0 then
    return (into, -1)
  else
    let count := min numBytes.toNat (file.length - position.toNat)
    return (fun i => if i < count then file.bytes (position.toNat + i) else into i, (count : Int))

/-- `OpenFile::WriteAt`; `WriteFile` asserts that all bytes were written. -/
def writeAt (file : File) (source : Nat → Byte) (numBytes position : Int) : Except Fault File := do
  assert (0 ≤ position)
  assert (0 ≤ numBytes)
  return file.write source numBytes.toNat position.toNat

theorem readAt_eq_ok {file : File} {into buffer : Nat → Byte} {numBytes position count : Int} :
    file.readAt into numBytes position = .ok (buffer, count) ↔
      0 ≤ position ∧ ((numBytes < 0 ∧ buffer = into ∧ count = -1) ∨
        (0 ≤ numBytes ∧ count = (min numBytes.toNat (file.length - position.toNat) : Nat) ∧
          buffer = fun i => if i < min numBytes.toNat (file.length - position.toNat) then
            file.bytes (position.toNat + i) else into i)) := by
  unfold readAt
  by_cases seek : 0 ≤ position
  · by_cases negative : numBytes < 0
    · have notCount : ¬ 0 ≤ numBytes := by omega
      simp only [assert, seek, decide_true, if_true, negative, notCount, Loops.ok_bind,
        Loops.pure_eq, Except.ok.injEq, Prod.mk.injEq, true_and, false_and, or_false]
      exact and_congr eq_comm eq_comm
    · have isCount : 0 ≤ numBytes := by omega
      simp only [assert, seek, decide_true, if_true, negative, isCount, Loops.ok_bind,
        Loops.pure_eq, if_false, Except.ok.injEq, Prod.mk.injEq, true_and, false_and, false_or]
      exact and_comm.trans (and_congr eq_comm eq_comm)
  · simp [assert, seek, bind, Except.bind]

theorem writeAt_eq_ok {file file' : File} {source : Nat → Byte} {numBytes position : Int} :
    file.writeAt source numBytes position = .ok file' ↔
      0 ≤ position ∧ 0 ≤ numBytes ∧
        file' = file.write source numBytes.toNat position.toNat := by
  unfold writeAt
  by_cases seek : 0 ≤ position <;> by_cases count : 0 ≤ numBytes <;>
    simp [assert, seek, count, bind, Except.bind, Loops.pure_eq, eq_comm (a := file')]

end File

/-- A file name.  The swap file of a process, `./test/<pid>.swap`, is named by the
pid; every other file by its path. -/
inductive FileName where
  | path (name : String)
  | swap (pid : Nat)
  deriving DecidableEq, Repr

abbrev Files := FileName → Option File

namespace Files

def set (files : Files) (name : FileName) (file : File) : Files :=
  fun other => if other = name then some file else files other

def only (name : FileName) (file : File) : Files :=
  fun other => if other = name then some file else none

def create (files : Files) (name : FileName) : Files := files.set name .empty

@[simp] theorem set_same (files : Files) (name : FileName) (file : File) :
    files.set name file name = some file := by simp [set]

@[simp] theorem set_other {files : Files} {name other : FileName} (file : File)
    (different : other ≠ name) : files.set name file other = files other := by
  simp [set, different]

end Files

end Nachos
