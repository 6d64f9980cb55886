import Mathlib.Data.Finset.Max
import Nachos.Verified.DiskFiles

/-!
# A bitmap is a set

Each routine of a bitmap does to the set of its bits what the routine is for, whatever the unused bits
of the last word hold; `FetchFrom` brings back the set that `WriteBack` wrote.
-/

namespace Nachos

open Loops

inductive BitMapCall where
  | mark (which : Nat)
  | clear (which : Nat)
  | test (which : Nat)
  | find
  | numClear
  deriving DecidableEq, Repr

inductive BitMapAnswer where
  | done
  | truth (answer : Bool)
  | number (answer : Int)
  deriving DecidableEq, Repr

def BitMapCall.Inside (nitems : Nat) : BitMapCall → Prop
  | .mark which | .clear which | .test which => which < nitems
  | .find | .numClear => True

namespace BitMap

variable {b : BitMap}

def call (b : BitMap) : BitMapCall → Except Fault (BitMapAnswer × BitMap)
  | .mark which => do return (.done, ← b.mark which)
  | .clear which => do return (.done, ← b.clear which)
  | .test which => do return (.truth (← b.test which), b)
  | .find => .ok (.number b.find.1, b.find.2)
  | .numClear => .ok (.number b.numClear, b)

def calls (b : BitMap) : List BitMapCall → Except Fault (List BitMapAnswer × BitMap)
  | [] => .ok ([], b)
  | c :: rest => do
    let (answer, b) ← b.call c
    let (answers, b) ← b.calls rest
    return (answer :: answers, b)

/-! ## The set -/

def setCall (nitems : Nat) (s : Finset Nat) : BitMapCall → BitMapAnswer × Finset Nat
  | .mark which => (.done, insert which s)
  | .clear which => (.done, s.erase which)
  | .test which => (.truth (decide (which ∈ s)), s)
  | .find =>
    if free : (Finset.range nitems \ s).Nonempty then
      (.number ((Finset.range nitems \ s).min' free), insert ((Finset.range nitems \ s).min' free) s)
    else (.number (-1), s)
  | .numClear => (.number (nitems - s.card), s)

def setCalls (nitems : Nat) (s : Finset Nat) : List BitMapCall → List BitMapAnswer × Finset Nat
  | [] => ([], s)
  | c :: rest =>
    let (answer, s) := setCall nitems s c
    let (answers, s) := setCalls nitems s rest
    (answer :: answers, s)

theorem find_refines (b : BitMap) :
    setCall b.numBits b.contents .find = (.number b.find.1, b.find.2.contents) ∧
      b.find.2.numBits = b.numBits := by
  by_cases full : ∀ i < b.numBits, b.bit i = true
  · have empty : ¬ (Finset.range b.numBits \ b.contents).Nonempty := by
      rintro ⟨i, member⟩
      simp only [Finset.mem_sdiff, Finset.mem_range, mem_contents, not_and] at member
      exact member.2 member.1 (full i member.1)
    simp only [setCall, dif_neg empty, find_of_full full, and_self]
  · push Not at full
    obtain ⟨i, bound, isClear⟩ := full
    obtain ⟨j, inside, clear, before, found⟩ := find_of_clear bound (by simpa using isClear)
    have member : j ∈ Finset.range b.numBits \ b.contents := by simp [inside, clear]
    have least : (Finset.range b.numBits \ b.contents).min' ⟨j, member⟩ = j := by
      refine le_antisymm (Finset.min'_le _ j member) (Finset.le_min' _ _ _ fun k other => ?_)
      by_contra below
      simp only [Finset.mem_sdiff, Finset.mem_range, mem_contents, not_and] at other
      exact other.2 other.1 (before k (by omega))
    have free : (Finset.range b.numBits \ b.contents).Nonempty := ⟨j, member⟩
    simp only [setCall, dif_pos free, least, found, contents_markBit inside, markBit_numBits, and_self]

theorem call_refines {c : BitMapCall} (inside : c.Inside b.numBits) :
    ∃ answer b', b.call c = .ok (answer, b') ∧ b'.numBits = b.numBits ∧
      setCall b.numBits b.contents c = (answer, b'.contents) := by
  cases c with
  | mark which =>
    refine ⟨.done, b.markBit which, ?_, rfl, by rw [contents_markBit inside]; rfl⟩
    simp only [call, mark_ok inside, ok_bind, pure_eq]
  | clear which =>
    have done : b.clear which = .ok (b.clearBit which) :=
      clear_eq_ok.mpr ⟨inRange_ofNat inside, rfl⟩
    refine ⟨.done, b.clearBit which, ?_, rfl, by rw [contents_clearBit]; rfl⟩
    simp only [call, done, ok_bind, pure_eq]
  | test which =>
    have done : b.test which = .ok (b.bit which) := test_eq_ok.mpr ⟨inRange_ofNat inside, rfl⟩
    have same : decide (which ∈ b.contents) = b.bit which := by
      have bound : which < b.numBits := inside
      simp [bound]
    refine ⟨.truth (b.bit which), b, ?_, rfl, by simp only [setCall, same]⟩
    simp only [call, done, ok_bind, pure_eq]
  | find => exact ⟨_, _, rfl, (find_refines b).2, (find_refines b).1⟩
  | numClear =>
    refine ⟨_, _, rfl, rfl, ?_⟩
    have counted := numClear_add_card b
    have difference : ((b.numBits : Int) - b.contents.card) = b.numClear := by omega
    simp only [setCall, difference]

theorem calls_refine {cs : List BitMapCall} (inside : ∀ c ∈ cs, c.Inside b.numBits) :
    ∃ answers b', b.calls cs = .ok (answers, b') ∧ b'.numBits = b.numBits ∧
      setCalls b.numBits b.contents cs = (answers, b'.contents) := by
  induction cs generalizing b with
  | nil => exact ⟨[], b, rfl, rfl, rfl⟩
  | cons c cs ih =>
    obtain ⟨first, rest⟩ := List.forall_mem_cons.mp inside
    obtain ⟨answer, b₁, called, size, refines⟩ := call_refines first
    obtain ⟨answers, b₂, calls', size', refines'⟩ := ih (b := b₁) (size ▸ rest)
    refine ⟨answer :: answers, b₂, ?_, size'.trans size, ?_⟩
    · simp only [calls, called, calls', ok_bind, pure_eq]
    · rw [size] at refines'
      simp only [setCalls, refines, refines']

/-! ## Files -/

theorem contents_wordsOf {other : BitMap} (size : other.numBits = b.numBits) {bytes : Nat → Byte}
    (same : ∀ i < b.numWords * intSize, bytes i = bytesOf b.map i) :
    ({ other with map := wordsOf bytes } : BitMap).contents = b.contents := by
  ext i
  simp only [mem_contents, size]
  refine and_congr_right fun bound => ?_
  have inside : i / 32 < b.numWords := by
    change i / 32 < b.numBits / 32 + (if b.numBits % 32 > 0 then 1 else 0)
    split <;> omega
  have word : wordsOf bytes (i / bitsInWord) = b.map (i / bitsInWord) := by
    refine wordsOf_eq fun k _ high => same k ?_
    simp only [bitsInWord, intSize] at high ⊢
    omega
  simp only [bit, word]

theorem writeBackStub_fetch (b : BitMap) (file : File) :
    ∃ file', b.writeBackStub file = .ok file' ∧ ∀ other : BitMap, other.numBits = b.numBits →
      ∃ fetched, other.fetchFromStub file' = .ok fetched ∧ fetched.numBits = b.numBits ∧
        fetched.contents = b.contents := by
  refine ⟨file.write (bytesOf b.map) (b.numWords * intSize) 0,
    File.writeAt_eq_ok.mpr ⟨Int.le_refl 0, Int.natCast_nonneg _, rfl⟩, fun other size => ?_⟩
  have words : other.numWords = b.numWords := by rw [numWords, size, numWords]
  refine ⟨_, bind_eq_ok.mpr ⟨_, File.readAt_eq_ok.mpr ⟨Int.le_refl 0,
    .inr ⟨Int.natCast_nonneg _, rfl, rfl⟩⟩, rfl⟩, size, contents_wordsOf size fun i bound => ?_⟩
  have written : i < min (((other.numWords * intSize : Nat) : Int).toNat)
      ((file.write (bytesOf b.map) (b.numWords * intSize) 0).length - (0 : Int).toNat) := by
    simp only [File.write, words]
    split <;> omega
  rw [if_pos written]
  simp only [File.write, Int.toNat_zero, Nat.zero_add, Nat.sub_zero, Nat.zero_le, true_and,
    if_pos bound]

theorem writeBack_fetch {file : OpenFile} (covering : file.hdr.Covering)
    (room : (b.numWords * intSize : Nat) ≤ file.hdr.fileLength) (disk : Disk) (buf : Nat → Byte) :
    ∃ disk', b.writeBack disk file buf = .ok disk' ∧ ∀ other : BitMap, other.numBits = b.numBits →
      ∃ fetched, other.fetchFrom disk' file = .ok fetched ∧ fetched.numBits = b.numBits ∧
        fetched.contents = b.contents := by
  obtain ⟨disk', done, -, written⟩ := OpenFile.writeAt_front covering disk buf (bytesOf b.map) room
  refine ⟨disk', bind_eq_ok.mpr ⟨_, done, rfl⟩, fun other size => ?_⟩
  have words : other.numWords = b.numWords := by rw [numWords, size, numWords]
  obtain ⟨bytes, read, arrived⟩ := OpenFile.readAt_front covering disk' (bytesOf other.map) room
  refine ⟨_, bind_eq_ok.mpr ⟨_, words ▸ read, rfl⟩, size, contents_wordsOf size fun i bound => ?_⟩
  exact (arrived i bound).trans (written i bound)

end BitMap

/-- Over any sequence of calls a bitmap answers as its set does, and a file keeps the set: any file of
the stub file system, and a file on the disk that is long enough for the words. -/
theorem bitmap_refines_set (nitems : Nat) (junk : Nat → BitVec 32) (cs : List BitMapCall)
    (inside : ∀ c ∈ cs, c.Inside nitems) :
    ∃ answers b, (BitMap.new nitems junk).calls cs = .ok (answers, b) ∧ b.numBits = nitems ∧
      BitMap.setCalls nitems ∅ cs = (answers, b.contents) ∧
      (∀ file, ∃ file', b.writeBackStub file = .ok file' ∧ ∀ other : BitMap, other.numBits = nitems →
        ∃ fetched, other.fetchFromStub file' = .ok fetched ∧ fetched.numBits = nitems ∧
          fetched.contents = b.contents) ∧
      (∀ file : OpenFile, file.hdr.Covering → (b.numWords * intSize : Nat) ≤ file.hdr.fileLength →
        ∀ disk buf, ∃ disk', b.writeBack disk file buf = .ok disk' ∧
          ∀ other : BitMap, other.numBits = nitems →
            ∃ fetched, other.fetchFrom disk' file = .ok fetched ∧ fetched.numBits = nitems ∧
              fetched.contents = b.contents) := by
  have size := BitMap.new_numBits nitems junk
  obtain ⟨answers, b, called, size', refines⟩ := BitMap.calls_refine (size.symm ▸ inside)
  rw [size, BitMap.contents_new] at refines
  obtain rfl : b.numBits = nitems := size'.trans size
  exact ⟨answers, b, called, rfl, refines, b.writeBackStub_fetch,
    fun file covering room disk buf => BitMap.writeBack_fetch covering room disk buf⟩

theorem bitmap_refines_set_find : ∃ answers b,
    (BitMap.new 33 fun _ => -1).calls [.mark 32, .find, .find, .clear 0, .find, .test 32, .numClear] =
      .ok (answers, b) ∧
    answers = [.done, .number 0, .number 1, .done, .number 0, .truth true, .number 30] ∧
    b.contents = {0, 1, 32} := by
  obtain ⟨answers, b, called, -, refines, -⟩ := bitmap_refines_set 33 (fun _ => -1)
    [.mark 32, .find, .find, .clear 0, .find, .test 32, .numClear] (by simp [BitMapCall.Inside])
  have computed : BitMap.setCalls 33 ∅
      [.mark 32, .find, .find, .clear 0, .find, .test 32, .numClear] =
        ([.done, .number 0, .number 1, .done, .number 0, .truth true, .number 30], {0, 1, 32}) := by
    decide +kernel
  obtain ⟨rfl, contents⟩ := Prod.mk.inj (computed.symm.trans refines)
  exact ⟨_, b, called, rfl, contents.symm⟩

end Nachos
