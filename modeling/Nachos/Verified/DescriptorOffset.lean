import Nachos.UserProg.DiskDescriptor
import Nachos.Verified.DiskConsistency

/-!
# Offsets of descriptors

A `Read` advances the offset by what `ReadAt` returns.  A `Write` advances it by the size that was
asked for, while `WriteAt` stops at the end of the file.  So the offset is the number of bytes moved
as long as every `Write` fits.
-/

namespace Nachos

open Loops Runs FileHeader

/-! ## Byte counts -/

section Counts

variable {file : OpenFile} {disk disk' : Disk} {numBytes count : Int} {position : Nat}

/-- A request that is not refused, and whose end overflows, has no result. -/
theorem checkedSum_ok {sum : Int} (run : OpenFile.checkedSum position numBytes = .ok sum) :
    position + numBytes < 2 ^ 31 := by
  unfold OpenFile.checkedSum at run
  split at run
  next small => exact small
  next => cases run

theorem readAt_count (covering : file.hdr.Covering) {into into' : Nat → Byte}
    (run : file.readAt disk into numBytes position = .ok (into', count)) :
    count = (file.hdr.transferred numBytes position : Nat) := by
  by_cases refused : numBytes ≤ 0 ∨ (position : Int) ≥ file.hdr.fileLength
  · simp only [OpenFile.readAt, if_pos refused] at run
    cases run
    rw [transferred_eq_zero refused]
    rfl
  · have allowed := run
    simp only [OpenFile.readAt, if_neg refused] at allowed
    obtain ⟨sum, small, -⟩ := bind_eq_ok.mp allowed
    obtain ⟨_, result, -⟩ := OpenFile.readAt_ok covering disk into (checkedSum_ok small)
    cases result.symm.trans run
    rfl

theorem writeAt_count (covering : file.hdr.Covering) {buf source : Nat → Byte}
    (run : file.writeAt disk buf source numBytes position = .ok (disk', count)) :
    count = (file.hdr.transferred numBytes position : Nat) ∧
      ∀ p : Nat, (p : Int) < file.hdr.fileLength → file.hdr.fileByte disk' p =
        if position ≤ p ∧ p < position + file.hdr.transferred numBytes position then
          source (p - position) else file.hdr.fileByte disk p := by
  by_cases refused : numBytes ≤ 0 ∨ (position : Int) ≥ file.hdr.fileLength
  · simp only [OpenFile.writeAt, if_pos refused] at run
    cases run
    rw [transferred_eq_zero refused]
    exact ⟨rfl, fun p _ => (if_neg (by omega)).symm⟩
  · have allowed := run
    simp only [OpenFile.writeAt, if_neg refused] at allowed
    obtain ⟨sum, small, -⟩ := bind_eq_ok.mp allowed
    obtain ⟨_, result, -, bytes⟩ := OpenFile.writeAt_ok covering disk buf source (checkedSum_ok small)
    cases result.symm.trans run
    exact ⟨rfl, bytes⟩

end Counts

/-! ## The law -/

/-- The offset is the number of bytes moved so far, and inside the file. -/
def OffsetLaw (t : Tallied) : Prop :=
  t.descriptor.offset.toInt = t.moved ∧ t.moved ≤ t.descriptor.openFile.hdr.fileLength

def DescriptorCall.Fits (t : Tallied) : DescriptorCall → Prop
  | .write _ _ size =>
    t.descriptor.offset.toInt + size.toInt ≤ t.descriptor.openFile.hdr.fileLength
  | _ => True

def StoresNext : Tallied × DescriptorCall × Tallied → Prop
  | (before, .write _ buffer _, after) =>
    let hdr := before.descriptor.openFile.hdr
    ∀ p : Nat, (p : Int) < hdr.fileLength → hdr.fileByte after.descriptor.disk p =
      if before.moved ≤ p ∧ (p : Int) < after.moved then buffer (p - before.moved).toNat
      else hdr.fileByte before.descriptor.disk p
  | _ => True

structure Following (t : Tallied) : Prop where
  covering : t.descriptor.openFile.hdr.Covering
  law : OffsetLaw t
  nonneg : 0 ≤ t.moved

variable {size : BitVec 32} {call : DescriptorCall}

section Steps

variable {t t' : Tallied}

theorem Following.position (following : Following t) : ∃ position : Nat,
    t.moved = position ∧ t.descriptor.offset.toInt = position ∧ t.descriptor.offset.toNat = position ∧
      (position : Int) ≤ t.descriptor.openFile.hdr.fileLength := by
  obtain ⟨covering, ⟨same, inside⟩, nonneg⟩ := following
  have unsigned : t.descriptor.offset.toInt = t.descriptor.offset.toNat := by
    rw [BitVec.toInt_eq_toNat_cond] at same ⊢
    split
    · rfl
    · rw [if_neg (by assumption)] at same
      omega
  exact ⟨t.descriptor.offset.toNat, by omega, unsigned, rfl, by omega⟩

theorem fileLength_lt (hdr : FileHeader) : hdr.fileLength < 2 ^ 31 := by
  have bound := BitVec.toInt_lt (x := hdr.words 0)
  simpa [fileLength, numBytes] using bound

theorem writeSystemcall_inv {s after : DiskDescriptor} {buf buffer : Nat → Byte} {numWrite : Int}
    (run : s.writeSystemcall buf buffer size = .ok (numWrite, after)) :
    ∃ disk, s.openFile.writeAt s.disk buf buffer size.toInt s.offset.toInt = .ok (disk, numWrite) ∧
      after = { s with disk := disk, offset := s.offset + size } := by
  obtain ⟨⟨disk, count⟩, written, rest⟩ := bind_eq_ok.mp run
  cases rest
  exact ⟨disk, written, rfl⟩

theorem readSystemcall_inv {s after : DiskDescriptor} {buffer : Nat → Byte} {numRead : Int}
    (run : s.readSystemcall buffer size = .ok (numRead, after)) :
    ∃ into, s.openFile.readAt s.disk buffer size.toInt s.offset.toInt = .ok (into, numRead) ∧
      after = { s with offset := s.offset + BitVec.ofInt 32 numRead } := by
  obtain ⟨⟨into, count⟩, done, rest⟩ := bind_eq_ok.mp run
  cases rest
  exact ⟨into, done, rfl⟩

theorem toInt_advance {offset : BitVec 32} {position n : Nat} (at_position : offset.toNat = position)
    (small : position + n < 2 ^ 31) : (offset + BitVec.ofNat 32 n).toInt = (position + n : Nat) := by
  have sum : (offset + BitVec.ofNat 32 n).toNat = position + n := by
    rw [BitVec.toNat_add, BitVec.toNat_ofNat, at_position]
    omega
  rw [BitVec.toInt_eq_toNat_cond, sum, if_pos (by omega)]

theorem ofNat_toNat_of_nonneg (nonneg : 0 ≤ size.toInt) :
    ∃ n : Nat, size = BitVec.ofNat 32 n ∧ size.toInt = n ∧ size.toNat = n ∧ n < 2 ^ 31 := by
  rw [BitVec.toInt_eq_toNat_cond] at nonneg ⊢
  split at nonneg
  · exact ⟨size.toNat, by simp, by rw [if_pos (by assumption)], rfl, by omega⟩
  · omega

theorem Following.step (following : Following t) (fits : call.Fits t)
    (taken : DescriptorStep t call t') : Following t' := by
  obtain ⟨position, isMoved, signed, unsigned, inside⟩ := following.position
  have length := fileLength_lt t.descriptor.openFile.hdr
  have covering := following.covering
  cases taken with
  | others => exact ⟨covering, following.law, following.nonneg⟩
  | write nonneg run =>
    obtain ⟨disk, written, rfl⟩ := writeSystemcall_inv run
    rw [signed] at written
    obtain ⟨rfl, -⟩ := writeAt_count covering written
    obtain ⟨n, rfl, isSize, -, -⟩ := ofNat_toNat_of_nonneg nonneg
    simp only [DescriptorCall.Fits, signed, isSize] at fits
    have all : t.descriptor.openFile.hdr.transferred (BitVec.ofNat 32 n).toInt position = n := by
      rw [isSize, transferred]
      omega
    have advanced := toInt_advance unsigned (show position + n < 2 ^ 31 by omega)
    rw [all]
    refine ⟨covering, ⟨?_, ?_⟩, ?_⟩
    · simp only [advanced]
      omega
    · simp only
      omega
    · simp only
      omega
  | @read _ size _ _ nonneg run =>
    obtain ⟨into, done, rfl⟩ := readSystemcall_inv run
    rw [signed] at done
    have counted := readAt_count covering done
    subst counted
    have most : ((position + t.descriptor.openFile.hdr.transferred size.toInt position : Nat) : Int) ≤
        t.descriptor.openFile.hdr.fileLength := by
      unfold transferred
      omega
    have advanced := toInt_advance unsigned
      (show position + t.descriptor.openFile.hdr.transferred size.toInt position < 2 ^ 31 by omega)
    refine ⟨covering, ⟨?_, ?_⟩, ?_⟩
    · simp only [BitVec.ofInt_natCast, advanced]
      omega
    · simp only
      omega
    · simp only
      omega

/-- A `Write` past the end of the file leaves an offset that no byte count explains. -/
theorem Following.broken (following : Following t) (against : ¬ call.Fits t)
    (taken : DescriptorStep t call t') : ¬ OffsetLaw t' := by
  obtain ⟨position, isMoved, signed, unsigned, inside⟩ := following.position
  cases taken with
  | others => exact absurd trivial against
  | read => exact absurd trivial against
  | write nonneg run =>
    obtain ⟨disk, written, rfl⟩ := writeSystemcall_inv run
    rw [signed] at written
    obtain ⟨rfl, -⟩ := writeAt_count following.covering written
    obtain ⟨n, rfl, isSize, sizeNat, small⟩ := ofNat_toNat_of_nonneg nonneg
    simp only [DescriptorCall.Fits, signed, isSize] at against
    rintro ⟨same, -⟩
    simp only [isSize, isMoved] at same
    have less : t.descriptor.openFile.hdr.transferred n position < n := by
      unfold transferred
      omega
    -- the sum of two numbers below 2^31 is below 2^32, so it does not come round to the right value
    rw [BitVec.toInt_eq_toNat_cond, BitVec.toNat_add, unsigned, sizeNat] at same
    split at same <;> omega

theorem Following.storesNext (following : Following t) (taken : DescriptorStep t call t') :
    StoresNext (t, call, t') := by
  obtain ⟨position, isMoved, signed, -, -⟩ := following.position
  cases taken with
  | others => trivial
  | read => trivial
  | write nonneg run =>
    obtain ⟨disk, written, rfl⟩ := writeSystemcall_inv run
    rw [signed] at written
    obtain ⟨rfl, bytes⟩ := writeAt_count following.covering written
    intro p below
    rw [bytes p below, isMoved]
    have place : ((p : Int) - (position : Nat)).toNat = p - position := by omega
    rw [place]
    refine if_congr ?_ rfl rfl
    dsimp only
    omega

end Steps

/-! ## Runs -/

theorem Following.opened {fs : FileSystem} (valid : fs.Valid) {name : Nat → Byte} {heap : Heap}
    {file : OpenFile} (opens : fs.openFile name heap = .ok (some file)) :
    Following (.opened fs.disk file) := by
  obtain ⟨result, found, entry, -⟩ := FileSystem.openFile_ok valid name heap
  cases found.symm.trans opens
  obtain ⟨i, held, -, rfl⟩ := entry file rfl
  have sized := valid.laid.sized _ held
  exact ⟨valid.laid.covering held, ⟨rfl, sized.nonneg⟩, Int.le_refl 0⟩

/-- After formatting, take any run of file-system calls, open a file, and make any calls on the
descriptor while others change the disk.  The offset is at every point the sum of the byte counts
that were returned, does not exceed the length of the file, and every `Write` stores its bytes right
behind those moved before, if and only if no `Write` goes past the end of the file. -/
theorem offset_counts_bytes_iff (disk : Disk) (heap : Heap) : ∃ start,
    FileSystem.format disk heap = .ok start ∧
    ∀ calls fs, Run FileSystemStep start calls fs →
      Guarded (fun fs call => call.Proper fs) calls →
      Guarded (fun _ call => call.NonnegPosition) calls →
      ∀ name heap file, fs.openFile name heap = .ok (some file) →
      ∀ history t, Run DescriptorStep (.opened fs.disk file) history t →
      ((Throughout OffsetLaw history t ∧ ∀ taken ∈ transitions history t, StoresNext taken) ↔
        Guarded (fun t call => call.Fits t) history) := by
  obtain ⟨start, formatted, initial, -⟩ := format_ok disk heap
  refine ⟨start, formatted, fun calls fs earlier proper nonneg name heap file opens history t run => ?_⟩
  have both : Guarded (fun fs call => call.Proper fs ∧ call.NonnegPosition) calls :=
    fun taken member => ⟨proper taken member, nonneg taken member⟩
  have valid : fs.Valid :=
    earlier.invariant initial (fun _ _ _ before guard => before.step guard.1 guard.2) both
  have first := Following.opened valid opens
  have exact_condition : Throughout OffsetLaw history t ↔
      Guarded (fun t call => DescriptorCall.Fits t call) history :=
    run.throughout_iff_guarded first (fun _ _ _ following fits taken => following.step fits taken)
      (fun _ following => following.law)
      (fun _ _ _ following against taken => following.broken against taken)
  refine ⟨fun ⟨law, _⟩ => exact_condition.mp law, fun fits => ⟨exact_condition.mpr fits, ?_⟩⟩
  exact run.eachTransition first (fun _ _ _ following fits taken => following.step fits taken)
    (fun _ _ _ following _ taken => following.storesNext taken) fits

section Calls

variable {t : Tallied} {position n : Nat} (covering : t.descriptor.openFile.hdr.Covering)
  (offset : t.descriptor.offset.toInt = position) (isSize : size.toInt = n)
  (small : position + n < 2 ^ 31)

include covering offset isSize small

theorem exists_write (buf buffer : Nat → Byte) : ∃ t',
    DescriptorStep t (.write buf buffer size) t' ∧
      t'.descriptor.openFile = t.descriptor.openFile ∧
      t'.descriptor.offset = t.descriptor.offset + size ∧
      t'.moved = t.moved + t.descriptor.openFile.hdr.transferred n position := by
  obtain ⟨disk, written, -⟩ := OpenFile.writeAt_ok covering t.descriptor.disk buf buffer
    (show (position : Int) + n < 2 ^ 31 by omega)
  have call : t.descriptor.writeSystemcall buf buffer size =
      .ok ((t.descriptor.openFile.hdr.transferred n position : Nat),
        { t.descriptor with disk := disk, offset := t.descriptor.offset + size }) := by
    simp only [DiskDescriptor.writeSystemcall, DiskDescriptor.writeSOF, offset, isSize, written,
      ok_bind, pure_eq]
  exact ⟨_, .write (by omega) call, rfl, rfl, rfl⟩

theorem exists_read (buffer : Nat → Byte) : ∃ t', DescriptorStep t (.read buffer size) t' ∧
    t'.descriptor.openFile = t.descriptor.openFile ∧
    t'.descriptor.offset = t.descriptor.offset +
      BitVec.ofNat 32 (t.descriptor.openFile.hdr.transferred n position) := by
  obtain ⟨into, read, -⟩ := OpenFile.readAt_ok covering t.descriptor.disk buffer
    (show (position : Int) + n < 2 ^ 31 by omega)
  have call : t.descriptor.readSystemcall buffer size =
      .ok ((t.descriptor.openFile.hdr.transferred n position : Nat),
        { t.descriptor with
          offset := t.descriptor.offset +
            BitVec.ofNat 32 (t.descriptor.openFile.hdr.transferred n position) }) := by
    simp only [DiskDescriptor.readSystemcall, DiskDescriptor.readSOF, offset, isSize, read, ok_bind,
      pure_eq, BitVec.ofInt_natCast]
  exact ⟨_, .read (by omega) call, rfl, rfl⟩

end Calls

/-- In a file of 300 bytes, 100 bytes are written, 50 are read, and 100 more are written. -/
theorem offset_after_short_write : ∃ start fs file history t,
    FileSystem.format (fun _ _ => 0#8) zeroHeap = .ok start ∧
      Run FileSystemStep start [(start, .create nameA 300 zeroHeap)] fs ∧
      fs.openFile nameA zeroHeap = .ok (some file) ∧
      Run DescriptorStep (.opened fs.disk file) history t ∧
      history.map Prod.snd = [.write (fun _ => 0#8) (fun _ => 8#8) 100#32,
        .read (fun _ => 0#8) 50#32, .write (fun _ => 0#8) (fun _ => 7#8) 100#32] ∧
      t.descriptor.offset = 250#32 ∧ Throughout OffsetLaw history t := by
  obtain ⟨start, fs, file, formatted, created, -, -, opens, -, covering, length, -⟩ :=
    exists_created (fun _ _ => 0#8) zeroHeap nameA (show (0 : Int) ≤ 300 by decide) (by decide)
  obtain ⟨t₁, first, same₁, offset₁, -⟩ := exists_write (t := .opened fs.disk file) (n := 100)
    covering (show _ = ((0 : Nat) : Int) from rfl) (show (100#32).toInt = 100 from rfl) (by decide)
    (fun _ => 0#8) fun _ => 7#8
  have offset₁ : t₁.descriptor.offset = 100#32 := offset₁
  obtain ⟨t₂, second, same₂, offset₂⟩ := exists_read (t := t₁) (n := 50) (same₁ ▸ covering)
    (show _ = ((100 : Nat) : Int) by rw [offset₁]; rfl) (show (50#32).toInt = 50 from rfl)
    (by decide) fun _ => 0#8
  have offset₂ : t₂.descriptor.offset = 150#32 := by
    rw [offset₂, offset₁, same₁]
    simp [Tallied.opened, transferred, length]
  obtain ⟨t₃, third, -, offset₃, -⟩ := exists_write (t := t₂) (n := 100)
    (same₂ ▸ same₁ ▸ covering) (show _ = ((150 : Nat) : Int) by rw [offset₂]; rfl)
    (show (100#32).toInt = 100 from rfl) (by decide) (fun _ => 0#8) fun _ => 8#8
  have earlier : Run FileSystemStep start [(start, .create nameA 300 zeroHeap)] fs :=
    Run.start.next created
  have run := ((Run.start.next first).next second).next third
  obtain ⟨start', formatted', exact_condition⟩ := offset_counts_bytes_iff (fun _ _ => 0#8) zeroHeap
  cases formatted.symm.trans formatted'
  refine ⟨start, fs, file, _, t₃, formatted, earlier, opens, run, rfl, by rw [offset₃, offset₂]; rfl,
    ((exact_condition _ fs earlier ?_ ?_ _ _ file opens _ t₃ run).mpr ?_).1⟩
  · exact guarded_cons.mpr ⟨⟨by decide, by decide⟩, fun _ member => nomatch member⟩
  · exact guarded_cons.mpr ⟨trivial, fun _ member => nomatch member⟩
  · refine guarded_cons.mpr ⟨?_, guarded_cons.mpr ⟨trivial, guarded_cons.mpr ⟨?_, nofun⟩⟩⟩
    · simp only [DescriptorCall.Fits, offset₂, same₂, same₁, Tallied.opened, length]
      decide
    · simp only [DescriptorCall.Fits, Tallied.opened, length]
      decide

/-- A `Write` of 400 bytes to a file of 300: 300 are stored, and the offset is 400. -/
theorem offset_past_end : ∃ start fs file history t,
    FileSystem.format (fun _ _ => 0#8) zeroHeap = .ok start ∧
      Run FileSystemStep start [(start, .create nameA 300 zeroHeap)] fs ∧
      fs.openFile nameA zeroHeap = .ok (some file) ∧
      Run DescriptorStep (.opened fs.disk file) history t ∧ history.length = 1 ∧
      t.descriptor.openFile.hdr.fileLength = 300 ∧ t.moved = 300 ∧ t.descriptor.offset = 400#32 ∧
      ¬ OffsetLaw t := by
  obtain ⟨start, fs, file, formatted, created, -, -, opens, -, covering, length, -⟩ :=
    exists_created (fun _ _ => 0#8) zeroHeap nameA (show (0 : Int) ≤ 300 by decide) (by decide)
  obtain ⟨t, written, same, offset, moved⟩ := exists_write (t := .opened fs.disk file) (n := 400)
    covering (show _ = ((0 : Nat) : Int) from rfl) (show (400#32).toInt = 400 from rfl) (by decide)
    (fun _ => 0#8) fun _ => 7#8
  have offset : t.descriptor.offset = 400#32 := offset
  have stored : t.moved = 300 := by
    rw [moved]
    simp [Tallied.opened, transferred, length]
  refine ⟨start, fs, file, _, t, formatted, Run.start.next created, opens, Run.start.next written,
    rfl, same ▸ length, stored, offset, ?_⟩
  rintro ⟨law, -⟩
  rw [offset, stored] at law
  revert law
  decide

end Nachos
