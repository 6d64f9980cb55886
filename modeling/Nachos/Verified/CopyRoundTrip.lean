import Nachos.FileSys.FsTest
import Nachos.Verified.DiskConsistency

/-!
# A file that was copied is read back

`Create` makes a file of the right length, and the chunks of `Copy` overwrite it from the
beginning to the end, each where the one before it ended.  `Print` gets the same bytes, in
whatever pieces it asks for them, as long as it asks for at least one byte and for no more
than an `int` can count from the current position.
-/

namespace Nachos

open Loops Runs Segments

def positionAfter (length : Nat) (requests : Nat → Int) (p : Nat) : Nat → Nat
  | 0 => p
  | n + 1 =>
    positionAfter length requests p n +
      (min (requests n) (length - positionAfter length requests p n)).toNat

/-- Every request that is made before the end of the file is for a byte at least, and its end
is an `int`. -/
def Readable (length : Nat) (requests : Nat → Int) (p : Nat) : Prop :=
  ∀ n, positionAfter length requests p n < length →
    0 < requests n ∧ positionAfter length requests p n + requests n < 2 ^ 31

/-! ## Reading -/

variable {p length fuel i : Nat} {requests : Nat → Int} {file : OpenFile}

namespace OpenFile

variable {file : OpenFile}

theorem read_ok (covering : file.hdr.Covering) (disk : Disk) (into : Nat → Byte) {numBytes : Int}
    (position : file.seekPosition = p) (noOverflow : p + numBytes < 2 ^ 31) :
    ∃ into', file.read disk into numBytes =
        .ok (into', (file.hdr.transferred numBytes p : Nat),
          { file with seekPosition := (p + file.hdr.transferred numBytes p : Nat) }) ∧
      (List.range (file.hdr.transferred numBytes p)).map into' =
        slice (file.hdr.contents disk) p (file.hdr.transferred numBytes p) := by
  obtain ⟨into', done, bytes, _⟩ := readAt_slice covering disk into noOverflow
  refine ⟨into', ?_, bytes⟩
  simp only [read, position, done, ok_bind, pure_eq, Nat.cast_add]

theorem read_at_end (disk : Disk) (into : Nat → Byte) (numBytes : Int)
    (ended : file.seekPosition ≥ file.hdr.fileLength) :
    file.read disk into numBytes = .ok (into, 0, file) := by
  have refused : numBytes ≤ 0 ∨ file.seekPosition ≥ file.hdr.fileLength := .inr ended
  simp only [read, readAt, if_pos refused, ok_bind, pure_eq, Int.add_zero]

/-- `Read` adds the size of the request to the position before it cuts the request off. -/
theorem read_overflow (disk : Disk) (into : Nat → Byte) {numBytes : Int} (positive : 0 < numBytes)
    (before : file.seekPosition < file.hdr.fileLength)
    (overflow : 2 ^ 31 ≤ file.seekPosition + numBytes) :
    file.read disk into numBytes = .error .outOfRange := by
  have accepted : ¬ (numBytes ≤ 0 ∨ file.seekPosition ≥ file.hdr.fileLength) := by omega
  simp only [read, readAt, if_neg accepted, checkedSum, if_neg (Int.not_lt.mpr overflow), bind,
    Except.bind]

end OpenFile

theorem positionAfter_shift (length : Nat) (requests : Nat → Int) (p n : Nat) :
    positionAfter length (fun k => requests (k + 1)) (positionAfter length requests p 1) n =
      positionAfter length requests p (n + 1) := by
  induction n with
  | zero => rfl
  | succ n ih =>
    rw [positionAfter, ih]
    rfl

theorem Readable.tail (readable : Readable length requests p) :
    Readable length (fun k => requests (k + 1)) (positionAfter length requests p 1) := by
  intro n before
  rw [positionAfter_shift] at before ⊢
  exact readable (n + 1) before

theorem printLoop_ok {disk : Disk} (covering : file.hdr.Covering) (buffer : Nat → Byte)
    (sized : file.hdr.fileLength = length) (position : file.seekPosition = p) (inside : p ≤ length)
    (readable : Readable length requests p) (enough : length < p + fuel) :
    printLoop disk fuel file buffer requests = .ok (some ((file.hdr.contents disk).drop p)) := by
  induction fuel generalizing file buffer p requests with
  | zero => omega
  | succ fuel ih =>
    by_cases ended : length ≤ p
    · have nothing : (file.hdr.contents disk).drop p = [] := by
        apply List.drop_eq_nil_of_le
        rw [FileHeader.length_contents]
        omega
      have atEnd : file.seekPosition ≥ file.hdr.fileLength := by omega
      rw [nothing]
      simp only [printLoop, OpenFile.read_at_end disk buffer (requests 0) atEnd, ok_bind,
        gt_iff_lt, Int.lt_irrefl, if_false, pure_eq]
    · obtain ⟨positive, noOverflow⟩ := readable 0 (by simp only [positionAfter]; omega)
      obtain ⟨buffer', done, bytes⟩ := OpenFile.read_ok covering disk buffer position noOverflow
      have reached : positionAfter length requests p 1 =
          p + file.hdr.transferred (requests 0) p := by
        simp only [positionAfter, FileHeader.transferred, sized]
      have someBytes : 0 < file.hdr.transferred (requests 0) p :=
        FileHeader.transferred_pos positive (by omega)
      have stop := FileHeader.transferred_le (requests 0)
        (show (p : Int) < file.hdr.fileLength by omega)
      have served : (slice (file.hdr.contents disk) p
          (file.hdr.transferred (requests 0) p)).length = file.hdr.transferred (requests 0) p := by
        rw [length_slice, FileHeader.length_contents]
        omega
      -- the rest of the loop starts at the position that this request reached
      have rest : printLoop disk fuel
          { file with seekPosition := (p + file.hdr.transferred (requests 0) p : Nat) } buffer'
          (fun n => requests (n + 1)) = .ok (some ((file.hdr.contents disk).drop
            (p + file.hdr.transferred (requests 0) p))) := by
        apply ih
        · exact covering
        · exact sized
        · rfl
        · omega
        · exact reached ▸ readable.tail
        · omega
      have pieces := slice_append_drop (file.hdr.contents disk) p
        (file.hdr.transferred (requests 0) p)
      rw [served] at pieces
      have more : ((file.hdr.transferred (requests 0) p : Nat) : Int) > 0 := by omega
      simp only [printLoop, done, ok_bind, if_pos more, rest, pure_eq,
        Option.map_some, Int.toNat_natCast, bytes, pieces]

theorem printLoop_overflow {disk : Disk} (covering : file.hdr.Covering) (buffer : Nat → Byte)
    (position : file.seekPosition = p) (noOverflow : p + requests 0 < 2 ^ 31)
    (before : ((p + file.hdr.transferred (requests 0) p : Nat) : Int) < file.hdr.fileLength)
    (served : 0 < file.hdr.transferred (requests 0) p) (overflow : 0 < requests 1 ∧ 2 ^ 31 ≤ ((p +
      file.hdr.transferred (requests 0) p : Nat) : Int) + requests 1) :
    printLoop disk (fuel + 2) file buffer requests = .error .outOfRange := by
  obtain ⟨buffer', first, _⟩ := OpenFile.read_ok covering disk buffer position noOverflow
  have more : ((file.hdr.transferred (requests 0) p : Nat) : Int) > 0 := by omega
  have second : OpenFile.read
      { file with seekPosition := (p + file.hdr.transferred (requests 0) p : Nat) } disk buffer'
      (requests 1) = .error .outOfRange :=
    OpenFile.read_overflow disk buffer' overflow.1 before overflow.2
  simp only [printLoop, first, bind, Except.bind, if_pos more, second]

/-! ## Writing -/

/-- The source that `Copy` passes to `Write` for a chunk. -/
theorem map_getD (chunk : List Byte) {k : Nat} (short : k ≤ chunk.length) :
    ((List.range k).map fun j => chunk.getD j 0#8) = chunk.take k := by
  apply List.ext_getElem?
  intro j
  rw [List.getElem?_map]
  by_cases inside : j < k
  · have bound : j < chunk.length := by omega
    rw [List.getElem?_range inside, Option.map_some, List.getElem?_take_of_lt inside,
      List.getD_eq_getElem?_getD, List.getElem?_eq_getElem bound, Option.getD_some]
  · rw [List.getElem?_eq_none (by simpa using inside), Option.map_none,
      List.getElem?_eq_none (by rw [List.length_take]; omega)]

structure Written (fs : FileSystem) (i p : Nat) (bytes : List Byte) (disk' : Disk) : Prop where
  valid : FileSystem.Valid { fs with disk := disk' }
  entry : SameEntry fs.disk disk' i
  contents : ((Owner.entry i).header fs.disk (storedDirectory fs.disk)).contents disk' =
    overwrite (((Owner.entry i).header fs.disk (storedDirectory fs.disk)).contents fs.disk) p bytes
  others : ∀ j, j ≠ i → (Owner.entry j).InUse (storedDirectory fs.disk) →
    SameFile fs.disk disk' j
  noNew : ∀ j, (Owner.entry j).InUse (storedDirectory disk') →
    (Owner.entry j).InUse (storedDirectory fs.disk)

namespace Written

variable {fs : FileSystem} {i p : Nat}

theorem nothing (valid : fs.Valid) (held : (Owner.entry i).InUse (storedDirectory fs.disk)) :
    Written fs i p [] fs.disk where
  valid := valid
  entry := .refl held
  contents := overwrite_nil.symm
  others _ _ other := ⟨.refl other, rfl⟩
  noNew _ other := other

theorem append {first second : List Byte} {disk₁ disk₂ : Disk}
    (fits : p + first.length ≤
      (((Owner.entry i).header fs.disk (storedDirectory fs.disk)).contents fs.disk).length)
    (before : Written fs i p first disk₁)
    (after : Written { fs with disk := disk₁ } i (p + first.length) second disk₂) :
    Written fs i p (first ++ second) disk₂ where
  valid := after.valid
  entry := before.entry.trans after.entry
  contents := by
    have later := after.contents
    rw [before.entry.header, before.contents, overwrite_overwrite fits] at later
    exact later
  others j different other :=
    (before.others j different other).trans
      (after.others j different (before.others j different other).inUse)
  noNew j other := before.noNew j (after.noNew j other)

end Written

theorem write_chunk {fs : FileSystem} (valid : fs.Valid)
    (held : (Owner.entry i).InUse (storedDirectory fs.disk))
    (header : file.hdr = (Owner.entry i).header fs.disk (storedDirectory fs.disk))
    (position : file.seekPosition = p) (buf : Nat → Byte) {chunk : List Byte}
    (fits : ((p + chunk.length : Nat) : Int) ≤ file.hdr.fileLength) :
    ∃ disk', file.write fs.disk buf (fun j => chunk.getD j 0#8) chunk.length =
        .ok (disk', (chunk.length : Int),
          { file with seekPosition := (p + chunk.length : Nat) }) ∧
      Written fs i p chunk disk' := by
  have covering : file.hdr.Covering := header ▸ valid.laid.covering held
  have most : file.hdr.fileLength ≤ maxFileSize := header ▸ (valid.laid.sized _ held).most
  have noOverflow : (p : Int) + chunk.length < 2 ^ 31 := by
    have size : maxFileSize = 3840 := rfl
    omega
  have whole : file.hdr.transferred chunk.length p = chunk.length := by
    unfold FileHeader.transferred
    omega
  obtain ⟨disk', done, contents, only⟩ := OpenFile.writeAt_overwrite covering fs.disk buf
    (fun j => chunk.getD j 0#8) noOverflow
  rw [whole] at done contents
  rw [map_getD chunk (Nat.le_refl _), List.take_length] at contents
  rw [header] at only contents
  refine ⟨disk', ?_, ?_⟩
  · simp only [OpenFile.write, position, done, ok_bind, pure_eq, Nat.cast_add]
  · exact {
      valid := valid.write held only
      entry := valid.write_entry held only held
      contents := contents
      others := fun _ different other => valid.write_other held only other different
      noNew := fun _ other => valid.write_inUse held only other }

theorem writeChunks_ok {chunks : List ((Nat → Byte) × List Byte)} {fs : FileSystem}
    (valid : fs.Valid) (held : (Owner.entry i).InUse (storedDirectory fs.disk))
    (header : file.hdr = (Owner.entry i).header fs.disk (storedDirectory fs.disk))
    (position : file.seekPosition = p)
    (fits : ((p + (chunks.map Prod.snd).flatten.length : Nat) : Int) ≤ file.hdr.fileLength) :
    ∃ disk' file', writeChunks file fs.disk chunks = .ok (disk', file') ∧
      Written fs i p (chunks.map Prod.snd).flatten disk' := by
  induction chunks generalizing fs p file with
  | nil => exact ⟨fs.disk, file, rfl, Written.nothing valid held⟩
  | cons head chunks ih =>
    obtain ⟨buf, chunk⟩ := head
    simp only [List.map_cons, List.flatten_cons, List.length_append] at fits ⊢
    have room : ((p + chunk.length : Nat) : Int) ≤ file.hdr.fileLength := by omega
    obtain ⟨disk₁, first, written⟩ := write_chunk valid held header position buf room
    -- the header is still the one in the opened file, whose position is behind the chunk now
    obtain ⟨disk₂, file', rest, later⟩ : ∃ disk' file',
        writeChunks { file with seekPosition := (p + chunk.length : Nat) } disk₁ chunks =
          .ok (disk', file') ∧
        Written { fs with disk := disk₁ } i (p + chunk.length)
          (chunks.map Prod.snd).flatten disk' := by
      apply ih written.valid written.entry.inUse
      · exact header.trans written.entry.header.symm
      · rfl
      · rw [Nat.add_assoc]
        exact fits
    refine ⟨disk₂, file', ?_, written.append ?_ later⟩
    · simp only [writeChunks, first, ok_bind]
      exact rest
    · rw [FileHeader.length_contents, ← header]
      omega

/-! ## Both -/

namespace FileSystem

variable {fs : FileSystem} {name : Nat → Byte}

theorem copy_ok (valid : fs.Valid) {chunks : List ((Nat → Byte) × List Byte)}
    (short : ((chunks.map Prod.snd).flatten.length : Int) ≤ maxFileSize)
    (room : Creatable fs.disk name (chunks.map Prod.snd).flatten.length) (heap heap' : Heap) :
    ∃ disk' i, fs.copy name (chunks.map Prod.snd).flatten.length chunks heap heap' =
        .ok (true, { fs with disk := disk' }) ∧
      Valid { fs with disk := disk' } ∧
      NewFile fs.disk disk' name (chunks.map Prod.snd).flatten.length i ∧
      ((Owner.entry i).header disk' (storedDirectory disk')).contents disk' =
        (chunks.map Prod.snd).flatten ∧
      FilesKept fs.disk disk' := by
  obtain ⟨success, disk₁, created, valid₁, succeeds, isNew, -, kept⟩ :=
    create_ok valid (Int.natCast_nonneg _) short name heap
  have isSuccess : success = true := succeeds.mpr room
  subst isSuccess
  obtain ⟨i, new⟩ := isNew rfl
  have opened := open_unique valid₁ heap' new.inUse new.named (new.unique kept room.1)
  obtain ⟨disk₂, file', done, written⟩ : ∃ disk₂ file', writeChunks
        ⟨(storedDirectory disk₁).sector i, (Owner.entry i).header disk₁ (storedDirectory disk₁), 0⟩
        disk₁ chunks = .ok (disk₂, file') ∧
      Written { fs with disk := disk₁ } i 0 (chunks.map Prod.snd).flatten disk₂ := by
    apply writeChunks_ok valid₁ new.inUse rfl rfl
    rw [Nat.zero_add]
    exact Int.le_of_eq new.fileLength.symm
  refine ⟨disk₂, i, ?_, written.valid, ?_, ?_, ?_⟩
  · simp only [copy, created, ok_bind, Bool.not_true, Bool.false_eq_true, if_false,
      opened, done, pure_eq]
  · exact {
      inUse := written.entry.inUse
      named := (written.entry.named name).trans new.named
      fileLength := by rw [written.entry.header, new.fileLength]
      others := fun j held => new.others j (written.noNew j held) }
  · rw [written.entry.header, written.contents]
    apply overwrite_whole
    rw [FileHeader.length_contents, new.fileLength]
    rfl
  · intro j held
    have different := new.ne_of_inUse kept room.1 held
    exact (kept j held).trans (written.others j different (kept j held).inUse)

theorem print_ok (valid : fs.Valid) (heap : Heap)
    (held : (Owner.entry i).InUse (storedDirectory fs.disk))
    (named : (storedDirectory fs.disk).isNamed name i = true) (unique : ∀ j, (Owner.entry j).InUse
      (storedDirectory fs.disk) → (storedDirectory fs.disk).isNamed name j = true → j = i)
    (sized : ((Owner.entry i).header fs.disk (storedDirectory fs.disk)).fileLength = length)
    (buffer : Nat → Byte) (readable : Readable length requests 0) (enough : length < fuel) :
    fs.print name buffer requests heap fuel =
      .ok (some (((Owner.entry i).header fs.disk (storedDirectory fs.disk)).contents fs.disk)) := by
  have printed : printLoop fs.disk fuel ⟨(storedDirectory fs.disk).sector i,
      (Owner.entry i).header fs.disk (storedDirectory fs.disk), 0⟩ buffer requests =
      .ok (some ((((Owner.entry i).header fs.disk (storedDirectory fs.disk)).contents
        fs.disk).drop 0)) := by
    apply printLoop_ok (valid.laid.covering held) buffer sized rfl (Nat.zero_le _) readable
    omega
  rw [List.drop_zero] at printed
  simp only [print, open_unique valid heap held named unique, ok_bind, printed]

end FileSystem

/-- `Copy` of a byte string in any chunks and `Print` of the file with any readable requests: the
string is printed, and the other files are what they were. -/
theorem copy_then_print {fs : FileSystem} (valid : fs.Valid) (name : Nat → Byte) (s : List Byte)
    (short : (s.length : Int) ≤ maxFileSize) (room : Creatable fs.disk name s.length)
    (chunks : List ((Nat → Byte) × List Byte)) (cut : (chunks.map Prod.snd).flatten = s)
    (heap heap' : Heap) :
    ∃ fs', fs.copy name s.length chunks heap heap' = .ok (true, fs') ∧ fs'.Valid ∧
      FilesKept fs.disk fs'.disk ∧
      ∀ requests, Readable s.length requests 0 → ∀ buffer heap'' fuel, s.length < fuel →
        fs'.print name buffer requests heap'' fuel = .ok (some s) := by
  subst cut
  obtain ⟨disk', i, copied, valid', new, contents, kept⟩ :=
    FileSystem.copy_ok valid short room heap heap'
  refine ⟨_, copied, valid', kept, ?_⟩
  intro requests readable buffer heap'' fuel enough
  have printed := FileSystem.print_ok valid' heap'' new.inUse new.named (new.unique kept room.1)
    new.fileLength buffer readable enough
  rw [printed]
  exact congrArg (fun bytes => Except.ok (some bytes)) contents

/-! ## Requests that are not readable -/

/-- Five bytes in chunks of two, none and three bytes, read back with requests for two. -/
theorem five_bytes_read_back : ∃ start fs',
    FileSystem.format (fun _ _ => 0#8) zeroHeap = .ok start ∧
      start.copy nameA 5 [(fun _ => 0#8, [1#8, 2#8]), (fun _ => 0#8, []),
        (fun _ => 0#8, [3#8, 4#8, 5#8])] zeroHeap zeroHeap = .ok (true, fs') ∧
      fs'.print nameA (fun _ => 0#8) (fun _ => 2) zeroHeap 6 =
        .ok (some [1#8, 2#8, 3#8, 4#8, 5#8]) := by
  obtain ⟨start, formatted, valid, empty, _⟩ := format_ok (fun _ _ => 0#8) zeroHeap
  obtain ⟨fs', copied, _, _, printed⟩ := copy_then_print valid nameA
    [1#8, 2#8, 3#8, 4#8, 5#8] (by decide) (empty.creatable nameA (by decide))
    [(fun _ => 0#8, [1#8, 2#8]), (fun _ => 0#8, []), (fun _ => 0#8, [3#8, 4#8, 5#8])] rfl
    zeroHeap zeroHeap
  refine ⟨start, fs', formatted, copied, printed (fun _ => 2) ?_ _ _ 6 (by decide)⟩
  intro n before
  have bound : positionAfter 5 (fun _ => 2) 0 n < 5 := before
  constructor
  · show (0 : Int) < 2
    decide
  · show (positionAfter 5 (fun _ => 2) 0 n : Int) + 2 < 2 ^ 31
    omega

/-- After a request for one byte the largest request makes the sum of the position and the
size too large for an `int`; a request for no byte ends the loop. -/
theorem two_bytes_not_read_back : ∃ start fs',
    FileSystem.format (fun _ _ => 0#8) zeroHeap = .ok start ∧
      start.copy nameA 2 [(fun _ => 0#8, [1#8, 2#8])] zeroHeap zeroHeap = .ok (true, fs') ∧
      fs'.print nameA (fun _ => 0#8) (fun _ => 0) zeroHeap 3 = .ok (some []) ∧
      fs'.print nameA (fun _ => 0#8) (fun n => if n = 0 then 1 else 2147483647) zeroHeap 3 =
        .error .outOfRange := by
  obtain ⟨start, formatted, valid, empty, _⟩ := format_ok (fun _ _ => 0#8) zeroHeap
  have room : Creatable start.disk nameA 2 := empty.creatable nameA (by decide)
  have short : ((([(fun _ => 0#8, [1#8, 2#8])] : List ((Nat → Byte) × List Byte)).map
      Prod.snd).flatten.length : Int) ≤ maxFileSize := by decide
  obtain ⟨disk', i, copied, valid', new, _, kept⟩ :=
    FileSystem.copy_ok valid short room zeroHeap zeroHeap
  have opened := FileSystem.open_unique valid' zeroHeap new.inUse new.named
    (new.unique kept room.1)
  refine ⟨start, _, formatted, copied, ?_, ?_⟩
  · simp only [FileSystem.print, opened, ok_bind, printLoop, OpenFile.read,
      OpenFile.readAt]
    rfl
  · have covering := valid'.laid.covering new.inUse
    have length : ((Owner.entry i).header disk' (storedDirectory disk')).fileLength = 2 :=
      new.fileLength
    have failed : ∀ file : OpenFile, file.hdr.Covering → file.hdr.fileLength = 2 →
        file.seekPosition = (0 : Nat) → printLoop disk' 3 file (fun _ => 0#8)
          (fun n => if n = 0 then 1 else 2147483647) = .error .outOfRange := by
      intro file covering length position
      have oneByte : file.hdr.transferred 1 (0 : Nat) = 1 := by
        rw [FileHeader.transferred, length]
        rfl
      apply printLoop_overflow covering _ position
      · decide
      · rw [if_pos rfl, oneByte, length]
        decide
      · rw [if_pos rfl, oneByte]
        decide
      · rw [if_pos rfl, oneByte]
        decide
    simp only [FileSystem.print, opened, ok_bind]
    exact failed _ covering length rfl

end Nachos
