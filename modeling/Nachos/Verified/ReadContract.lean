import Mathlib.Data.List.GetD
import Nachos.UserProg.ReadCall
import Nachos.Verified.DescriptorOffset
import Nachos.Verified.UserBytes

/-!
# The contract of Read

`Read` fills a new buffer with the bytes that there are, and copies the buffer to user memory in its
whole length.  So behind a short read the user buffer receives what the heap had there, or for the
console the end-of-input marks.  From the console nothing is put into register 2, where the program
has left the code of the call.
-/

namespace Nachos

open Loops Runs FileHeader

/-- `Read` returns `count` to the program, sets that many bytes of its buffer, and leaves all other
bytes of this and any other process. -/
structure Delivers (pid : Nat) (s s' : ReadState) (count : Nat) (bytes : Nat → Byte) : Prop where
  result : s'.registers 2 = BitVec.ofNat 32 count
  memory : ∀ q addr, byteAt s'.kernel q addr =
    copiedBytes s.kernel pid bytes (s.registers 4).toNat count q addr

def ReadsFile (pid : Nat) (heap : Nat → Byte) (s : ReadState) (index : Nat)
    (descriptor : OpenDescriptor) : Prop :=
  let hdr := descriptor.openFile.hdr
  let count := hdr.transferred (s.registers 5).toInt descriptor.offset.toNat
  ∃ s', readSystemcall pid heap s = .ok s' ∧
    Delivers pid s s' count (fun i => hdr.fileByte s.disk (descriptor.offset.toNat + i)) ∧
    s'.descriptors = Function.update s.descriptors index
      (some { descriptor with offset := descriptor.offset + BitVec.ofNat 32 count })

def ReadsConsole (pid : Nat) (heap : Nat → Byte) (s : ReadState) : Prop :=
  let count := min (s.registers 5).toNat s.input.length
  ∃ s', readSystemcall pid heap s = .ok s' ∧
    Delivers pid s s' count (fun i => s.input.getD i 0#8) ∧ s'.input = s.input.drop count

def TailIs (pid : Nat) (s : ReadState) (count : Nat) (tail : Nat → Byte) : Prop :=
  ∀ i, count ≤ i → i < (s.registers 5).toNat →
    byteAt s.kernel pid (s.registers 4 + BitVec.ofNat 32 i) = some (tail i)

/-- When `Read` from the descriptor is right: the sizes that it computes are `int`s, and the request
is not cut short or the heap has what the rest of the user buffer has. -/
structure FileCondition (pid : Nat) (heap : Nat → Byte) (s : ReadState)
    (descriptor : OpenDescriptor) : Prop where
  allocates : (s.registers 5).toInt + 1 < 2 ^ 31
  request : (s.registers 5).toInt = 0 ∨
    descriptor.openFile.hdr.fileLength ≤ descriptor.offset.toInt ∨
    descriptor.offset.toInt + (s.registers 5).toInt < 2 ^ 31
  tail : TailIs pid s (descriptor.openFile.hdr.transferred (s.registers 5).toInt
    descriptor.offset.toNat) heap

/-- When `Read` from the console is right: it delivers as many characters as its code says, and what
the user buffer has behind them looks like the end of the input. -/
structure ConsoleCondition (pid : Nat) (s : ReadState) : Prop where
  allocates : (s.registers 5).toInt + 1 < 2 ^ 31
  count : min (s.registers 5).toNat s.input.length = scRead.toNat
  tail : TailIs pid s (min (s.registers 5).toNat s.input.length) fun _ => 255#8

/-! ## Buffers -/

theorem getchar_drop (input : List Byte) (k : Nat) :
    getchar (input.drop k) = (input.getD k 255#8, input.drop (k + 1)) := by
  by_cases inside : k < input.length
  · rw [List.drop_eq_getElem_cons inside, getchar, List.getD_eq_getElem _ _ inside]
  · rw [List.drop_eq_nil_of_le (by omega), List.drop_eq_nil_of_le (by omega), getchar,
      List.getD_eq_default _ _ (by omega)]

theorem readConsole_eq (size : Nat) (heap : Nat → Byte) (input : List Byte) :
    readConsole size heap input =
      (fun i => if i < size then input.getD i 255#8 else heap i, input.drop size) := by
  induction size with
  | zero => simp [readConsole, forUpTo]
  | succ size ih =>
    have next : readConsole (size + 1) heap input =
        (Function.update (readConsole size heap input).1 size
          (getchar (readConsole size heap input).2).1,
          (getchar (readConsole size heap input).2).2) := rfl
    rw [next, ih, getchar_drop]
    refine Prod.ext (funext fun i => ?_) rfl
    by_cases last : i = size
    · subst last
      simp
    · exact (Function.update_of_ne last ..).trans (if_congr (by omega) rfl rfl)

/-- Two ways to replace bytes of a range agree when they agree on its bytes. -/
theorem overlay_eq_iff {bytes bytes' : Nat → Byte} {virtAddr : BitVec 32} {size count : Nat}
    {old : BitVec 32 → Option Byte} (fits : virtAddr.toNat + size ≤ 2 ^ 32) (most : count ≤ size) :
    (∀ addr, overlay bytes virtAddr.toNat size old addr =
      overlay bytes' virtAddr.toNat count old addr) ↔
    (∀ i < count, bytes i = bytes' i) ∧
      ∀ i, count ≤ i → i < size → old (virtAddr + BitVec.ofNat 32 i) = some (bytes i) := by
  have place : ∀ i < size, (virtAddr + BitVec.ofNat 32 i).toNat = virtAddr.toNat + i :=
    fun i below => toNat_add_ofNat (by omega)
  constructor
  · intro agree
    refine ⟨fun i below => ?_, fun i past below => ?_⟩
    · have here := agree (virtAddr + BitVec.ofNat 32 i)
      rw [overlay, overlay, place i (by omega), if_pos (by omega), if_pos (by omega),
        Nat.add_sub_cancel_left] at here
      exact Option.some.inj here
    · have here := agree (virtAddr + BitVec.ofNat 32 i)
      rw [overlay, overlay, place i below, if_pos (by omega), if_neg (by omega),
        Nat.add_sub_cancel_left] at here
      exact here.symm
  · rintro ⟨first, last⟩ addr
    rw [overlay, overlay]
    by_cases inRange : virtAddr.toNat ≤ addr.toNat ∧ addr.toNat < virtAddr.toNat + size
    · obtain ⟨i, isAddr⟩ := Nat.exists_eq_add_of_le inRange.1
      rw [if_pos inRange]
      by_cases early : i < count
      · rw [if_pos (by omega), isAddr, Nat.add_sub_cancel_left, first i early]
      · have same : addr = virtAddr + BitVec.ofNat 32 i := by
          apply BitVec.eq_of_toNat_eq
          rw [place i (by omega), isAddr]
        rw [if_neg (by omega), isAddr, Nat.add_sub_cancel_left, same, last i (by omega) (by omega)]
    · rw [if_neg inRange, if_neg (by omega)]

/-! ## Requests of `ReadAt` -/

section Requests

variable {file : OpenFile} {numBytes position : Int}

theorem readAt_refused (refused : numBytes ≤ 0 ∨ position ≥ file.hdr.fileLength) (disk : Disk)
    (into : Nat → Byte) : file.readAt disk into numBytes position = .ok (into, 0) := by
  simp only [OpenFile.readAt, if_pos refused, pure_eq]

theorem readAt_overflow (accepted : ¬ (numBytes ≤ 0 ∨ position ≥ file.hdr.fileLength))
    (tooLong : ¬ position + numBytes < 2 ^ 31) (disk : Disk) (into : Nat → Byte) :
    file.readAt disk into numBytes position = .error .outOfRange := by
  simp only [OpenFile.readAt, if_neg accepted, OpenFile.checkedSum, if_neg tooLong, bind, Except.bind]

theorem transferred_le_size (hdr : FileHeader) (size position : Nat) :
    hdr.transferred size position ≤ size := by
  unfold transferred
  omega

end Requests

/-! ## Calls -/

section Calls

variable {pid size : Nat} {space : AddrSpace} {s : ReadState}

/-- The buffer is in the address space, and a copy to it costs no process a byte. -/
structure Callable (s : ReadState) (pid : Nat) (space : AddrSpace) (size : Nat) : Prop where
  sound : Sound s.kernel
  swaps : SwapsWhole s.kernel
  found : s.kernel.allPCB pid = some space
  isSize : (s.registers 5).toInt = size
  contains : space.Contains (s.registers 4) size
  keeps : CopyKeeps s.kernel pid space (s.registers 4).toNat size

theorem newChars_ok {n : Int} (nonneg : 0 ≤ n) (small : n < 2 ^ 31) : newChars n = .ok () :=
  if_pos ⟨nonneg, small⟩

/-- No call gets past the buffer when its size is no `int`. -/
theorem readSystemcall_huge (heap : Nat → Byte) (huge : ¬ (s.registers 5).toInt + 1 < 2 ^ 31) :
    readSystemcall pid heap s = .error .outOfRange := by
  have fails : newChars ((s.registers 5).toInt + 1) = .error .outOfRange :=
    if_neg fun inside => huge inside.2
  simp only [readSystemcall, fails, bind, Except.bind]

section

variable (call : Callable s pid space size)

include call

/-- The copy at the end of a call, with the terminating zero behind the bytes copied. -/
theorem Callable.copy (buffer : Nat → Byte) :
    ∃ full kernel, setChar buffer size 0#8 = .ok full ∧ (∀ i < size, full i = buffer i) ∧
      userReadWrite pid full (s.registers 4) size .r s.kernel = .ok (full, kernel) ∧
      ∀ q addr, byteAt kernel q addr =
        copiedBytes s.kernel pid full (s.registers 4).toNat size q addr := by
  obtain ⟨kernel, run, bytes⟩ := userReadWrite_stores call.sound call.swaps call.found call.contains
    call.keeps (Function.update buffer size 0#8)
  refine ⟨_, kernel, if_pos (Int.natCast_nonneg size), fun i below => ?_, run, bytes⟩
  exact Function.update_of_ne (by omega) _ _

theorem Callable.fits :
    (s.registers 4).toNat + size ≤ 2 ^ 32 := by
  have signed := toInt_of_nonneg call.contains.nonneg
  have limit := call.contains.signed
  omega

theorem Callable.unsigned : (s.registers 5).toNat = size := by
  have same := toInt_of_nonneg (call.isSize ▸ Int.natCast_nonneg size : 0 ≤ (s.registers 5).toInt)
  have isSize := call.isSize
  omega

theorem Callable.console (heap : Nat → Byte)
    (isConsole : (s.registers 6).toInt = 0) (allocates : (size : Int) + 1 < 2 ^ 31) : ∃ full kernel,
    readSystemcall pid heap s = .ok { s with
      kernel := kernel
      input := s.input.drop size
      registers := updatePCRegs s.registers } ∧
    (∀ i < size, full i = s.input.getD i 255#8) ∧
    ∀ q addr, byteAt kernel q addr =
      copiedBytes s.kernel pid full (s.registers 4).toNat size q addr := by
  obtain ⟨full, kernel, ended, copied, run, bytes⟩ :=
    call.copy (fun i => if i < size then s.input.getD i 255#8 else heap i)
  refine ⟨full, kernel, ?_, fun i below => (copied i below).trans (if_pos below), bytes⟩
  simp only [readSystemcall, call.isSize, newChars_ok (by omega) allocates, ok_bind,
    isConsole, if_true, Int.toNat_natCast, readConsole_eq, ended, run, pure_eq]

theorem Callable.file (heap : Nat → Byte) {index : Nat} {descriptor : OpenDescriptor}
    (isIndex : (s.registers 6).toInt = index + 2) (bound : index < pofMaxNum)
    (opened : s.descriptors index = some descriptor) (covering : descriptor.openFile.hdr.Covering)
    (nonneg : 0 ≤ descriptor.offset.toInt) (allocates : (size : Int) + 1 < 2 ^ 31) :
    let hdr := descriptor.openFile.hdr
    let count := hdr.transferred size descriptor.offset.toNat
    if size = 0 ∨ hdr.fileLength ≤ descriptor.offset.toInt ∨
      descriptor.offset.toInt + size < 2 ^ 31 then
      ∃ full kernel, readSystemcall pid heap s = .ok { s with
          kernel := kernel
          descriptors := Function.update s.descriptors index
            (some { descriptor with offset := descriptor.offset + BitVec.ofNat 32 count })
          registers := updatePCRegs (s.registers.write 2 (BitVec.ofNat 32 count)) } ∧
        (∀ i < size, full i = if i < count then
          hdr.fileByte s.disk (descriptor.offset.toNat + i) else heap i) ∧
        ∀ q addr, byteAt kernel q addr =
          copiedBytes s.kernel pid full (s.registers 4).toNat size q addr
    else readSystemcall pid heap s = .error .outOfRange := by
  have isOffset := toInt_of_nonneg nonneg
  have position : (s.registers 6).toInt - 2 = index := by omega
  have notConsole : ¬ (s.registers 6).toInt = 0 := by omega
  have isFile : (s.registers 6).toInt ≥ 2 := by omega
  have inTable : assert ((index : Int) < pofMaxNum) = .ok () := by
    simp [assert, bound]
  intro hdr count
  have reads : ∀ result, descriptor.openFile.readAt s.disk heap size descriptor.offset.toInt = result →
      readSystemcall pid heap s = result >>= fun read =>
        setChar read.1 size 0#8 >>= fun full =>
        userReadWrite pid full (s.registers 4) size .r s.kernel >>= fun copied =>
        .ok { s with
          kernel := copied.2
          descriptors := Function.update s.descriptors index
            (some { descriptor with offset := descriptor.offset + BitVec.ofInt 32 read.2 })
          registers := updatePCRegs (s.registers.write 2 (BitVec.ofInt 32 read.2)) } := by
    rintro _ rfl
    simp only [readSystemcall, call.isSize, newChars_ok (by omega) allocates, if_neg notConsole,
      if_pos isFile, position, inTable, Int.toNat_natCast, opened]
    rfl
  split
  next request =>
    have result : ∃ into, descriptor.openFile.readAt s.disk heap size descriptor.offset.toInt =
        .ok (into, (count : Nat)) ∧ ∀ j, into j = if j < count then
          hdr.fileByte s.disk (descriptor.offset.toNat + j) else heap j := by
      rw [isOffset]
      by_cases refused : (size : Int) ≤ 0 ∨ (descriptor.offset.toNat : Int) ≥ hdr.fileLength
      · have none : count = 0 := transferred_eq_zero refused
        rw [none]
        exact ⟨heap, readAt_refused refused _ _, by simp⟩
      · exact OpenFile.readAt_ok covering s.disk heap (by omega)
    obtain ⟨into, read, filled⟩ := result
    obtain ⟨full, kernel, ended, copied, run, bytes⟩ := call.copy into
    refine ⟨full, kernel, ?_, fun i below => (copied i below).trans (filled i), bytes⟩
    rw [reads _ read]
    simp only [ok_bind, ended, run, BitVec.ofInt_natCast]
  next overflows =>
    have accepted : ¬ ((size : Int) ≤ 0 ∨
        descriptor.offset.toInt ≥ descriptor.openFile.hdr.fileLength) := by
      dsimp only [hdr] at overflows
      omega
    have result := readAt_overflow accepted (by omega) s.disk heap
    rw [reads _ result]
    rfl

/-- What a copy of the whole buffer delivers when only its first `count` bytes were read. -/
theorem Callable.delivers_iff {s' : ReadState} {count : Nat}
    {full bytes tail : Nat → Byte} (most : count ≤ size)
    (filled : ∀ i < size, full i = if i < count then bytes i else tail i)
    (memory : ∀ q addr, byteAt s'.kernel q addr =
      copiedBytes s.kernel pid full (s.registers 4).toNat size q addr) :
    Delivers pid s s' count bytes ↔
      s'.registers 2 = BitVec.ofNat 32 count ∧ TailIs pid s count tail := by
  have agree : (∀ addr, overlay full (s.registers 4).toNat size (byteAt s.kernel pid) addr =
      overlay bytes (s.registers 4).toNat count (byteAt s.kernel pid) addr) ↔ _ :=
    overlay_eq_iff call.fits most
  have front : ∀ i < count, full i = bytes i := fun i below => by
    rw [filled i (by omega), if_pos below]
  have back : ∀ i, count ≤ i → i < size → full i = tail i := fun i past below => by
    rw [filled i below, if_neg (by omega)]
  constructor
  · rintro ⟨result, stored⟩
    refine ⟨result, fun i past below => ?_⟩
    rw [call.unsigned] at below
    rw [← back i past below]
    have own := fun addr => (memory pid addr).symm.trans (stored pid addr)
    simp only [copiedBytes, if_true] at own
    exact (agree.mp own).2 i past below
  · rintro ⟨result, same⟩
    refine ⟨result, fun q addr => (memory q addr).trans ?_⟩
    rw [copiedBytes, copiedBytes]
    split
    next =>
      refine agree.mpr ⟨front, fun i past below => ?_⟩ addr
      rw [back i past below]
      exact same i past (by rw [call.unsigned]; exact below)
    next => rfl

end

theorem updatePCRegs_result (registers : Registers) : updatePCRegs registers 2 = registers 2 := by
  simp [updatePCRegs]

theorem Callable.file_iff (call : Callable s pid space size) (heap : Nat → Byte) {index : Nat}
    {descriptor : OpenDescriptor} (isIndex : (s.registers 6).toInt = index + 2)
    (bound : index < pofMaxNum) (opened : s.descriptors index = some descriptor)
    (covering : descriptor.openFile.hdr.Covering) (nonneg : 0 ≤ descriptor.offset.toInt) :
    ReadsFile pid heap s index descriptor ↔ FileCondition pid heap s descriptor := by
  by_cases allocates : (size : Int) + 1 < 2 ^ 31
  · have outcome := call.file heap isIndex bound opened covering nonneg allocates
    dsimp only at outcome
    split at outcome
    next request =>
      obtain ⟨full, kernel, result, filled, bytes⟩ := outcome
      have least := transferred_le_size descriptor.openFile.hdr size descriptor.offset.toNat
      constructor
      · rintro ⟨s', returned, delivers, -⟩
        cases result.symm.trans returned
        rw [call.isSize] at delivers
        obtain ⟨-, tail⟩ := (call.delivers_iff least filled bytes).mp delivers
        refine ⟨by rwa [call.isSize], ?_, by rwa [call.isSize]⟩
        rw [call.isSize]
        omega
      · rintro ⟨-, -, tail⟩
        rw [call.isSize] at tail
        refine ⟨_, result, ?_, by rw [call.isSize]⟩
        rw [call.isSize]
        have written : ∀ value, updatePCRegs (s.registers.write 2 value) 2 = value := by
          intro value
          rw [updatePCRegs_result, Registers.write_same]
        exact (call.delivers_iff least filled bytes).mpr ⟨written _, tail⟩
    next overflows =>
      constructor
      · rintro ⟨s', returned, -⟩
        cases outcome.symm.trans returned
      · rintro ⟨-, request, -⟩
        rw [call.isSize] at request
        omega
  · constructor
    · rintro ⟨s', returned, -⟩
      cases (readSystemcall_huge heap (by rwa [call.isSize])).symm.trans returned
    · rintro ⟨small, -⟩
      rw [call.isSize] at small
      exact absurd small allocates

theorem Callable.console_iff (call : Callable s pid space size) (heap : Nat → Byte)
    (entered : s.registers 2 = scRead) (isConsole : (s.registers 6).toInt = 0) :
    ReadsConsole pid heap s ↔ ConsoleCondition pid s := by
  by_cases allocates : (size : Int) + 1 < 2 ^ 31
  · obtain ⟨full, kernel, result, filled, bytes⟩ := call.console heap isConsole allocates
    have filled' : ∀ i < size, full i = if i < min (s.registers 5).toNat s.input.length then
        s.input.getD i 0#8 else 255#8 := by
      intro i below
      rw [filled i below, call.unsigned]
      split
      next inside => rw [List.getD_eq_getElem _ _ (by omega), List.getD_eq_getElem _ _ (by omega)]
      next past => exact List.getD_eq_default _ _ (by omega)
    have most : min (s.registers 5).toNat s.input.length ≤ size := by
      rw [call.unsigned]
      exact Nat.min_le_left ..
    have isCode : scRead = BitVec.ofNat 32 (min (s.registers 5).toNat s.input.length) ↔
        min (s.registers 5).toNat s.input.length = scRead.toNat := by
      rw [← BitVec.toNat_inj, BitVec.toNat_ofNat, Nat.mod_eq_of_lt (by omega)]
      exact eq_comm
    constructor
    · rintro ⟨s', returned, delivers, -⟩
      cases result.symm.trans returned
      obtain ⟨code, tail⟩ := (call.delivers_iff most filled' bytes).mp delivers
      have same : scRead = _ := entered.symm.trans ((updatePCRegs_result _).symm.trans code)
      exact ⟨by rwa [call.isSize], isCode.mp same, tail⟩
    · rintro ⟨-, count, tail⟩
      refine ⟨_, result, (call.delivers_iff most filled' bytes).mpr ⟨?_, tail⟩, ?_⟩
      · exact (updatePCRegs_result _).trans (entered.trans (isCode.mpr count))
      · show s.input.drop size = s.input.drop (min (s.registers 5).toNat s.input.length)
        rw [call.unsigned]
        by_cases short : size ≤ s.input.length
        · rw [Nat.min_eq_left short]
        · rw [Nat.min_eq_right (by omega), List.drop_length, List.drop_eq_nil_of_le (by omega)]
  · constructor
    · rintro ⟨s', returned, -⟩
      cases (readSystemcall_huge heap (by rwa [call.isSize])).symm.trans returned
    · rintro ⟨small, -⟩
      rw [call.isSize] at small
      exact absurd small allocates

end Calls

/-- A program that runs in any reachable state calls `Read` for a buffer in its address space, and
copies to the buffer cost no process a byte.  From an open descriptor the call delivers the bytes of the file at
the offset, their number, and the new offset, and from the console the next characters and their
number, exactly under the conditions above. -/
theorem read_contract_iff {bigEndian : Bool} {junk : Nat → BitVec 32} {files : Files}
    {history : List (Kernel × SystemOp)} {s : ReadState} {pid size : Nat} {space : AddrSpace}
    (run : Run SystemStep (boot bigEndian junk files) history s.kernel)
    (fits : SizesFit s.kernel) (found : s.kernel.allPCB pid = some space)
    (entered : s.registers 2 = scRead) (isSize : (s.registers 5).toInt = size)
    (contains : space.Contains (s.registers 4) size)
    (keeps : CopyKeeps s.kernel pid space (s.registers 4).toNat size) (heap : Nat → Byte) :
    (∀ (index : Nat) descriptor, (s.registers 6).toInt = index + 2 → index < pofMaxNum →
      s.descriptors index = some descriptor → descriptor.openFile.hdr.Covering →
      0 ≤ descriptor.offset.toInt →
      (ReadsFile pid heap s index descriptor ↔ FileCondition pid heap s descriptor)) ∧
    ((s.registers 6).toInt = 0 → (ReadsConsole pid heap s ↔ ConsoleCondition pid s)) := by
  have call : Callable s pid space size :=
    ⟨system_sound run, swapsWhole_of_run run fits, found, isSize, contains, keeps⟩
  constructor
  · intro index descriptor isIndex bound opened covering nonneg
    exact call.file_iff heap isIndex bound opened covering nonneg
  · exact call.console_iff heap entered

def readRegisters (size pofIndex : BitVec 32) : Registers
  | 2 => scRead
  | 5 => size
  | 6 => pofIndex
  | _ => 0#32

/-- A program has forked and has then stored to its first page, of which its child has the old copy.
It reads the first 2 bytes of a file of 300 into that page. -/
theorem read_of_two_bytes : ∃ history kernel start fs file,
    Run SystemStep (bootWith fourBytes) history kernel ∧
    FileSystem.format (fun _ _ => 0#8) zeroHeap = .ok start ∧
    Run FileSystemStep start [(start, .create nameA 300 zeroHeap)] fs ∧
    fs.openFile nameA zeroHeap = .ok (some file) ∧
    [0#32, 1#32, 2#32, 3#32].map (byteAt kernel 1) = [some 1#8, some 2#8, some 3#8, some 4#8] ∧
    ReadsFile 0 (fun _ => 7#8)
      ⟨⟨kernel, readRegisters 2#32 2#32⟩, fs.disk, fun _ => some ⟨file, 0#32⟩, []⟩ 0 ⟨file, 0#32⟩ := by
  simp only [exists_and_left]
  refine computed_systemRun (fun s => SizesFit s ∧
      [0#32, 1#32, 2#32, 3#32].map (byteAt s 1) = [some 1#8, some 2#8, some 3#8, some 4#8] ∧
      ∃ space, s.allPCB 0 = some space ∧ space.Contains 0#32 2 ∧
      (space.pageTable 0).valid = true ∧ ∀ q < pidMapSize, ∀ other ∈ s.allPCB q, q ≠ 0 →
        ∀ w < other.numPages, (other.pageTable w).physicalPage ≠
          (((space.pageTable 0).physicalPage.toNat : Nat) : Int))
    [.start (.path "prog") 0, .pageFault 0 0#32, .fork 0 1,
      .readOnlyFault 0 0#32, .store 0 0#32 1 5#32] (by decide +kernel) fun _ kernel run checked => ?_
  obtain ⟨fits, child, space, found, contains, valid, unshared⟩ := checked
  have onlyFirst : ∀ v, rangePages (0#32).toNat 2 v → v = 0 := by
    intro v covers
    simp only [rangePages, BitVec.toNat_ofNat, pageSize] at covers
    omega
  have keeps : CopyKeeps kernel 0 space (0#32).toNat 2 := by
    refine copyKeeps_of_resident (fun v covers => onlyFirst v covers ▸ valid)
      fun v covers q w held => ?_
    obtain ⟨other, foundQ, below, maps⟩ := held
    rw [onlyFirst v covers] at maps
    by_contra notOwn
    exact unshared q ((system_sound run).live_lt foundQ) other foundQ notOwn w below maps
  obtain ⟨start, fs, file, formatted, created, -, -, opens, -, covering, length, -⟩ :=
    exists_created (fun _ _ => 0#8) zeroHeap nameA (show (0 : Int) ≤ 300 by decide) (by decide)
  refine ⟨start, formatted, fs, Run.start.next created, file, opens, child, ?_⟩
  have whole : file.hdr.transferred 2 0 = 2 := by
    simp [transferred, length]
  refine ((read_contract_iff run fits found rfl rfl contains keeps (fun _ => 7#8)).1 0 ⟨file, 0#32⟩ rfl
    (by decide) rfl covering (show 0 ≤ (0#32).toInt by decide)).mpr
    ⟨show (2#32).toInt + 1 < 2 ^ 31 by decide,
      .inr (.inr (show (0#32).toInt + (2#32).toInt < 2 ^ 31 by decide)), fun i past below => ?_⟩
  -- the request is not cut short
  have most : i < 2 := below
  have least : file.hdr.transferred 2 0 ≤ i := past
  omega

def twoBytes : OpenFile where
  sector := 4
  hdr := ⟨fun
    | 0 => 2#32
    | 1 => 1#32
    | _ => 5#32⟩
  seekPosition := 0

/-- A program whose first bytes are 1, 2, 3 and 4 reads 4 bytes to address 0 from a file that has 2.
The call returns 2, and the last two bytes are now what the heap had.  If the program reads one
character from the console instead, it finds the code of the call in place of the count. -/
theorem short_read_spoils_buffer : ∃ history kernel after console,
    Run SystemStep (bootWith fourBytes) history kernel ∧
    readSystemcall 0 (fun _ => 7#8) ⟨⟨kernel, readRegisters 4#32 2#32⟩, fun _ _ => 9#8,
      fun _ => some ⟨twoBytes, 0#32⟩, []⟩ = .ok after ∧
    after.registers 2 = 2#32 ∧
    [0#32, 1#32, 2#32, 3#32].map (byteAt kernel 0) = [some 1#8, some 2#8, some 3#8, some 4#8] ∧
    [0#32, 1#32, 2#32, 3#32].map (byteAt after.kernel 0) = [some 9#8, some 9#8, some 7#8, some 7#8] ∧
    readSystemcall 0 (fun _ => 7#8) ⟨⟨kernel, readRegisters 1#32 0#32⟩, fun _ _ => 9#8,
      fun _ => none, [65#8]⟩ = .ok console ∧
    console.registers 2 = 6#32 ∧ byteAt console.kernel 0 0#32 = some 65#8 := by
  simp only [exists_and_left]
  exact computed_systemRun _ [.start (.path "prog") 0, .pageFault 0 0#32] (by decide +kernel)
    fun _ _ _ checked => checked

end Nachos
