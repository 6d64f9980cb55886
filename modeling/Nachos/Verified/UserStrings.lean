import Nachos.UserProg.Exec
import Nachos.Verified.CopyTermination

/-!
# Strings in user memory

`AddrSpace::ReadString` compared with a program that loads the same bytes itself.  As long as the
addresses are not negative as an `int`, the kernel finds the bytes that the program would find.  The
loop stops at the NUL or when the buffer is full, and reports success in both cases.
-/

namespace Nachos

open Loops Runs

def UserString (s : Kernel) (pid : Nat) (addr : BitVec 32) (text : List Byte) : Prop :=
  0#8 ∉ text ∧ ∃ s', userLoads pid addr (text.length + 1) s = .ok (text ++ [0#8], s')

structure YieldsCString (s : Kernel) (pid : Nat) (stringAddr : BitVec 32)
    (stringBuffer : Nat → Byte) (size : Nat) : Prop where
  terminated : ∀ buffer s', readString pid stringAddr stringBuffer size s = .ok (true, buffer, s') →
    ∃ text, UserString s pid stringAddr text ∧ text.length < size ∧
      (List.range (text.length + 1)).map buffer = text ++ [0#8]
  reported : ∀ text, UserString s pid stringAddr text → size ≤ text.length →
    ∃ buffer s', readString pid stringAddr stringBuffer size s = .ok (false, buffer, s')

def Nonnegative (addr : BitVec 32) (size : Nat) : Prop :=
  ∀ i < size, 0 ≤ (addr + BitVec.ofNat 32 i).toInt

instance (addr : BitVec 32) (size : Nat) : Decidable (Nonnegative addr size) :=
  inferInstanceAs (Decidable (∀ i < size, 0 ≤ (addr + BitVec.ofNat 32 i).toInt))

/-- The `size` bytes from `addr` on can all be read, by the kernel too, and none of them is NUL. -/
def Unterminated (s : Kernel) (pid : Nat) (addr : BitVec 32) (size : Nat) : Prop :=
  Nonnegative addr size ∧ ∃ text s', userLoads pid addr size s = .ok (text, s') ∧ 0#8 ∉ text

variable {addr : BitVec 32} {size f : Nat} {space : AddrSpace} {s₁ s' : Kernel}

theorem nonnegative_succ :
    Nonnegative addr (size + 1) ↔ 0 ≤ addr.toInt ∧ Nonnegative (addr + 1#32) size := by
  have next : ∀ i, addr + BitVec.ofNat 32 (i + 1) = addr + 1#32 + BitVec.ofNat 32 i := by
    intro i
    rw [BitVec.add_assoc, ← BitVec.ofNat_add, Nat.add_comm]
  unfold Nonnegative
  rw [Nat.forall_lt_succ_left, show addr + BitVec.ofNat 32 0 = addr from BitVec.add_zero addr]
  exact and_congr_right fun _ => forall₂_congr fun i _ => by rw [next]

/-! ## One byte -/

section Byte

variable {s : Kernel} {pid : Nat} {addr : BitVec 32}

theorem readMem_byte (inFrame : InFrame s pid space addr f) :
    readMem pid addr 1 s = .ok (.done
      ((s.machine.mainMemory (f * pageSize + addr.toNat % pageSize)).signExtend 32, s.setSpace pid
        (some (space.setEntry (addr.toNat / pageSize)
          ((space.pageTable (addr.toNat / pageSize)).touched false))))) := by
  simp only [readMem, Kernel.space_eq_ok.mpr inFrame.found, ok_bind,
    translate_inFrame inFrame false (fun never => absurd never Bool.false_ne_true), loadValue]
  rfl

theorem userLoad_resident (inFrame : InFrame s pid space addr f) (tries : Nat) :
    userLoad pid addr (tries + 1) s =
      .ok (s.machine.mainMemory (f * pageSize + addr.toNat % pageSize), s.setSpace pid
        (some (space.setEntry (addr.toNat / pageSize)
          ((space.pageTable (addr.toNat / pageSize)).touched false)))) := by
  have low (byte : Byte) : (byte.signExtend 32).truncate 8 = byte := by
    ext i below
    rw [BitVec.truncate_eq_setWidth, BitVec.getElem_setWidth, BitVec.getLsbD_signExtend]
    simp [below, show i < 32 by omega]
  simp only [userLoad, readMem_byte inFrame]
  simp only [ok_bind, pure_eq, low]

inductive ByteRead (pid : Nat) (addr : BitVec 32) (s : Kernel) : Prop where
  /-- Both find the byte. -/
  | found (physAddr : Nat) (s' : Kernel) : 0 ≤ addr.toInt → Sound s' →
      addrSpaceTranslate pid addr 1 s = .ok (some physAddr, s') →
      userLoad pid addr 2 s = .ok (s'.machine.mainMemory physAddr, s') → ByteRead pid addr s
  /-- The kernel rejects an address that is negative or outside the page table. -/
  | rejected : addrSpaceTranslate pid addr 1 s = .ok (none, s) →
      (0 ≤ addr.toInt → ∀ result, userLoad pid addr 2 s ≠ .ok result) → ByteRead pid addr s
  /-- The page cannot be loaded. -/
  | faulted (fault : Fault) : addrSpaceTranslate pid addr 1 s = .error fault →
      (∀ result, userLoad pid addr 2 s ≠ .ok result) → ByteRead pid addr s

theorem readMem_absent (absent : Absent s pid space addr) :
    readMem pid addr 1 s = .ok (.raised .pageFaultException) := by
  simp only [readMem, Kernel.space_eq_ok.mpr absent.found, ok_bind, translate_absent absent]
  rfl

theorem InFrame.byteRead (inFrame : InFrame s pid space addr f) (sound : Sound s)
    (nonneg : 0 ≤ addr.toInt) (tries : Nat) :
    ∃ physAddr s', Sound s' ∧ addrSpaceTranslate pid addr 1 s = .ok (some physAddr, s') ∧
      userLoad pid addr (tries + 1) s = .ok (s'.machine.mainMemory physAddr, s') := by
  have offset := Nat.mod_lt addr.toNat (show 0 < pageSize by decide)
  exact ⟨_, _, touched_sound false sound inFrame.found inFrame.inTable rfl rfl rfl,
    addrSpaceTranslate_resident (n := 1) inFrame (toNat_lt_of_nonneg nonneg) offset,
    userLoad_resident inFrame tries⟩

/-- A byte of a page that is not in memory: both load the page with `PageIn` and start over. -/
theorem ByteRead.of_absent (sound : Sound s) (absent : Absent s pid space addr)
    (nonneg : 0 ≤ addr.toInt) : ByteRead pid addr s := by
  have addressable := toNat_lt_of_nonneg nonneg
  have retries : userLoad pid addr 2 s = pageIn pid addr s >>= userLoad pid addr 1 := by
    rw [userLoad, readMem_absent absent]
    rfl
  cases loaded : pageIn pid addr s with
  | error fault =>
    rw [loaded] at retries
    exact .faulted fault (addrSpaceTranslate_fails absent addressable loaded 1)
      fun result run => nomatch retries.symm.trans run
  | ok s₁ =>
    rw [loaded] at retries
    obtain ⟨space₁, f, inFrame, -⟩ := pageIn_entries sound.toWellFormed absent.found loaded
    obtain ⟨physAddr, s', after, translated, byte⟩ := inFrame.byteRead
      ((BroughtIn.loaded absent.found absent.invalid loaded).sound sound) nonneg 0
    exact .found physAddr s' nonneg after
      ((addrSpaceTranslate_loads absent addressable loaded inFrame 1).trans translated)
      (retries.trans byte)

theorem Sound.byteRead (sound : Sound s) (pid : Nat) (addr : BitVec 32) :
    ByteRead pid addr s := by
  by_cases negative : addr.toInt < 0
  · refine .rejected ?_ fun nonneg => absurd negative (by omega)
    simp only [addrSpaceTranslate, if_pos negative]
    rfl
  cases found : s.allPCB pid with
  | none =>
    refine .faulted .nullPointer ?_ fun result run => ?_
    · simp only [addrSpaceTranslate, if_neg negative, Kernel.space, found]
      rfl
    · simp [userLoad, readMem, Kernel.space, found, bind, Except.bind] at run
  | some space =>
    by_cases inTable : addr.toNat / pageSize < space.numPages
    · cases valid : (space.pageTable (addr.toNat / pageSize)).valid with
      | true =>
        obtain ⟨f, inFrame⟩ := InFrame.of_valid sound.toWellFormed found inTable valid
        obtain ⟨physAddr, s', after, translated, byte⟩ :=
          inFrame.byteRead sound (not_lt.mp negative) 1
        exact .found physAddr s' (not_lt.mp negative) after translated byte
      | false => exact .of_absent sound ⟨found, inTable, valid⟩ (not_lt.mp negative)
    · refine .rejected ?_ fun _ result run => ?_
      · simp only [addrSpaceTranslate, if_neg negative, Kernel.space, found]
        simp [ok_bind, pure_eq, Nat.not_lt.mp inTable]
      · simp only [userLoad, readMem, Kernel.space, found, translate] at run
        simp [ok_bind, pure_eq, Nat.not_lt.mp inTable] at run

end Byte

/-! ## The loop -/

section Loop

variable {s : Kernel} {pid : Nat} {addr : BitVec 32} {bytes : List Byte}

theorem userLoads_cons {byte : Byte} (first : userLoad pid addr 2 s = .ok (byte, s₁))
    (others : userLoads pid (addr + 1#32) size s₁ = .ok (bytes, s')) :
    userLoads pid addr (size + 1) s = .ok (byte :: bytes, s') := by
  rw [userLoads, first]
  show userLoads pid (addr + 1#32) size s₁ >>= _ = _
  rw [others]
  rfl

theorem userLoads_take {size more : Nat}
    (loaded : userLoads pid addr (size + more) s = .ok (bytes, s')) :
    ∃ t, userLoads pid addr size s = .ok (bytes.take size, t) := by
  induction size generalizing addr s bytes with
  | zero => exact ⟨s, rfl⟩
  | succ size ih =>
    rw [Nat.add_right_comm] at loaded
    obtain ⟨⟨byte, s₁⟩, first, loaded⟩ := bind_eq_ok.mp loaded
    obtain ⟨⟨rest, s₂⟩, others, loaded⟩ := bind_eq_ok.mp loaded
    cases loaded
    obtain ⟨t, front⟩ := ih others
    exact ⟨t, userLoads_cons first front⟩

variable {left curBuffer : Nat} {stringBuffer : Nat → Byte}

theorem readStringLoop_found {physAddr : Nat}
    (translated : addrSpaceTranslate pid addr 1 s = .ok (some physAddr, s₁)) :
    readStringLoop pid (left + 1) addr curBuffer stringBuffer s =
      if s₁.machine.mainMemory physAddr = 0#8 then
        .ok (true, Function.update stringBuffer curBuffer (s₁.machine.mainMemory physAddr), s₁)
      else readStringLoop pid left (addr + 1#32) (curBuffer + 1)
        (Function.update stringBuffer curBuffer (s₁.machine.mainMemory physAddr)) s₁ := by
  rw [readStringLoop, translated]
  rfl

theorem readStringLoop_rejected (translated : addrSpaceTranslate pid addr 1 s = .ok (none, s₁)) :
    readStringLoop pid (left + 1) addr curBuffer stringBuffer s =
      .ok (false, stringBuffer, s₁) := by
  rw [readStringLoop, translated]
  rfl

theorem readStringLoop_faulted {fault : Fault}
    (translated : addrSpaceTranslate pid addr 1 s = .error fault) :
    readStringLoop pid (left + 1) addr curBuffer stringBuffer s = .error fault := by
  rw [readStringLoop, translated]
  rfl

/-- When the loop reports success, it has read a string with its NUL, or the buffer is full. -/
theorem readStringLoop_success (sound : Sound s)
    {buffer : Nat → Byte}
    (run : readStringLoop pid left addr curBuffer stringBuffer s = .ok (true, buffer, s')) :
    (∀ i < curBuffer, buffer i = stringBuffer i) ∧
    ((∃ text, UserString s pid addr text ∧ text.length < left ∧
      (List.range' curBuffer (text.length + 1)).map buffer = text ++ [0#8]) ∨
    Unterminated s pid addr left) := by
  induction left generalizing addr curBuffer stringBuffer s with
  | zero =>
    cases run
    exact ⟨fun _ _ => rfl, .inr ⟨nofun, [], s', rfl, List.not_mem_nil⟩⟩
  | succ left ih =>
    cases sound.byteRead pid addr with
    | found physAddr s₁ nonneg after translated byte =>
      rw [readStringLoop_found translated] at run
      have earlier (c : Byte) : ∀ i < curBuffer,
          Function.update stringBuffer curBuffer c i = stringBuffer i :=
        fun i below => Function.update_of_ne (by omega) _ _
      generalize s₁.machine.mainMemory physAddr = c at run byte
      split at run
      next isNul =>
        cases run
        subst isNul
        refine ⟨earlier _, .inl ⟨[], ⟨List.not_mem_nil, s', ?_⟩, Nat.succ_pos left, by simp⟩⟩
        exact userLoads_cons byte rfl
      next notNul =>
        obtain ⟨keeps, ends⟩ := ih after run
        have kept := keeps curBuffer (Nat.lt_succ_self curBuffer)
        rw [Function.update_self] at kept
        refine ⟨fun i below => (keeps i (by omega)).trans (earlier c i below), ?_⟩
        obtain ⟨text, ⟨noNul, t, loaded⟩, short, filled⟩ | ⟨others, text, t, loaded, noNul⟩ := ends
        · refine .inl ⟨c :: text, ⟨?_, t, userLoads_cons byte loaded⟩, Nat.succ_lt_succ short, ?_⟩
          · exact List.not_mem_cons_of_ne_of_not_mem (Ne.symm notNul) noNul
          · rw [List.length_cons, List.range'_succ, List.map_cons, kept, filled]
            rfl
        · exact .inr ⟨nonnegative_succ.mpr ⟨nonneg, others⟩, c :: text, t,
            userLoads_cons byte loaded, List.not_mem_cons_of_ne_of_not_mem (Ne.symm notNul) noNul⟩
    | rejected translated =>
      rw [readStringLoop_rejected translated] at run
      cases run
    | faulted fault translated =>
      rw [readStringLoop_faulted translated] at run
      cases run

/-- Bytes without a NUL are read until the buffer is full or an address is negative. -/
theorem readStringLoop_of_noNul (sound : Sound s)
    (loaded : userLoads pid addr left s = .ok (bytes, s')) (noNul : 0#8 ∉ bytes) (curBuffer : Nat)
    (stringBuffer : Nat → Byte) :
    ∃ buffer t, readStringLoop pid left addr curBuffer stringBuffer s =
      .ok (decide (Nonnegative addr left), buffer, t) := by
  induction left generalizing addr curBuffer stringBuffer s bytes with
  | zero => exact ⟨stringBuffer, s, rfl⟩
  | succ left ih =>
    obtain ⟨⟨byte, s₁⟩, first, loaded⟩ := bind_eq_ok.mp loaded
    obtain ⟨⟨rest, s₂⟩, others, loaded⟩ := bind_eq_ok.mp loaded
    cases loaded
    cases sound.byteRead pid addr with
    | found physAddr s₁ nonneg after translated same =>
      cases first.symm.trans same
      obtain ⟨buffer, t, run⟩ := ih after others
        (List.not_mem_of_not_mem_cons noNul) (curBuffer + 1)
        (Function.update stringBuffer curBuffer (s₁.machine.mainMemory physAddr))
      refine ⟨buffer, t, ?_⟩
      rw [readStringLoop_found translated, if_neg (List.ne_of_not_mem_cons noNul).symm, run]
      simp [nonnegative_succ, nonneg]
    | rejected translated unreadable =>
      have negative : ¬ Nonnegative addr (left + 1) := fun nonneg =>
        unreadable (nonnegative_succ.mp nonneg).1 _ first
      rw [decide_eq_false negative]
      exact ⟨stringBuffer, s, readStringLoop_rejected translated⟩
    | faulted fault translated unreadable => exact absurd first (unreadable _)

end Loop

/-! ## The whole call -/

theorem UserString.not_unterminated {s : Kernel} {pid size : Nat} {text : List Byte}
    (string : UserString s pid addr text) (short : text.length < size) :
    ¬ Unterminated s pid addr size := by
  rintro ⟨-, bytes, s', loaded, noNul⟩
  obtain ⟨-, t, found⟩ := string
  obtain ⟨more, rfl⟩ := Nat.exists_eq_add_of_le (Nat.succ_le_of_lt short)
  obtain ⟨u, front⟩ := userLoads_take loaded
  have same : text ++ [0#8] = bytes.take (text.length + 1) :=
    congrArg Prod.fst (Except.ok.inj (found.symm.trans front))
  have isNul : 0#8 ∈ bytes.take (text.length + 1) :=
    same ▸ List.mem_append_right text List.mem_cons_self
  exact noNul (List.mem_of_mem_take isNul)

theorem UserString.front {s : Kernel} {pid size : Nat} {text : List Byte}
    (string : UserString s pid addr text) (long : size ≤ text.length) :
    ∃ bytes t, userLoads pid addr size s = .ok (bytes, t) ∧ 0#8 ∉ bytes := by
  obtain ⟨noNul, s', loaded⟩ := string
  obtain ⟨more, fits⟩ := Nat.exists_eq_add_of_le (Nat.le_succ_of_le long)
  rw [Nat.succ_eq_add_one] at fits
  rw [fits] at loaded
  obtain ⟨t, front⟩ := userLoads_take loaded
  rw [List.take_append_of_le_length long] at front
  exact ⟨text.take size, t, front, fun isNul => noNul (List.mem_of_mem_take isNul)⟩

/-- `ReadString` with a buffer of at least one byte gives its callers a C string, or reports that
the string does not fit, if and only if the bytes that it reads are not without an end: a NUL is
among them, or a byte that cannot be read. -/
theorem read_string_yields_iff {bigEndian : Bool} {junk : Nat → BitVec 32} {files : Files}
    {history : List (Kernel × SystemOp)} {s : Kernel}
    (run : Run SystemStep (boot bigEndian junk files) history s) (pid : Nat)
    (stringAddr : BitVec 32) (stringBuffer : Nat → Byte) (size : Nat) :
    YieldsCString s pid stringAddr stringBuffer (size + 1) ↔
      ¬ Unterminated s pid stringAddr (size + 1) := by
  have sound := system_sound run
  constructor
  · rintro yields ⟨nonneg, text, s', loaded, noNul⟩
    obtain ⟨buffer, t, full⟩ := readStringLoop_of_noNul sound loaded noNul 0 stringBuffer
    rw [decide_eq_true nonneg] at full
    obtain ⟨text', string, short, -⟩ := yields.terminated buffer t full
    exact string.not_unterminated short ⟨nonneg, text, s', loaded, noNul⟩
  · intro terminates
    refine ⟨fun buffer s' success => ?_, fun text string long => ?_⟩
    · obtain ⟨text, string, short, filled⟩ | unterminated :=
        (readStringLoop_success sound success).2
      · exact ⟨text, string, short, List.range_eq_range' ▸ filled⟩
      · exact absurd unterminated terminates
    · obtain ⟨bytes, t, loaded, noNul⟩ := string.front long
      have negative : ¬ Nonnegative stringAddr (size + 1) := fun nonneg =>
        terminates ⟨nonneg, bytes, t, loaded, noNul⟩
      obtain ⟨buffer, s', full⟩ := readStringLoop_of_noNul sound loaded noNul 0 stringBuffer
      rw [decide_eq_false negative] at full
      exact ⟨buffer, s', full⟩

def namesABCD : File := noffFile (linkedHeader 5 0 0) [65#8, 66#8, 67#8, 68#8, 0#8]

/-- The string is read with its NUL into a buffer for five bytes. -/
theorem read_string_that_fits : ∃ history s,
    Run SystemStep (bootWith namesABCD) history s ∧
    YieldsCString s 0 0#32 (fun _ => 0xFF#8) 5 := by
  refine computed_systemRun (fun s => ∃ bytes t, userLoads 0 0#32 5 s = .ok (bytes, t) ∧ 0#8 ∈ bytes)
    [.start (.path "prog") 0, .pageFault 0 0#32] (by decide +kernel) fun _ s run checked => ?_
  obtain ⟨bytes, t, loaded, isNul⟩ := checked
  refine (read_string_yields_iff run 0 0#32 _ 4).mpr ?_
  rintro ⟨-, bytes', t', loaded', noNul⟩
  cases loaded.symm.trans loaded'
  exact noNul isNul

/-- In a buffer for four bytes the string has no end, but `ReadString` returns `true`. -/
theorem read_string_without_nul : ∃ history s,
    Run SystemStep (bootWith namesABCD) history s ∧
    ¬ YieldsCString s 0 0#32 (fun _ => 0xFF#8) 4 := by
  refine computed_systemRun (fun s => ∃ r, readString 0 0#32 (fun _ => 0xFF#8) 4 s = .ok (true, r) ∧
      0#8 ∉ (List.range 4).map r.1)
    [.start (.path "prog") 0, .pageFault 0 0#32] (by decide +kernel) fun _ s run checked yields => ?_
  obtain ⟨⟨buffer, s'⟩, read, noNul⟩ := checked
  obtain ⟨text, -, short, filled⟩ := yields.terminated buffer s' read
  have isNul : 0#8 ∈ (List.range (text.length + 1)).map buffer := by
    rw [filled]
    exact List.mem_append_right text List.mem_cons_self
  obtain ⟨i, below, isNul⟩ := List.mem_map.mp isNul
  refine noNul (List.mem_map.mpr ⟨i, List.mem_range.mpr ?_, isNul⟩)
  have := List.mem_range.mp below
  omega

end Nachos
