import Nachos.UserProg.Exec
import Nachos.Verified.Inversion

/-!
# Exec of what is no program

A file that cannot be opened, or that is no executable, ends Nachos: `ExecSystemcall` prepares the
return to the program and then calls `Abort`, and `ReplaceMemory` asserts the magic number.
-/

namespace Nachos

open Loops

def File.HasMagic (bigEndian : Bool) (file : File) : Prop :=
  let noffMagic := hostWord bigEndian file.bytes
  4 ≤ file.length ∧ (noffMagic = noffMagicNumber ∨ wordToHost bigEndian noffMagic = noffMagicNumber)

def NoProgram (s : Kernel) (name : FileName) : Prop :=
  ∀ file, s.files name = some file → ¬ file.HasMagic s.machine.bigEndian

theorem hasMagic_of_readHeader {bigEndian : Bool} {file : File} {noffH : NoffHeader}
    (read : readHeader bigEndian file = .ok noffH) : file.HasMagic bigEndian := by
  obtain ⟨⟨bytes, count⟩, done, read⟩ := bind_eq_ok.mp read
  obtain ⟨-, ⟨negative, -⟩ | ⟨-, isCount, isBuffer⟩⟩ := File.readAt_eq_ok.mp done
  · omega
  dsimp only at read
  split at read
  next => cases read
  next long =>
    have size : 40 ≤ file.length := by
      simp only [noffHeaderSize] at *
      omega
    -- the header was read from the file as a whole
    have same : ∀ i < 4, bytes i = file.bytes i := by
      intro i below
      rw [isBuffer]
      simp only [noffHeaderSize] at *
      rw [if_pos (by omega), Int.toNat_zero, Nat.zero_add]
    have first : (decodeHeader bigEndian bytes).noffMagic = hostWord bigEndian file.bytes := by
      simp [decodeHeader, hostWord, same 0 (by decide), same 1 (by decide), same 2 (by decide),
        same 3 (by decide)]
    obtain ⟨_, asserted, -⟩ := bind_eq_ok.mp read
    rw [assert_eq_ok, beq_iff_eq] at asserted
    refine ⟨by omega, ?_⟩
    rw [← first]
    split at asserted
    next swapped => exact .inr asserted
    next => exact .inl asserted

theorem eq_assertion_of_assert {condition : Bool} {fault : Fault}
    (failed : assert condition = .error fault) : fault = .assertion := by
  unfold assert at failed
  split at failed
  next => cases failed
  next => exact (Except.error.inj failed).symm

theorem readHeader_of_not_hasMagic {bigEndian : Bool} {file : File}
    (other : ¬ file.HasMagic bigEndian) :
    readHeader bigEndian file =
      .error (if noffHeaderSize ≤ file.length then .assertion else .uninitialised) := by
  cases header : readHeader bigEndian file with
  | ok noffH => exact absurd (hasMagic_of_readHeader header) other
  | error fault =>
    have seeks : assert (decide ((0 : Int) ≤ 0)) = .ok () := rfl
    unfold readHeader at header
    simp only [File.readAt, seeks, bind, Except.bind, pure_eq, Int.toNat_zero, Nat.sub_zero,
      Int.toNat_natCast] at header
    rw [if_neg (by omega)] at header
    by_cases long : noffHeaderSize ≤ file.length
    · rw [if_pos long]
      simp only [Nat.min_eq_left long, Int.lt_irrefl, if_false] at header
      split at header
      next failed =>
        -- the only statement left that fails is the assertion
        obtain rfl := eq_assertion_of_assert failed
        exact header.symm
      next => cases header
    · rw [if_neg long]
      have short : ((min noffHeaderSize file.length : Nat) : Int) < noffHeaderSize := by omega
      simp only [short, if_true] at header
      exact header.symm

/-- For a name that is no program, `ExecSystemcall` does not return to the program.  When the file
cannot be opened, register 2 and the program counters are set for the return and no memory has
changed since the name was read, but the next call is `Abort`.  A file without the magic number
fails the assertion of `ReplaceMemory`, or has not even a header. -/
theorem exec_of_no_program {s : UserState} {pid : Nat} {stringBuffer filename : Nat → Byte}
    {complete : Bool} {kernel : Kernel} {name : FileName} {space : AddrSpace}
    (read : readString pid (s.registers 4) stringBuffer filenameSize s.kernel =
      .ok (complete, filename, kernel))
    (named : nameInBuffer filename = .ok name) (live : kernel.allPCB pid = some space)
    (noProgram : NoProgram kernel name) (junk : Nat → Bool) :
    (kernel.files name = none → execSystemcall pid stringBuffer junk s =
      .ok (.aborted ⟨kernel, updatePCRegs (s.registers.write 2 (-1#32))⟩)) ∧
    (∀ file, kernel.files name = some file → execSystemcall pid stringBuffer junk s =
      .error (if noffHeaderSize ≤ file.length then .assertion else .uninitialised)) ∧
    ∀ after, execSystemcall pid stringBuffer junk s ≠ .ok (.returned after) := by
  have missing : kernel.files name = none → execSystemcall pid stringBuffer junk s =
      .ok (.aborted ⟨kernel, updatePCRegs (s.registers.write 2 (-1#32))⟩) := by
    intro absent
    simp only [execSystemcall, read, named, absent, ok_bind]
    rfl
  have rejected : ∀ file, kernel.files name = some file → execSystemcall pid stringBuffer junk s =
      .error (if noffHeaderSize ≤ file.length then .assertion else .uninitialised) := by
    intro file opened
    have header := readHeader_of_not_hasMagic (noProgram file opened)
    simp only [execSystemcall, read, named, opened, replaceMemory, Kernel.space, live, header, bind,
      Except.bind]
  refine ⟨missing, rejected, fun after returns => ?_⟩
  cases opened : kernel.files name with
  | none => cases (missing opened).symm.trans returns
  | some file => cases (rejected file opened).symm.trans returns

def namesX : File := noffFile (linkedHeader 4 0 0) [120#8, 0#8, 0#8, 0#8]

def atZero : Registers := fun _ => 0#32

/-- The program executes "x", which does not exist. -/
theorem exec_of_missing_file_aborts : ∃ history s,
    Runs.Run Step (bootWith namesX) history s ∧
    ∀ after, execSystemcall 0 (fun _ => 0#8) (fun _ => false) ⟨s, atZero⟩ ≠ .ok (.returned after) := by
  refine Runs.computed_run perform_step (fun _ s =>
      ∃ read, readString 0 (atZero 4) (fun _ => 0#8) filenameSize s = .ok read ∧
        (∃ space, read.2.2.allPCB 0 = some space ∧ True) ∧
        ∃ name, nameInBuffer read.2.1 = .ok name ∧ (read.2.2.files name).isNone = true)
    [.start (.path "prog") 0, .pageFault 0 0#32] (by decide +kernel) fun history s _ _ checked => ?_
  obtain ⟨⟨complete, filename, kernel⟩, read, ⟨space, found, -⟩, name, named, isNone⟩ := checked
  have absent := Option.isNone_iff_eq_none.mp isNone
  have noProgram : NoProgram kernel name := fun file opened => nomatch absent.symm.trans opened
  exact (exec_of_no_program (s := ⟨s, atZero⟩) read named found noProgram fun _ => false).2.2

instance (P : UserState → Prop) [DecidablePred P] : (outcome : Except Fault ExecOutcome) →
    Decidable (∃ after, outcome = .ok (.aborted after) ∧ P after)
  | .ok (.aborted after) => decidable_of_iff (P after) (by simp)
  | .ok (.returned _) | .error _ => .isFalse (by simp)

/-- The same program when "x" does not exist, and when "x" is a file of 40 zero bytes. -/
theorem failed_exec_ends_nachos :
    (∃ history s after, Runs.Run Step (bootWith namesX) history s ∧
      execSystemcall 0 (fun _ => 0#8) (fun _ => false) ⟨s, atZero⟩ = .ok (.aborted after) ∧
      after.registers 2 = -1#32) ∧
    ∃ history s, Runs.Run Step (boot false (fun _ => 0#32) ((Files.only (.path "prog") namesX).set
        (.path "x") ⟨40, fun _ => 0#8, fun _ _ => rfl⟩)) history s ∧
      execSystemcall 0 (fun _ => 0#8) (fun _ => false) ⟨s, atZero⟩ = .error .assertion := by
  simp only [exists_and_left]
  exact ⟨Runs.computed_run perform_step _ [.start (.path "prog") 0] (by decide +kernel)
      fun _ _ _ _ checked => checked,
    Runs.computed_run perform_step _ [.start (.path "prog") 0] (by decide +kernel)
      fun _ _ _ _ checked => checked⟩

end Nachos
