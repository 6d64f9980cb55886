import Nachos.UserProg.CallArguments
import Nachos.Verified.CopyTermination
import Nachos.Verified.DescriptorTables
import Nachos.Verified.ProcessTree
import Nachos.Verified.UserBytes

/-!
# Arguments that denote nothing

What the calls do with a descriptor that is not open, or with the pid of no live process or child.
`Close` looks nothing up before it uses the entry, `Read` returns without a result, and the tests of
`Write` and `Kill` assert that the number is in the range of their bitmap.  `Write` has copied its
buffer by then, so the call ends only if that copy does, and it may cost other processes bytes of pages
that make room.
-/

namespace Nachos

open Loops Runs

variable {id : Int} {table : Slots POF} {pcb : PCB}

/-! ## Descriptors that are not open -/

namespace OpenFiles

variable {s : OpenFiles} {p : Nat} {id : Int}

/-- `Close` uses the entry before anything is tested. -/
theorem closeSystemcall_fails (tidy : s.TidyTables) (notOpen : ¬ s.IsOpen p id) (s' : OpenFiles) :
    s.closeSystemcall p id ≠ .ok s' := by
  intro run
  obtain ⟨table, found, run⟩ := bind_eq_ok.mp run
  obtain ⟨pof, object, -⟩ := bind_eq_ok.mp run
  obtain ⟨inside, entry⟩ := Slots.get_eq_ok object
  have old := pcb_eq_ok found
  exact notOpen ⟨table, old, inside, (tidy.table old).isSet entry⟩

section

variable (tidy : s.TidyTables) (found : s.allPCB p = some table) (notOpen : ¬ s.IsOpen p id)

include tidy found notOpen

theorem test_of_not_open (file : ¬ id < 2) : table.map.test (id - 2) =
    if id < pofMaxNum + 2 then .ok false else .error .assertion := by
  have range : table.map.inRange (id - 2) = true ↔ id < pofMaxNum + 2 := by
    simp only [BitMap.inRange, (tidy.table found).numBits, decide_eq_true_eq]
    omega
  split
  next below =>
    refine BitMap.test_eq_ok.mpr ⟨range.mpr below, ?_⟩
    cases isSet : table.map.bit (id - 2).toNat with
    | false => rfl
    | true => exact absurd ⟨table, found, range.mpr below, isSet⟩ notOpen
  next above => simp [BitMap.test, mt range.mp above, assert, bind, Except.bind]

/-- The calls do nothing then, if the descriptor is in the range of the bitmap. -/
theorem fileCall_not_open {α : Type} (closed : α) (body : Slots POF → Except Fault α) :
    (if id < 2 then pure closed else do
      let table ← s.pcb p
      if ← table.map.test (id - 2) then body table else pure closed) =
      if id < pofMaxNum + 2 then .ok closed else .error .assertion := by
  by_cases file : id < 2
  · rw [if_pos file, if_pos (by omega)]
    rfl
  · rw [if_neg file]
    simp only [pcb, found, test_of_not_open tidy found notOpen file, bind, Except.bind]
    by_cases below : id < pofMaxNum + 2 <;> simp only [below, if_true, if_false]
    rfl

theorem writeSystemcall_not_open (buffer : Nat → Byte) (size : BitVec 32) :
    s.writeSystemcall p id buffer size =
      if id < pofMaxNum + 2 then .ok s else .error .assertion :=
  fileCall_not_open tidy found notOpen s _

theorem readSystemcall_not_open (buffer : Nat → Byte) (size : BitVec 32) :
    s.readSystemcall p id buffer size =
      if id < pofMaxNum + 2 then .ok (none, s) else .error .assertion :=
  fileCall_not_open tidy found notOpen (none, s) _

end

end OpenFiles

/-! ## Processes that do not exist -/

namespace Processes

variable {s : Processes} {current : Ref}

theorem killSystemcall_not_live (table : Tabled s) {killPID : BitVec 32}
    (dead : ¬ (0 ≤ killPID.toInt ∧ s.allPCB killPID.toInt.toNat ≠ none)) :
    s.killSystemcall current killPID =
      if 0 ≤ killPID.toInt ∧ killPID.toInt < pidMapSize then .ok (some (-1#32), s)
      else .error .assertion := by
  by_cases inside : 0 ≤ killPID.toInt ∧ killPID.toInt < pidMapSize
  · have inRange : s.pidMap.inRange killPID.toInt = true := by
      simpa only [BitMap.inRange, table.numBits, decide_eq_true_eq] using inside
    have clear : s.pidMap.bit killPID.toInt.toNat = false := by
      rw [table.bit _ (by omega)]
      simp only [Option.isSome_eq_false_iff, Option.isNone_iff_eq_none]
      exact not_not.mp fun listed => dead ⟨inside.1, listed⟩
    have tested : s.pidMap.test killPID.toInt = .ok false :=
      BitMap.test_eq_ok.mpr ⟨inRange, clear.symm⟩
    rw [if_pos inside]
    simp only [killSystemcall, getPCB, tested, ok_bind]
    rfl
  · have outside : s.pidMap.inRange killPID.toInt = false := by
      simpa only [BitMap.inRange, table.numBits, decide_eq_false_iff_not] using inside
    rw [if_neg inside]
    simp [killSystemcall, getPCB, BitMap.test, outside, assert, bind, Except.bind]

/-- `Join` would look at no child: the pid is not one, or the list of children has none with it. -/
def Unlisted (s : Processes) (pcb : PCB) (joinPID : Int) : Prop :=
  joinPID < 0 ∨ s.numTotalPID ≤ joinPID ∨ search joinPID pcb.childrenPCB = none

theorem getChildPCB_eq (found : s.heap current = some pcb) (joinPID : Int) :
    s.getChildPCB current joinPID = .ok (search joinPID pcb.childrenPCB) := by
  simp only [getChildPCB, Nachos.pcb_eq_ok.mpr found, ok_bind]
  rfl

theorem joinSystemcall_unlisted (found : s.heap current = some pcb) {joinPID : BitVec 32}
    (unlisted : s.Unlisted pcb joinPID.toInt) :
    s.joinSystemcall current joinPID = .ok (some (-1#32), s) := by
  unfold joinSystemcall
  by_cases range : joinPID.toInt < 0 ∨ s.numTotalPID ≤ joinPID.toInt
  · rw [if_pos range]
    rfl
  · have missing := (or_assoc.mpr unlisted).resolve_left range
    rw [if_neg range]
    simp only [getChildPCB_eq found, missing, ok_bind]
    rfl

/-- A child that it finds is looked at, and then waited for. -/
theorem joinSystemcall_returns (found : s.heap current = some pcb) {joinPID : BitVec 32}
    {register2 : BitVec 32} {s' : Processes}
    (run : s.joinSystemcall current joinPID = .ok (some register2, s')) :
    s.Unlisted pcb joinPID.toInt := by
  unfold joinSystemcall at run
  split at run
  next range => exact or_assoc.mp (.inl range)
  next =>
    rw [getChildPCB_eq found] at run
    cases missing : search joinPID.toInt pcb.childrenPCB with
    | none => exact .inr (.inr missing)
    | some childPCB =>
      simp only [missing, ok_bind] at run
      obtain ⟨child, -, run⟩ := bind_eq_ok.mp run
      obtain ⟨currentPCB, -, run⟩ := bind_eq_ok.mp run
      split at run
      next => cases run
      next =>
        obtain ⟨parentPCB, -, run⟩ := bind_eq_ok.mp run
        obtain ⟨_, -, run⟩ := bind_eq_ok.mp run
        cases run

end Processes

/-! ## The buffer of Write -/

/-- The buffer is allocated and copied, and no other process loses a byte on the way. -/
structure CopiesBuffer (s : Kernel) (pid : Nat) (space : AddrSpace) (virtAddr size : BitVec 32) :
    Prop where
  nonneg : 0 ≤ size.toInt
  allocates : size.toInt + 1 < 2 ^ 31
  inside : size.toInt.toNat = 0 ∨ space.Contains virtAddr size.toInt.toNat
  owners : ∀ v, rangePages virtAddr.toNat size.toInt.toNat v → space.Accepts v →
    OwnersMapped s pid space (virtAddr.toNat / pageSize) v
  whole : EvictsOthersWhole s pid space virtAddr.toNat size.toInt.toNat

def fillBuffer (pid : Nat) (heap : Nat → Byte) (virtAddr size : BitVec 32) (s : Kernel) :
    Except Fault ((Nat → Byte) × Kernel) := do
  newChars (size.toInt + 1)
  let (buffer, s) ← userReadWrite pid heap virtAddr size.toInt .w s
  let buffer ← setChar buffer size.toInt 0#8
  return (buffer, s)

theorem fillBuffer_iff {s : Kernel} {pid : Nat} {space : AddrSpace} {virtAddr size : BitVec 32}
    {heap : Nat → Byte} (sound : Sound s) (swaps : SwapsWhole s) (found : s.allPCB pid = some space) :
    (∃ buffer t, fillBuffer pid heap virtAddr size s = .ok (buffer, t) ∧
      (∀ q, program t q = program s q) ∧
      ∀ q, q ≠ pid → ∀ addr, byteAt t q addr = byteAt s q addr) ↔
    CopiesBuffer s pid space virtAddr size := by
  have ends := userReadWrite_ends_iff sound swaps found heap virtAddr size.toInt.toNat .w
  constructor
  · rintro ⟨buffer, t, run, -, bytes⟩
    obtain ⟨_, allocated, run⟩ := bind_eq_ok.mp run
    obtain ⟨⟨buffer', t'⟩, copied, run⟩ := bind_eq_ok.mp run
    obtain ⟨_, -, run⟩ := bind_eq_ok.mp run
    cases run
    obtain ⟨nonneg, -⟩ := userReadWrite_inv sound copied
    have isSize : ((size.toInt.toNat : Nat) : Int) = size.toInt := Int.toNat_of_nonneg nonneg
    obtain ⟨inside, owners⟩ := ends.mp ⟨_, isSize.symm ▸ copied⟩
    refine ⟨nonneg, ?_, inside, owners, ?_⟩
    · by_contra huge
      cases (if_neg fun both => huge both.2 : newChars (size.toInt + 1) = _).symm.trans allocated
    · cases userReadWrite_outcome .w heap virtAddr size.toInt.toNat sound found with
      | completed _ result copying all =>
        rw [isSize] at result
        obtain ⟨-, rfl⟩ := Prod.mk.inj (Except.ok.inj (copied.symm.trans result))
        exact (copying.visits.bytes_iff sound swaps found all).mp bytes
      | outside outside => exact absurd inside outside
      | failed fails => exact absurd fails (OwnersMapped.not_fails sound swaps found owners)
  · rintro ⟨nonneg, allocates, inside, owners, whole⟩
    have isSize : ((size.toInt.toNat : Nat) : Int) = size.toInt := Int.toNat_of_nonneg nonneg
    have allocated : newChars (size.toInt + 1) = .ok () := if_pos ⟨by omega, allocates⟩
    cases userReadWrite_outcome .w heap virtAddr size.toInt.toNat sound found with
    | @completed j t _ result copying all =>
      rw [isSize] at result
      refine ⟨Function.update t.buffer size.toInt.toNat 0#8, t.kernel, ?_,
        (copying.visits.kept sound).2, (copying.visits.bytes_iff sound swaps found all).mpr whole⟩
      simp only [fillBuffer, allocated, result, ok_bind, setChar, if_pos nonneg]
      rfl
    | outside outside => exact absurd inside outside
    | failed fails => exact absurd fails (OwnersMapped.not_fails sound swaps found owners)

theorem Tables.perform_write {s : Tables} {current : Ref} {pcb : PCB}
    (live : s.processes.heap current = some pcb) (virtAddr size id : BitVec 32) (heap : Nat → Byte) :
    s.perform current (.write virtAddr size id heap) =
      (fillBuffer pcb.pid heap virtAddr size s.memory >>= fun filled => do
        let files ← s.files.writeSystemcall pcb.pid id.toInt filled.1 size
        return (some 7#32, { s with files := files, memory := filled.2 })) := by
  simp only [Tables.perform, pcb_eq_ok.mpr live, ok_bind, fillBuffer, bind_assoc, pure_bind]
  rfl

/-! ## All calls -/

namespace ArgumentCall

/-- The argument is a descriptor that the process with `pid` has open, or the pid of a live process
or child.  Every process has the two descriptors of the console. -/
def Denotes (s : Tables) (current : Ref) (pid : Nat) : ArgumentCall → Prop
  | .close id | .write _ _ id _ | .read _ _ id _ =>
    id = 0#32 ∨ id = 1#32 ∨ s.files.IsOpen pid id.toInt
  | .kill killPID => 0 ≤ killPID.toInt ∧ s.processes.allPCB killPID.toInt.toNat ≠ none
  | .join joinPID => ∃ child, s.processes.IsChild current child joinPID.toInt

def IsRead : ArgumentCall → Prop
  | .read .. => True
  | _ => False

structure Unaffected (pid : Nat) (s s' : Tables) : Prop where
  files : s'.files = s.files
  processes : s'.processes = s.processes
  programs : ∀ q, program s'.memory q = program s.memory q
  bytes : ∀ q, q ≠ pid → ∀ addr, byteAt s'.memory q addr = byteAt s.memory q addr

theorem Unaffected.refl (pid : Nat) (s : Tables) : Unaffected pid s s :=
  ⟨rfl, rfl, fun _ => rfl, fun _ _ _ => rfl⟩

def Harmless (s : Tables) (current : Ref) (pid : Nat) (call : ArgumentCall) : Prop :=
  ∃ register2 s', s.perform current call = .ok (some register2, s') ∧ Unaffected pid s s' ∧
    (call.IsRead → register2.toInt ≤ 0)

def Tested (s : Tables) (pcb : PCB) (space : AddrSpace) : ArgumentCall → Prop
  | .close _ | .read .. => False
  | .write virtAddr size id _ =>
    id.toInt < pofMaxNum + 2 ∧ CopiesBuffer s.memory pcb.pid space virtAddr size
  | .kill killPID => 0 ≤ killPID.toInt ∧ killPID.toInt < pidMapSize
  | .join joinPID => s.processes.Unlisted pcb joinPID.toInt

section

variable {s : Tables} {current : Ref} {pcb : PCB} {table : Slots POF} {space : AddrSpace}
  (tidy : s.files.TidyTables) (live : s.processes.heap current = some pcb)
  (hasTable : s.files.allPCB pcb.pid = some table)

include tidy live

theorem close_harmful {id : BitVec 32} (notOpen : ¬ s.files.IsOpen pcb.pid id.toInt) :
    ¬ Harmless s current pcb.pid (.close id) := by
  rintro ⟨register2, s', run, -⟩
  simp only [Tables.perform, pcb_eq_ok.mpr live, ok_bind] at run
  obtain ⟨after, closed, -⟩ := bind_eq_ok.mp run
  exact OpenFiles.closeSystemcall_fails tidy notOpen after closed

include hasTable

theorem write_harmless_iff {virtAddr size id : BitVec 32} {heap : Nat → Byte} (sound : Sound s.memory)
    (swaps : SwapsWhole s.memory) (hasSpace : s.memory.allPCB pcb.pid = some space)
    (notOpen : ¬ s.files.IsOpen pcb.pid id.toInt) :
    Harmless s current pcb.pid (.write virtAddr size id heap) ↔
      id.toInt < pofMaxNum + 2 ∧ CopiesBuffer s.memory pcb.pid space virtAddr size := by
  have writes := OpenFiles.writeSystemcall_not_open tidy hasTable notOpen
  rw [← @fillBuffer_iff _ _ _ _ _ heap sound swaps hasSpace]
  unfold Harmless
  simp only [Tables.perform_write live, writes]
  constructor
  · rintro ⟨register2, s', run, unaffected, -⟩
    obtain ⟨⟨buffer, memory⟩, filled, run⟩ := bind_eq_ok.mp run
    by_cases below : id.toInt < pofMaxNum + 2
    · simp only [if_pos below] at run
      cases run
      exact ⟨below, buffer, memory, filled, unaffected.programs, unaffected.bytes⟩
    · simp only [if_neg below] at run
      cases run
  · rintro ⟨below, buffer, memory, filled, programs, bytes⟩
    refine ⟨7#32, { s with memory := memory }, ?_, ⟨rfl, rfl, programs, bytes⟩, False.elim⟩
    simp only [filled, ok_bind, if_pos below]
    rfl

theorem read_harmful {virtAddr size id : BitVec 32} {heap : Nat → Byte} (isFile : id ≠ 0#32)
    (notOpen : ¬ s.files.IsOpen pcb.pid id.toInt) :
    ¬ Harmless s current pcb.pid (.read virtAddr size id heap) := by
  rintro ⟨register2, s', run, -, count⟩
  simp only [Tables.perform, pcb_eq_ok.mpr live, ok_bind, if_neg isFile,
    OpenFiles.readSystemcall_not_open tidy hasTable notOpen] at run
  obtain ⟨_, -, run⟩ := bind_eq_ok.mp run
  by_cases below : id.toInt < pofMaxNum + 2
  · simp only [if_pos below] at run
    cases run
    -- register 2 still has the code of the call
    have code : ¬ (6#32).toInt ≤ 0 := by decide
    exact code (count trivial)
  · simp only [if_neg below] at run
    cases run

end

end ArgumentCall

/-- In reachable states, for a process that exists and an argument that denotes nothing: the call
returns without effect if and only if the routine tests for the argument, and for `Write` if the buffer
can be copied besides.  `Close` tests for none, and `Read` leaves the code of the call in register 2
as the byte count. -/
theorem bad_argument_harmless_iff {files image : Files} {bigEndian : Bool}
    {junk junk' junk'' : Nat → BitVec 32} {fileHistory : List (OpenFiles × FileCall)}
    {processHistory : List (Processes × Call)} {memoryHistory : List (Kernel × SystemOp)} {s : Tables}
    (fileRun : Run FileStep (.boot files junk) fileHistory s.files)
    (processRun : Run CallStep (.boot junk') processHistory s.processes)
    (memoryRun : Run SystemStep (boot bigEndian junk'' image) memoryHistory s.memory)
    (fits : SizesFit s.memory) {current : Ref} {pcb : PCB} {table : Slots POF} {space : AddrSpace}
    (live : s.processes.heap current = some pcb) (hasTable : s.files.allPCB pcb.pid = some table)
    (hasSpace : s.memory.allPCB pcb.pid = some space) {call : ArgumentCall}
    (nothing : ¬ call.Denotes s current pcb.pid) :
    call.Harmless s current pcb.pid ↔ call.Tested s pcb space := by
  have tidy := reachable_tidyTables fileRun
  have tabled := reachable_tabled processRun
  cases call with
  | close id =>
    simp only [ArgumentCall.Denotes, not_or] at nothing
    exact iff_of_false (ArgumentCall.close_harmful tidy live nothing.2.2) not_false
  | write virtAddr size id heap =>
    simp only [ArgumentCall.Denotes, not_or] at nothing
    exact ArgumentCall.write_harmless_iff tidy live hasTable (system_sound memoryRun)
      (swapsWhole_of_run memoryRun fits) hasSpace nothing.2.2
  | read virtAddr size id heap =>
    simp only [ArgumentCall.Denotes, not_or] at nothing
    exact iff_of_false (ArgumentCall.read_harmful tidy live hasTable nothing.1 nothing.2.2) not_false
  | kill killPID =>
    unfold ArgumentCall.Harmless
    simp only [Tables.perform, pcb_eq_ok.mpr live, ok_bind,
      Processes.killSystemcall_not_live tabled nothing, ArgumentCall.Tested]
    by_cases inside : 0 ≤ killPID.toInt ∧ killPID.toInt < pidMapSize
    · simp only [inside, and_self, if_true, iff_true]
      exact ⟨_, _, rfl, .refl _ _, False.elim⟩
    · simp only [inside, if_false, iff_false]
      rintro ⟨register2, s', run, -⟩
      cases run
  | join joinPID =>
    unfold ArgumentCall.Harmless
    simp only [Tables.perform, pcb_eq_ok.mpr live, ok_bind]
    constructor
    · rintro ⟨register2, s', run, -⟩
      obtain ⟨⟨value, after⟩, joined, same⟩ := bind_eq_ok.mp run
      obtain ⟨rfl, -⟩ := Prod.mk.inj (Except.ok.inj same)
      exact Processes.joinSystemcall_returns live joined
    · intro unlisted
      simp only [Processes.joinSystemcall_unlisted live unlisted]
      exact ⟨_, _, rfl, .refl _ _, False.elim⟩

def aloneTables (memory : Kernel) : Tables where
  files := (OpenFiles.boot (fun _ => none) fun _ => 0#32).setPCB 0 (some (.empty pofMaxNum fun _ => 0#32))
  processes := ((Processes.boot fun _ => 0#32).startProcess.toOption).getD (.boot fun _ => 0#32)
  memory := memory
  input := []

theorem aloneTables_reachable (memory : Kernel) :
    (∃ history, Run FileStep (.boot (fun _ => none) fun _ => 0#32) history
      (aloneTables memory).files) ∧
    (∃ history, Run CallStep (.boot fun _ => 0#32) history (aloneTables memory).processes) ∧
    (aloneTables memory).processes.heap 0 = some ⟨0, none, [], 0#32⟩ ∧
    (aloneTables memory).files.allPCB 0 = some (.empty pofMaxNum fun _ => 0#32) := by
  have started : (Processes.boot fun _ => 0#32).startProcess.isOk = true := by decide +kernel
  have first : ((Processes.boot fun _ => 0#32).startProcess.toOption.getD
      (.boot fun _ => 0#32)).heap 0 = some ⟨0, none, [], 0#32⟩ := by decide +kernel
  refine ⟨⟨_, .next .start (.create (by decide) rfl (by simp))⟩, ⟨_, .next .start (.start ?_)⟩,
    first, rfl⟩
  unfold aloneTables
  cases start : (Processes.boot fun _ => 0#32).startProcess with
  | error => rw [start] at started; cases started
  | ok => rfl

theorem aloneTables_closed (memory : Kernel) (id : Int) : ¬ (aloneTables memory).files.IsOpen 0 id := by
  rintro ⟨table, found, inside, isSet⟩
  cases (aloneTables_reachable memory).2.2.2.symm.trans found
  simp only [BitMap.inRange, Slots.empty, BitMap.new_numBits, decide_eq_true_eq] at inside
  rw [show (Slots.empty pofMaxNum fun _ => 0#32 : Slots POF).map = .new pofMaxNum fun _ => 0#32 from rfl,
    BitMap.new_bit _ (by omega)] at isSet
  cases isSet

/-- The process writes two bytes of its first page, which is loaded for it, to a descriptor that is
not open. -/
theorem write_to_closed_harmless : ∃ history memory,
    Run SystemStep (bootWith fourBytes) history memory ∧
    (∃ space, memory.allPCB 0 = some space ∧ (space.pageTable 0).valid = false) ∧
    ArgumentCall.Harmless (aloneTables memory) 0 0 (.write 1#32 2#32 5#32 fun _ => 0#8) := by
  refine computed_systemRun (fun s => SizesFit s ∧ (∀ q < pidMapSize, q ≠ 0 → s.allPCB q = none) ∧
      ∃ space, s.allPCB 0 = some space ∧ space.Contains 1#32 2 ∧
        (space.pageTable 0).valid = false ∧ s.memoryMgr.memoryMap.numClear ≠ 0)
    [.start (.path "prog") 0] (by decide +kernel) fun history s run checked => ?_
  obtain ⟨fits, alone, space, found, contains, absent, clear⟩ := checked
  obtain ⟨⟨_, fileRun⟩, ⟨_, processRun⟩, live, hasTable⟩ := aloneTables_reachable s
  refine ⟨⟨space, found, absent⟩, (bad_argument_harmless_iff fileRun processRun run fits live hasTable
    found ?_).mpr ⟨by decide, by decide, by decide, .inr contains, fun v covers _ => ?_, ?_⟩⟩
  · rintro (none | none | isOpen)
    · cases none
    · cases none
    · exact aloneTables_closed s _ isOpen
  · obtain rfl : v = 0 := by
      have upper : v * pageSize < 3 := covers.2
      simp only [pageSize] at upper
      omega
    exact fun _ full => absurd full clear
  · intro v _ _ q other w f held
    obtain ⟨space', found', -⟩ := held
    cases (alone q ((system_sound run).live_lt found') other).symm.trans found'

/-- Without an open file, `Close` of descriptor 2 uses a pointer that was never set, `Read` from it
returns 6 as the number of bytes, and `Write` to descriptor 34 and `Kill` of pid 32 fail an
assertion.  So does a `Write` to descriptor -5 of the byte behind the nine pages of the program. -/
theorem bad_arguments_not_harmless : ∃ history memory,
    Run SystemStep (bootWith fourBytes) history memory ∧
    (∃ history, Run FileStep (.boot (fun _ => none) fun _ => 0#32) history
      (aloneTables memory).files) ∧
    (∃ history, Run CallStep (.boot fun _ => 0#32) history (aloneTables memory).processes) ∧
    (∀ id, ¬ (aloneTables memory).files.IsOpen 0 id) ∧
    (aloneTables memory).processes.allPCB 32 = none ∧
    (aloneTables memory).perform 0 (.close 2#32) = .error .danglingPointer ∧
    (∃ s, (aloneTables memory).perform 0 (.read 0#32 10#32 2#32 fun _ => 0#8) = .ok (some 6#32, s)) ∧
    (aloneTables memory).perform 0 (.write 0#32 10#32 34#32 fun _ => 0#8) = .error .assertion ∧
    (aloneTables memory).perform 0 (.write 1152#32 1#32 (-5#32) fun _ => 0#8) = .error .assertion ∧
    (aloneTables memory).perform 0 (.kill 32#32) = .error .assertion := by
  refine computed_systemRun (fun s =>
      (∃ r, (aloneTables s).perform 0 (.read 0#32 10#32 2#32 fun _ => 0#8) = .ok r ∧
        r.1 = some 6#32) ∧
      (aloneTables s).processes.allPCB 32 = none ∧
      (aloneTables s).perform 0 (.close 2#32) = .error .danglingPointer ∧
      (aloneTables s).perform 0 (.write 0#32 10#32 34#32 fun _ => 0#8) = .error .assertion ∧
      (aloneTables s).perform 0 (.write 1152#32 1#32 (-5#32) fun _ => 0#8) = .error .assertion ∧
      (aloneTables s).perform 0 (.kill 32#32) = .error .assertion)
    [.start (.path "prog") 0] (by decide +kernel) fun history s run checked => ?_
  obtain ⟨⟨⟨register2, after⟩, reads, rfl⟩, dead, closes, writes, copies, kills⟩ := checked
  obtain ⟨fileRun, processRun, -⟩ := aloneTables_reachable s
  exact ⟨fileRun, processRun, aloneTables_closed s, dead, closes, ⟨after, reads⟩, writes, copies, kills⟩

end Nachos
