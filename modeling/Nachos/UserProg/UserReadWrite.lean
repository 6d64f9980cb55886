import Nachos.UserProg.UserMemory

/-!
# Kernel copies to and from user memory

`AddrSpace::userReadWrite`, which the `Read` and `Write` system calls use to move bytes
between a kernel buffer and the memory of a process.  It has a translation routine of its
own, `AddrSpace::Translate`.  Next to it stands what a program does to store the same
bytes itself.
-/

namespace Nachos

open Loops

/-- `AddrSpace::Translate`: the physical address, or `none` when it returns `false`.  The
page is loaded first if it is not in memory. -/
def addrSpaceTranslate (pid : Nat) (virtAddr : BitVec 32) (size : Int) (s : Kernel) :
    Except Fault (Option Nat × Kernel) := do
  if virtAddr.toInt < 0 then
    return (none, s)
  let vpn := virtAddr.toNat / pageSize
  let offset := virtAddr.toNat % pageSize
  let space ← s.space pid
  if vpn ≥ space.numPages then
    return (none, s)
  let s ← (if (space.pageTable vpn).valid then .ok s else pageIn pid virtAddr s)
  let space ← s.space pid
  let entry := space.pageTable vpn
  let pageFrame := (BitVec.ofInt 32 entry.physicalPage).toNat
  if pageFrame ≥ numPhysPages then
    return (none, s)
  let s := s.setSpace pid (some (space.setEntry vpn { entry with use := true }))
  let physAddr := pageFrame * pageSize + offset
  assert (physAddr + size ≤ (memorySize : Int))
  return (some physAddr, s)

/-- The argument `opt` of `userReadWrite`: `'r'` moves the buffer into user memory, as the
system call `Read` needs it, and any other value moves user memory into the buffer. -/
inductive TransferOpt where
  | r
  | w
  deriving DecidableEq, Repr

structure Transfer where
  kernel : Kernel
  buffer : Nat → Byte
  curVirtAddr : BitVec 32
  curBuffer : Int
  leftSize : Int

/-- One of the three copies of `userReadWrite`, with the result of `Translate`.  A
negative size is a huge one for `bzero`. -/
def copyChunk (pid : Nat) (opt : TransferOpt) (copySize : Int) (t : Transfer) :
    Except Fault (Bool × Transfer) := do
  let (found, s) ← addrSpaceTranslate pid t.curVirtAddr copySize t.kernel
  match found with
  | none => return (false, { t with kernel := s })
  | some physAddr =>
    if copySize < 0 then
      .error .outOfRange
    let count := copySize.toNat
    let start := t.curBuffer.toNat
    let memory := s.machine.mainMemory
    let advanced := { t with
      kernel := s
      curVirtAddr := t.curVirtAddr + BitVec.ofInt 32 copySize
      curBuffer := t.curBuffer + copySize
      leftSize := t.leftSize - copySize }
    match opt with
    | .r => return (true, { advanced with
        kernel := s.setMemory (bcopy (fun k => t.buffer (start + k)) physAddr count
          (bzero physAddr count memory)) })
    | .w => return (true, { advanced with
        buffer := bcopy (fun k => memory (physAddr + k)) start count
          (bzero start count t.buffer) })

/-- The rounds of `while (leftSize >= PageSize)`; a round whose `Translate` fails is
repeated forever. -/
def copyPages (pid : Nat) (opt : TransferOpt) : Nat → Transfer → Except Fault Transfer
  | 0, t => .ok t
  | rounds + 1, t => do
    let (copied, t) ← copyChunk pid opt pageSize t
    if copied then copyPages pid opt rounds t else .error .endlessLoop

def tryChunk (pid : Nat) (opt : TransferOpt) (copySize : Int) (t : Transfer) :
    Except Fault Transfer := do
  let (_, t) ← copyChunk pid opt copySize t
  return t

def userReadWrite (pid : Nat) (buffer : Nat → Byte) (virtAddr : BitVec 32) (size : Int)
    (opt : TransferOpt) (s : Kernel) : Except Fault ((Nat → Byte) × Kernel) := do
  let t : Transfer := ⟨s, buffer, virtAddr, 0, size⟩
  let offset := virtAddr.toInt.tmod pageSize
  let t ← (if offset = 0 then .ok t else tryChunk pid opt (min size (pageSize - offset)) t)
  let t ← copyPages pid opt (t.leftSize.toNat / pageSize) t
  let t ← (if t.leftSize = 0 then .ok t else tryChunk pid opt t.leftSize t)
  assert (t.curBuffer == size)
  return (t.buffer, t.kernel)

/-! ## The same stores by the program -/

/-- A store of one byte by the program, with `PageFaultHandler` and
`ReadOnlyExceptionHandler` called for its faults and the instruction retried. -/
def userStore (pid : Nat) (addr : BitVec 32) (byte : Byte) : Nat → Kernel → Except Fault Kernel
  | 0, _ => .error .endlessLoop
  | tries + 1, s => do
    match ← writeMem pid addr 1 (byte.zeroExtend 32) s with
    | .done s => return s
    | .raised .pageFaultException =>
      let s ← pageIn pid addr s
      userStore pid addr byte tries s
    | .raised .readOnlyException =>
      let s ← cow pid addr s
      userStore pid addr byte tries s
    | .raised _ => .error .assertion

/-- Stores of `size` bytes, one after the other.  A store faults at most once. -/
def userStores (pid : Nat) (buffer : Nat → Byte) (virtAddr : BitVec 32) (size : Nat)
    (s : Kernel) : Except Fault Kernel :=
  forUpToM (fun i => userStore pid (virtAddr + BitVec.ofNat 32 i) (buffer i) 2) size s

/-! ## Steps of the whole system -/

inductive SystemOp where
  | user (op : Op)
  | transfer (pid : Nat) (buffer : Nat → Byte) (virtAddr : BitVec 32) (size : Int)
      (opt : TransferOpt)

inductive SystemStep : Kernel → SystemOp → Kernel → Prop where
  | user {s s' : Kernel} {op : Op} : Step s op s' → SystemStep s (.user op) s'
  | transfer {s s' : Kernel} {pid : Nat} {buffer buffer' : Nat → Byte} {virtAddr : BitVec 32}
      {size : Int} {opt : TransferOpt} :
      userReadWrite pid buffer virtAddr size opt s = .ok (buffer', s') →
      SystemStep s (.transfer pid buffer virtAddr size opt) s'

def performSystem : SystemOp → Kernel → Option Kernel
  | .user op, s => perform op s
  | .transfer pid buffer virtAddr size opt, s =>
    (userReadWrite pid buffer virtAddr size opt s).toOption.map Prod.snd

theorem performSystem_step {op : SystemOp} {s s' : Kernel} (performed : performSystem op s = some s') :
    SystemStep s op s' := by
  cases op with
  | user op => exact .user (perform_step performed)
  | transfer pid buffer virtAddr size opt =>
    obtain ⟨⟨buffer', t⟩, copied, rfl⟩ := Option.map_eq_some_iff.mp performed
    exact .transfer (toOption_eq_some copied)

end Nachos
