import Nachos.UserProg.ReadCall
import Nachos.UserProg.SystemCalls

/-!
# System calls that take a descriptor or a pid

`Close`, `Write`, `Read`, `Kill` and `Join` with any argument, on the tables of open files and of
processes and on the memory of the processes together, and what register 2 holds when they return.  On
entry it has the code of the call, by which `ExceptionHandler` chooses the routine.
-/

namespace Nachos

/-- `input` is what `getchar` has still to return. -/
structure Tables where
  files : OpenFiles
  processes : Processes
  memory : Kernel
  input : List Byte

/-- The arguments as the registers 4, 5 and 6 have them.  `heap` is what the buffer that `Write` and
`Read` allocate has at first. -/
inductive ArgumentCall where
  | close (id : BitVec 32)
  | write (virtAddr size id : BitVec 32) (heap : Nat → Byte)
  | read (virtAddr size id : BitVec 32) (heap : Nat → Byte)
  | kill (killPID : BitVec 32)
  | join (joinPID : BitVec 32)

def ArgumentCall.code : ArgumentCall → BitVec 32
  | .join _ => 3#32
  | .read .. => 6#32
  | .write .. => 7#32
  | .close _ => 8#32
  | .kill _ => 11#32

/-- The call by the process `current`: register 2 afterwards, or `none` when the call does not return
at once.  `Close` and `Write` never write the register, and `Read` only when it has read a file. -/
def Tables.perform (current : Ref) (call : ArgumentCall) (s : Tables) :
    Except Fault (Option (BitVec 32) × Tables) := do
  let currentPCB ← s.processes.pcb current
  match call with
  | .close id =>
    let files ← s.files.closeSystemcall currentPCB.pid id.toInt
    return (some call.code, { s with files := files })
  | .write virtAddr size id heap =>
    -- the buffer is copied before anything is known of the descriptor
    newChars (size.toInt + 1)
    let (buffer, memory) ← userReadWrite currentPCB.pid heap virtAddr size.toInt .w s.memory
    let buffer ← setChar buffer size.toInt 0#8
    let files ← s.files.writeSystemcall currentPCB.pid id.toInt buffer size
    return (some call.code, { s with files := files, memory := memory })
  | .read virtAddr size id heap =>
    newChars (size.toInt + 1)
    if id = 0#32 then
      let (buffer, input) := readConsole size.toInt.toNat heap s.input
      let buffer ← setChar buffer size.toInt 0#8
      let (_, memory) ← userReadWrite currentPCB.pid buffer virtAddr size.toInt .r s.memory
      return (some call.code, { s with memory := memory, input := input })
    else
      let (result, files) ← s.files.readSystemcall currentPCB.pid id.toInt heap size
      match result with
      | some (buffer, numRead) =>
        let buffer ← setChar buffer size.toInt 0#8
        let (_, memory) ← userReadWrite currentPCB.pid buffer virtAddr size.toInt .r s.memory
        return (some (BitVec.ofInt 32 numRead), { s with files := files, memory := memory })
      | none => return (some call.code, { s with files := files })
  | .kill killPID =>
    let (register2, processes) ← s.processes.killSystemcall current killPID
    return (register2, { s with processes := processes })
  | .join joinPID =>
    let (register2, processes) ← s.processes.joinSystemcall current joinPID
    return (register2, { s with processes := processes })

end Nachos
