import Nachos.FileSys.OpenFile
import Nachos.Lib.Runs

/-!
# Console input

The keyboard half of `console.cc`.  `CheckCharAvail` is called again and again by the interrupt that
it schedules itself; it reads a character when its buffer of one character is empty, and invokes the
read handler.  The kernel calls `GetChar` once for each invocation, some time later.  A `char` is
signed, and `EOF` is -1.
-/

namespace Nachos

open Runs

def eof : Int := -1

structure Console where
  incoming : Byte
  /-- The bytes of the input that are not read yet. -/
  input : List Byte
  /-- The invocations of the read handler that `GetChar` has not followed yet. -/
  announced : Nat
  /-- What `GetChar` has returned. -/
  returned : List Byte
  /-- An `ASSERT` has failed, and Nachos has ended. -/
  aborted : Bool
  deriving DecidableEq, Repr

namespace Console

def new (stream : List Byte) : Console := ⟨BitVec.ofInt 8 eof, stream, 0, [], false⟩

/-- `Console::CheckCharAvail`, where `PollFile` returns `ready`.  It does so at the end of the input
too, where `Read` fails its `ASSERT`. -/
def checkCharAvail (ready : Bool) (s : Console) : Except Fault Console :=
  if s.incoming.toInt ≠ eof ∨ ready = false then .ok s
  else
    match s.input with
    | [] => .error .assertion
    | c :: rest => .ok { s with incoming := c, input := rest, announced := s.announced + 1 }

def getChar (s : Console) : Byte × Console :=
  (s.incoming, { s with incoming := BitVec.ofInt 8 eof })

end Console

inductive ConsoleEvent where
  | poll (ready : Bool)
  | getChar
  deriving DecidableEq, Repr

def performConsole (event : ConsoleEvent) (s : Console) : Option Console :=
  if s.aborted then none else
  match event with
  | .poll ready =>
    match s.checkCharAvail ready with
    | .ok s' => some s'
    | .error _ => some { s with aborted := true }
  | .getChar =>
    if s.announced = 0 then none
    else
      let (ch, s) := s.getChar
      some { s with announced := s.announced - 1, returned := s.returned ++ [ch] }

def ConsoleStep (s : Console) (event : ConsoleEvent) (s' : Console) : Prop :=
  performConsole event s = some s'

end Nachos
