import Nachos.Threads.Thread

/-!
# Programs over the routines

Kernel code that several threads run over common variables.  Interrupts come only when a routine
enables them again, so a thread keeps the CPU from one call to the next: one step is the code up
to the next call of a routine, together with that call.
-/

namespace Nachos

/-- The code from a place to the next call, if it makes one: the variables, the call, and the
place behind it. -/
abbrev Code (γ π : Type) : Type := γ → π → Except Fault (γ × Option Routine × π)

structure Programs (γ π : Type) where
  threads : Threads
  globals : γ
  position : Nat → π

def Threads.perform : Option Routine → Threads → Except Fault Threads
  | none, k => .ok k
  | some c, k => c.apply k

namespace Programs

variable {γ π : Type}

def here (s : Programs γ π) : π := s.position s.threads.currentThread

def goTo (place : π) (threads : Threads) (globals : γ) (s : Programs γ π) : Programs γ π where
  threads := threads
  globals := globals
  position := Function.update s.position s.threads.currentThread place

def statement (code : Code γ π) (s : Programs γ π) : Except Fault (Programs γ π) := do
  let (globals, routine, place) ← code s.globals s.here
  let threads ← s.threads.perform routine
  return s.goTo place threads globals

end Programs

end Nachos
