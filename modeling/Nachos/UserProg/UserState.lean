import Nachos.Lib.Runs
import Nachos.Machine.Mipssim

/-!
# The registers of the processes

What the kernel does to the registers of the machine and to its page table: `Scheduler::Run`,
`StartProcess`, `ExceptionHandler`, `ForkSystemcall` and `Dummy`.  A process has one thread, so the
address space of a thread is part of it.  Interrupts come between two instructions and where the
kernel enables them; the statements of an event have no such place between them.
-/

namespace Nachos

open Runs

inductive UserPhase where
  /-- The thread has no address space. -/
  | kernel
  /-- In `Machine::Run`, between two instructions. -/
  | user
  /-- In `ExceptionHandler`. -/
  | handler
  /-- In `ForkSystemcall`, with the registers saved in the address space. -/
  | forking
  /-- In `ForkSystemcall`, with the child ready to run. -/
  | forked
  /-- Before `Dummy` has restored the registers. -/
  | dummy
  | finished
  deriving DecidableEq, Repr

structure UserThread where
  phase : UserPhase
  /-- It was switched to, so its next turn begins behind `SWITCH` in `Scheduler::Run`. -/
  started : Bool
  userRegisters : Registers
  /-- `userRegisters` of the address space. -/
  spaceRegisters : Registers
  numPages : Nat

structure Cpu where
  registers : Registers
  memory : Machine
  pageTables : Nat → Nat → TranslationEntry
  /-- `machine->pageTable`: the thread whose address space has it. -/
  pageTable : Option Nat
  pageTableSize : Nat
  currentThread : Nat
  created : Nat
  threads : Nat → UserThread

def childRegisters (r : Registers) : Registers :=
  ((r.write pcReg (r 4)).write nextPCReg (r 4 + 4#32)).write prevPCReg (r 4 - 4#32)

inductive CpuEvent where
  /-- A thread that only runs in the kernel is forked. -/
  | create
  | startProcess (numPages : Nat)
  | instruction (debug : Bool)
  /-- A system call writes register 2 or a program counter. -/
  | write (num : Nat) (value : BitVec 32)
  /-- `ExceptionHandler` returns. -/
  | resume
  | saveUserRegisters
  /-- `CreatePCB` or `AddrSpace::Fork` fails. -/
  | forkFails
  | forkChild
  | restoreUserRegisters (pid : BitVec 32)
  | dummy
  /-- `CheckIfDue` invokes a handler. -/
  | interrupt
  | switch (nextThread : Nat)
  | finish (thread : Nat)
  /-- The kernel changes main memory and page tables. -/
  | page (memory : Machine) (pageTables : Nat → Nat → TranslationEntry)

namespace Cpu

def here (s : Cpu) : UserThread := s.threads s.currentThread

def goTo (s : Cpu) (thread : UserThread) : Cpu :=
  { s with threads := Function.update s.threads s.currentThread thread }

def processor (s : Cpu) (t : Nat) : Processor :=
  ⟨s.registers, s.memory, s.pageTables t, s.pageTableSize⟩

def after (s : Cpu) (t : Nat) (p : Processor) : Cpu :=
  { s with
    registers := p.registers
    memory := p.memory
    pageTables := Function.update s.pageTables t p.pageTable }

def restoreState (s : Cpu) : Cpu :=
  { s with pageTable := some s.currentThread, pageTableSize := s.here.numPages }

def spawn (s : Cpu) (phase : UserPhase) (spaceRegisters : Registers) (numPages : Nat) : Cpu :=
  { s with
    created := s.created + 1
    threads := Function.update s.threads s.created { s.threads s.created with
      phase := phase, started := false, spaceRegisters := spaceRegisters, numPages := numPages } }

def saveUserState (s : Cpu) : Cpu :=
  if s.here.phase = .kernel then s else s.goTo { s.here with userRegisters := s.registers }

/-- `SWITCH` and the end of `Scheduler::Run`, which a thread that runs for the first time skips. -/
def restoreUserState (nextThread : Nat) (s : Cpu) : Cpu :=
  let s := { s with currentThread := nextThread }
  if s.here.started = false then s.goTo { s.here with started := true }
  else if s.here.phase = .kernel then s
  else { s with registers := s.here.userRegisters }.restoreState

end Cpu

def performCpu (event : CpuEvent) (s : Cpu) : Option Cpu :=
  match event, s.here.phase with
  | .create, _ => some (s.spawn .kernel (s.threads s.created).spaceRegisters 0)
  | .startProcess numPages, .kernel =>
    some { s.goTo { s.here with phase := .user, numPages := numPages } with
      registers := initRegisters numPages pageSize }.restoreState
  | .instruction debug, .user =>
    s.pageTable.bind fun t =>
      match oneInstruction debug (s.processor t) with
      | .ok (_, p) => some (s.after t p)
      | .error (.exception _ p) => some ((s.after t p).goTo { s.here with phase := .handler })
      | .error (.fault _) | .error .division => none
  | .write num value, .handler =>
    if num = 2 ∨ num = pcReg ∨ num = nextPCReg ∨ num = prevPCReg then
      some { s with registers := s.registers.write num value }
    else none
  | .resume, .handler => some (s.goTo { s.here with phase := .user })
  | .saveUserRegisters, .handler =>
    some (s.goTo { s.here with phase := .forking, spaceRegisters := s.registers })
  | .forkFails, .forking => some (s.goTo { s.here with phase := .handler })
  | .forkChild, .forking =>
    some { (s.goTo { s.here with phase := .forked }).spawn .dummy (childRegisters s.registers)
        s.here.numPages with
      registers := childRegisters s.registers }
  | .restoreUserRegisters pid, .forked =>
    some { s.goTo { s.here with phase := .handler } with
      registers := updatePCRegs (s.here.spaceRegisters.write 2 pid) }
  | .dummy, .dummy =>
    some { s.goTo { s.here with phase := .user } with
      registers := s.here.spaceRegisters }.restoreState
  | .interrupt, _ =>
    (delayedLoad 0 0 s.registers).toOption.map fun r => { s with registers := r }
  | .switch nextThread, _ =>
    if nextThread < s.created ∧ nextThread ≠ s.currentThread ∧
        (s.threads nextThread).phase ≠ .finished then
      some (s.saveUserState.restoreUserState nextThread)
    else none
  | .finish thread, _ =>
    some { s with
      threads := Function.update s.threads thread { s.threads thread with phase := .finished } }
  | .page memory pageTables, _ => some { s with memory := memory, pageTables := pageTables }
  | _, _ => none

def CpuStep (s : Cpu) (event : CpuEvent) (s' : Cpu) : Prop := performCpu event s = some s'

def Cpu.boot (memory : Machine) (pageTables : Nat → Nat → TranslationEntry)
    (threads : Nat → UserThread) : Cpu where
  registers := fun _ => 0
  memory := memory
  pageTables := pageTables
  pageTable := none
  pageTableSize := 0
  currentThread := 0
  created := 1
  threads := Function.update threads 0 { threads 0 with phase := .kernel, started := true }

end Nachos
