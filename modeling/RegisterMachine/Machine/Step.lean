import RegisterMachine.Machine.Operation
import RegisterMachine.Program

/-!
# Steps

The machine executes a program step by step. A step executes the instruction
that the program counter points at, and moves the program counter on, unless the
instruction says otherwise. A halted machine does not step any more, and if the
program counter points at no instruction the step is a fault.

A fault does not halt the machine: what to do about it is up to the caller, and a
further step attempts the same instruction again. Every step of a machine that is
not halted logs one message, on the instruction or on the fault.
-/

namespace RegisterMachine

/-- How a step ends. -/
inductive Outcome
  | done
  | fault (fault : Fault)
  | defect (defect : Defect)
  deriving DecidableEq, Repr

/-- The state after a step, how the step ended, and what was logged during it. -/
structure Step where
  machine : Machine
  outcome : Outcome
  log : Log
  deriving DecidableEq

/-- The fault of a step, if it ended with one. -/
def Outcome.fault? : Outcome → Option Fault
  | .fault raised => some raised
  | .done | .defect _ => none

namespace Machine

/-- The instruction that the program counter points at. -/
def current? (machine : Machine) (program : Program) : Option Instruction :=
  program.instructions[machine.pc]?

/-- The state after an instruction that was executed. -/
def follow (machine : Machine) : Flow → Machine
  | .next => { machine with pc := machine.pc + 1 }
  | .jump target => { machine with pc := target }
  | .halt => { machine with halted := true }

/-- The message on a fault of an instruction. -/
def faultText (machine : Machine) (instruction : Instruction) (fault : Fault) : String :=
  s!"[pc: {machine.pc}] {instruction.text}: {fault.message}"

/-- The message on a fault for want of an instruction. -/
def endText (machine : Machine) (fault : Fault) : String :=
  s!"[pc: {machine.pc}] {fault.message}"

/-- Executes one instruction of a program. -/
def step (machine : Machine) (program : Program) : Step :=
  if machine.halted then ⟨machine, .done, #[]⟩
  else
    match machine.current? program with
    | none =>
      let fault : Fault := ⟨.executionOutOfBounds, none⟩
      ⟨machine, .fault fault, #[⟨.debug, machine.endText fault⟩]⟩
    | some instruction =>
      match (instruction.execute program.labels).run ⟨machine, #[]⟩ with
      | .ok flow workspace => ⟨workspace.machine.follow flow, .done, workspace.log⟩
      | .error (.fault kind) workspace =>
        let fault : Fault := ⟨kind, some instruction.line⟩
        ⟨workspace.machine, .fault fault,
          workspace.log.push ⟨.debug, workspace.machine.faultText instruction fault⟩⟩
      | .error (.defect defect) workspace => ⟨workspace.machine, .defect defect, workspace.log⟩

/-- Returns to the initial state. The memory is cleared in place. -/
def reset (machine : Machine) : Machine :=
  { initial with memory := machine.memory.clear }

/-- What is logged during a reset. -/
def resetLog : Log := #[⟨.debug, "RESET"⟩]

@[simp] theorem reset_eq_initial (machine : Machine) : machine.reset = initial := rfl

end Machine

end RegisterMachine
