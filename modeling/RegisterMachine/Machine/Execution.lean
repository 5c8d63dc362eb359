import RegisterMachine.Instruction
import RegisterMachine.LabelTable
import RegisterMachine.Machine.Access

/-!
# Execution

An instruction is executed by small actions on a *workspace*, the state of the
machine with what is logged meanwhile: reading and writing operands, moving the
stack pointer, setting the flags. What an action has done stays done if a later
one fails. That a failing instruction nevertheless changes nothing is a matter of
the order in which each operation acts, first all that can fail and then the
rest.

An action ends with a result or with a *trap*, of which there are two kinds. A
fault is an answer of the machine. A *defect* would be a failure of the machine
itself: an action outside of the domain on which it makes sense. The checks in
front of the actions are there to exclude it.

* `fetch`, `read`, `write`, `store`: the operands of an instruction;
* `top`, `requireRoom`, `pushWord`, `dropTop`: the stack;
* `target`, `jump`, `jumpIf`: the flow of control;
* `require`: a check, which fails with a fault.

For each action, a lemma says what it does to a workspace before the next one, as
`run_read_bind` for `read`.
-/

namespace RegisterMachine

/-- A failure of the machine itself. -/
inductive Defect
  /-- An operand is asked for that the instruction does not have. -/
  | missingOperand (index : Nat)
  /-- The stack pointer is moved out of the memory. -/
  | stackPointer
  /-- A quotient is computed from steps that are not all defined. -/
  | quotient
  deriving DecidableEq, Repr

/-- The wording of a defect. -/
def Defect.message : Defect → String
  | .missingOperand index => s!"operand {index} is missing"
  | .stackPointer => "stack pointer outside of the memory"
  | .quotient => "undefined quotient"

/-- How an action fails. -/
inductive Trap
  | fault (kind : FaultKind)
  | defect (defect : Defect)
  deriving DecidableEq, Repr

/-- Where execution goes on after an instruction. -/
inductive Flow
  | next
  | jump (target : Nat)
  | halt
  deriving DecidableEq, Repr

/-- A state of the machine with what is logged during an instruction. -/
@[ext]
structure Workspace where
  machine : Machine
  log : Log
  deriving DecidableEq

namespace Workspace

/-- The workspace with the state of the machine changed. -/
def update (workspace : Workspace) (f : Machine → Machine) : Workspace :=
  { workspace with machine := f workspace.machine }

/-- The workspace with a message logged. -/
def report (workspace : Workspace) (text : String) : Workspace :=
  { workspace with log := workspace.log.push ⟨.debug, text⟩ }

end Workspace

/-- An action on a workspace. -/
abbrev Execution := EStateM Trap Workspace

namespace Execution

variable {α β : Type} (workspace : Workspace)

/-- Fails with a fault. -/
def fault (kind : FaultKind) : Execution α := throw (.fault kind)

/-- Fails with a defect. -/
def defect (defect : Defect) : Execution α := throw (.defect defect)

/-- The state of the machine. -/
def machine : Execution Machine := return (← get).machine

/-- Changes the state of the machine. -/
def update (f : Machine → Machine) : Execution Unit := modify (·.update f)

/-- Logs a message. -/
def report (text : String) : Execution Unit := modify (·.report text)

/-- Fails with a fault if a condition does not hold. -/
def require (condition : Bool) (kind : FaultKind) : Execution Unit :=
  if condition then pure () else fault kind

/-- A result, or the trap for want of one. -/
def orTrap (trap : Trap) : Option α → Execution α
  | some result => pure result
  | none => throw trap

/-- A result, or the fault for which there is none. -/
def orFault : Except FaultKind α → Execution α
  | .ok result => pure result
  | .error kind => fault kind

theorem run_machine_bind (next : Machine → Execution β) :
    (machine >>= next).run workspace = (next workspace.machine).run workspace := rfl

theorem run_update_bind (f : Machine → Machine) (next : Unit → Execution β) :
    (update f >>= next).run workspace = (next ()).run (workspace.update f) := rfl

theorem run_require_bind (condition : Bool) (kind : FaultKind) (next : Unit → Execution β) :
    (require condition kind >>= next).run workspace =
      if condition then (next ()).run workspace else .error (.fault kind) workspace := by
  cases condition <;> rfl

theorem run_orTrap_bind (trap : Trap) (result : Option α) (next : α → Execution β) :
    (orTrap trap result >>= next).run workspace = match result with
      | some result => (next result).run workspace
      | none => .error trap workspace := by
  cases result <;> rfl

/-! ## Operands -/

/-- The operand of an instruction at a place. -/
def fetch (instruction : Instruction) (index : Nat) : Execution Operand :=
  orTrap (.defect (.missingOperand index)) instruction.operands[index]?

/-- The value of an operand. -/
def read (operand : Operand) : Execution Value := do
  orFault ((← machine).read operand.mode)

/-- Writes a value to an operand. -/
def write (operand : Operand) (value : Value) : Execution Unit := do
  let written ← orFault ((← machine).write operand.mode value)
  update fun _ => written

/-- Writes a result to an operand, and sets the flags by it. -/
def store (operand : Operand) (result : Value) : Execution Unit := do
  write operand result
  update (·.setFlags result)

theorem run_fetch_bind (instruction : Instruction) (index : Nat) (next : Operand → Execution β) :
    (fetch instruction index >>= next).run workspace = match instruction.operands[index]? with
      | some operand => (next operand).run workspace
      | none => .error (.defect (.missingOperand index)) workspace := by
  unfold fetch
  cases instruction.operands[index]? <;> rfl

theorem run_read_bind (operand : Operand) (next : Value → Execution β) :
    (read operand >>= next).run workspace = match workspace.machine.read operand.mode with
      | .ok value => (next value).run workspace
      | .error kind => .error (.fault kind) workspace := by
  rw [read, bind_assoc, run_machine_bind]
  cases workspace.machine.read operand.mode <;> rfl

theorem run_write_bind (operand : Operand) (value : Value) (next : Unit → Execution β) :
    (write operand value >>= next).run workspace =
      match workspace.machine.write operand.mode value with
      | .ok written => (next ()).run (workspace.update fun _ => written)
      | .error kind => .error (.fault kind) workspace := by
  rw [write, bind_assoc, run_machine_bind]
  cases workspace.machine.write operand.mode value <;> rfl

theorem run_store_bind (operand : Operand) (result : Value) (next : Unit → Execution β) :
    (store operand result >>= next).run workspace =
      match workspace.machine.write operand.mode result with
      | .ok written => (next ()).run (workspace.update fun _ => written.setFlags result)
      | .error kind => .error (.fault kind) workspace := by
  rw [store, bind_assoc, run_write_bind]
  cases workspace.machine.write operand.mode result <;> rfl

/-! ## The stack -/

/-- The stack pointer. -/
def stackPointer : Execution Nat := return (← machine).sp

/-- The word on top of the stack, which stays there. -/
def top : Execution Word := do
  let machine ← machine
  orTrap (.fault .stackUnderflow) machine.memory.cells[machine.sp]?

/-- Refuses to push onto a full stack. -/
def requireRoom : Execution Unit := do
  require ((← stackPointer) != 0) .stackOverflow

/-- Pushes a word onto a stack that is not full. -/
def pushWord (word : Word) : Execution Unit := do
  match ← stackPointer with
  | 0 => defect .stackPointer
  | sp + 1 =>
    if h : sp < 256 then
      update fun machine => { machine with sp, memory := machine.memory.set ⟨sp, h⟩ word }
    else defect .stackPointer

/-- Takes the top off the stack. -/
def dropTop : Execution Unit :=
  update fun machine => { machine with sp := machine.sp + 1 }

theorem run_stackPointer_bind (next : Nat → Execution β) :
    (stackPointer >>= next).run workspace = (next workspace.machine.sp).run workspace := rfl

theorem run_top_bind (next : Word → Execution β) :
    (top >>= next).run workspace =
      match workspace.machine.memory.cells[workspace.machine.sp]? with
      | some word => (next word).run workspace
      | none => .error (.fault .stackUnderflow) workspace := by
  rw [top, bind_assoc, run_machine_bind]
  cases workspace.machine.memory.cells[workspace.machine.sp]? <;> rfl

theorem run_requireRoom_bind (next : Unit → Execution β) :
    (requireRoom >>= next).run workspace =
      if workspace.machine.sp = 0 then .error (.fault .stackOverflow) workspace
      else (next ()).run workspace := by
  rw [requireRoom, bind_assoc, run_stackPointer_bind, run_require_bind]
  by_cases h : workspace.machine.sp = 0 <;> simp [h]

theorem run_pushWord_bind {sp : Nat} (word : Word) (next : Unit → Execution β)
    (hsp : workspace.machine.sp = sp + 1) (h : sp < 256) :
    (pushWord word >>= next).run workspace =
      (next ()).run (workspace.update fun machine =>
        { machine with sp, memory := machine.memory.set ⟨sp, h⟩ word }) := by
  rw [pushWord, bind_assoc, run_stackPointer_bind, hsp]
  simp only [dif_pos h]
  rfl

/-! ## The flow of control -/

/-- The index of the label that an operand names. -/
def target (labels : LabelTable) (operand : Operand) : Execution Nat :=
  orTrap (.fault .undefinedLabel) (labels.get? operand.token)

/-- Jumps to the label that an operand names. -/
def jump (labels : LabelTable) (opcode : Opcode) (operand : Operand) : Execution Flow := do
  let index ← target labels operand
  report s!"{opcode.name} {operand.token} -> {index}"
  return .jump index

/-- Jumps to the label that an operand names if a condition holds. -/
def jumpIf (condition : Bool) (labels : LabelTable) (opcode : Opcode) (operand : Operand) :
    Execution Flow := do
  if condition then jump labels opcode operand
  else
    report s!"{opcode.name} {operand.token} not taken"
    return .next

theorem run_target_bind (labels : LabelTable) (operand : Operand) (next : Nat → Execution β) :
    (target labels operand >>= next).run workspace = match labels.get? operand.token with
      | some index => (next index).run workspace
      | none => .error (.fault .undefinedLabel) workspace := by
  unfold target
  cases labels.get? operand.token <;> rfl

theorem run_jump (labels : LabelTable) (opcode : Opcode) (operand : Operand) :
    (jump labels opcode operand).run workspace = match labels.get? operand.token with
      | some index =>
        .ok (.jump index) (workspace.report s!"{opcode.name} {operand.token} -> {index}")
      | none => .error (.fault .undefinedLabel) workspace := by
  rw [jump, run_target_bind]
  cases labels.get? operand.token <;> rfl

theorem run_jumpIf (condition : Bool) (labels : LabelTable) (opcode : Opcode)
    (operand : Operand) :
    (jumpIf condition labels opcode operand).run workspace =
      if condition then (jump labels opcode operand).run workspace
      else .ok .next (workspace.report s!"{opcode.name} {operand.token} not taken") := by
  cases condition <;> rfl

end Execution

end RegisterMachine
