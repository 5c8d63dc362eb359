import RegisterMachine.Fault
import RegisterMachine.Machine

/-!
# Operand access

An operand is read and written through its addressing mode. Registers, memory
cells and immediate values can be read; registers and memory cells can be
written, and a written value is saturated to a word.
-/

namespace RegisterMachine.Machine

/-- The value in the memory cell at a position. -/
def readCell (machine : Machine) (position : Int) : Except FaultKind Value :=
  match machine.memory.read? position with
  | some word => .ok word.toValue
  | none => .error .invalidMemoryAccess

/-- The state after a value is written to the memory cell at a position. -/
def writeCell (machine : Machine) (position : Int) (value : Value) : Except FaultKind Machine :=
  match machine.memory.write? position value.toInt with
  | some memory => .ok { machine with memory }
  | none => .error .invalidMemoryAccess

/-- The value of an operand of a mode. -/
def read (machine : Machine) : Mode → Except FaultKind Value
  | .register register => .ok (machine.register register).toValue
  | .immediate value => .ok value
  | .direct address => machine.readCell address.toInt
  | .indirect register => machine.readCell (machine.register register).toInt
  | .symbol => .error .invalidOperand

/-- The state after a value is written to an operand of a mode. -/
def write (machine : Machine) (mode : Mode) (value : Value) : Except FaultKind Machine :=
  match mode with
  | .register register => .ok (machine.setRegister register (Word.saturate value.toInt))
  | .direct address => machine.writeCell address.toInt value
  | .indirect register => machine.writeCell (machine.register register).toInt value
  | .immediate _ | .symbol => .error .invalidOperand

end RegisterMachine.Machine
