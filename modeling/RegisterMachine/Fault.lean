/-!
# Faults

A fault is the machine's refusal to execute an instruction. It has a kind, and
the source line of the instruction refused, if there was an instruction at all.
-/

namespace RegisterMachine

/-- What is wrong with the instruction. -/
inductive FaultKind
  | unknownInstruction
  | operandCountMismatch
  | invalidOperand
  | invalidMemoryAccess
  | divisionByZero
  | arithmeticOverflow
  | stackOverflow
  | stackUnderflow
  | undefinedLabel
  | executionOutOfBounds
  deriving DecidableEq, Repr

/-- The wording of a kind of fault. -/
def FaultKind.message : FaultKind → String
  | .unknownInstruction => "unknown instruction"
  | .operandCountMismatch => "wrong number of operands"
  | .invalidOperand => "invalid operand"
  | .invalidMemoryAccess => "memory address out of range"
  | .divisionByZero => "division by zero"
  | .arithmeticOverflow => "arithmetic overflow"
  | .stackOverflow => "stack overflow"
  | .stackUnderflow => "stack underflow"
  | .undefinedLabel => "undefined label"
  | .executionOutOfBounds => "program counter ran past the last instruction"

/-- A fault, with the source line of the instruction refused. -/
structure Fault where
  kind : FaultKind
  line : Option Nat
  deriving DecidableEq, Repr

/-- The wording of a fault. -/
def Fault.message (fault : Fault) : String :=
  match fault.line with
  | some line => s!"{fault.kind.message} (line {line})"
  | none => fault.kind.message

end RegisterMachine
