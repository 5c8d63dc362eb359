import RegisterMachine.Fault
import RegisterMachine.Opcode
import RegisterMachine.Operand

/-!
# Instructions

An instruction is an operation with its operands, and the source line that it
stands on. Neither the number nor the modes of the operands need to fit the
operation: whether they do is a matter of execution.
-/

namespace RegisterMachine

/-- An instruction on a source line. -/
@[ext]
structure Instruction where
  opcode : Opcode
  operands : List Operand
  line : Nat
  deriving DecidableEq

namespace Instruction

/-- The instruction of an operation's number and the texts of its operands. A
    number without an operation is a fault. -/
def ofCode (code : Nat) (tokens : List String) (line : Nat) : Except Fault Instruction :=
  match Opcode.ofCode? code with
  | some opcode => .ok ⟨opcode, tokens.map (Operand.ofText ·.toList), line⟩
  | none => .error ⟨.unknownInstruction, some line⟩

/-- The instruction as text. -/
def text (instruction : Instruction) : String :=
  match instruction.operands with
  | [] => instruction.opcode.name
  | operands => instruction.opcode.name ++ " " ++ ", ".intercalate (operands.map (·.token))

end Instruction

end RegisterMachine
