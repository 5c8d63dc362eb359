import RegisterMachine.Instruction
import RegisterMachine.LabelTable

/-!
# Programs

A program is a row of instructions with a table of labels. The index of a label
need not be that of an instruction.
-/

namespace RegisterMachine

/-- The instructions of a program in their order, and its labels. -/
structure Program where
  instructions : Array Instruction
  labels : LabelTable
  deriving DecidableEq

end RegisterMachine
