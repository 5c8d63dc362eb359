import RegisterMachine.Memory
import RegisterMachine.Operand

/-!
# Machine states

The state of the machine: four registers, a program counter `pc`, two flags, a
memory of 256 cells, and the texts written so far. The stack is the part of the
memory from the stack pointer `sp` on; it grows downward from the end of the
memory, so `sp` is `256` while it is empty.
-/

namespace RegisterMachine

/-- The flags, which tell about the last result. -/
@[ext]
structure Flags where
  /-- The result is zero. -/
  zero : Bool := false
  /-- The result is negative. -/
  sign : Bool := false
  deriving DecidableEq, Repr

/-- A state of the machine. The defaults are those of the initial state. -/
@[ext]
structure Machine where
  registers : Vector Word 4 := Vector.replicate 4 Word.zero
  pc : Nat := 0
  sp : Nat := 256
  flags : Flags := {}
  halted : Bool := false
  memory : Memory 256 := Memory.zero
  output : Array String := #[]
  deriving DecidableEq

namespace Machine

/-- The initial state. -/
def initial : Machine := {}

/-- The word in a register. -/
def register (machine : Machine) (register : Register) : Word :=
  machine.registers[register.index]

/-- The state with the word in a register replaced. -/
def setRegister (machine : Machine) (register : Register) (word : Word) : Machine :=
  { machine with registers := machine.registers.set register.index word }

/-- The flags set by a result. -/
def setFlags (machine : Machine) (result : Value) : Machine :=
  { machine with flags := ⟨result == 0, decide (result < 0)⟩ }

end Machine

end RegisterMachine
