import RegisterMachine.Machine.Access

/-!
# Locations

A location is a place that holds one word: a register or a memory cell. An operand
that can be written *denotes* a location, `Machine.locate`, and writing to the
operand replaces the word there:

* `Machine.write_eq`: a value is written, saturated to a word, to the location denoted;
* `Machine.wordAt_setAt_self`: the word that is read there is then the one written;
* `Machine.position?_of_locate`: a cell is denoted by its position;
* `Machine.cell_setAt_of_ne`: replacing the word at a location leaves the other
  cells alone.
-/

namespace RegisterMachine

/-- A place that holds a word. -/
inductive Location
  | register (register : Register)
  | cell (address : Fin 256)
  deriving DecidableEq

namespace Machine

variable (machine : Machine)

/-- The word in a memory cell. -/
def cell (address : Fin 256) : Word := machine.memory.cells[address]

/-- The position of the cell that an operand of a mode refers to, if it refers to
    a cell. The cell need not exist. -/
def position? : Mode → Option Int
  | .direct address => some address.toInt
  | .indirect register => some (machine.register register).toInt
  | .register _ | .immediate _ | .symbol => none

/-- The cell at a position. -/
def locateCell (position : Int) : Except FaultKind Location :=
  match Memory.address? 256 position with
  | some address => .ok (.cell address)
  | none => .error .invalidMemoryAccess

/-- The location that an operand of a mode denotes. -/
def locate : Mode → Except FaultKind Location
  | .register register => .ok (.register register)
  | .direct address => locateCell address.toInt
  | .indirect register => locateCell (machine.register register).toInt
  | .immediate _ | .symbol => .error .invalidOperand

/-- The word at a location. -/
def wordAt : Location → Word
  | .register register => machine.register register
  | .cell address => machine.cell address

/-- The state with the word at a location replaced. -/
def setAt : Location → Word → Machine
  | .register register, word => machine.setRegister register word
  | .cell address, word => { machine with memory := machine.memory.set address word }

theorem writeCell_eq (position : Int) (value : Value) :
    machine.writeCell position value =
      (locateCell position).map (machine.setAt · (Word.saturate value.toInt)) := by
  rw [writeCell, locateCell, Memory.write?]
  cases Memory.address? 256 position <;> rfl

theorem write_eq (mode : Mode) (value : Value) :
    machine.write mode value =
      (machine.locate mode).map (machine.setAt · (Word.saturate value.toInt)) := by
  cases mode with
  | register register => rfl
  | immediate value => rfl
  | direct address => exact machine.writeCell_eq address.toInt value
  | indirect register => exact machine.writeCell_eq (machine.register register).toInt value
  | symbol => rfl

theorem locateCell_eq_ok {position : Int} {address : Fin 256}
    (h : locateCell position = .ok (.cell address)) : position = (address : Nat) := by
  rw [locateCell] at h
  split at h
  · next found hfound =>
    cases h
    exact Memory.address?_eq_some_iff.1 hfound
  · cases h

variable {machine}

theorem position?_of_locate {mode : Mode} {address : Fin 256}
    (h : machine.locate mode = .ok (.cell address)) :
    machine.position? mode = some ((address : Nat) : Int) := by
  cases mode with
  | register register => cases h
  | immediate value => cases h
  | direct address => exact congrArg some (locateCell_eq_ok h)
  | indirect register => exact congrArg some (locateCell_eq_ok h)
  | symbol => cases h

variable {location : Location} {word : Word}

@[simp] theorem sp_setAt : (machine.setAt location word).sp = machine.sp := by
  cases location <;> rfl

theorem wordAt_setAt_self (location : Location) (word : Word) :
    (machine.setAt location word).wordAt location = word := by
  cases location with
  | register register => simp [wordAt, setAt, setRegister, Machine.register]
  | cell address => simp [wordAt, setAt, cell, Memory.set]

theorem cell_setAt_of_ne {address : Fin 256} (h : location ≠ .cell address) :
    (machine.setAt location word).cell address = machine.cell address := by
  cases location with
  | register register => rfl
  | cell other =>
    have hne : (other : Nat) ≠ address := fun heq => h (congrArg Location.cell (Fin.ext heq))
    simp [cell, setAt, Memory.set, hne]

end Machine

end RegisterMachine
