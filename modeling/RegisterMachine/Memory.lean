import RegisterMachine.Log
import RegisterMachine.Text.Numeral
import RegisterMachine.Word

/-!
# Memory

A memory of a given size is a row of cells, each of which holds a word. An
instruction computes a *position*, any integer, which may or may not be the
address of a cell.

* `address?_eq_some_iff`: each cell has one position, the number of its address.
-/

namespace RegisterMachine

/-- A memory of `size` cells. -/
@[ext]
structure Memory (size : Nat) where
  cells : Vector Word size
  deriving DecidableEq

namespace Memory

variable {size : Nat}

/-- The memory that holds zero in every cell. -/
def zero : Memory size := ⟨Vector.replicate size Word.zero⟩

/-- The address that a position is, if there is such a cell. -/
def address? (size : Nat) (position : Int) : Option (Fin size) :=
  if h : 0 ≤ position ∧ position < size then some ⟨position.toNat, by omega⟩ else none

/-- The word at a position. -/
def read? (memory : Memory size) (position : Int) : Option Word :=
  (address? size position).map fun address => memory.cells[address]

/-- The memory with a cell replaced. -/
def set (memory : Memory size) (address : Fin size) (word : Word) : Memory size :=
  ⟨memory.cells.set address word⟩

/-- The memory after a value, saturated to a word, is written to a position. -/
def write? (memory : Memory size) (position value : Int) : Option (Memory size) :=
  (address? size position).map fun address => memory.set address (Word.saturate value)

/-- The memory after all of its cells are set to zero. -/
def clear (_ : Memory size) : Memory size := zero

/-- The cells that do not hold zero, with their addresses in ascending order. -/
def nonzero (memory : Memory size) : List (Nat × Word) :=
  memory.cells.toList.zipIdx.filterMap fun (word, address) =>
    if word = Word.zero then none else some (address, word)

/-- The message on a cell: its address in hexadecimal, and its word. -/
def cellText (address : Nat) (word : Word) : String :=
  s!"[0x{Numeral.hexadecimal 2 address}] {word.toInt}"

/-- The messages on the cells that do not hold zero. -/
def dump (memory : Memory size) : Log :=
  (memory.nonzero.map fun (address, word) => ⟨.info, cellText address word⟩).toArray

theorem address?_natCast (address : Fin size) : address? size (address : Nat) = some address := by
  simp [address?]

theorem address?_eq_some_iff {position : Int} {address : Fin size} :
    address? size position = some address ↔ position = (address : Nat) := by
  constructor
  · intro h
    unfold address? at h
    split at h
    · next hp =>
      have := congrArg Fin.val (Option.some.inj h)
      simp only at this
      omega
    · simp at h
  · rintro rfl
    exact address?_natCast address

end Memory

end RegisterMachine
