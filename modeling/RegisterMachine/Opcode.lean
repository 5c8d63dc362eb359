/-!
# Opcodes

The operations of the machine. Each has a name, by which the source text calls
it in upper or lower case, a number, and an *arity*, the number of its operands.

* `ofMnemonic?_name`, `ofCode?_code`: an operation is found by its name and by
  its number;
* `ofMnemonic?_eq_some_iff`: no other text names it, up to the case of ASCII
  letters.
-/

namespace RegisterMachine

/-- An operation. A destination is the first operand. -/
inductive Opcode
  /-- Copies a value. -/
  | mov
  /-- Pushes a value onto the stack. -/
  | push
  /-- Pops the top of the stack. -/
  | pop
  /-- Adds to the destination. -/
  | add
  /-- Subtracts from the destination. -/
  | sub
  /-- Multiplies the destination. -/
  | mol
  /-- Divides the destination, rounding toward negative infinity. -/
  | div
  /-- Adds one. -/
  | inc
  /-- Subtracts one. -/
  | dec
  /-- Bitwise conjunction. -/
  | and
  /-- Bitwise disjunction. -/
  | or
  /-- Bitwise complement. -/
  | not
  /-- Compares two values: sets the flags by their difference. -/
  | cmp
  /-- Jumps to a label. -/
  | jmp
  /-- Jumps if the zero flag is set. -/
  | jz
  /-- Jumps if the zero flag is clear. -/
  | jnz
  /-- Jumps if the sign flag is set. -/
  | js
  /-- Pushes the return address and jumps to a label. -/
  | call
  /-- Pops the return address and jumps to it. -/
  | ret
  /-- Appends a value to the output. -/
  | out
  /-- Halts the machine. -/
  | hlt
  deriving DecidableEq, Repr

namespace Opcode

/-- The operations in the order of their numbers. -/
def all : List Opcode :=
  [.mov, .push, .pop, .add, .sub, .mol, .div, .inc, .dec, .and, .or, .not, .cmp, .jmp, .jz,
    .jnz, .js, .call, .ret, .out, .hlt]

/-- The name of an operation. -/
def name : Opcode → String
  | .mov => "MOV"
  | .push => "PUSH"
  | .pop => "POP"
  | .add => "ADD"
  | .sub => "SUB"
  | .mol => "MOL"
  | .div => "DIV"
  | .inc => "INC"
  | .dec => "DEC"
  | .and => "AND"
  | .or => "OR"
  | .not => "NOT"
  | .cmp => "CMP"
  | .jmp => "JMP"
  | .jz => "JZ"
  | .jnz => "JNZ"
  | .js => "JS"
  | .call => "CALL"
  | .ret => "RET"
  | .out => "OUT"
  | .hlt => "HLT"

/-- The number of operands of an operation. -/
def arity : Opcode → Nat
  | .mov | .add | .sub | .mol | .div | .and | .or | .cmp => 2
  | .push | .pop | .inc | .dec | .not | .jmp | .jz | .jnz | .js | .call | .out => 1
  | .ret | .hlt => 0

/-- The number of an operation. The first hexadecimal digit is its family: data
    transfer, arithmetic, logic, control flow, and the rest. -/
def code : Opcode → Nat
  | .mov => 0x00
  | .push => 0x01
  | .pop => 0x02
  | .add => 0x10
  | .sub => 0x11
  | .mol => 0x12
  | .div => 0x13
  | .inc => 0x14
  | .dec => 0x15
  | .and => 0x20
  | .or => 0x21
  | .not => 0x22
  | .cmp => 0x23
  | .jmp => 0x30
  | .jz => 0x31
  | .jnz => 0x32
  | .js => 0x33
  | .call => 0x34
  | .ret => 0x35
  | .out => 0x40
  | .hlt => 0x41

/-- The operation that a text names, whatever the case of its letters. -/
def ofMnemonic? (mnemonic : String) : Option Opcode :=
  all.find? (·.name == mnemonic.toUpper)

/-- The operation of a number. -/
def ofCode? (code : Nat) : Option Opcode :=
  all.find? (·.code == code)

theorem mem_all (opcode : Opcode) : opcode ∈ all := by
  cases opcode <;> decide

theorem ofCode?_code (opcode : Opcode) : ofCode? opcode.code = some opcode := by
  cases opcode <;> rfl

theorem ofMnemonic?_name (opcode : Opcode) : ofMnemonic? opcode.name = some opcode := by
  cases opcode <;> decide +kernel

theorem name_injective {a b : Opcode} (h : a.name = b.name) : a = b :=
  Option.some.inj (by rw [← ofMnemonic?_name a, h, ofMnemonic?_name b])

theorem ofMnemonic?_eq_some_iff {mnemonic : String} {opcode : Opcode} :
    ofMnemonic? mnemonic = some opcode ↔ mnemonic.toUpper = opcode.name := by
  constructor
  · intro h
    have : opcode.name = mnemonic.toUpper := by simpa using List.find?_some h
    exact this.symm
  · intro h
    cases hf : ofMnemonic? mnemonic with
    | none => simpa [h] using List.find?_eq_none.1 hf opcode (mem_all opcode)
    | some found =>
      have : found.name = mnemonic.toUpper := by simpa using List.find?_some hf
      rw [name_injective (this.trans h)]

end Opcode

end RegisterMachine
