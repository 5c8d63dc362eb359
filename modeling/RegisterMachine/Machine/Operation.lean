import RegisterMachine.Machine.Execution

/-!
# Operations

What each operation does with the operands of its instruction. The number of
the operands is checked first. An operation with a destination reads all of its
operands before it writes to the destination, and logs its message at the end.

* `arithmetic`: the result must be a word, or the instruction is a fault;
* `bitwise`: the result is saturated to a word where it is written;
* `Instruction.perform`: the 21 operations;
* `Instruction.execute`: the check of the number of operands in front of them.
-/

namespace RegisterMachine

namespace Execution

/-- Stores the result of an operation that must be a word. -/
def arithmetic (instruction : Instruction) (operation : Value → Value → Option Value) :
    Execution Flow := do
  let destination ← fetch instruction 0
  let a ← read destination
  let b ← read (← fetch instruction 1)
  let result ← orTrap (.fault .arithmeticOverflow) ((operation a b).filter Value.isWord)
  store destination result
  report s!"{instruction.opcode.name} {a.toInt} {b.toInt}: {result.toInt}"
  return .next

/-- Stores the result of an operation on the bits of two values. -/
def bitwise (instruction : Instruction) (operation : Value → Value → Value) :
    Execution Flow := do
  let destination ← fetch instruction 0
  let a ← read destination
  let b ← read (← fetch instruction 1)
  let result := operation a b
  store destination result
  report s!"{instruction.opcode.name} {a.toInt} {b.toInt}: {result.toInt}"
  return .next

end Execution

namespace Instruction

open Execution

/-- Executes an instruction that has the right number of operands. The program
    counter is left alone: the result says where it goes. -/
def perform (instruction : Instruction) (labels : LabelTable) : Execution Flow := do
  match instruction.opcode with
  | .mov =>
    let value ← read (← fetch instruction 1)
    let destination ← fetch instruction 0
    write destination value
    report s!"MOV {destination.token} <- {value.toInt}"
    return .next
  | .push =>
    requireRoom
    let value ← read (← fetch instruction 0)
    pushWord (Word.saturate value.toInt)
    let sp ← stackPointer
    report s!"PUSH {value.toInt} (sp: {sp})"
    return .next
  | .pop =>
    let word ← top
    let destination ← fetch instruction 0
    write destination word.toValue
    dropTop
    let sp ← stackPointer
    report s!"POP {word.toInt} -> {destination.token} (sp: {sp})"
    return .next
  | .add => arithmetic instruction Value.add?
  | .sub => arithmetic instruction Value.sub?
  | .mol => arithmetic instruction Value.mul?
  | .div =>
    let destination ← fetch instruction 0
    let a ← read destination
    let b ← read (← fetch instruction 1)
    require (b != 0) .divisionByZero
    let result ← orTrap (.defect .quotient) (Value.floorDiv? a b)
    store destination result
    report s!"DIV {a.toInt} {b.toInt}: {result.toInt}"
    return .next
  | .inc =>
    let destination ← fetch instruction 0
    let a ← read destination
    let result := Value.saturatingAdd a 1
    require (result.toInt ≤ Word.greatest) .arithmeticOverflow
    store destination result
    report s!"INC {a.toInt}: {result.toInt}"
    return .next
  | .dec =>
    let destination ← fetch instruction 0
    let a ← read destination
    let result := Value.saturatingSub a 1
    require (Word.least ≤ result.toInt) .arithmeticOverflow
    store destination result
    report s!"DEC {a.toInt}: {result.toInt}"
    return .next
  | .and => bitwise instruction (· &&& ·)
  | .or => bitwise instruction (· ||| ·)
  | .not =>
    let destination ← fetch instruction 0
    let a ← read destination
    let result := ~~~a
    store destination result
    report s!"NOT {a.toInt}: {result.toInt}"
    return .next
  | .cmp =>
    let a ← read (← fetch instruction 0)
    let b ← read (← fetch instruction 1)
    let result := Value.saturatingSub a b
    update (·.setFlags result)
    report s!"CMP {a.toInt} {b.toInt}: {result.toInt}"
    return .next
  | .jmp => jump labels .jmp (← fetch instruction 0)
  | .jz => jumpIf (← machine).flags.zero labels .jz (← fetch instruction 0)
  | .jnz => jumpIf (!(← machine).flags.zero) labels .jnz (← fetch instruction 0)
  | .js => jumpIf (← machine).flags.sign labels .js (← fetch instruction 0)
  | .call =>
    requireRoom
    let operand ← fetch instruction 0
    let index ← target labels operand
    let returnAddress ← orTrap (.fault .executionOutOfBounds) (Word.ofNat? ((← machine).pc + 1))
    pushWord returnAddress
    let sp ← stackPointer
    report s!"CALL {operand.token} -> {index} (sp: {sp})"
    return .jump index
  | .ret =>
    let word ← top
    require (0 ≤ word.toInt) .executionOutOfBounds
    dropTop
    let sp ← stackPointer
    report s!"RET -> {word.toInt} (sp: {sp})"
    return .jump word.toInt.toNat
  | .out =>
    let value ← read (← fetch instruction 0)
    update fun machine => { machine with output := machine.output.push (toString value.toInt) }
    report s!"OUT {value.toInt}"
    return .next
  | .hlt =>
    report "HLT"
    return .halt

/-- Executes an instruction. -/
def execute (instruction : Instruction) (labels : LabelTable) : Execution Flow := do
  require (instruction.operands.length == instruction.opcode.arity) .operandCountMismatch
  instruction.perform labels

end Instruction

end RegisterMachine
