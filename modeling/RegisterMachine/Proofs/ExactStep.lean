import RegisterMachine.Proofs.Run

/-!
# Steps in exact arithmetic

The machine computes on values of 64 bits, some operations with a check for
overflow, some with saturation, some bit by bit. None of this shows: a step of an
operation that computes is the step of a machine that computes on integers
(`step_eq_exactStep`).

That machine reads its operands, first to last, as integers (`readInt`), computes
the exact result or finds that there is none (`Opcode.exact`), and only then asks
whether the result can be stored (`conclude`).
-/

namespace RegisterMachine.Machine

/-- The integer in the memory cell at a position. -/
def readIntCell (machine : Machine) (position : Int) : Except FaultKind Int :=
  match machine.memory.read? position with
  | some word => .ok word.toInt
  | none => .error .invalidMemoryAccess

/-- The integer that is the value of an operand of a mode. -/
def readInt (machine : Machine) : Mode → Except FaultKind Int
  | .register register => .ok (machine.register register).toInt
  | .immediate value => .ok value.toInt
  | .direct address => machine.readIntCell address.toInt
  | .indirect register => machine.readIntCell (machine.register register).toInt
  | .symbol => .error .invalidOperand

/-- The state after a result is stored as the nearest word, and the flags are set. -/
def conclude (machine : Machine) (destination : Operand) (result : Int) :
    Except FaultKind Machine := do
  let location ← machine.locate destination.mode
  return { machine.setAt location (Word.saturate result) with
    flags := ⟨result = 0, result < 0⟩
    pc := machine.pc + 1 }

/-- The state after an instruction that computes, in exact arithmetic. A comparison
    stores nothing. -/
def exactStep (machine : Machine) (instruction : Instruction) : Except FaultKind Machine :=
  match instruction.opcode, instruction.operands with
  | .cmp, [left, right] => do
    let x ← machine.readInt left.mode
    let y ← machine.readInt right.mode
    return { machine with flags := ⟨x = y, x < y⟩, pc := machine.pc + 1 }
  | opcode, [destination, source] => do
    let x ← machine.readInt destination.mode
    let y ← machine.readInt source.mode
    let result ← opcode.exact x y
    machine.conclude destination result
  | opcode, [destination] => do
    let x ← machine.readInt destination.mode
    let result ← opcode.exact x 0
    machine.conclude destination result
  | _, _ => .error .operandCountMismatch

variable {machine : Machine} {program : Program} {instruction : Instruction}

theorem readInt_eq_map_read (mode : Mode) :
    machine.readInt mode = (machine.read mode).map (·.toInt) := by
  have hcell (position : Int) :
      machine.readIntCell position = (machine.readCell position).map (·.toInt) := by
    rw [readIntCell, readCell]
    rcases machine.memory.read? position with _ | word
    · rfl
    · simp only [Except.map, Word.toInt_toValue]
  cases mode with
  | register register => simp only [readInt, read, Except.map, Word.toInt_toValue]
  | immediate value => rfl
  | direct address => exact hcell address.toInt
  | indirect register => exact hcell (machine.register register).toInt
  | symbol => rfl

theorem conclude_eq (destination : Operand) (result : Int) :
    machine.conclude destination result = (machine.locate destination.mode).map fun location =>
      (Change.store location result).next machine := by
  rw [conclude]
  obtain kind | location := machine.locate destination.mode
  · rfl
  · obtain register | address := location <;> rfl

theorem map_binary (opcode : Opcode) (destination source : Operand) :
    (machine.binary opcode destination source).map (·.change.next machine) = (do
      let x ← machine.readInt destination.mode
      let y ← machine.readInt source.mode
      let result ← opcode.exact x y
      machine.conclude destination result) := by
  simp only [binary, readInt_eq_map_read, conclude_eq]
  obtain kind | x := machine.read destination.mode
  · rfl
  obtain kind | y := machine.read source.mode
  · rfl
  simp only [Except.map, ok_bind]
  obtain kind | result := opcode.exact x.toInt y.toInt
  · rfl
  obtain kind | location := machine.locate destination.mode <;> rfl

theorem map_unary (opcode : Opcode) (destination : Operand) :
    (machine.unary opcode destination).map (·.change.next machine) = (do
      let x ← machine.readInt destination.mode
      let result ← opcode.exact x 0
      machine.conclude destination result) := by
  simp only [unary, readInt_eq_map_read, conclude_eq]
  obtain kind | x := machine.read destination.mode
  · rfl
  simp only [Except.map, ok_bind]
  obtain kind | result := opcode.exact x.toInt 0
  · rfl
  obtain kind | location := machine.locate destination.mode <;> rfl

/-- The difference of two integers is zero, or negative, as the first is equal to the second,
    or less. -/
theorem flag_sub (x y : Int) :
    machine.flag (x - y) = { machine with flags := ⟨x = y, x < y⟩ } := by
  rw [flag]
  congr 2
  · exact decide_eq_decide.2 Int.sub_eq_zero
  · exact decide_eq_decide.2 (by omega)

/-- The effect of an instruction that computes leads to the state after its exact step. -/
theorem map_effect (labels : LabelTable) (hcomputes : instruction.opcode.computes)
    (harity : instruction.operands.length = instruction.opcode.arity) :
    (instruction.effect labels machine).map (·.change.next machine) =
      machine.exactStep instruction := by
  obtain ⟨opcode, operands, line⟩ := instruction
  cases opcode with
  | add | sub | mol | div | and | or =>
    obtain ⟨destination, source, rfl⟩ := List.length_eq_two.1 harity
    exact map_binary _ destination source
  | inc | dec | not =>
    obtain ⟨destination, rfl⟩ := List.length_eq_one_iff.1 harity
    exact map_unary _ destination
  | cmp =>
    obtain ⟨left, right, rfl⟩ := List.length_eq_two.1 harity
    simp only [Instruction.effect, exactStep, readInt_eq_map_read]
    obtain kind | x := machine.read left.mode
    · rfl
    obtain kind | y := machine.read right.mode
    · rfl
    exact congrArg (fun next : Machine => Except.ok { next with pc := machine.pc + 1 })
      (flag_sub x.toInt y.toInt)
  | mov | push | pop | jmp | jz | jnz | js | call | ret | out | hlt => cases hcomputes

/-- A computation needs no room on the stack. -/
theorem fits_of_computes {labels : LabelTable} {opcode : Opcode} {operands : List Operand}
    {change : Change} (h : Transition labels machine opcode operands change)
    (hcomputes : opcode.computes) : change.Fits machine := by
  cases h with
  | push | call => cases hcomputes
  | mov | pop | binary | unary | cmp | jump | skip | ret | out | hlt => trivial

/-- A step of an operation that computes is its step in exact arithmetic: it leads to the
    same state, or it ends with the same kind of fault. -/
theorem step_eq_exactStep (program : Program) (machine : Machine) (instruction : Instruction)
    (hhalted : machine.halted = false) (hcurrent : machine.current? program = some instruction)
    (hcomputes : instruction.opcode.computes = true)
    (harity : instruction.operands.length = instruction.opcode.arity) :
    match machine.exactStep instruction with
    | .ok next =>
      (machine.step program).outcome = .done ∧ (machine.step program).machine = next
    | .error kind =>
      (machine.step program).outcome = .fault ⟨kind, some instruction.line⟩ ∧
        (machine.step program).machine = machine := by
  have hexact : (instruction.effect program.labels machine).map (·.change.next machine) =
      machine.exactStep instruction := map_effect program.labels hcomputes harity
  cases stepping machine program with
  | halted hhalted' => exact absurd hhalted' (by simp [hhalted])
  | ended _ hcurrent' =>
    rw [hcurrent] at hcurrent'
    cases hcurrent'
  | refused _ hcurrent' heffect hstep =>
    obtain rfl := Option.some.inj (hcurrent.symm.trans hcurrent')
    rw [heffect] at hexact
    rw [← hexact, hstep]
    exact ⟨rfl, rfl⟩
  | unfit _ hcurrent' heffect hfits =>
    obtain rfl := Option.some.inj (hcurrent.symm.trans hcurrent')
    -- Nothing is pushed, so there is nothing to fit.
    exact absurd (fits_of_computes (Instruction.transition heffect) hcomputes) hfits
  | executed _ hcurrent' heffect _ hstep =>
    obtain rfl := Option.some.inj (hcurrent.symm.trans hcurrent')
    rw [heffect] at hexact
    rw [← hexact, hstep]
    exact ⟨rfl, rfl⟩

/-- The increment of the greatest immediate is refused as an overflow, although nothing could
    be stored in its destination either. The quotient of the least word by minus one is stored
    as the greatest word, and the flags are set although this word is not the quotient. -/
theorem step_eq_exactStep_extremes :
    let inc : Instruction := ⟨.inc, [⟨"9223372036854775807", .immediate 9223372036854775807⟩], 1⟩
    let div : Instruction := ⟨.div, [⟨"R0", .register ⟨0⟩⟩, ⟨"-1", .immediate (-1)⟩], 1⟩
    let least : Machine :=
      { initial.setRegister ⟨0⟩ (Word.saturate (-32768)) with flags := ⟨false, true⟩ }
    ((initial.step ⟨#[inc], ∅⟩).outcome = .fault ⟨.arithmeticOverflow, some 1⟩ ∧
      (initial.step ⟨#[inc], ∅⟩).machine = initial) ∧
    (least.step ⟨#[div], ∅⟩).outcome = .done ∧
      ((least.step ⟨#[div], ∅⟩).machine.register ⟨0⟩).toInt = 32767 ∧
      (least.step ⟨#[div], ∅⟩).machine.flags = ⟨false, false⟩ := by
  intro inc div least
  constructor
  · have hexact : initial.exactStep inc = .error .arithmeticOverflow := by decide
    have h := step_eq_exactStep ⟨#[inc], ∅⟩ initial inc rfl rfl rfl rfl
    rw [hexact] at h
    exact h
  · have hdividend : least.readInt (.register ⟨0⟩) = .ok (-32768) := rfl
    have hdivisor : least.readInt (.immediate (-1)) = .ok (-1) := rfl
    have hquotient : Opcode.exact .div (-32768) (-1) = .ok 32768 := by decide +kernel
    have hexact : least.exactStep div = least.conclude ⟨"R0", .register ⟨0⟩⟩ 32768 := by
      simp only [exactStep, div, hdividend, hdivisor, ok_bind, hquotient]
    have h := step_eq_exactStep ⟨#[div], ∅⟩ least div rfl rfl rfl rfl
    rw [hexact] at h
    obtain ⟨hdone, hnext⟩ := h
    exact ⟨hdone, by rw [hnext]; rfl, by rw [hnext]; rfl⟩

end RegisterMachine.Machine
