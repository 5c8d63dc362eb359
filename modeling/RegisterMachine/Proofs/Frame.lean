import RegisterMachine.Proofs.Depth

/-!
# What a step leaves alone

The cells from the stack pointer on are the stack, but nothing keeps an instruction
from storing there. Apart from that, a step only ever writes below the stack pointer,
where it may push. So the other cells keep their words, over one step and over a run.

* `storePosition?`: where the next step stores, other than by pushing;
* `cell_step`: the other cells of the stack are left alone by the step;
* `cell_after`: and so by a run during which the stack pointer is not above them.
-/

namespace RegisterMachine

/-! ## Stores -/

/-- The operations that store in their first operand. -/
def Opcode.hasDestination (opcode : Opcode) : Bool :=
  opcode == .mov || opcode == .pop || opcode.stores

/-- The location at which a change stores a word, other than by pushing it. -/
def Change.location? : Change → Option Location
  | .move location _ | .store location _ | .pop location _ => some location
  | .compare _ | .push _ | .jump _ | .skip | .call .. | .ret _ | .output _ | .halt => none

namespace Machine

/-- The position at which the next step stores through a direct or indirect destination. -/
def storePosition? (machine : Machine) (program : Program) : Option Int :=
  if machine.halted then none
  else
    match machine.current? program with
    | some ⟨opcode, destination :: _, _⟩ =>
      if opcode.hasDestination then machine.position? destination.mode else none
    | _ => none

variable {machine : Machine} {program : Program} {labels : LabelTable} {opcode : Opcode}
  {operands : List Operand} {change : Change} {address : Fin 256}

theorem storePosition?_eq_none (h : machine.Executes program opcode)
    (hdestination : opcode.hasDestination = false) : machine.storePosition? program = none := by
  obtain ⟨hhalted, hopcode⟩ := h
  obtain ⟨instruction, hcurrent, rfl⟩ := Option.map_eq_some_iff.1 hopcode
  obtain ⟨opcode, operands, line⟩ := instruction
  simp only [storePosition?, hhalted, hcurrent]
  rcases operands with _ | ⟨destination, operands⟩
  · rfl
  · simp only [hdestination, Bool.false_eq_true, if_false]

/-- A transition that stores in a cell does so through its first operand. -/
theorem position?_of_location? (h : Transition labels machine opcode operands change)
    (hlocation : change.location? = some (.cell address)) :
    opcode.hasDestination ∧ ∃ destination rest, operands = destination :: rest ∧
      machine.position? destination.mode = some ((address : Nat) : Int) := by
  cases h with
  | mov _ hlocate | pop _ hlocate =>
    cases hlocation
    exact ⟨rfl, _, _, rfl, position?_of_locate hlocate⟩
  | binary hstores _ _ _ hlocate | unary hstores _ _ hlocate =>
    cases hlocation
    exact ⟨by simp [Opcode.hasDestination, hstores], _, _, rfl, position?_of_locate hlocate⟩
  | push | cmp | jump | skip | call | ret | out | hlt => cases hlocation

theorem storePosition?_of_location? {instruction : Instruction} (hhalted : machine.halted = false)
    (hcurrent : machine.current? program = some instruction)
    (h : Transition labels machine instruction.opcode instruction.operands change)
    (hlocation : change.location? = some (.cell address)) :
    machine.storePosition? program = some ((address : Nat) : Int) := by
  obtain ⟨hdestination, destination, rest, hoperands, hposition⟩ :=
    position?_of_location? h hlocation
  obtain ⟨opcode, operands, line⟩ := instruction
  cases hoperands
  simp only [storePosition?, hhalted, hcurrent, Bool.false_eq_true, if_false, hdestination,
    if_true, hposition]

/-! ## Cells -/

theorem cell_push_of_ne {word : Word} (h : machine.sp - 1 ≠ address) :
    (machine.push word).cell address = machine.cell address := by
  rw [push, Memory.put]
  split
  · simp [cell, Memory.set, h]
  · rfl

theorem cell_push_self {word : Word} (h : machine.sp - 1 < 256) :
    (machine.push word).cell ⟨machine.sp - 1, h⟩ = word := by
  simp [cell, push, Memory.put, Memory.set, h]

/-- A transition leaves a cell alone in which it neither stores nor pushes. -/
theorem cell_next_of_ne (h : Transition labels machine opcode operands change)
    (hlocation : change.location? ≠ some (.cell address))
    (hpush : opcode.pushes → machine.sp ≠ address + 1) :
    (change.next machine).cell address = machine.cell address := by
  cases h with
  | mov | pop | binary | unary => exact cell_setAt_of_ne fun h => hlocation (congrArg some h)
  | push hne | call hne =>
    -- There is room on the stack, so the stack pointer moves on to another cell.
    have := hpush rfl
    exact cell_push_of_ne (by omega)
  | cmp | jump | skip | ret | out | hlt => rfl

/-- A transition leaves the cells of the stack alone, apart from the one in which it stores. -/
theorem cell_next (h : Transition labels machine opcode operands change)
    (hsp : machine.sp ≤ address) (hlocation : change.location? ≠ some (.cell address)) :
    (change.next machine).cell address = machine.cell address :=
  cell_next_of_ne h hlocation fun _ => (Nat.lt_succ_of_le hsp).ne

/-- A step leaves the cells of the stack alone, apart from the one in which it stores. -/
theorem cell_step (hsp : machine.sp ≤ address)
    (hstore : machine.storePosition? program ≠ some ((address : Nat) : Int)) :
    (machine.step program).machine.cell address = machine.cell address := by
  by_cases hdone : (machine.step program).outcome = .done
  · obtain ⟨_, hnext⟩ | ⟨instruction, change, hhalted, hcurrent, htransition, _, hnext⟩ :=
      step_done hdone
    · rw [hnext]
    · rw [hnext]
      exact cell_next htransition hsp fun hlocation =>
        hstore (storePosition?_of_location? hhalted hcurrent htransition hlocation)
  · rw [step_machine_of_ne_done hdone]

/-- A cell keeps its word as long as it belongs to the stack and nothing is stored there. -/
theorem cell_after {m n : Nat} (hmn : m ≤ n)
    (hsp : ∀ i, m ≤ i → i < n → (machine.after program i).sp ≤ address)
    (hstore : ∀ i, m ≤ i → i < n →
      (machine.after program i).storePosition? program ≠ some ((address : Nat) : Int)) :
    (machine.after program n).cell address = (machine.after program m).cell address := by
  induction n, hmn using Nat.le_induction with
  | base => rfl
  | succ n hmn ih =>
    -- The hypotheses on all of the steps are those on the last one and on the ones before.
    rw [after_succ, cell_step (hsp n hmn (Nat.lt_succ_self n)) (hstore n hmn (Nat.lt_succ_self n))]
    exact ih (fun i hi hlt => hsp i hi (Nat.lt_succ_of_lt hlt))
      fun i hi hlt => hstore i hi (Nat.lt_succ_of_lt hlt)

end Machine

end RegisterMachine
