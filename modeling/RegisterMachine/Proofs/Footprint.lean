import RegisterMachine.Proofs.Flags
import RegisterMachine.Proofs.History
import RegisterMachine.Proofs.Subroutine

/-!
# What a step changes

Of the registers and the memory cells, a step changes one at most, and which one can be
told from the state before it: the location that the first operand denotes, or the cell
onto which a word is pushed (`footprint?`). Where the operands denote the same location,
or a register that another operand goes through, makes no difference.

The output only grows, by one text for each output that is done; the machine halts only at
an operation that is there to halt it; and the program counter moves on by one, or to where
the instruction says (`step_changes`).

* `Change.written?`: the word that a change puts somewhere, and where;
* `wordAt_next_of_written?`, `wordAt_next_of_ne`: what is found there afterwards, and
  elsewhere;
* `footprint?_eq`: an instruction puts its word where its footprint is.
-/

namespace RegisterMachine

/-- The location at which a change puts a word, and the word. -/
def Change.written? (machine : Machine) : Change → Option (Location × Word)
  | .move location word | .pop location word => some (location, word)
  | .store location result => some (location, Word.saturate result)
  | .push word | .call _ word =>
    (Memory.address? 256 ((machine.sp : Int) - 1)).map fun address => (.cell address, word)
  | .compare _ | .jump _ | .skip | .ret _ | .output _ | .halt => none

namespace Machine

/-- The location at which an instruction puts a word. For an operation with a destination it is
    the one that the first operand denotes, for one that pushes it is the cell in front of the
    stack. -/
def footprint? (machine : Machine) (instruction : Instruction) : Option Location :=
  if instruction.opcode.hasDestination then
    instruction.operands.head?.bind fun operand => (machine.locate operand.mode).toOption
  else if instruction.opcode.pushes then
    (Memory.address? 256 ((machine.sp : Int) - 1)).map .cell
  else none

variable {machine : Machine} {program : Program} {labels : LabelTable} {opcode : Opcode}
  {operands : List Operand} {change : Change} {location : Location} {word : Word}

/-! ## Locations -/

theorem wordAt_setAt_of_ne {other : Location} (h : location ≠ other) :
    (machine.setAt location word).wordAt other = machine.wordAt other := by
  cases other with
  | cell address => exact cell_setAt_of_ne h
  | register register =>
    cases location with
    | cell address => rfl
    | register written =>
      have hne : (written.index : Nat) ≠ register.index := fun heq =>
        h (by cases written; cases register; exact congrArg _ (congrArg _ (Fin.ext heq)))
      simp [wordAt, setAt, setRegister, Machine.register, hne]

theorem address?_sp_sub_one (hpos : machine.sp ≠ 0) (hle : machine.sp ≤ 256) :
    Memory.address? 256 ((machine.sp : Int) - 1) = some ⟨machine.sp - 1, by omega⟩ :=
  Memory.address?_eq_some_iff.2 (by simp only; omega)

theorem wordAt_push_of_ne
    (h : ∀ hlt : machine.sp - 1 < 256, location ≠ .cell ⟨machine.sp - 1, hlt⟩) :
    (machine.push word).wordAt location = machine.wordAt location := by
  cases location with
  | register register => rfl
  | cell address => exact cell_push_of_ne fun heq => h (heq ▸ address.isLt) (by simp [heq])

theorem wordAt_next (machine : Machine) (change : Change) (location : Location) :
    (change.next machine).wordAt location = (change.apply machine).wordAt location := by
  rw [Change.next]
  cases change.flow <;> cases location <;> rfl

/-- The word that a change puts at a location is there afterwards. -/
theorem wordAt_next_of_written? (h : Transition labels machine opcode operands change)
    (hfits : change.Fits machine) (hwritten : change.written? machine = some (location, word)) :
    (change.next machine).wordAt location = word := by
  rw [wordAt_next]
  cases h with
  | mov | pop | binary | unary =>
    cases hwritten
    exact wordAt_setAt_self _ _
  | push hne | call hne =>
    rw [Change.written?, address?_sp_sub_one hne hfits] at hwritten
    cases hwritten
    exact cell_push_self _
  | cmp | jump | skip | ret | out | hlt => cases hwritten

/-- Everywhere else is the word that was there before. -/
theorem wordAt_next_of_ne (h : Transition labels machine opcode operands change)
    (hfits : change.Fits machine)
    (hne : (change.written? machine).map Prod.fst ≠ some location) :
    (change.next machine).wordAt location = machine.wordAt location := by
  rw [wordAt_next]
  cases h with
  | mov | pop | binary | unary => exact wordAt_setAt_of_ne fun heq => hne (congrArg some heq)
  | push hpos | call hpos =>
    refine wordAt_push_of_ne fun hlt heq => hne ?_
    rw [Change.written?, address?_sp_sub_one hpos hfits, heq]
    rfl
  | cmp | jump | skip | ret | out | hlt => rfl

/-- An instruction puts its word at the location that can be told beforehand. -/
theorem footprint?_eq {instruction : Instruction}
    (h : Transition labels machine instruction.opcode instruction.operands change) :
    machine.footprint? instruction = (change.written? machine).map Prod.fst := by
  obtain ⟨opcode, operands, line⟩ := instruction
  cases h with
  | mov _ hlocate | pop _ hlocate =>
    simp only [footprint?, Opcode.hasDestination, List.head?_cons, Option.bind_some, hlocate]
    rfl
  | binary hstores _ _ _ hlocate | unary hstores _ _ hlocate =>
    simp only [footprint?, Opcode.hasDestination, hstores, Bool.or_true, if_true, List.head?_cons,
      Option.bind_some, hlocate]
    rfl
  | push | call =>
    simp only [footprint?, Change.written?, Option.map_map]
    rfl
  | jump hbranches | skip hbranches =>
    cases opcode with
    | jmp | jz | jnz | js => rfl
    | _ => cases hbranches
  | cmp | ret | out | hlt => rfl

/-- A step puts a word where the footprint of its instruction is, if it is done, and nowhere
    else. -/
theorem footprint?_of_wordAt_step_ne
    (h : (machine.step program).machine.wordAt location ≠ machine.wordAt location) :
    machine.halted = false ∧ (machine.step program).outcome = .done ∧
      ∃ instruction, machine.current? program = some instruction ∧
        machine.footprint? instruction = some location := by
  by_cases hdone : (machine.step program).outcome = .done
  swap
  · exact absurd (by rw [step_machine_of_ne_done hdone]) h
  obtain ⟨-, hnext⟩ | ⟨instruction, change, hhalted, hcurrent, htransition, hfits, hnext⟩ :=
    step_done hdone
  · exact absurd (by rw [hnext]) h
  · refine ⟨hhalted, hdone, instruction, hcurrent, ?_⟩
    rw [footprint?_eq htransition]
    by_contra hne
    exact h (by rw [hnext, wordAt_next_of_ne htransition hfits hne])

/-! ## The output -/

theorem output_setAt : (machine.setAt location word).output = machine.output := by
  cases location <;> rfl

/-- An output that is done writes the value of its operand, in decimal. -/
theorem output_step_of_succeeds (h : machine.Succeeds program (· == .out)) :
    ∃ instruction operand value, machine.current? program = some instruction ∧
      instruction.operands = [operand] ∧ machine.readInt operand.mode = .ok value ∧
      (machine.step program).machine.output = machine.output.push (toString value) := by
  obtain ⟨hhalted, hout, hdone⟩ := h
  obtain ⟨instruction, change, hcurrent, htransition, -, hnext⟩ := step_transition hhalted hdone
  rw [hcurrent, Option.any_some, beq_iff_eq] at hout
  rw [hnext]
  obtain ⟨opcode, operands, line⟩ := instruction
  cases hout
  cases htransition with
  | out hread => exact ⟨_, _, _, hcurrent, rfl, readInt_of_read hread, rfl⟩
  | binary hstores | unary hstores => cases hstores
  | jump hbranches | skip hbranches => cases hbranches

theorem output_step_of_not_succeeds (h : ¬ machine.Succeeds program (· == .out)) :
    (machine.step program).machine.output = machine.output := by
  by_cases hdone : (machine.step program).outcome = .done
  swap
  · rw [step_machine_of_ne_done hdone]
  obtain ⟨-, hnext⟩ | ⟨instruction, change, hhalted, hcurrent, htransition, -, hnext⟩ :=
    step_done hdone
  · rw [hnext]
  rw [succeeds_iff hhalted hcurrent hdone, beq_iff_eq] at h
  rw [hnext]
  obtain ⟨opcode, operands, line⟩ := instruction
  cases htransition with
  | out => exact absurd rfl h
  | mov | pop | binary | unary => exact output_setAt
  | push | cmp | jump | skip | call | ret | hlt => rfl

/-- A run appends a text to the output for each output that is done. -/
theorem output_after (machine : Machine) (program : Program) (n : Nat) :
    machine.output.toList <+: (machine.after program n).output.toList ∧
      (machine.after program n).output.size =
        machine.output.size + machine.successes program (· == .out) n := by
  induction n with
  | zero => exact ⟨List.prefix_rfl, rfl⟩
  | succ n ih =>
    rw [after_succ, successes_succ]
    by_cases h : (machine.after program n).Succeeds program (· == .out)
    · obtain ⟨_, _, _, _, _, _, houtput⟩ := output_step_of_succeeds h
      rw [houtput, if_pos h, Array.toList_push, Array.size_push, ih.2]
      exact ⟨ih.1.trans (List.prefix_append _ _), rfl⟩
    · rw [output_step_of_not_succeeds h, if_neg h]
      exact ih

/-! ## Halting, and the program counter -/

/-- A step leaves the machine halted if it was before, or if the operation is there to halt it. -/
theorem halted_step_iff :
    (machine.step program).machine.halted = true ↔
      machine.halted = true ∨ machine.Succeeds program (· == .hlt) := by
  by_cases hdone : (machine.step program).outcome = .done
  swap
  · rw [step_machine_of_ne_done hdone, or_iff_left (not_succeeds_of_ne_done hdone)]
  obtain ⟨hhalted, hnext⟩ | ⟨instruction, change, hhalted, hcurrent, htransition, -, hnext⟩ :=
    step_done hdone
  · rw [hnext, or_iff_left (not_succeeds_of_halted hhalted)]
  rw [hnext, Change.halted_next, Bool.or_eq_true, decide_eq_true_eq,
    succeeds_iff hhalted hcurrent hdone, beq_iff_eq]
  refine or_congr_right ⟨?_, fun hopcode => ?_⟩
  · rintro rfl
    exact (eq_hlt_of_halt htransition).1
  · obtain ⟨opcode, operands, line⟩ := instruction
    cases hopcode
    cases htransition with
    | hlt => rfl
    | binary hstores | unary hstores => cases hstores
    | jump hbranches | skip hbranches => cases hbranches

/-- The program counter moves on by one, unless the instruction jumps, returns or halts. -/
theorem pc_step_eq_add_one {instruction : Instruction} (hhalted : machine.halted = false)
    (hcurrent : machine.current? program = some instruction)
    (hdone : (machine.step program).outcome = .done)
    (hjumps : machine.jumps instruction.opcode = false) (hret : instruction.opcode ≠ .ret)
    (hhlt : instruction.opcode ≠ .hlt) :
    (machine.step program).machine.pc = machine.pc + 1 := by
  obtain ⟨change, htransition, -, hnext⟩ := transition_of_current? hhalted hcurrent hdone
  rw [hnext, pc_next]
  obtain ⟨opcode, operands, line⟩ := instruction
  cases htransition with
  | jump hbranches htakes =>
    rw [takes_eq_jumps hbranches, hjumps] at htakes
    cases htakes
  | call => cases hjumps
  | ret => exact absurd rfl hret
  | hlt => exact absurd rfl hhlt
  | mov | push | pop | binary | unary | cmp | skip | out => rfl

theorem pc_step_of_hlt {instruction : Instruction} (hhalted : machine.halted = false)
    (hcurrent : machine.current? program = some instruction)
    (hdone : (machine.step program).outcome = .done) (hhlt : instruction.opcode = .hlt) :
    (machine.step program).machine.pc = machine.pc := by
  obtain ⟨change, htransition, -, hnext⟩ := transition_of_current? hhalted hcurrent hdone
  rw [hnext, pc_next]
  obtain ⟨opcode, operands, line⟩ := instruction
  cases hhlt
  cases htransition with
  | hlt => rfl
  | binary hstores | unary hstores => cases hstores
  | jump hbranches | skip hbranches => cases hbranches

/-- A step changes the word at one location at most, that of the footprint of its instruction,
    and a halted machine or a step that fails changes nothing at all. The output grows by the
    value of the operand, in decimal, for each output that is done, and no otherwise. The machine
    halts at an operation that is there to halt it. The program counter stays there, goes to the
    index of the label of a jump that is taken, or to the word that a return finds on the stack,
    and moves on by one elsewhere. -/
theorem step_changes (program : Program) (machine : Machine) :
    let next := (machine.step program).machine
    let outcome := (machine.step program).outcome
    (∀ location, next.wordAt location ≠ machine.wordAt location →
      machine.halted = false ∧ outcome = .done ∧ ∃ instruction,
        machine.current? program = some instruction ∧
        machine.footprint? instruction = some location) ∧
    (machine.halted = true ∨ outcome ≠ .done → next = machine) ∧
    (∀ m n, (machine.after program m).output.toList <+:
        (machine.after program (m + n)).output.toList ∧
      (machine.after program (m + n)).output.size = (machine.after program m).output.size +
        (machine.after program m).successes program (· == .out) n) ∧
    (machine.Succeeds program (· == .out) → ∃ instruction operand value,
      machine.current? program = some instruction ∧ instruction.operands = [operand] ∧
      machine.readInt operand.mode = .ok value ∧
      next.output = machine.output.push (toString value)) ∧
    (¬ machine.Succeeds program (· == .out) → next.output = machine.output) ∧
    (next.halted = true ↔ machine.halted = true ∨ machine.Succeeds program (· == .hlt)) ∧
    ∀ instruction, machine.halted = false → machine.current? program = some instruction →
      outcome = .done →
      (instruction.opcode = .hlt → next.pc = machine.pc) ∧
      (machine.jumps instruction.opcode = true → ∃ operand, instruction.operands = [operand] ∧
        program.labels.get? operand.token = some next.pc) ∧
      (instruction.opcode = .ret → ∃ address : Fin 256, (address : Nat) = machine.sp ∧
        (next.pc : Int) = (machine.cell address).toInt) ∧
      (machine.jumps instruction.opcode = false → instruction.opcode ≠ .ret →
        instruction.opcode ≠ .hlt → next.pc = machine.pc + 1) := by
  intro next outcome
  refine ⟨fun location => footprint?_of_wordAt_step_ne, ?_, fun m n => ?_,
    output_step_of_succeeds, output_step_of_not_succeeds, halted_step_iff,
    fun instruction hhalted hcurrent hdone => ⟨pc_step_of_hlt hhalted hcurrent hdone,
      fun hjumps => ?_, fun hret => ?_, pc_step_eq_add_one hhalted hcurrent hdone⟩⟩
  · rintro (hhalted | hdone)
    · exact congrArg Step.machine (step_of_halted hhalted)
    · exact step_machine_of_ne_done hdone
  · rw [after_add]
    exact output_after _ program n
  · obtain ⟨operand, _, hoperands, htarget, hpc, -⟩ := step_jump hhalted hcurrent hjumps hdone
    exact ⟨operand, hoperands, htarget.trans (congrArg some hpc.symm)⟩
  · obtain ⟨address, haddress, -, hpc⟩ :=
      step_ret ⟨hhalted, by rw [hcurrent, Option.map_some, hret]⟩ hdone
    exact ⟨address, haddress, hpc⟩

/-- A program that goes through a register for both operands, of which there is one only. -/
def doubleThrough : Program where
  instructions := #[⟨.add, [.ofText "[R0]".toList, .ofText "[R0]".toList], 1⟩]
  labels := ∅

/-- The sum replaces the one cell, and the register that has led there stays. -/
theorem step_changes_doubleThrough :
    let machine : Machine :=
      { memory := Memory.zero.set 3 (Word.saturate 21)
        registers := Vector.replicate 4 (Word.saturate 3) }
    (machine.step doubleThrough).machine.pc = 1 ∧
      ((machine.step doubleThrough).machine.cell 3).toInt = 42 ∧
      ∀ location, location ≠ .cell 3 →
        (machine.step doubleThrough).machine.wordAt location = machine.wordAt location := by
  intro machine
  obtain ⟨hfootprint, -, -, -, -, -, hpc⟩ := step_changes doubleThrough machine
  obtain ⟨-, -, -, hnext⟩ := hpc _ rfl rfl (by decide +kernel)
  refine ⟨hnext rfl (by decide) (by decide), by decide +kernel, fun location hne => ?_⟩
  by_contra hchanged
  obtain ⟨-, -, instruction, hcurrent, hlocation⟩ := hfootprint location hchanged
  have hadd : machine.current? doubleThrough =
      some ⟨.add, [⟨"[R0]", .indirect ⟨0⟩⟩, ⟨"[R0]", .indirect ⟨0⟩⟩], 1⟩ := rfl
  obtain rfl := Option.some.inj (hadd.symm.trans hcurrent)
  have hcell : machine.footprint?
      ⟨.add, [⟨"[R0]", .indirect ⟨0⟩⟩, ⟨"[R0]", .indirect ⟨0⟩⟩], 1⟩ = some (.cell 3) := by
    decide +kernel
  exact hne (Option.some.inj (hlocation.symm.trans hcell))

end Machine

end RegisterMachine
