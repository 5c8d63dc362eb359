import RegisterMachine.Machine.Step
import RegisterMachine.Proofs.Execution

/-!
# Steps and runs

A step goes in one of five ways (`Stepping`): the machine has halted; there is no
instruction; the instruction is refused with a fault; it pushes onto a stack outside
of the memory; or it is executed. Whatever is proved of all steps is proved by cases
on these (`stepping`), and for an executed instruction by cases on its transition.

A machine goes through the states `machine.after program 0`, which is the machine
itself, `machine.after program 1`, and so on. A step that ends with a fault counts
as well, as does one of a halted machine, which does nothing. A run is *free of
faults* if all of its steps are done (`FaultFree`).

* `step_machine_of_ne_done`: a step that is not done leaves the state alone;
* `step_done`, `step_transition`: a step that is done is that of a halted machine or a
  transition;
* `step_of_transition`: and a transition is a step that is done;
* `Reaches`: the state that a run without faults leads to, one transition after the other;
* `sp_after_le`: the stack pointer stays in the memory, or at its end.
-/

namespace RegisterMachine

/-- The state after a change, with the program counter moved on. -/
def Change.next (machine : Machine) (change : Change) : Machine :=
  (change.apply machine).follow change.flow

/-- Where a change moves the stack pointer. -/
def Change.sp : Change → Nat → Nat
  | .push _, sp | .call .., sp => sp - 1
  | .pop .., sp | .ret _, sp => sp + 1
  | .move .., sp | .store .., sp | .compare _, sp | .jump _, sp | .skip, sp | .output _, sp
  | .halt, sp => sp

theorem Change.sp_next (machine : Machine) (change : Change) :
    (change.next machine).sp = change.sp machine.sp := by
  cases change with
  | move | store | pop => simp [next, apply, flow, Machine.follow, Machine.flag, Machine.drop, sp]
  | compare | push | jump | skip | call | ret | output | halt => rfl

/-- A change halts the machine only if that is what it is for, and none lets it go on. -/
theorem Change.halted_next (machine : Machine) (change : Change) :
    (change.next machine).halted = (machine.halted || decide (change = .halt)) := by
  cases change with
  | halt => exact (Bool.or_true _).symm
  | move location | store location | pop location =>
    cases location <;> exact (Bool.or_false _).symm
  | compare | push | jump | skip | call | ret | output => exact (Bool.or_false _).symm

namespace Machine

variable {machine : Machine} {program : Program}

/-! ## Steps -/

/-- The ways in which a step goes. -/
inductive Stepping (machine : Machine) (program : Program) : Prop
  | halted (hhalted : machine.halted = true)
      (hstep : machine.step program = ⟨machine, .done, #[]⟩)
  | ended (hhalted : machine.halted = false) (hcurrent : machine.current? program = none)
      (hstep : machine.step program = ⟨machine, .fault ⟨.executionOutOfBounds, none⟩,
        #[⟨.debug, machine.endText ⟨.executionOutOfBounds, none⟩⟩]⟩)
  | refused {instruction : Instruction} {kind : FaultKind} (hhalted : machine.halted = false)
      (hcurrent : machine.current? program = some instruction)
      (heffect : instruction.effect program.labels machine = .error kind)
      (hstep : machine.step program = ⟨machine, .fault ⟨kind, some instruction.line⟩,
        #[⟨.debug, machine.faultText instruction ⟨kind, some instruction.line⟩⟩]⟩)
  | unfit {instruction : Instruction} {effect : Effect} (hhalted : machine.halted = false)
      (hcurrent : machine.current? program = some instruction)
      (heffect : instruction.effect program.labels machine = .ok effect)
      (hfits : ¬ effect.change.Fits machine)
      (hstep : machine.step program = ⟨machine, .defect .stackPointer, #[]⟩)
  | executed {instruction : Instruction} {effect : Effect} (hhalted : machine.halted = false)
      (hcurrent : machine.current? program = some instruction)
      (heffect : instruction.effect program.labels machine = .ok effect)
      (hfits : effect.change.Fits machine)
      (hstep : machine.step program =
        ⟨effect.change.next machine, .done, #[⟨.debug, effect.text⟩]⟩)

theorem stepping (machine : Machine) (program : Program) : machine.Stepping program := by
  cases hhalted : machine.halted with
  | true => exact .halted hhalted (by rw [step, if_pos hhalted])
  | false =>
    have hne : ¬ machine.halted = true := by simp [hhalted]
    rcases hcurrent : machine.current? program with _ | instruction
    · exact .ended hhalted hcurrent (by rw [step, if_neg hne, hcurrent])
    rcases heffect : instruction.effect program.labels machine with kind | effect
    · refine .refused hhalted hcurrent heffect ?_
      rw [step, if_neg hne, hcurrent]
      simp only [Instruction.run_execute, heffect]
      rfl
    by_cases hfits : effect.change.Fits machine
    · refine .executed hhalted hcurrent heffect hfits ?_
      rw [step, if_neg hne, hcurrent]
      simp only [Instruction.run_execute, heffect, Workspace.carry, if_pos hfits]
      rfl
    · refine .unfit hhalted hcurrent heffect hfits ?_
      rw [step, if_neg hne, hcurrent]
      simp only [Instruction.run_execute, heffect, Workspace.carry, if_neg hfits]

theorem step_machine_of_ne_done (h : (machine.step program).outcome ≠ .done) :
    (machine.step program).machine = machine := by
  cases stepping machine program with
  | halted _ hstep | ended _ _ hstep | refused _ _ _ hstep | unfit _ _ _ _ hstep => rw [hstep]
  | executed _ _ _ _ hstep => exact absurd (by rw [hstep]) h

theorem step_done (h : (machine.step program).outcome = .done) :
    (machine.halted = true ∧ (machine.step program).machine = machine) ∨
      ∃ instruction change, machine.halted = false ∧
        machine.current? program = some instruction ∧
        Transition program.labels machine instruction.opcode instruction.operands change ∧
        change.Fits machine ∧ (machine.step program).machine = change.next machine := by
  cases stepping machine program with
  | halted hhalted hstep => exact .inl ⟨hhalted, by rw [hstep]⟩
  | ended _ _ hstep | refused _ _ _ hstep | unfit _ _ _ _ hstep =>
    rw [hstep] at h
    cases h
  | executed hhalted hcurrent heffect hfits hstep =>
    exact .inr ⟨_, _, hhalted, hcurrent, Instruction.transition heffect, hfits, by rw [hstep]⟩

theorem step_transition (hhalted : machine.halted = false)
    (hdone : (machine.step program).outcome = .done) :
    ∃ instruction change, machine.current? program = some instruction ∧
      Transition program.labels machine instruction.opcode instruction.operands change ∧
      change.Fits machine ∧ (machine.step program).machine = change.next machine := by
  obtain ⟨hhalted', -⟩ | ⟨instruction, change, -, htransition⟩ := step_done hdone
  · rw [hhalted] at hhalted'
    cases hhalted'
  · exact ⟨instruction, change, htransition⟩

theorem transition_of_current? {instruction : Instruction} (hhalted : machine.halted = false)
    (hcurrent : machine.current? program = some instruction)
    (hdone : (machine.step program).outcome = .done) :
    ∃ change, Transition program.labels machine instruction.opcode instruction.operands change ∧
      change.Fits machine ∧ (machine.step program).machine = change.next machine := by
  obtain ⟨found, change, hfound, htransition⟩ := step_transition hhalted hdone
  obtain rfl := Option.some.inj (hcurrent.symm.trans hfound)
  exact ⟨change, htransition⟩

/-- Conversely, a transition that fits on the stack is a step that is done. -/
theorem step_of_transition {instruction : Instruction} {change : Change}
    (hhalted : machine.halted = false) (hcurrent : machine.current? program = some instruction)
    (harity : instruction.operands.length = instruction.opcode.arity)
    (h : Transition program.labels machine instruction.opcode instruction.operands change)
    (hfits : change.Fits machine) :
    (machine.step program).outcome = .done ∧
      (machine.step program).machine = change.next machine := by
  obtain ⟨effect, heffect, rfl⟩ := h.exists_effect harity instruction.line
  cases stepping machine program with
  | halted hhalted' =>
    rw [hhalted] at hhalted'
    cases hhalted'
  | ended _ hcurrent' => cases hcurrent.symm.trans hcurrent'
  | refused _ hcurrent' heffect' =>
    obtain rfl := Option.some.inj (hcurrent.symm.trans hcurrent')
    cases heffect.symm.trans heffect'
  | unfit _ hcurrent' heffect' hfits' =>
    obtain rfl := Option.some.inj (hcurrent.symm.trans hcurrent')
    obtain rfl := Except.ok.inj (heffect.symm.trans heffect')
    exact absurd hfits hfits'
  | executed _ hcurrent' heffect' _ hstep =>
    obtain rfl := Option.some.inj (hcurrent.symm.trans hcurrent')
    obtain rfl := Except.ok.inj (heffect.symm.trans heffect')
    rw [hstep]
    exact ⟨rfl, rfl⟩

/-! ## Runs -/

/-- The state after a number of steps, whatever their outcomes. -/
def after (machine : Machine) (program : Program) : Nat → Machine
  | 0 => machine
  | n + 1 => ((machine.after program n).step program).machine

/-- The first steps of a machine, of a given number, are all done. -/
def FaultFree (machine : Machine) (program : Program) (n : Nat) : Prop :=
  ∀ i < n, ((machine.after program i).step program).outcome = .done

instance (machine : Machine) (program : Program) (n : Nat) :
    Decidable (machine.FaultFree program n) :=
  inferInstanceAs (Decidable (∀ i < n, ((machine.after program i).step program).outcome = .done))

/-- The next step executes an instruction of an operation. -/
def Executes (machine : Machine) (program : Program) (opcode : Opcode) : Prop :=
  machine.halted = false ∧ (machine.current? program).map (·.opcode) = some opcode

instance (machine : Machine) (program : Program) (opcode : Opcode) :
    Decidable (machine.Executes program opcode) :=
  inferInstanceAs (Decidable (_ ∧ _))

@[simp] theorem after_zero : machine.after program 0 = machine := rfl

theorem after_succ (n : Nat) :
    machine.after program (n + 1) = ((machine.after program n).step program).machine := rfl

theorem after_add (m n : Nat) :
    machine.after program (m + n) = (machine.after program m).after program n := by
  induction n with
  | zero => rfl
  | succ n ih => rw [← Nat.add_assoc, after_succ, ih, after_succ]

theorem FaultFree.mono {m n : Nat} (h : machine.FaultFree program n) (hle : m ≤ n) :
    machine.FaultFree program m :=
  fun i hi => h i (Nat.lt_of_lt_of_le hi hle)

theorem faultFree_zero : machine.FaultFree program 0 :=
  fun _ hi => absurd hi (Nat.not_lt_zero _)

theorem faultFree_succ_iff {n : Nat} :
    machine.FaultFree program (n + 1) ↔
      machine.FaultFree program n ∧ ((machine.after program n).step program).outcome = .done :=
  Nat.forall_lt_succ_right

/-- A number of steps, all of which are done, lead to a state. -/
structure Reaches (machine : Machine) (program : Program) (n : Nat) (target : Machine) : Prop where
  faultFree : machine.FaultFree program n
  after_eq : machine.after program n = target

theorem Reaches.zero : machine.Reaches program 0 machine := ⟨faultFree_zero, rfl⟩

/-- A run goes on by a transition. -/
theorem Reaches.step {n line : Nat} {target : Machine} {opcode : Opcode} {operands : List Operand}
    {change : Change} (h : machine.Reaches program n target) (hhalted : target.halted = false)
    (hcurrent : target.current? program = some ⟨opcode, operands, line⟩)
    (harity : operands.length = opcode.arity)
    (htransition : Transition program.labels target opcode operands change)
    (hfits : change.Fits target) : machine.Reaches program (n + 1) (change.next target) := by
  obtain ⟨hdone, hnext⟩ := step_of_transition hhalted hcurrent harity htransition hfits
  rw [← h.after_eq] at hdone hnext
  exact ⟨faultFree_succ_iff.2 ⟨h.faultFree, hdone⟩, by rw [after_succ, hnext, h.after_eq]⟩

/-- A step that is done, of a machine that executes an operation, is a transition of it. -/
theorem Executes.step_done {opcode : Opcode} (h : machine.Executes program opcode)
    (hdone : (machine.step program).outcome = .done) :
    ∃ operands change, (machine.current? program).map (·.operands) = some operands ∧
      Transition program.labels machine opcode operands change ∧
      change.Fits machine ∧ (machine.step program).machine = change.next machine := by
  obtain ⟨hhalted, hopcode⟩ := h
  obtain ⟨instruction, change, hcurrent, htransition, hfits, hnext⟩ :=
    step_transition hhalted hdone
  rw [hcurrent] at hopcode
  cases hopcode
  exact ⟨_, change, by rw [hcurrent]; rfl, htransition, hfits, hnext⟩

/-- The stack pointer stays in the memory, or at its end. -/
theorem sp_next_le {opcode : Opcode} {operands : List Operand} {change : Change}
    {labels : LabelTable} (h : Transition labels machine opcode operands change)
    (hsp : machine.sp ≤ 256) : (change.next machine).sp ≤ 256 := by
  rw [Change.sp_next]
  cases h with
  -- What is taken off is a cell of the memory.
  | pop htop | ret htop =>
    obtain ⟨address, haddress, _⟩ := cell_of_top? htop
    exact haddress ▸ Nat.succ_le_of_lt address.isLt
  | push | call => exact (Nat.sub_le _ _).trans hsp
  | mov | binary | unary | cmp | jump | skip | out | hlt => exact hsp

theorem sp_step_le (hsp : machine.sp ≤ 256) : (machine.step program).machine.sp ≤ 256 := by
  by_cases hdone : (machine.step program).outcome = .done
  · obtain ⟨_, hnext⟩ | ⟨_, _, _, _, htransition, _, hnext⟩ := step_done hdone
    · rwa [hnext]
    · rw [hnext]
      exact sp_next_le htransition hsp
  · rwa [step_machine_of_ne_done hdone]

theorem sp_after_le (hsp : machine.sp ≤ 256) (n : Nat) : (machine.after program n).sp ≤ 256 := by
  induction n with
  | zero => exact hsp
  | succ n ih => exact sp_step_le ih

end Machine

end RegisterMachine
