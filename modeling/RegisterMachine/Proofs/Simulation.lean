import RegisterMachine.Proofs.Run

/-!
# Programs that act alike

A step depends on little of a program: on the instruction at the program counter, of it
on the operation and the modes of its operands, and on the indices of the labels that
their texts name. The texts as such only go into messages. So a program can be replaced
by another one in which all that is found is the same (`Program.Extends`), and the
machine does not tell the difference, until it looks for an instruction or a label
that the first program does not have (`Fault.Missing`).

* `Instruction.change_of_follows`: an instruction makes the change of the one it stands for;
* `Machine.proceed_of_extends`: the step of the one program is the step of the other;
* `Machine.after_of_extends`: so are all steps up to the first fault;
* `Machine.proceed_of_extends_of_extends`: if each program extends the other, then nothing
  is missing in either, and all steps are the same.
-/

namespace RegisterMachine

/-- Another operand has the mode of an operand, and names its label if there is one. -/
structure Operand.Follows (labels others : LabelTable) (operand other : Operand) : Prop where
  mode : other.mode = operand.mode
  target : ∀ index, labels.get? operand.token = some index → others.get? other.token = some index

/-- Another instruction is one of the same operation on the same line, and its operands follow. -/
structure Instruction.Follows (labels others : LabelTable) (instruction other : Instruction) :
    Prop where
  opcode : other.opcode = instruction.opcode
  line : other.line = instruction.line
  operands : List.Forall₂ (Operand.Follows labels others) instruction.operands other.operands

/-- Another program has an instruction for each one of a program, which follows it. -/
def Program.Extends (program other : Program) : Prop :=
  ∀ (index : Nat) (instruction : Instruction), program.instructions[index]? = some instruction →
    ∃ found, other.instructions[index]? = some found ∧
      instruction.Follows program.labels other.labels found

/-- A fault for want of an instruction or of a label. -/
def Fault.Missing (fault : Fault) : Prop :=
  fault.kind = .undefinedLabel ∨ fault = ⟨.executionOutOfBounds, none⟩

instance (fault : Fault) : Decidable fault.Missing :=
  inferInstanceAs (Decidable (_ ∨ _))

/-! ## Instructions -/

/-- The change that an instruction makes, or the fault for which it makes none. -/
def Instruction.change (instruction : Instruction) (labels : LabelTable) (machine : Machine) :
    Except FaultKind Change :=
  (instruction.effect labels machine).map (·.change)

namespace Machine

variable {machine : Machine} {labels others : LabelTable} {operand other : Operand}

/-- A jump finds the label that the other one finds. -/
theorem map_branch (opcode : Opcode) (h : operand.Follows labels others other)
    (hdefined : (machine.branch labels opcode operand).map (·.change) ≠ .error .undefinedLabel) :
    (machine.branch others opcode other).map (·.change) =
      (machine.branch labels opcode operand).map (·.change) := by
  unfold branch at hdefined ⊢
  split
  · next htakes =>
    rw [if_pos htakes] at hdefined
    rcases htarget : labels.get? operand.token with _ | index
    · rw [htarget] at hdefined
      exact absurd rfl hdefined
    · rw [h.target index htarget]
      rfl
  · rfl

end Machine

namespace Instruction

variable {machine : Machine} {labels others : LabelTable} {instruction other : Instruction}

theorem change_of_length_ne (h : instruction.operands.length ≠ instruction.opcode.arity) :
    instruction.change labels machine = .error .operandCountMismatch := by
  rw [change, effect_of_length_ne h]
  rfl

/-- An instruction makes the change of the one that it follows, unless a label is missing there. -/
theorem change_of_follows (h : instruction.Follows labels others other)
    (hdefined : instruction.change labels machine ≠ .error .undefinedLabel) :
    other.change others machine = instruction.change labels machine := by
  obtain ⟨hopcode, -, hoperands⟩ := h
  by_cases harity : instruction.operands.length = instruction.opcode.arity
  swap
  · rw [change_of_length_ne harity, change_of_length_ne (by rwa [hopcode, ← hoperands.length_eq])]
  obtain ⟨opcode, operands, line⟩ := instruction
  obtain ⟨_, operands', line'⟩ := other
  cases hopcode
  dsimp only at hoperands harity
  -- Only jumps and calls look at the labels; for the rest the modes of the operands decide.
  cases opcode with
  | add | sub | mol | div | and | or =>
    obtain ⟨destination, source, rfl⟩ := List.length_eq_two.1 harity
    obtain _ | ⟨hdestination, _ | ⟨hsource, _ | _⟩⟩ := hoperands
    simp only [change, effect, Machine.binary, hdestination.mode, hsource.mode]
  | inc | dec | not =>
    obtain ⟨destination, rfl⟩ := List.length_eq_one_iff.1 harity
    obtain _ | ⟨hdestination, _ | _⟩ := hoperands
    simp only [change, effect, Machine.unary, hdestination.mode]
  | cmp =>
    obtain ⟨left, right, rfl⟩ := List.length_eq_two.1 harity
    obtain _ | ⟨hleft, _ | ⟨hright, _ | _⟩⟩ := hoperands
    simp only [change, effect, hleft.mode, hright.mode]
  | mov =>
    obtain ⟨destination, source, rfl⟩ := List.length_eq_two.1 harity
    obtain _ | ⟨hdestination, _ | ⟨hsource, _ | _⟩⟩ := hoperands
    simp only [change, effect, hdestination.mode, hsource.mode]
    obtain kind | value := machine.read source.mode
    · rfl
    obtain kind | location := machine.locate destination.mode <;> rfl
  | push | out =>
    obtain ⟨source, rfl⟩ := List.length_eq_one_iff.1 harity
    obtain _ | ⟨hsource, _ | _⟩ := hoperands
    simp only [change, effect, hsource.mode]
  | pop =>
    obtain ⟨destination, rfl⟩ := List.length_eq_one_iff.1 harity
    obtain _ | ⟨hdestination, _ | _⟩ := hoperands
    simp only [change, effect, hdestination.mode]
    obtain kind | word := machine.top?
    · rfl
    obtain kind | location := machine.locate destination.mode <;> rfl
  | jmp | jz | jnz | js =>
    obtain ⟨operand, rfl⟩ := List.length_eq_one_iff.1 harity
    obtain _ | ⟨hoperand, _ | _⟩ := hoperands
    exact Machine.map_branch _ hoperand hdefined
  | call =>
    obtain ⟨operand, rfl⟩ := List.length_eq_one_iff.1 harity
    obtain _ | ⟨hoperand, _ | _⟩ := hoperands
    simp only [change, effect] at hdefined ⊢
    split
    · rfl
    · next hsp =>
      rw [if_neg hsp] at hdefined
      rcases htarget : labels.get? operand.token with _ | index
      · rw [htarget] at hdefined
        exact absurd rfl hdefined
      · rw [hoperand.target index htarget]
        rcases Word.ofNat? (machine.pc + 1) with _ | returnAddress <;> rfl
  | ret | hlt =>
    obtain rfl := List.length_eq_zero_iff.1 harity
    obtain _ | _ := hoperands
    rfl

/-- Instructions that follow each other make the same change. -/
theorem change_of_follows_of_follows (h : instruction.Follows labels others other)
    (h' : other.Follows others labels instruction) :
    other.change others machine = instruction.change labels machine := by
  by_cases hdefined : instruction.change labels machine = .error .undefinedLabel
  · by_cases hdefined' : other.change others machine = .error .undefinedLabel
    · rw [hdefined, hdefined']
    · exact (change_of_follows h' hdefined').symm
  · exact change_of_follows h hdefined

end Instruction

namespace Machine

variable {machine : Machine} {program other : Program} {instruction : Instruction}

/-! ## Steps -/

/-- The state and the outcome of a step that executes an instruction on a line, by what the
    instruction does. -/
def settle (machine : Machine) (line : Nat) : Except FaultKind Change → Machine × Outcome
  | .error kind => (machine, .fault ⟨kind, some line⟩)
  | .ok change =>
    if change.Fits machine then (change.next machine, .done)
    else (machine, .defect .stackPointer)

/-- The state after a step, and how the step ended. -/
def proceed (machine : Machine) (program : Program) : Machine × Outcome :=
  ((machine.step program).machine, (machine.step program).outcome)

theorem proceed_of_halted (h : machine.halted = true) :
    machine.proceed program = (machine, .done) := by
  rw [proceed, step, if_pos h]

theorem proceed_of_current?_eq_none (hhalted : machine.halted = false)
    (hcurrent : machine.current? program = none) :
    machine.proceed program = (machine, .fault ⟨.executionOutOfBounds, none⟩) := by
  rw [proceed, step, if_neg (by simp [hhalted]), hcurrent]

/-- A step is a matter of the change that its instruction makes. -/
theorem proceed_of_current? (hhalted : machine.halted = false)
    (hcurrent : machine.current? program = some instruction) :
    machine.proceed program =
      machine.settle instruction.line (instruction.change program.labels machine) := by
  cases stepping machine program with
  | halted hhalted' => exact absurd hhalted' (by simp [hhalted])
  | ended _ hcurrent' => cases hcurrent.symm.trans hcurrent'
  | refused _ hcurrent' heffect hstep =>
    obtain rfl := Option.some.inj (hcurrent.symm.trans hcurrent')
    rw [proceed, hstep, Instruction.change, heffect]
    rfl
  | unfit _ hcurrent' heffect hfits hstep =>
    obtain rfl := Option.some.inj (hcurrent.symm.trans hcurrent')
    rw [proceed, hstep, Instruction.change, heffect]
    exact (if_neg hfits).symm
  | executed _ hcurrent' heffect hfits hstep =>
    obtain rfl := Option.some.inj (hcurrent.symm.trans hcurrent')
    rw [proceed, hstep, Instruction.change, heffect]
    exact (if_pos hfits).symm

/-- The step of a program is that of a program which extends it, unless something is missing. -/
theorem proceed_of_extends (h : program.Extends other)
    (hfound : ∀ fault, (machine.step program).outcome = .fault fault → ¬ fault.Missing) :
    machine.proceed other = machine.proceed program := by
  cases hhalted : machine.halted with
  | true => rw [proceed_of_halted hhalted, proceed_of_halted hhalted]
  | false =>
    -- Beyond the last instruction there is a fault for want of one, which is excluded.
    rcases hcurrent : machine.current? program with _ | instruction
    · have hproceed := proceed_of_current?_eq_none hhalted hcurrent
      exact absurd (.inr rfl) (hfound _ (congrArg Prod.snd hproceed))
    obtain ⟨found, hcurrent', hfollows⟩ := h _ _ hcurrent
    have hproceed := proceed_of_current? hhalted hcurrent
    have hdefined : instruction.change program.labels machine ≠ .error .undefinedLabel := by
      intro hmissing
      rw [hmissing] at hproceed
      exact hfound _ (congrArg Prod.snd hproceed) (.inl rfl)
    rw [hproceed, proceed_of_current? hhalted hcurrent', hfollows.line,
      Instruction.change_of_follows hfollows hdefined]

/-- Programs that extend each other have the same steps. -/
theorem proceed_of_extends_of_extends (h : program.Extends other) (h' : other.Extends program) :
    machine.proceed other = machine.proceed program := by
  cases hhalted : machine.halted with
  | true => rw [proceed_of_halted hhalted, proceed_of_halted hhalted]
  | false =>
    rcases hcurrent : machine.current? program with _ | instruction
    · rcases hcurrent' : machine.current? other with _ | found
      · rw [proceed_of_current?_eq_none hhalted hcurrent,
          proceed_of_current?_eq_none hhalted hcurrent']
      · obtain ⟨instruction, hinstruction, -⟩ := h' _ _ hcurrent'
        cases hcurrent.symm.trans hinstruction
    obtain ⟨found, hcurrent', hfollows⟩ := h _ _ hcurrent
    obtain ⟨_, hinstruction, hfollows'⟩ := h' _ _ hcurrent'
    obtain rfl := Option.some.inj (hcurrent.symm.trans hinstruction)
    rw [proceed_of_current? hhalted hcurrent, proceed_of_current? hhalted hcurrent', hfollows.line,
      Instruction.change_of_follows_of_follows hfollows hfollows']

theorem proceed_of_extends_of_done (h : program.Extends other)
    (hdone : (machine.step program).outcome = .done) :
    machine.proceed other = machine.proceed program := by
  refine proceed_of_extends h fun fault hfault => ?_
  rw [hdone] at hfault
  cases hfault

/-- A fault for which nothing is missing is one of a program that extends it as well. -/
theorem outcome_of_extends (h : program.Extends other) {fault : Fault}
    (hfault : (machine.step program).outcome = .fault fault) (hfound : ¬ fault.Missing) :
    (machine.step other).outcome = .fault fault := by
  have hproceed : machine.proceed other = machine.proceed program :=
    proceed_of_extends h fun found hfound' =>
      Outcome.fault.inj (hfault.symm.trans hfound') ▸ hfound
  exact (congrArg Prod.snd hproceed).trans hfault

/-! ## Runs -/

/-- A run of a program without faults is a run of a program that extends it. -/
theorem after_of_extends (h : program.Extends other) {n : Nat}
    (hfree : machine.FaultFree program n) :
    machine.after other n = machine.after program n := by
  induction n with
  | zero => rfl
  | succ n ih =>
    rw [after_succ, after_succ, ih (hfree.mono (Nat.le_succ n))]
    exact congrArg Prod.fst (proceed_of_extends_of_done h (hfree n (Nat.lt_succ_self n)))

theorem FaultFree.of_extends {n : Nat} (hfree : machine.FaultFree program n)
    (h : program.Extends other) : machine.FaultFree other n := by
  intro i hi
  rw [after_of_extends h (hfree.mono hi.le)]
  exact (congrArg Prod.snd (proceed_of_extends_of_done h (hfree i hi))).trans (hfree i hi)

theorem after_of_extends_of_extends (h : program.Extends other) (h' : other.Extends program)
    (n : Nat) : machine.after other n = machine.after program n := by
  induction n with
  | zero => rfl
  | succ n ih =>
    rw [after_succ, after_succ, ih]
    exact congrArg Prod.fst (proceed_of_extends_of_extends h h')

end Machine

end RegisterMachine
