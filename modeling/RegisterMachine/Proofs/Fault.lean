import RegisterMachine.Proofs.Run

/-!
# Faults

A fault is all or nothing: it leaves the state as it was, whichever of the checks of
the instruction it came from, and a further step attempts the same instruction
again, with the same fault (`step_fault_atomic`).
-/

namespace RegisterMachine.Machine

variable {machine : Machine} {program : Program} {fault : Fault}

/-- A fault tells the source line of the instruction that it comes from, if there is one. -/
theorem line_of_step_fault (h : (machine.step program).outcome = .fault fault) :
    fault.line = (machine.current? program).map (·.line) := by
  cases stepping machine program with
  | halted _ hstep | unfit _ _ _ _ hstep | executed _ _ _ _ hstep =>
    rw [hstep] at h
    cases h
  | ended _ hcurrent hstep =>
    rw [hstep] at h
    cases h
    rw [hcurrent]
    rfl
  | refused _ hcurrent _ hstep =>
    rw [hstep] at h
    cases h
    rw [hcurrent]
    rfl

theorem current?_eq_none_iff :
    machine.current? program = none ↔ program.instructions.size ≤ machine.pc :=
  Array.getElem?_eq_none_iff

/-- A machine whose step leaves it alone is stuck there. -/
theorem after_eq_self (h : (machine.step program).machine = machine) (n : Nat) :
    machine.after program n = machine := by
  induction n with
  | zero => rfl
  | succ n ih => rw [after_succ, ih, h]

/-- A step that ends with a fault changes nothing. The fault tells the line of the
    instruction, and none only past the last instruction. However often it is
    tried again, the step ends with the same fault and still changes nothing. -/
theorem step_fault_atomic (program : Program) (machine : Machine) (fault : Fault)
    (h : (machine.step program).outcome = .fault fault) :
    (machine.step program).machine = machine ∧
      fault.line = (machine.current? program).map (·.line) ∧
      (fault.line = none ↔ program.instructions.size ≤ machine.pc) ∧
      ∀ n, machine.after program n = machine ∧
        ((machine.after program n).step program).outcome = .fault fault := by
  have hkeep : (machine.step program).machine = machine :=
    step_machine_of_ne_done (by rw [h]; exact Outcome.noConfusion)
  have hline := line_of_step_fault h
  refine ⟨hkeep, hline, ?_, fun n => ?_⟩
  · rw [hline, Option.map_eq_none_iff, current?_eq_none_iff]
  · have hafter := after_eq_self hkeep n
    exact ⟨hafter, by rw [hafter, h]⟩

/-- Popping to an immediate operand is refused after the top has been read: the word stays
    on the stack, on every attempt. -/
theorem step_fault_atomic_pop_immediate :
    let program : Program := ⟨#[⟨.pop, [⟨"5", .immediate 5⟩], 3⟩], ∅⟩
    let machine : Machine := { sp := 255 }
    (machine.step program).outcome = .fault ⟨.invalidOperand, some 3⟩ ∧
      (machine.step program).machine = machine ∧
      ∀ n, ((machine.after program n).step program).outcome =
        .fault ⟨.invalidOperand, some 3⟩ := by
  intro program machine
  have h : (machine.step program).outcome = .fault ⟨.invalidOperand, some 3⟩ := by decide
  obtain ⟨hkeep, -, -, hagain⟩ := step_fault_atomic program machine _ h
  exact ⟨h, hkeep, fun n => (hagain n).2⟩

end RegisterMachine.Machine
