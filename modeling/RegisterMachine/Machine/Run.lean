import RegisterMachine.Machine.Step

/-!
# Runs

A run steps a machine until it halts or a step fails. It has a *budget*, a number
of steps after which it stops in any case: a machine that has halted by then has
halted in time, so the check of the budget comes second.

A machine can also be left to itself (`Machine.finish`). Then the loop ends only if
the machine does, so what is given is that it cannot go on forever:

* `Machine.ends_of_runFrom`: a run that is not out of budget shows this.
-/

namespace RegisterMachine

/-- Why a run stops. -/
inductive Stop
  | halted
  | outOfBudget
  | fault (fault : Fault)
  | defect (defect : Defect)
  deriving DecidableEq, Repr

/-- The state at the end of a run, the number of the steps that did not fail, why
    the run stopped, and what was logged. -/
structure Run where
  machine : Machine
  steps : Nat
  stop : Stop
  log : Log
  deriving DecidableEq

namespace Machine

/-- Continues a run that has made some steps and logged some messages, with the
    budget that is left. -/
def runFrom (program : Program) : Nat → Machine → Nat → Log → Run
  | budget, machine, steps, log =>
    if machine.halted then ⟨machine, steps, .halted, log⟩
    else
      match budget with
      | 0 => ⟨machine, steps, .outOfBudget, log⟩
      | budget + 1 =>
        let step := machine.step program
        match step.outcome with
        | .done => runFrom program budget step.machine (steps + 1) (log ++ step.log)
        | .fault fault => ⟨step.machine, steps, .fault fault, log ++ step.log⟩
        | .defect defect => ⟨step.machine, steps, .defect defect, log ++ step.log⟩

/-- Runs a program with a budget. -/
def run (machine : Machine) (program : Program) (budget : Nat) : Run :=
  runFrom program budget machine 0 #[]

/-- A machine goes on to a state if it has not halted and its next step leads there. -/
def GoesOn (program : Program) (next machine : Machine) : Prop :=
  machine.halted = false ∧ (machine.step program).outcome = .done ∧
    next = (machine.step program).machine

/-- A machine comes to an end if it cannot go on forever. -/
abbrev Ends (program : Program) (machine : Machine) : Prop := Acc (GoesOn program) machine

variable {machine : Machine} {program : Program}

theorem goesOn_step (hhalted : ¬ machine.halted) (hdone : (machine.step program).outcome = .done) :
    GoesOn program (machine.step program).machine machine :=
  ⟨Bool.eq_false_iff.2 hhalted, hdone, rfl⟩

/-- Continues until the machine has halted or a step fails. -/
def finishFrom (program : Program) (machine : { machine : Machine // machine.Ends program })
    (log : Log) : Step :=
  if hhalted : machine.val.halted then ⟨machine, .done, log⟩
  else
    let step := machine.val.step program
    match hdone : step.outcome with
    | .done =>
      let next := ⟨step.machine, machine.property.inv (goesOn_step hhalted hdone)⟩
      finishFrom program next (log ++ step.log)
    | outcome => ⟨step.machine, outcome, log ++ step.log⟩
termination_by machine
decreasing_by exact goesOn_step hhalted hdone

/-- Runs a program without a budget: the state at the end, how the last step has ended, and
    all that was logged. -/
def finish (machine : Machine) (program : Program) (h : machine.Ends program) : Step :=
  finishFrom program ⟨machine, h⟩ #[]

theorem ends_of_runFrom {budget steps : Nat} {log : Log}
    (h : (runFrom program budget machine steps log).stop ≠ .outOfBudget) :
    machine.Ends program := by
  induction budget generalizing machine steps log with
  | zero =>
    -- Without any budget left, only a machine that has halted is not out of it.
    refine ⟨_, fun next ⟨hhalted, _, _⟩ => absurd ?_ h⟩
    rw [runFrom, hhalted]
    rfl
  | succ budget ih =>
    refine ⟨_, ?_⟩
    rintro next ⟨hhalted, hdone, rfl⟩
    rw [runFrom, hhalted] at h
    simp only [hdone] at h
    exact ih h

end Machine

end RegisterMachine
