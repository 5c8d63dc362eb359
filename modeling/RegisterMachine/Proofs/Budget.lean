import RegisterMachine.Machine.Run
import RegisterMachine.Proofs.Safety

/-!
# Budgets

Left to itself, a machine makes steps until it has halted or a step fails, after a
number of steps that does not depend on any budget (`StopsAfter`), or it never stops. A
run with a budget gets to this stop if that is in time (`InTime`), and is out of budget
otherwise (`running`). Halting with the last step of the budget is in time; failing in a
step after that is not, as the run does not get to make this step.

* `StopsAfter.unique`: a machine stops once, for one reason;
* `runFrom_of_running`, `runFrom_succ_of_stop?`: a run goes on for as long as the machine
  does, and stops where it stops;
* `run_stop_eq_iff`: the run stops for a reason if and only if the machine does, in time;
* `run_eq_finish`: left to itself, a machine comes to the end that a run with a budget shows;
* `ends_iff`: it comes to an end if and only if it stops.
-/

namespace RegisterMachine

/-- A run with a budget gets to a stop after a number of steps. Once the budget is used up, it still
    sees that the machine has halted, but it does not make the step that fails. -/
def Stop.InTime (stop : Stop) (n budget : Nat) : Prop :=
  n < budget ∨ n = budget ∧ stop = .halted

/-- Why a machine stops with a step that ends in some way: if it is done, the machine has
    halted. -/
def Stop.ofOutcome : Outcome → Stop
  | .done => .halted
  | .fault raised => .fault raised
  | .defect found => .defect found

theorem Stop.ofOutcome_ne_outOfBudget {outcome : Outcome} : ofOutcome outcome ≠ .outOfBudget := by
  cases outcome <;> simp [ofOutcome]

theorem Stop.inTime_halted_iff {n budget : Nat} : halted.InTime n budget ↔ n ≤ budget := by
  rw [InTime, Nat.le_iff_lt_or_eq, and_iff_left rfl]

theorem Stop.inTime_iff_lt {stop : Stop} {n budget : Nat} (h : stop ≠ .halted) :
    stop.InTime n budget ↔ n < budget :=
  or_iff_left fun hlast => h hlast.2

namespace Machine

variable {machine : Machine} {program : Program}

/-- Why the machine does not go on to a further state, if it does not. -/
def stop? (machine : Machine) (program : Program) : Option Stop :=
  if machine.halted then some .halted
  else
    match (machine.step program).outcome with
    | .done => none
    | .fault fault => some (.fault fault)
    | .defect defect => some (.defect defect)

/-- The machine makes a number of steps, and then stops: it has halted, or the next step
    fails. -/
structure StopsAfter (machine : Machine) (program : Program) (n : Nat) (stop : Stop) : Prop where
  goesOn : ∀ i < n, (machine.after program i).stop? program = none
  stop : (machine.after program n).stop? program = some stop

theorem stop?_eq_none_iff : machine.stop? program = none ↔
    machine.halted = false ∧ (machine.step program).outcome = .done := by
  unfold stop?
  cases machine.halted <;> cases (machine.step program).outcome <;> simp

theorem stop?_eq_halted_iff :
    machine.stop? program = some .halted ↔ machine.halted = true := by
  unfold stop?
  cases machine.halted <;> cases (machine.step program).outcome <;> simp

theorem stop?_ne_defect (hsp : machine.sp ≤ 256) (defect : Defect) :
    machine.stop? program ≠ some (.defect defect) := by
  have hne : (machine.step program).outcome ≠ .defect defect := step_outcome_ne_defect hsp defect
  unfold stop?
  cases machine.halted <;> cases h : (machine.step program).outcome <;> simp_all

theorem stop?_ne_outOfBudget : machine.stop? program ≠ some .outOfBudget := by
  unfold stop?
  cases machine.halted <;> cases (machine.step program).outcome <;> simp

/-- A machine stops once, for one reason. -/
theorem StopsAfter.unique {m n : Nat} {first second : Stop}
    (hfirst : machine.StopsAfter program m first) (hsecond : machine.StopsAfter program n second) :
    m = n ∧ first = second := by
  have hnot {i j : Nat} {stop stop' : Stop} (h : machine.StopsAfter program i stop)
      (h' : machine.StopsAfter program j stop') : ¬ i < j := by
    intro hlt
    have hgoes := h'.goesOn i hlt
    rw [h.stop] at hgoes
    cases hgoes
  obtain rfl : m = n := Nat.le_antisymm (Nat.not_lt.1 (hnot hsecond hfirst))
    (Nat.not_lt.1 (hnot hfirst hsecond))
  exact ⟨rfl, Option.some.inj (hfirst.stop.symm.trans hsecond.stop)⟩

/-- A machine that does not go on from one of its states stops there or before. -/
theorem exists_stopsAfter_of_ne_none {i : Nat}
    (h : (machine.after program i).stop? program ≠ none) :
    ∃ n ≤ i, ∃ stop, machine.StopsAfter program n stop := by
  have hstops : ∃ n, (machine.after program n).stop? program ≠ none := ⟨i, h⟩
  obtain ⟨stop, hstop⟩ := Option.ne_none_iff_exists'.1 (Nat.find_spec hstops)
  exact ⟨Nat.find hstops, Nat.find_min' hstops h, stop,
    fun j hj => not_not.1 (Nat.find_min hstops hj), hstop⟩

/-! ## Runs -/

/-- A run goes on for as long as the machine does. -/
theorem runFrom_of_running {n : Nat} (h : ∀ i < n, (machine.after program i).stop? program = none)
    (budget steps : Nat) (log : Log) : ∃ log', runFrom program (n + budget) machine steps log =
      runFrom program budget (machine.after program n) (steps + n) log' := by
  induction n generalizing budget with
  | zero => exact ⟨log, by rw [Nat.zero_add]; rfl⟩
  | succ n ih =>
    -- The step that is made last takes one from the budget that is left before it.
    obtain ⟨log', hrun⟩ := ih (fun i hi => h i (Nat.lt_succ_of_lt hi)) (budget + 1)
    obtain ⟨hhalted, hdone⟩ := stop?_eq_none_iff.1 (h n n.lt_succ_self)
    refine ⟨log' ++ ((machine.after program n).step program).log, ?_⟩
    rw [Nat.add_right_comm, Nat.add_assoc, hrun, runFrom, hhalted]
    simp only [hdone]
    rfl

theorem runFrom_of_halted (h : machine.halted = true) (budget steps : Nat) (log : Log) :
    runFrom program budget machine steps log = ⟨machine, steps, .halted, log⟩ := by
  cases budget <;> rw [runFrom, if_pos h]

/-- A run that is not out of budget stops where the machine does. -/
theorem runFrom_succ_of_stop? {stop : Stop} (h : machine.stop? program = some stop)
    (budget steps : Nat) (log : Log) :
    ∃ log', runFrom program (budget + 1) machine steps log = ⟨machine, steps, stop, log'⟩ := by
  cases hhalted : machine.halted with
  | true =>
    rw [stop?_eq_halted_iff.2 hhalted] at h
    cases h
    exact ⟨log, runFrom_of_halted hhalted _ _ _⟩
  | false =>
    refine ⟨log ++ (machine.step program).log, ?_⟩
    -- The run ends in the state after the step, which has changed nothing.
    have hkeep : (machine.step program).outcome ≠ .done →
        (machine.step program).machine = machine := step_machine_of_ne_done
    rw [stop?, hhalted] at h
    rw [runFrom, hhalted]
    cases houtcome : (machine.step program).outcome with
    | done =>
      rw [houtcome] at h
      cases h
    | fault | defect =>
      rw [houtcome] at h hkeep
      cases h
      simp only [houtcome, hkeep Outcome.noConfusion]
      rfl

/-- The ways in which a run goes. -/
inductive Running (machine : Machine) (program : Program) (budget : Nat) : Prop
  | stopped {n : Nat} {stop : Stop} {log : Log} (hstops : machine.StopsAfter program n stop)
      (htime : stop.InTime n budget)
      (hrun : machine.run program budget = ⟨machine.after program n, n, stop, log⟩)
  | outOfBudget {log : Log}
      (hlate : ∀ n stop, machine.StopsAfter program n stop → ¬ stop.InTime n budget)
      (hrun : machine.run program budget =
        ⟨machine.after program budget, budget, .outOfBudget, log⟩)

theorem running (machine : Machine) (program : Program) (budget : Nat) :
    machine.Running program budget := by
  by_cases hgoes : ∀ i < budget, (machine.after program i).stop? program = none
  · obtain ⟨log, hrun⟩ := runFrom_of_running hgoes 0 0 #[]
    rw [Nat.zero_add] at hrun
    cases hhalted : (machine.after program budget).halted with
    | true =>
      exact .stopped ⟨hgoes, stop?_eq_halted_iff.2 hhalted⟩ (.inr ⟨rfl, rfl⟩)
        (hrun.trans (runFrom_of_halted hhalted _ _ _))
    | false =>
      rw [runFrom, hhalted] at hrun
      refine .outOfBudget (fun n stop hstops htime => ?_) hrun
      obtain hlt | ⟨rfl, rfl⟩ := htime
      · cases hstops.stop.symm.trans (hgoes n hlt)
      · cases hhalted.symm.trans (stop?_eq_halted_iff.1 hstops.stop)
  · push Not at hgoes
    obtain ⟨i, hi, hne⟩ := hgoes
    -- The first of the states from which the machine does not go on is before the last step of
    -- the budget, so there is a step left to see why.
    obtain ⟨n, hle, stop, hstops⟩ := exists_stopsAfter_of_ne_none hne
    obtain ⟨left, rfl⟩ := Nat.exists_eq_add_of_lt (hle.trans_lt hi)
    obtain ⟨log, hrun⟩ := runFrom_of_running hstops.goesOn (left + 1) 0 #[]
    obtain ⟨log', hstop⟩ := runFrom_succ_of_stop? hstops.stop left (0 + n) log
    rw [Nat.zero_add] at hrun hstop
    exact .stopped hstops (.inl (by omega)) (hrun.trans hstop)

/-- A run stops for a reason if and only if the machine does, in time. -/
theorem run_stop_eq_iff {stop : Stop} (hne : stop ≠ .outOfBudget) (budget : Nat) :
    (machine.run program budget).stop = stop ↔
      ∃ n, machine.StopsAfter program n stop ∧ stop.InTime n budget := by
  cases running machine program budget with
  | stopped hstops htime hrun =>
    rw [hrun]
    constructor
    · rintro rfl
      exact ⟨_, hstops, htime⟩
    · rintro ⟨n, hstops', -⟩
      exact (hstops.unique hstops').2
  | outOfBudget hlate hrun =>
    rw [hrun]
    exact iff_of_false hne.symm fun ⟨n, hstops, htime⟩ => hlate n stop hstops htime

theorem run_stop_eq_halted_iff {budget : Nat} : (machine.run program budget).stop = .halted ↔
    ∃ n ≤ budget, machine.StopsAfter program n .halted := by
  have hne : Stop.halted ≠ .outOfBudget := nofun
  simp only [run_stop_eq_iff hne, Stop.inTime_halted_iff, and_comm]

theorem run_stop_eq_fault_iff {budget : Nat} {fault : Fault} :
    (machine.run program budget).stop = .fault fault ↔
      ∃ n < budget, machine.StopsAfter program n (.fault fault) := by
  have hne : Stop.fault fault ≠ .outOfBudget := nofun
  have hne' : Stop.fault fault ≠ .halted := nofun
  simp only [run_stop_eq_iff hne, Stop.inTime_iff_lt hne', and_comm]

theorem run_stop_ne_defect (hsp : machine.sp ≤ 256) (budget : Nat) (defect : Defect) :
    (machine.run program budget).stop ≠ .defect defect := by
  intro h
  have hne : Stop.defect defect ≠ .outOfBudget := nofun
  obtain ⟨n, hstops, -⟩ := (run_stop_eq_iff hne budget).1 h
  exact stop?_ne_defect (sp_after_le hsp n) defect hstops.stop

/-- A run that is long enough is known as a whole, its log apart. -/
theorem StopsAfter.run_eq {n budget : Nat} {stop : Stop} (h : machine.StopsAfter program n stop)
    (htime : stop.InTime n budget) :
    ∃ log, machine.run program budget = ⟨machine.after program n, n, stop, log⟩ := by
  cases running machine program budget with
  | stopped hstops _ hrun =>
    obtain ⟨rfl, rfl⟩ := h.unique hstops
    exact ⟨_, hrun⟩
  | outOfBudget hlate => exact absurd htime (hlate n stop h)

/-! ## Without a budget -/

/-- A machine that comes to an end does so in every run with a budget that is enough. -/
theorem runFrom_eq_finishFrom (h : machine.Ends program) (log : Log) :
    ∃ n, ∀ budget > n, ∀ steps, runFrom program budget machine steps log =
      let final := finishFrom program ⟨machine, h⟩ log
      ⟨final.machine, steps + n, .ofOutcome final.outcome, final.log⟩ := by
  -- The induction goes along the steps that are made, as both loops do.
  induction h generalizing log with
  | intro machine hnext ih =>
    rw [finishFrom]
    split
    · next hhalted => exact ⟨0, fun budget _ steps => runFrom_of_halted hhalted budget steps log⟩
    · next hhalted =>
      dsimp only
      split
      · next hdone =>
        obtain ⟨n, hrun⟩ := ih _ (goesOn_step hhalted hdone) (log ++ (machine.step program).log)
        refine ⟨n + 1, fun budget hbudget steps => ?_⟩
        obtain ⟨left, rfl⟩ := Nat.exists_eq_add_of_lt (Nat.zero_lt_of_lt hbudget)
        rw [Nat.zero_add, runFrom, if_neg hhalted]
        simp only [hdone]
        rw [hrun left (by omega) (steps + 1), Nat.add_assoc, Nat.add_comm 1 n]
      · next hfailed =>
        refine ⟨0, fun budget hbudget steps => ?_⟩
        obtain ⟨left, rfl⟩ := Nat.exists_eq_add_of_lt hbudget
        rw [Nat.zero_add, runFrom, if_neg hhalted]
        cases houtcome : (machine.step program).outcome with
        | done => exact absurd houtcome hfailed
        | fault | defect =>
          simp only [houtcome]
          rfl

/-- Left to itself, a machine gets to the state, for the reason and with the log that a run with
    a budget shows. -/
theorem run_eq_finish (h : machine.Ends program) :
    ∃ n, ∀ budget > n, machine.run program budget =
      let final := machine.finish program h
      ⟨final.machine, n, .ofOutcome final.outcome, final.log⟩ := by
  obtain ⟨n, hrun⟩ := runFrom_eq_finishFrom h #[]
  exact ⟨n, fun budget hbudget => by rw [run, hrun budget hbudget 0, Nat.zero_add, finish]⟩

/-- A machine comes to an end if and only if it stops. -/
theorem ends_iff : machine.Ends program ↔ ∃ n stop, machine.StopsAfter program n stop := by
  constructor
  · intro h
    obtain ⟨n, hrun⟩ := run_eq_finish h
    have hstop := congrArg Run.stop (hrun (n + 1) n.lt_succ_self)
    obtain ⟨m, hstops, -⟩ := (run_stop_eq_iff Stop.ofOutcome_ne_outOfBudget _).1 hstop
    exact ⟨m, _, hstops⟩
  · rintro ⟨n, stop, hstops⟩
    obtain ⟨log, hrun⟩ := hstops.run_eq (.inl n.lt_succ_self)
    have hstop : (machine.run program (n + 1)).stop ≠ .outOfBudget := by
      rw [hrun]
      rintro rfl
      exact stop?_ne_outOfBudget hstops.stop
    exact ends_of_runFrom hstop

end Machine

end RegisterMachine
