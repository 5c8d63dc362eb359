import Mathlib.Data.List.DropRight
import RegisterMachine.Proofs.Safety

/-!
# Histories

A history is what has been asked of a machine, step after step with a return to the
initial state now and then. Such a return leaves no trace: the machine is where the
initial one gets with the steps since then, and those steps have gone alike
(`calls_eq_calls_sinceReset`).

A machine that has halted has nothing more to do until it returns to the initial state.
It stands at the instruction that has halted it (`AtHalt`).

* `answers`: the steps made during a history;
* `Call.sinceReset`: how many of them come after the last return;
* `calls_append`, `answers_append`: one history after another;
* `atHalt_step`: a step gets to such an instruction, or stays there, if it leaves the
  machine halted.
-/

namespace RegisterMachine

namespace Call

/-- The number of the steps after the last return to the initial state, or of all steps if there
    is none. -/
def sinceReset (requests : List Call) : Nat := (requests.rtakeWhile (· == .step)).length

theorem rtakeWhile_step (requests : List Call) :
    requests.rtakeWhile (· == .step) = List.replicate (sinceReset requests) .step :=
  List.eq_replicate_of_mem fun _ h => eq_of_beq (List.mem_rtakeWhile_imp (p := (· == Call.step)) h)

end Call

namespace Machine

variable {machine : Machine} {program : Program}

/-- The steps made during calls, in their order. -/
def answers (machine : Machine) (program : Program) : List Call → List Step
  | [] => []
  | .step :: rest => machine.step program :: (machine.step program).machine.answers program rest
  | .reset :: rest => machine.reset.answers program rest

/-- A machine that has halted stands at an instruction that halts, with no operands. -/
def AtHalt (machine : Machine) (program : Program) : Prop :=
  machine.halted = true → ∃ line, machine.current? program = some ⟨.hlt, [], line⟩

theorem calls_append (requests others : List Call) :
    machine.calls program (requests ++ others) =
      (machine.calls program requests).calls program others :=
  List.foldl_append

theorem answers_append (requests others : List Call) :
    machine.answers program (requests ++ others) =
      machine.answers program requests ++
        (machine.calls program requests).answers program others := by
  induction requests generalizing machine with
  | nil => rfl
  | cons request rest ih =>
    cases request with
    | step => exact congrArg (machine.step program :: ·) ih
    | reset => exact ih

/-- Calls that do not end with a step end in the initial state. -/
theorem calls_rdropWhile_step (requests : List Call) :
    initial.calls program (requests.rdropWhile (· == .step)) = initial := by
  have hlast := List.rdropWhile_last_not (· == Call.step) requests
  rcases List.eq_nil_or_concat' (requests.rdropWhile (· == .step)) with hnil | ⟨rest, call, hcall⟩
  · rw [hnil]
    rfl
  · simp only [hcall, List.getLast_append_singleton] at hlast
    rw [hcall, calls_append]
    cases call with
    | step => exact absurd rfl (hlast (by simp))
    | reset => exact reset_eq_initial _

theorem length_answers_replicate_step (n : Nat) :
    (machine.answers program (List.replicate n .step)).length = n := by
  induction n generalizing machine with
  | zero => rfl
  | succ n ih => exact congrArg Nat.succ ih

/-! ## Halted machines -/

theorem step_of_halted (h : machine.halted = true) :
    machine.step program = ⟨machine, .done, #[]⟩ := by
  rw [step, if_pos h]

/-- Steps do nothing to a machine that has halted. -/
theorem calls_replicate_step_of_halted (h : machine.halted = true) (n : Nat) :
    machine.calls program (List.replicate n .step) = machine := by
  induction n with
  | zero => rfl
  | succ n ih =>
    rw [List.replicate_succ, calls, List.foldl_cons, call, step_of_halted h]
    exact ih

/-- Only one operation halts the machine, and it has no operands. -/
theorem eq_hlt_of_halt {labels : LabelTable} {opcode : Opcode} {operands : List Operand}
    (h : Transition labels machine opcode operands .halt) : opcode = .hlt ∧ operands = [] := by
  cases h with
  | hlt => exact ⟨rfl, rfl⟩

theorem atHalt_step (h : machine.AtHalt program) :
    (machine.step program).machine.AtHalt program := by
  intro hhalted
  by_cases hdone : (machine.step program).outcome = .done
  swap
  · rw [step_machine_of_ne_done hdone] at hhalted ⊢
    exact h hhalted
  obtain ⟨hbefore, hnext⟩ | ⟨instruction, change, hbefore, hcurrent, htransition, -, hnext⟩ :=
    step_done hdone
  · rw [hnext]
    exact h hbefore
  · rw [hnext, Change.halted_next, hbefore, Bool.false_or, decide_eq_true_eq] at hhalted
    obtain rfl := hhalted
    obtain ⟨opcode, operands, line⟩ := instruction
    obtain ⟨rfl, rfl⟩ := eq_hlt_of_halt htransition
    rw [hnext]
    exact ⟨line, hcurrent⟩

/-- After any history, the state is that of the initial machine after as many steps as there
    have been since the last return to the initial state, and these steps have gone alike.
    A machine that has halted stands at an instruction that halts. However many steps are
    asked of it, it makes each without a fault and without changing anything. -/
theorem calls_eq_calls_sinceReset (program : Program) (requests : List Call) :
    let recent := List.replicate (Call.sinceReset requests) Call.step
    initial.calls program requests = initial.calls program recent ∧
      initial.answers program recent <:+ initial.answers program requests ∧
      (initial.answers program recent).length = Call.sinceReset requests ∧
      ((initial.calls program requests).halted = true →
        (∃ line, (initial.calls program requests).current? program = some ⟨.hlt, [], line⟩) ∧
        ∀ n, let later := initial.calls program (requests ++ List.replicate n .step)
          later = initial.calls program requests ∧ later.step program = ⟨later, .done, #[]⟩) := by
  intro recent
  have hrecent : requests.rdropWhile (· == .step) ++ recent = requests := by
    rw [show recent = _ from (Call.rtakeWhile_step requests).symm,
      List.rdropWhile_append_rtakeWhile]
  have hcalls : initial.calls program requests = initial.calls program recent := by
    rw [← hrecent, calls_append, calls_rdropWhile_step]
  refine ⟨hcalls, ?_, length_answers_replicate_step _, fun hhalted => ⟨?_, fun n => ?_⟩⟩
  · rw [← hrecent, answers_append, calls_rdropWhile_step]
    exact List.suffix_append _ _
  · exact calls_induction (P := (AtHalt · program)) Bool.noConfusion (fun _ => atHalt_step) requests
      hhalted
  · intro later
    have hlater : later = initial.calls program requests := by
      rw [← calls_replicate_step_of_halted hhalted n, ← calls_append]
    rw [hlater, step_of_halted hhalted]
    exact ⟨rfl, rfl⟩

/-- A program that pushes a word, and halts. -/
def pushAndHalt : Program where
  instructions := #[⟨.push, [⟨"7", .immediate 7⟩], 1⟩, ⟨.hlt, [], 2⟩]
  labels := ∅

/-- Once it has halted, the machine returns to the initial state, and then halts again for good. -/
theorem calls_eq_calls_sinceReset_pushAndHalt :
    let requests : List Call := [.step, .step, .step, .reset, .step, .step]
    initial.calls pushAndHalt requests = initial.calls pushAndHalt [.step, .step] ∧
      ∀ n, initial.calls pushAndHalt (requests ++ List.replicate n .step) =
        initial.calls pushAndHalt requests := by
  intro requests
  obtain ⟨hcalls, -, -, hhalted⟩ := calls_eq_calls_sinceReset pushAndHalt requests
  obtain ⟨-, hstays⟩ := hhalted (by decide +kernel)
  exact ⟨hcalls, fun n => (hstays n).1⟩

end Machine

end RegisterMachine
