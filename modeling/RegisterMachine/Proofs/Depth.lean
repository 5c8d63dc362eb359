import RegisterMachine.Proofs.Run

/-!
# The depth of the stack

The stack grows by one word when a push or a call succeeds, shrinks by one when a pop or a
return does, and nothing else moves the stack pointer: neither another operation, nor
a word that is stored somewhere, be it on the stack, nor a step that fails. So the depth
of the stack is the number of the steps that have pushed less that of the steps that have
popped (`sp_after_initial`).

* `Succeeds`: the next step executes an operation of a kind, and is done;
* `successes`: the number of such steps in a run;
* `sp_step_add`, `sp_after_add`: the account of one step, and that of a run.
-/

namespace RegisterMachine

namespace Opcode

/-- The operations that put a word onto the stack. -/
def pushes : Opcode → Bool
  | .push | .call => true
  | _ => false

/-- The operations that take a word off the stack. -/
def pops : Opcode → Bool
  | .pop | .ret => true
  | _ => false

theorem not_pushes_nor_pops_of_stores {opcode : Opcode} (h : opcode.stores) :
    opcode.pushes = false ∧ opcode.pops = false := by
  cases opcode <;> first | exact ⟨rfl, rfl⟩ | cases h

theorem not_pushes_nor_pops_of_branches {opcode : Opcode} (h : opcode.branches) :
    opcode.pushes = false ∧ opcode.pops = false := by
  cases opcode <;> first | exact ⟨rfl, rfl⟩ | cases h

end Opcode

namespace Machine

/-- The next step executes an operation of a kind, and is done. -/
def Succeeds (machine : Machine) (program : Program) (kind : Opcode → Bool) : Prop :=
  machine.halted = false ∧ (machine.current? program).any (kind ·.opcode) = true ∧
    (machine.step program).outcome = .done

instance (machine : Machine) (program : Program) (kind : Opcode → Bool) :
    Decidable (machine.Succeeds program kind) :=
  inferInstanceAs (Decidable (_ ∧ _ ∧ _))

/-- The number of the steps that succeed with an operation of a kind, among the first ones of
    a machine. -/
def successes (machine : Machine) (program : Program) (kind : Opcode → Bool) (n : Nat) : Nat :=
  (List.range n).countP fun i => (machine.after program i).Succeeds program kind

variable {machine : Machine} {program : Program} {kind : Opcode → Bool}

theorem successes_succ (n : Nat) :
    machine.successes program kind (n + 1) = machine.successes program kind n +
      if (machine.after program n).Succeeds program kind then 1 else 0 := by
  rw [successes, List.range_succ, List.countP_append, List.countP_singleton, ← successes]
  simp only [decide_eq_true_eq]

theorem not_succeeds_of_ne_done (h : (machine.step program).outcome ≠ .done) :
    ¬ machine.Succeeds program kind :=
  fun hsucceeds => h hsucceeds.2.2

theorem not_succeeds_of_halted (h : machine.halted = true) : ¬ machine.Succeeds program kind := by
  rintro ⟨hhalted, -⟩
  rw [h] at hhalted
  cases hhalted

theorem succeeds_iff {instruction : Instruction} (hhalted : machine.halted = false)
    (hcurrent : machine.current? program = some instruction)
    (hdone : (machine.step program).outcome = .done) :
    machine.Succeeds program kind ↔ kind instruction.opcode = true := by
  simp only [Succeeds, hhalted, hcurrent, hdone, Option.any_some, true_and, and_true]

/-- The account of a transition: an operation that pushes finds room on the stack. -/
theorem sp_next_add {labels : LabelTable} {opcode : Opcode} {operands : List Operand}
    {change : Change} (h : Transition labels machine opcode operands change) :
    (change.next machine).sp + (if opcode.pushes then 1 else 0) =
      machine.sp + if opcode.pops then 1 else 0 := by
  rw [Change.sp_next]
  cases h with
  | push hne | call hne => exact Nat.sub_add_cancel (Nat.pos_of_ne_zero hne)
  | binary hstores | unary hstores =>
    obtain ⟨hpushes, hpops⟩ := Opcode.not_pushes_nor_pops_of_stores hstores
    rw [hpushes, hpops]
    rfl
  | jump hbranches | skip hbranches =>
    obtain ⟨hpushes, hpops⟩ := Opcode.not_pushes_nor_pops_of_branches hbranches
    rw [hpushes, hpops]
    rfl
  | mov | pop | cmp | ret | out | hlt => rfl

/-- The account of a step. -/
theorem sp_step_add (machine : Machine) (program : Program) :
    (machine.step program).machine.sp +
        (if machine.Succeeds program Opcode.pushes then 1 else 0) =
      machine.sp + if machine.Succeeds program Opcode.pops then 1 else 0 := by
  by_cases hdone : (machine.step program).outcome = .done
  swap
  · rw [step_machine_of_ne_done hdone, if_neg (not_succeeds_of_ne_done hdone),
      if_neg (not_succeeds_of_ne_done hdone)]
  obtain ⟨hhalted, hnext⟩ | ⟨instruction, change, hhalted, hcurrent, htransition, -, hnext⟩ :=
    step_done hdone
  · rw [hnext, if_neg (not_succeeds_of_halted hhalted), if_neg (not_succeeds_of_halted hhalted)]
  · simp only [succeeds_iff hhalted hcurrent hdone, hnext]
    exact sp_next_add htransition

/-- The account of a run. -/
theorem sp_after_add (machine : Machine) (program : Program) (n : Nat) :
    (machine.after program n).sp + machine.successes program Opcode.pushes n =
      machine.sp + machine.successes program Opcode.pops n := by
  induction n with
  | zero => rfl
  | succ n ih =>
    have hstep := sp_step_add (machine.after program n) program
    rw [after_succ, successes_succ, successes_succ]
    omega

/-- The depth of the stack is at all times the number of the pushes and calls that have
    succeeded less that of the pops and returns, which never exceeds the size of the memory
    nor falls below zero. After as many of the ones as of the others, the stack pointer is
    back where it was. A step that is neither does not move it. -/
theorem sp_after_initial (program : Program) :
    (∀ n, 256 - ((initial.after program n).sp : Int) =
        (initial.successes program Opcode.pushes n : Int) -
          initial.successes program Opcode.pops n) ∧
    (∀ n, 0 ≤ (initial.successes program Opcode.pushes n : Int) -
          initial.successes program Opcode.pops n ∧
        (initial.successes program Opcode.pushes n : Int) -
          initial.successes program Opcode.pops n ≤ 256) ∧
    (∀ m n, (initial.after program m).successes program Opcode.pushes n =
          (initial.after program m).successes program Opcode.pops n →
        (initial.after program (m + n)).sp = (initial.after program m).sp) ∧
    ∀ machine : Machine, ¬ machine.Succeeds program Opcode.pushes →
      ¬ machine.Succeeds program Opcode.pops →
      (machine.step program).machine.sp = machine.sp := by
  have haccount (n : Nat) : (initial.after program n).sp + initial.successes program Opcode.pushes n
      = 256 + initial.successes program Opcode.pops n := sp_after_add initial program n
  refine ⟨fun n => ?_, fun n => ?_, fun m n heq => ?_, fun machine hpushes hpops => ?_⟩
  · have := haccount n
    omega
  · have := haccount n
    have hle : (initial.after program n).sp ≤ 256 := sp_after_le (Nat.le_refl 256) n
    omega
  · have hstretch := sp_after_add (initial.after program m) program n
    rw [after_add]
    omega
  · have hstep := sp_step_add machine program
    rwa [if_neg hpushes, if_neg hpops] at hstep

/-- A program that pushes a word, fails to pop it, and stores a word on the stack. -/
def failedPop : Program where
  instructions := #[
    ⟨.push, [⟨"7", .immediate 7⟩], 1⟩,
    ⟨.mov, [⟨"[255]", .direct 255⟩, ⟨"9", .immediate 9⟩], 2⟩,
    ⟨.pop, [⟨"5", .immediate 5⟩], 3⟩]
  labels := ∅

/-- The pop that fails does not count, nor does the word that is stored on the stack. -/
theorem sp_after_initial_failedPop :
    (initial.after failedPop 4).sp = (initial.after failedPop 1).sp ∧
      256 - ((initial.after failedPop 4).sp : Int) = 1 := by
  obtain ⟨hdepth, -, hback, -⟩ := sp_after_initial failedPop
  refine ⟨hback 1 3 (by decide +kernel), (hdepth 4).trans ?_⟩
  decide +kernel

end Machine

end RegisterMachine
