import RegisterMachine.Proofs.Resolution

/-!
# Safety

Some operations of the machine are not defined everywhere: an operand is taken from a
list, a word is put into a memory, a counter is moved on, and a quotient is corrected by
one. Each of them stands behind a check, or is safe for a reason that lies in the state.
So no sequence of calls, of steps and of returns to the initial state, gets to a step
that fails otherwise than by a fault (`defect_unreachable`).

* `Machine.calls_induction`: what holds initially, and is kept by a step, holds after
  any calls;
* `Machine.step_outcome_ne_defect`: a machine with its stack in the memory has no defect;
* `Machine.inRange_calls`: the stack stays in the memory, and the program counter a
  number of 64 bits, if there are not too many instructions (`Program.Addressable`);
* `addressable_of_assemble`: the program of a source text has not.
-/

namespace RegisterMachine

/-- What may be asked of a machine: a step, or to return to the initial state. -/
inductive Call
  | step
  | reset
  deriving DecidableEq, Repr

/-- The program fits a machine of 64 bits: its instructions can be counted, with room to spare,
    and so can the indices of its labels. -/
structure Program.Addressable (program : Program) : Prop where
  size_lt : program.instructions.size < 2 ^ 63
  label_lt : ∀ name index, program.labels.get? name = some index → index < 2 ^ 64

namespace Machine

variable {machine : Machine} {program : Program}

/-- The state after a call. -/
def call (machine : Machine) (program : Program) : Call → Machine
  | .step => (machine.step program).machine
  | .reset => machine.reset

/-- The state after calls, one after the other. -/
def calls (machine : Machine) (program : Program) (calls : List Call) : Machine :=
  calls.foldl (·.call program) machine

/-- What holds of the initial state, and is kept by a step, holds after any calls. -/
theorem calls_induction {P : Machine → Prop} (hinitial : P initial)
    (hstep : ∀ machine, P machine → P (machine.step program).machine) (requests : List Call) :
    P (initial.calls program requests) := by
  have hcalls (machine : Machine) (h : P machine) : P (machine.calls program requests) := by
    induction requests generalizing machine with
    | nil => exact h
    | cons request rest ih =>
      refine ih _ ?_
      cases request with
      | step => exact hstep machine h
      | reset =>
        change P machine.reset
        rwa [reset_eq_initial]
  exact hcalls initial hinitial

theorem fits_of_sp_le (hsp : machine.sp ≤ 256) (change : Change) : change.Fits machine := by
  cases change with
  | push | call => exact hsp
  | move | store | compare | pop | jump | skip | ret | output | halt => trivial

theorem step_outcome_ne_defect (hsp : machine.sp ≤ 256) (defect : Defect) :
    (machine.step program).outcome ≠ .defect defect := by
  cases stepping machine program with
  | unfit _ _ _ hfits => exact absurd (fits_of_sp_le hsp _) hfits
  | halted _ hstep | ended _ _ hstep | refused _ _ _ hstep | executed _ _ _ _ hstep =>
    rw [hstep]
    exact Outcome.noConfusion

theorem pc_lt_of_current? {instruction : Instruction}
    (h : machine.current? program = some instruction) :
    machine.pc < program.instructions.size :=
  (Array.getElem?_eq_some_iff.1 h).1

/-- Where the program counter goes with a change. -/
theorem pc_next (machine : Machine) (change : Change) :
    (change.next machine).pc = match change.flow with
      | .next => machine.pc + 1
      | .jump target => target
      | .halt => machine.pc := by
  have hpc : (change.apply machine).pc = machine.pc := by
    cases change with
    | move location | store location | pop location => cases location <;> rfl
    | compare | push | jump | skip | call | ret | output | halt => rfl
  rw [Change.next, ← hpc]
  cases change.flow <;> rfl

theorem target_lt {labels : LabelTable} {opcode : Opcode} {operands : List Operand}
    {change : Change} {target : Nat} (h : Transition labels machine opcode operands change)
    (hlabels : ∀ name index, labels.get? name = some index → index < 2 ^ 64)
    (hflow : change.flow = .jump target) : target < 2 ^ 64 := by
  cases h with
  | jump _ _ htarget | call _ htarget =>
    cases hflow
    exact hlabels _ _ htarget
  | ret =>
    -- A return address is a word.
    next word _ hword =>
    cases hflow
    have := word.le_greatest
    omega
  | mov | push | pop | binary | unary | cmp | skip | out | hlt => cases hflow

theorem pc_step_lt (h : program.Addressable) (hpc : machine.pc < 2 ^ 64) :
    (machine.step program).machine.pc < 2 ^ 64 := by
  by_cases hdone : (machine.step program).outcome = .done
  · obtain ⟨_, hnext⟩ | ⟨_, change, _, hcurrent, htransition, _, hnext⟩ := step_done hdone
    · rwa [hnext]
    · rw [hnext, pc_next]
      have hlt := pc_lt_of_current? hcurrent
      have hsize := h.size_lt
      split
      · omega
      · next target hflow => exact target_lt htransition h.label_lt hflow
      · exact hpc
  · rwa [step_machine_of_ne_done hdone]

/-- The stack lies in the memory, and the program counter is a number of 64 bits. -/
structure InRange (machine : Machine) : Prop where
  sp_le : machine.sp ≤ 256
  pc_lt : machine.pc < 2 ^ 64

theorem inRange_step (h : program.Addressable) (hrange : machine.InRange) :
    (machine.step program).machine.InRange :=
  ⟨sp_step_le hrange.sp_le, pc_step_lt h hrange.pc_lt⟩

theorem inRange_calls (h : program.Addressable) (requests : List Call) :
    (initial.calls program requests).InRange :=
  calls_induction ⟨by decide, by decide⟩ (fun _ => inRange_step h) requests

end Machine

/-! ## Assembled programs -/

/-- There is at most one instruction on a line. -/
theorem SourceLines.size_le_length (texts : List (List Char)) : size texts ≤ texts.length :=
  (List.length_filterMap_le _ _).trans (Nat.le_of_eq List.length_zipIdx)

/-- The program of a source text is as large as the text at most. -/
theorem addressable_of_assemble {source : String} {program : Program}
    (h : assemble source = .ok program) (hsource : source.length < 2 ^ 63) :
    program.Addressable := by
  obtain ⟨-, rfl⟩ := assemble_eq_ok_iff.1 h
  have hlines : (Split.lines source.toList).length < 2 ^ 63 :=
    (Split.length_lines_le _).trans_lt hsource
  have hsize : (SourceLines.program (Split.lines source.toList)).instructions.size < 2 ^ 63 := by
    rw [SourceLines.size_program]
    exact (SourceLines.size_le_length _).trans_lt hlines
  refine ⟨hsize, fun name index hindex => ?_⟩
  have hle := SourceLines.labelsWithin_program _ name index hindex
  omega

/-- Whatever is asked of a machine, and in whichever order, no step has a defect: there is an
    operand for each that is asked for, a word is pushed into the memory, and a quotient that
    is computed exists. The stack pointer and the program counter, which are moved on by one,
    stay numbers of 64 bits. The program is that of a source text that fits a machine of
    64 bits, or it is any other with few enough instructions: the operands and the indices of
    the labels may be wild. -/
theorem defect_unreachable (program : Program) (requests : List Call)
    (h : program.Addressable ∨
      ∃ source : String, source.length < 2 ^ 63 ∧ assemble source = .ok program) :
    let machine := Machine.initial.calls program requests
    machine.sp ≤ 256 ∧
      (∀ defect, (machine.step program).outcome ≠ .defect defect) ∧
      machine.sp + 1 < 2 ^ 64 ∧ machine.pc < 2 ^ 64 ∧
      (∀ instruction, machine.current? program = some instruction → machine.pc + 1 < 2 ^ 64) ∧
      (∀ position address, Memory.address? 256 position = some address →
        (address : Nat) < 256 ∧ position = (address : Nat)) ∧
      ∀ a b : Value, b ≠ 0 → ∃ quotient, Value.floorDiv? a b = some quotient := by
  intro machine
  have haddressable : program.Addressable := by
    obtain h | ⟨source, hsource, hassemble⟩ := h
    · exact h
    · exact addressable_of_assemble hassemble hsource
  obtain ⟨hsp, hpc⟩ := Machine.inRange_calls haddressable requests
  refine ⟨hsp, Machine.step_outcome_ne_defect hsp, (Nat.succ_le_succ hsp).trans_lt (by decide), hpc,
    fun instruction hcurrent => ?_,
    fun position address haddress => ⟨address.isLt, Memory.address?_eq_some_iff.1 haddress⟩,
    fun a b hb => ⟨_, Value.floorDiv?_eq hb⟩⟩
  have hlt := Machine.pc_lt_of_current? hcurrent
  have hsize := haddressable.size_lt
  omega

/-- A jump to the greatest number of 64 bits. -/
def wildJump : Program :=
  ⟨#[⟨.jmp, [⟨"FAR", .symbol⟩], 1⟩], (∅ : LabelTable).insert "FAR" (2 ^ 64 - 1)⟩

/-- The jump is done, and the program counter is not moved on from there. -/
theorem defect_unreachable_wildJump :
    wildJump.Addressable ∧ (Machine.initial.calls wildJump [.step]).pc = 2 ^ 64 - 1 ∧
      ∀ requests, let machine := Machine.initial.calls wildJump requests
        machine.sp ≤ 256 ∧ machine.pc < 2 ^ 64 ∧
          ∀ defect, (machine.step wildJump).outcome ≠ .defect defect := by
  have hget (name : String) : wildJump.labels.get? name =
      if "FAR".toUpper = name.toUpper then some (2 ^ 64 - 1) else none := by
    rw [wildJump, LabelTable.get?_insert, LabelTable.get?_empty]
  have haddressable : wildJump.Addressable := by
    refine ⟨by decide, fun name index hindex => ?_⟩
    rw [hget] at hindex
    split at hindex
    · cases hindex
      decide
    · cases hindex
  have hcurrent : Machine.initial.current? wildJump = some ⟨.jmp, [⟨"FAR", .symbol⟩], 1⟩ := rfl
  obtain ⟨-, hmachine⟩ := Machine.step_branch rfl hcurrent rfl rfl ((hget "FAR").trans (if_pos rfl))
  refine ⟨haddressable, congrArg Machine.pc hmachine, fun requests => ?_⟩
  obtain ⟨hsp, hdefect, -, hpc, -⟩ := defect_unreachable wildJump requests (.inl haddressable)
  exact ⟨hsp, hpc, hdefect⟩

end RegisterMachine
