import RegisterMachine.Proofs.Safety
import RegisterMachine.Proofs.Subroutine

/-!
# The confinement of the program counter

The program counter of an assembled program stays among the instructions, or just behind
the last one, wherever it goes by itself: to the next instruction, to a label, or back to
a call. There is one way out. A return takes any word for an address, and it may find one
on the stack that no call has put there. Then the program counter is beyond the
instructions, at a word still, and stays there: each further step ends with a fault
(`pc_confined`).

* `Writes`, `LastWrite`: which steps of a run write to a cell, and which one did so last;
* `exists_lastWrite_or_eq`: a cell holds the word that was last written to it, or its first
  one;
* `cell_step_of_call`: a call only writes the address of an instruction, or the one behind;
* `executes_ret_of_pc_step_gt`: only a return leads beyond the instructions.
-/

namespace RegisterMachine.Machine

variable {machine : Machine} {program : Program} {address : Fin 256}

/-! ## Writes -/

/-- The next step writes a word to a cell: it stores the word there, or pushes it. -/
def Writes (machine : Machine) (program : Program) (address : Fin 256) : Prop :=
  ((machine.step program).outcome = .done ∧
      machine.storePosition? program = some ((address : Nat) : Int)) ∨
    (machine.Succeeds program Opcode.pushes ∧ machine.sp = address + 1)

/-- Among the first `n` steps of a machine, the one after `j` steps is the last to write to a
    cell. -/
structure LastWrite (machine : Machine) (program : Program) (address : Fin 256) (n j : Nat) :
    Prop where
  lt : j < n
  writes : (machine.after program j).Writes program address
  not_writes : ∀ i, j < i → i < n → ¬ (machine.after program i).Writes program address

theorem cell_initial (address : Fin 256) : (initial.cell address).toInt = 0 := by
  simp [cell, initial, Memory.zero]

/-- A step leaves a cell alone to which it does not write. -/
theorem cell_step_of_not_writes (h : ¬ machine.Writes program address) :
    (machine.step program).machine.cell address = machine.cell address := by
  by_cases hdone : (machine.step program).outcome = .done
  swap
  · rw [step_machine_of_ne_done hdone]
  obtain ⟨-, hnext⟩ | ⟨instruction, change, hhalted, hcurrent, htransition, -, hnext⟩ :=
    step_done hdone
  · rw [hnext]
  · rw [hnext]
    refine cell_next_of_ne htransition (fun hlocation => h (.inl ⟨hdone, ?_⟩))
      fun hpushes hsp => h (.inr ⟨?_, hsp⟩)
    · exact storePosition?_of_location? hhalted hcurrent htransition hlocation
    · exact (succeeds_iff hhalted hcurrent hdone).2 hpushes

/-- After a run, a cell holds its first word, or the one that was last written to it. -/
theorem exists_lastWrite_or_eq (machine : Machine) (program : Program) (address : Fin 256)
    (n : Nat) :
    (machine.after program n).cell address = machine.cell address ∨
      ∃ j, machine.LastWrite program address n j ∧
        (machine.after program n).cell address = (machine.after program (j + 1)).cell address := by
  induction n with
  | zero => exact .inl rfl
  | succ n ih =>
    by_cases hwrites : (machine.after program n).Writes program address
    · exact .inr ⟨n, ⟨Nat.lt_succ_self n, hwrites, fun i hi hlt => by omega⟩, rfl⟩
    rw [after_succ, cell_step_of_not_writes hwrites]
    refine ih.imp_right fun ⟨j, hlast, hcell⟩ => ⟨j, ?_, hcell⟩
    refine ⟨hlast.lt.trans (Nat.lt_succ_self n), hlast.writes, fun i hi hlt => ?_⟩
    rcases Nat.lt_succ_iff_lt_or_eq.1 hlt with hlt | rfl
    · exact hlast.not_writes i hi hlt
    · exact hwrites

/-- A call only writes the address of an instruction that is not the first, or the one behind
    the last. -/
theorem cell_step_of_call (hcall : machine.Executes program .call)
    (hwrites : machine.Writes program address) :
    1 ≤ ((machine.step program).machine.cell address).toInt ∧
      ((machine.step program).machine.cell address).toInt ≤ program.instructions.size := by
  obtain ⟨-, hstore⟩ | ⟨hsucceeds, hsp⟩ := hwrites
  · rw [storePosition?_eq_none hcall rfl] at hstore
    cases hstore
  · obtain ⟨base, hbase, -, hcell⟩ := step_call hcall hsucceeds.2.2
    obtain rfl : base = address := Fin.ext (by omega)
    obtain ⟨instruction, hcurrent, -⟩ := Option.map_eq_some_iff.1 hcall.2
    have hlt := pc_lt_of_current? hcurrent
    rw [hcell]
    omega

/-! ## The program counter -/

/-- A step from among the instructions to beyond them is a return. -/
theorem executes_ret_of_pc_step_gt (hlabels : program.LabelsWithin)
    (hle : machine.pc ≤ program.instructions.size)
    (hgt : program.instructions.size < (machine.step program).machine.pc) :
    machine.Executes program .ret ∧ (machine.step program).outcome = .done ∧
      (machine.step program).machine.halted = false := by
  by_cases hdone : (machine.step program).outcome = .done
  swap
  · rw [step_machine_of_ne_done hdone] at hgt
    exact absurd hle (Nat.not_le.2 hgt)
  obtain ⟨-, hnext⟩ | ⟨instruction, change, hhalted, hcurrent, htransition, -, hnext⟩ :=
    step_done hdone
  · rw [hnext] at hgt
    exact absurd hle (Nat.not_le.2 hgt)
  obtain ⟨opcode, operands, line⟩ := instruction
  have hlt := pc_lt_of_current? hcurrent
  rw [hnext, pc_next] at hgt
  rw [hnext]
  cases htransition with
  | ret => exact ⟨⟨hhalted, by rw [hcurrent]; rfl⟩, hdone, hhalted⟩
  | jump _ _ htarget | call _ htarget =>
    exact absurd (hlabels _ _ htarget) (Nat.not_le.2 hgt)
  | hlt => exact absurd hle (Nat.not_le.2 hgt)
  -- The instruction after one of the program is one of it, or the end.
  | mov | push | pop | binary | unary | cmp | skip | out =>
    exact absurd hlt (Nat.not_lt.2 (Nat.le_of_lt_succ hgt))

/-- A run that gets beyond the instructions does so in one of its steps. -/
theorem exists_pc_after_gt (hle : machine.pc ≤ program.instructions.size) {k : Nat}
    (hgt : program.instructions.size < (machine.after program k).pc) :
    ∃ i < k, (machine.after program i).pc ≤ program.instructions.size ∧
      program.instructions.size < (machine.after program (i + 1)).pc := by
  induction k with
  | zero => exact absurd hle (Nat.not_le.2 hgt)
  | succ k ih =>
    by_cases hk : (machine.after program k).pc ≤ program.instructions.size
    · exact ⟨k, Nat.lt_succ_self k, hk, hgt⟩
    · obtain ⟨i, hi, hbefore, hafter⟩ := ih (Nat.not_le.1 hk)
      exact ⟨i, hi.trans (Nat.lt_succ_self k), hbefore, hafter⟩

/-- Beyond the instructions a machine is stuck. -/
theorem after_of_pc_gt (hhalted : machine.halted = false)
    (hgt : program.instructions.size < machine.pc) (n : Nat) :
    machine.after program n = machine ∧
      (machine.step program).outcome = .fault ⟨.executionOutOfBounds, none⟩ := by
  have hfault := step_of_current?_eq_none hhalted (current?_eq_none_iff.2 hgt.le)
  refine ⟨after_eq_self (step_machine_of_ne_done ?_) n, hfault⟩
  rw [hfault]
  exact Outcome.noConfusion

/-- A program counter beyond the instructions comes from a return to a word that something else
    than a call has written last, and the machine is stuck from there on. -/
theorem exists_ret_of_pc_after_gt (hlabels : program.LabelsWithin) {k : Nat}
    (hgt : program.instructions.size < (initial.after program k).pc) :
    ∃ i < k, (initial.after program i).pc ≤ program.instructions.size ∧
      (initial.after program i).Executes program .ret ∧
      ((initial.after program i).step program).outcome = .done ∧
      (∃ address : Fin 256, (address : Nat) = (initial.after program i).sp ∧
        ((initial.after program i).cell address).toInt = (initial.after program k).pc ∧
        ∃ j, initial.LastWrite program address i j ∧
          ¬ (initial.after program j).Executes program .call) ∧
      ∀ l, i < l → initial.after program l = initial.after program k ∧
        ((initial.after program l).step program).outcome =
          .fault ⟨.executionOutOfBounds, none⟩ := by
  obtain ⟨i, hi, hbefore, hafter⟩ := exists_pc_after_gt (Nat.zero_le _) hgt
  obtain ⟨hret, hdone, hhalted⟩ := executes_ret_of_pc_step_gt hlabels hbefore hafter
  -- The step that leads beyond the instructions leaves the machine as it stays.
  have hstuck (l : Nat) (hl : i < l) :
      initial.after program l = initial.after program (i + 1) := by
    obtain ⟨d, rfl⟩ := Nat.exists_eq_add_of_le (Nat.succ_le_of_lt hl)
    rw [after_add]
    exact (after_of_pc_gt hhalted hafter d).1
  have hfault := (after_of_pc_gt hhalted hafter 0).2
  obtain ⟨address, haddress, -, hpc⟩ := step_ret hret hdone
  rw [hstuck k hi]
  refine ⟨i, hi, hbefore, hret, hdone, ⟨address, haddress, hpc.symm, ?_⟩, fun l hl => ?_⟩
  swap
  · rw [hstuck l hl]
    exact ⟨rfl, hfault⟩
  rw [after_succ] at hafter
  obtain hcell | ⟨j, hlast, hcell⟩ := exists_lastWrite_or_eq initial program address i
  · -- Nothing has been written to the cell, so the return has led to the first instruction.
    rw [hcell, cell_initial] at hpc
    omega
  · refine ⟨j, hlast, fun hcall => ?_⟩
    obtain ⟨-, hle⟩ := cell_step_of_call hcall hlast.writes
    rw [hcell, after_succ] at hpc
    omega

/-- The labels of an assembled program point at its instructions, or behind the last one, and
    the program counter stays there or is a word. A call only writes addresses of that kind.
    If the program counter is beyond the instructions, then the step that has led it there
    is a return to a word that was last written by something else than a call; and from
    then on each step ends with a fault, and nothing changes any more. -/
theorem pc_confined (source : String) (program : Program) (h : assemble source = .ok program) :
    (∀ name index, program.labels.get? name = some index →
      index ≤ program.instructions.size) ∧
    (∀ k, (initial.after program k).pc ≤ max program.instructions.size 32767) ∧
    (∀ (machine : Machine) (address : Fin 256), machine.Executes program .call →
      machine.Writes program address →
      1 ≤ ((machine.step program).machine.cell address).toInt ∧
        ((machine.step program).machine.cell address).toInt ≤ program.instructions.size) ∧
    ∀ k, program.instructions.size < (initial.after program k).pc →
      ∃ i < k, (initial.after program i).pc ≤ program.instructions.size ∧
        (initial.after program i).Executes program .ret ∧
        ((initial.after program i).step program).outcome = .done ∧
        (∃ address : Fin 256, (address : Nat) = (initial.after program i).sp ∧
          ((initial.after program i).cell address).toInt = (initial.after program k).pc ∧
          ∃ j, initial.LastWrite program address i j ∧
            ¬ (initial.after program j).Executes program .call) ∧
        ∀ l, i < l → initial.after program l = initial.after program k ∧
          ((initial.after program l).step program).outcome =
            .fault ⟨.executionOutOfBounds, none⟩ := by
  obtain ⟨-, rfl⟩ := assemble_eq_ok_iff.1 h
  have hlabels := SourceLines.labelsWithin_program (Split.lines source.toList)
  generalize SourceLines.program (Split.lines source.toList) = program at hlabels ⊢
  refine ⟨hlabels, fun k => ?_, fun _ _ => cell_step_of_call,
    fun k => exists_ret_of_pc_after_gt hlabels⟩
  rcases Nat.lt_or_ge program.instructions.size (initial.after program k).pc with hgt | hle
  · obtain ⟨i, -, -, -, -, ⟨address, -, hpc, -⟩, -⟩ := exists_ret_of_pc_after_gt hlabels hgt
    have hword := ((initial.after program i).cell address).le_greatest
    omega
  · exact hle.trans (Nat.le_max_left _ _)

/-- A word that a program has pushed itself, for want of a call, leads beyond the instructions. -/
theorem pc_confined_pushedAddress :
    ∃ program, assemble "PUSH 99\nRET" = .ok program ∧
      (initial.after program 2).pc = 99 ∧
      initial.after program 5 = initial.after program 2 ∧
      ((initial.after program 5).step program).outcome =
        .fault ⟨.executionOutOfBounds, none⟩ := by
  have hassemble : assemble "PUSH 99\nRET" =
      .ok (SourceLines.program (Split.lines "PUSH 99\nRET".toList)) :=
    assemble_eq_ok_iff.2 ⟨by decide +kernel, rfl⟩
  obtain ⟨-, -, -, hbeyond⟩ := pc_confined _ _ hassemble
  obtain ⟨i, hi, -, -, -, -, hstuck⟩ := hbeyond 2 (by decide +kernel)
  exact ⟨_, hassemble, by decide +kernel, hstuck 5 (hi.trans (by decide))⟩

end RegisterMachine.Machine
