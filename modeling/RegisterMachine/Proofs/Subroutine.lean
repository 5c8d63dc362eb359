import RegisterMachine.Proofs.Frame

/-!
# Subroutines

A call pushes the address of the next instruction, and a return jumps to the address
on top of the stack. In between, the callee may do as it likes, further calls included,
as long as it leaves alone the stack as it found it: it does not take off the return
address, and it does not store over it or above. When it returns at the level of the
return address, it returns to its caller, and the caller finds its stack as it was
(`after_return`).
-/

namespace RegisterMachine.Machine

variable {machine : Machine} {program : Program}

/-- A call leaves the address of the next instruction on top of the stack. -/
theorem step_call (hcall : machine.Executes program .call)
    (hdone : (machine.step program).outcome = .done) :
    ∃ address : Fin 256, (address : Nat) + 1 = machine.sp ∧
      (machine.step program).machine.sp = address ∧
      ((machine.step program).machine.cell address).toInt = machine.pc + 1 := by
  obtain ⟨_, _, _, htransition, hfits, hnext⟩ := hcall.step_done hdone
  cases htransition with
  | call hne _ haddress =>
    have hle : machine.sp ≤ 256 := hfits
    have hlt : machine.sp - 1 < 256 := by omega
    refine ⟨⟨machine.sp - 1, hlt⟩, Nat.sub_add_cancel (Nat.pos_of_ne_zero hne), ?_, ?_⟩
    · rw [hnext]
      rfl
    · rw [hnext]
      exact (congrArg Word.toInt (cell_push_self hlt)).trans (Word.toInt_of_ofNat? haddress)
  | binary hstores | unary hstores => cases hstores
  | jump hbranches | skip hbranches => cases hbranches

/-- A return jumps to the address on top of the stack, and takes it off. -/
theorem step_ret (hret : machine.Executes program .ret)
    (hdone : (machine.step program).outcome = .done) :
    ∃ address : Fin 256, (address : Nat) = machine.sp ∧
      (machine.step program).machine.sp = machine.sp + 1 ∧
      ((machine.step program).machine.pc : Int) = (machine.cell address).toInt := by
  obtain ⟨_, _, _, htransition, _, hnext⟩ := hret.step_done hdone
  cases htransition with
  | ret htop hnonneg =>
    obtain ⟨address, haddress, hcell⟩ := cell_of_top? htop
    refine ⟨address, haddress, ?_, ?_⟩
    · rw [hnext]
      rfl
    · rw [hnext, hcell]
      exact Int.toNat_of_nonneg hnonneg
  | binary hstores | unary hstores => cases hstores
  | jump hbranches | skip hbranches => cases hbranches

/-- A run from a call to a return comes back behind the call, with the stack of the caller as
    it was, if the callee keeps below that stack: the stack pointer stays below that of the
    caller, down to the return address at the end, and nothing is stored at the return
    address or above. -/
theorem after_return (program : Program) (machine : Machine) (n : Nat)
    (hfree : machine.FaultFree program (n + 1)) (hcall : machine.Executes program .call)
    (hret : (machine.after program n).Executes program .ret)
    (hdepth : ∀ i, 1 ≤ i → i ≤ n → (machine.after program i).sp ≤ machine.sp - 1)
    (hlevel : (machine.after program n).sp = machine.sp - 1)
    (hstore : ∀ i, 1 ≤ i → i < n → ∀ position,
      (machine.after program i).storePosition? program = some position →
        position < (machine.sp : Int) - 1) :
    (machine.after program (n + 1)).pc = machine.pc + 1 ∧
      (machine.after program (n + 1)).sp = machine.sp ∧
      ∀ address : Fin 256, machine.sp ≤ address →
        (machine.after program (n + 1)).cell address = machine.cell address := by
  obtain ⟨base, hbase, _, hcell⟩ := step_call hcall (hfree 0 (Nat.succ_pos n))
  obtain ⟨top, htop, hsp, hpc⟩ := step_ret hret (hfree n (Nat.lt_succ_self n))
  -- The step that calls is not the step that returns.
  have hn : 1 ≤ n := by
    rcases n with _ | n
    · exact absurd (hcall.2.symm.trans hret.2) (by decide)
    · exact Nat.succ_pos n
  obtain rfl : top = base := Fin.ext (by omega)
  -- From the step after the call on, the return address is part of the stack.
  have hreturn : (machine.after program n).cell top =
      (machine.after program 1).cell top := by
    refine cell_after hn (fun i hi hlt => ?_) fun i hi hlt hposition => ?_
    · have := hdepth i hi hlt.le
      omega
    · have := hstore i hi hlt _ hposition
      omega
  refine ⟨?_, ?_, fun address haddress => ?_⟩
  · rw [hreturn] at hpc
    rw [after_succ]
    exact Int.ofNat.inj (hpc.trans hcell)
  · rw [after_succ, hsp]
    omega
  · refine cell_after (Nat.zero_le (n + 1)) (fun i _ hlt => ?_) fun i _ hlt hposition => ?_
    · rcases Nat.eq_zero_or_pos i with rfl | hi
      · exact haddress
      · have := hdepth i hi (Nat.le_of_lt_succ hlt)
        omega
    · -- Neither the call nor the return stores anything other than by pushing.
      rcases Nat.eq_zero_or_pos i with rfl | hi
      · rw [after_zero, storePosition?_eq_none hcall rfl] at hposition
        cases hposition
      rcases Nat.lt_or_eq_of_le (Nat.le_of_lt_succ hlt) with hlt | rfl
      · have := hstore i hi hlt _ hposition
        omega
      · rw [storePosition?_eq_none hret rfl] at hposition
        cases hposition

/-- A program of a subroutine that pushes a word, calls another one, and pops the word to
    a cell. -/
def nestedCalls : Program where
  instructions := #[
    ⟨.call, [⟨"F", .symbol⟩], 1⟩,
    ⟨.hlt, [], 2⟩,
    ⟨.push, [⟨"7", .immediate 7⟩], 3⟩,
    ⟨.call, [⟨"G", .symbol⟩], 4⟩,
    ⟨.pop, [⟨"[5]", .direct 5⟩], 5⟩,
    ⟨.ret, [], 6⟩,
    ⟨.ret, [], 7⟩]
  labels := ((∅ : LabelTable).insert "F" 2).insert "G" 6

theorem after_return_nestedCalls :
    (Machine.initial.after nestedCalls 6).pc = 1 ∧
      (Machine.initial.after nestedCalls 6).sp = 256 := by
  have hstores : ∀ i < 5, ∀ position ∈ (Machine.initial.after nestedCalls i).storePosition?
      nestedCalls, position < 255 := by
    decide +kernel
  obtain ⟨hpc, hsp, -⟩ := after_return nestedCalls Machine.initial 5 (by decide +kernel)
    (by decide +kernel) (by decide +kernel) (by decide +kernel) (by decide +kernel)
    fun i _ hlt position hposition => hstores i hlt position hposition
  exact ⟨hpc, hsp⟩

end RegisterMachine.Machine
