import RegisterMachine.Proofs.Subroutine

/-!
# The stack as a list

The stack lies in the same memory as the data, as the words from the stack pointer
on. As long as no instruction stores there other than by pushing, these words behave
as a list, last in, first out: the words are those that were pushed and not yet
taken off (`stack_after`), and an instruction that takes off the top gets the one
pushed last (`stack_after_initial`).

The list goes along with the machine: `listStep` tells what becomes of it in one step
and `listAfter` in several. It depends on the instructions that are executed, not on
the memory.
-/

namespace RegisterMachine

/-- What a change does to the list of the words on the stack. -/
def Change.onList : Change → List Int → List Int
  | .push word, list | .call _ word, list => word.toInt :: list
  | .pop .., list | .ret _, list => list.tail
  | .move .., list | .store .., list | .compare _, list | .jump _, list | .skip, list
  | .output _, list | .halt, list => list

namespace Machine

variable (machine : Machine) (program : Program)

/-- The words from an address to the end of the memory. -/
def cellsFrom (address : Nat) : List Int :=
  (machine.memory.cells.toList.drop address).map (·.toInt)

/-- The words on the stack, the top first. -/
def stack : List Int := machine.cellsFrom machine.sp

/-- The list after the next step of a machine. An operand is pushed as the nearest word. -/
def listStep (list : List Int) : List Int :=
  if machine.halted then list
  else
    match machine.current? program with
    | some ⟨.push, [source], _⟩ =>
      match machine.read source.mode with
      | .ok value => (Word.saturate value.toInt).toInt :: list
      | .error _ => list
    | some ⟨.call, _, _⟩ => (machine.pc + 1 : Int) :: list
    | some ⟨.pop, _, _⟩ | some ⟨.ret, _, _⟩ => list.tail
    | _ => list

/-- The list after a number of steps, from the empty one. -/
def listAfter : Nat → List Int
  | 0 => []
  | n + 1 => (machine.after program n).listStep program (listAfter n)

variable {machine program} {labels : LabelTable} {opcode : Opcode} {operands : List Operand}
  {change : Change}

/-! ## Cells -/

theorem cellsFrom_congr {other : Machine} {start : Nat}
    (h : ∀ address : Fin 256, start ≤ address → other.cell address = machine.cell address) :
    other.cellsFrom start = machine.cellsFrom start := by
  refine congrArg (List.map _) (List.ext_getElem (by simp) fun i hi _ => ?_)
  have hlt : start + i < 256 := by
    simp only [List.length_drop, Vector.length_toList] at hi
    omega
  simpa [cell] using h ⟨start + i, hlt⟩ (Nat.le_add_right _ _)

theorem cellsFrom_eq_cons (machine : Machine) (address : Fin 256) :
    machine.cellsFrom address =
      (machine.cell address).toInt :: machine.cellsFrom (address + 1) := by
  have hlt : (address : Nat) < machine.memory.cells.toList.length := by simp
  rw [cellsFrom, List.drop_eq_getElem_cons hlt]
  rfl

theorem tail_cellsFrom (start : Nat) :
    (machine.cellsFrom start).tail = machine.cellsFrom (start + 1) := by
  rw [cellsFrom, ← List.map_tail, List.tail_drop]
  rfl

theorem length_stack : machine.stack.length = 256 - machine.sp := by
  simp [stack, cellsFrom]

theorem stack_push {word : Word} (hne : machine.sp ≠ 0) (hle : machine.sp ≤ 256) :
    (machine.push word).stack = word.toInt :: machine.stack := by
  have hlt : machine.sp - 1 < 256 := by omega
  have hpred : machine.sp - 1 + 1 = machine.sp := by omega
  calc (machine.push word).stack
      = ((machine.push word).cell ⟨machine.sp - 1, hlt⟩).toInt ::
          (machine.push word).cellsFrom (machine.sp - 1 + 1) :=
        cellsFrom_eq_cons (machine.push word) ⟨machine.sp - 1, hlt⟩
    _ = word.toInt :: (machine.push word).cellsFrom machine.sp := by rw [cell_push_self, hpred]
    _ = word.toInt :: machine.stack :=
        congrArg _ (cellsFrom_congr fun address haddress => cell_push_of_ne (by omega))

/-! ## Steps -/

/-- A transition does to the stack what its change does to a list. -/
theorem stack_next (h : Transition labels machine opcode operands change)
    (hle : machine.sp ≤ 256)
    (hlocation : ∀ address : Fin 256, machine.sp ≤ address →
      change.location? ≠ some (.cell address)) :
    (change.next machine).stack = change.onList machine.stack := by
  -- The cells of the stack are what they were. All that is left is how far it reaches.
  have hcells (start : Nat) (hstart : machine.sp ≤ start) :
      (change.next machine).cellsFrom start = machine.cellsFrom start :=
    cellsFrom_congr fun address haddress =>
      cell_next h (hstart.trans haddress) (hlocation address (hstart.trans haddress))
  rw [stack, Change.sp_next]
  cases h with
  | push hne | call hne => exact stack_push hne hle
  | pop | ret => exact (hcells _ (Nat.le_succ _)).trans (tail_cellsFrom _).symm
  | mov | binary | unary | cmp | jump | skip | out | hlt => exact hcells _ (Nat.le_refl _)

/-- The list follows the transitions. -/
theorem listStep_eq {instruction : Instruction} (hhalted : machine.halted = false)
    (hcurrent : machine.current? program = some instruction)
    (h : Transition labels machine instruction.opcode instruction.operands change)
    (list : List Int) : machine.listStep program list = change.onList list := by
  obtain ⟨opcode, operands, line⟩ := instruction
  simp only [listStep, hhalted, hcurrent, Bool.false_eq_true, if_false]
  cases h with
  -- Only the operations that push or take off are looked at by the list.
  | push _ hread => simp only [hread, Change.onList]
  | call _ _ haddress => simp [Change.onList, Word.toInt_of_ofNat? haddress]
  | mov | pop | cmp | ret | out | hlt => rfl
  | binary hstores | unary hstores => cases opcode <;> first | rfl | cases hstores
  | jump hbranches | skip hbranches => cases opcode <;> first | rfl | cases hbranches

/-- A step does to the stack what it does to a list, if it does not store there. -/
theorem stack_step (hle : machine.sp ≤ 256) (hdone : (machine.step program).outcome = .done)
    (hstore : ∀ position, machine.storePosition? program = some position →
      position < machine.sp) :
    (machine.step program).machine.stack = machine.listStep program machine.stack := by
  obtain ⟨hhalted, hnext⟩ | ⟨instruction, change, hhalted, hcurrent, htransition, _, hnext⟩ :=
    step_done hdone
  · rw [hnext, listStep, if_pos hhalted]
  · rw [hnext, listStep_eq hhalted hcurrent htransition]
    refine stack_next htransition hle fun address haddress hlocation => ?_
    have := hstore _ (storePosition?_of_location? hhalted hcurrent htransition hlocation)
    omega

/-- The stack of a machine, empty at first, is the list that goes along with it. -/
theorem stack_after (hsp : machine.sp = 256) {n : Nat} (hfree : machine.FaultFree program n)
    (hstore : ∀ i < n, ∀ position,
      (machine.after program i).storePosition? program = some position →
        position < (machine.after program i).sp) :
    (machine.after program n).stack = machine.listAfter program n := by
  induction n with
  | zero => exact List.eq_nil_of_length_eq_zero (by rw [length_stack, after_zero, hsp])
  | succ n ih =>
    have hn := Nat.lt_succ_self n
    rw [after_succ, stack_step (sp_after_le hsp.le n) (hfree n hn) (hstore n hn), listAfter,
      ih (hfree.mono hn.le) fun i hi => hstore i (hi.trans hn)]

/-! ## The top -/

/-- A pop stores the top of the stack through its operand. -/
theorem stack_of_pop (hpop : machine.Executes program .pop)
    (hdone : (machine.step program).outcome = .done) :
    ∃ (destination : Operand) (word : Word) (location : Location) (written : Machine)
      (rest : List Int),
      (machine.current? program).map (·.operands) = some [destination] ∧
        machine.stack = word.toInt :: rest ∧
        machine.locate destination.mode = .ok location ∧
        (machine.step program).machine.wordAt location = word ∧
        machine.write destination.mode word.toValue = .ok written ∧
        (machine.step program).machine =
          { written with sp := written.sp + 1, pc := written.pc + 1 } := by
  obtain ⟨_, _, hcurrent, htransition, _, hnext⟩ := hpop.step_done hdone
  cases htransition with
  | @pop destination word location htop hlocate =>
    obtain ⟨address, haddress, hcell⟩ := cell_of_top? htop
    refine ⟨destination, word, location, machine.setAt location word,
      machine.cellsFrom (machine.sp + 1), hcurrent, ?_, hlocate, ?_, ?_, hnext⟩
    · rw [stack, ← haddress, cellsFrom_eq_cons, hcell]
    · have hword : (machine.setAt location word).wordAt location = word :=
        wordAt_setAt_self location word
      rw [hnext]
      cases location <;> exact hword
    · rw [write_eq, hlocate, Word.toInt_toValue, Word.saturate_toInt]
      rfl
  | binary hstores | unary hstores => cases hstores
  | jump hbranches | skip hbranches => cases hbranches

/-- A return jumps to the top of the stack. -/
theorem stack_of_ret (hret : machine.Executes program .ret)
    (hdone : (machine.step program).outcome = .done) :
    ∃ rest, machine.stack = ((machine.step program).machine.pc : Int) :: rest := by
  obtain ⟨address, haddress, _, hpc⟩ := step_ret hret hdone
  exact ⟨machine.cellsFrom (machine.sp + 1), by rw [stack, ← haddress, cellsFrom_eq_cons, hpc]⟩

/-- As long as a run without faults does not store on the stack other than by pushing, the
    stack is at all times the list of the words pushed and not yet taken off. A pop stores
    the word pushed last, and a return jumps to it. -/
theorem stack_after_initial (program : Program) (n : Nat)
    (hfree : Machine.initial.FaultFree program n)
    (hstore : ∀ i < n, ∀ position,
      (Machine.initial.after program i).storePosition? program = some position →
        position < (Machine.initial.after program i).sp) :
    (∀ k ≤ n, (Machine.initial.after program k).stack = Machine.initial.listAfter program k ∧
      (Machine.initial.after program k).sp + (Machine.initial.listAfter program k).length = 256) ∧
    (∀ k < n, (Machine.initial.after program k).Executes program .pop →
      ∃ (destination : Operand) (word : Word) (location : Location) (written : Machine)
        (rest : List Int),
        ((Machine.initial.after program k).current? program).map (·.operands) =
            some [destination] ∧
          Machine.initial.listAfter program k = word.toInt :: rest ∧
          (Machine.initial.after program k).locate destination.mode = .ok location ∧
          (Machine.initial.after program (k + 1)).wordAt location = word ∧
          (Machine.initial.after program k).write destination.mode word.toValue = .ok written ∧
          Machine.initial.after program (k + 1) =
            { written with sp := written.sp + 1, pc := written.pc + 1 }) ∧
    ∀ k < n, (Machine.initial.after program k).Executes program .ret →
      ∃ rest, Machine.initial.listAfter program k =
        ((Machine.initial.after program (k + 1)).pc : Int) :: rest := by
  have hstack (k : Nat) (hk : k ≤ n) :
      (Machine.initial.after program k).stack = Machine.initial.listAfter program k :=
    stack_after rfl (hfree.mono hk) fun i hi => hstore i (hi.trans_le hk)
  refine ⟨fun k hk => ⟨hstack k hk, ?_⟩, fun k hk hpop => ?_, fun k hk hret => ?_⟩
  · have hle : (Machine.initial.after program k).sp ≤ 256 := sp_after_le (Nat.le_refl 256) k
    rw [← hstack k hk, length_stack]
    omega
  · rw [← hstack k hk.le]
    exact stack_of_pop hpop (hfree k hk)
  · rw [← hstack k hk.le]
    exact stack_of_ret hret (hfree k hk)

theorem stack_after_initial_nestedCalls :
    (Machine.initial.after nestedCalls 3).stack = [4, 7, 1] ∧
      (Machine.initial.after nestedCalls 4).pc = 4 ∧
      ((Machine.initial.after nestedCalls 5).cell 5).toInt = 7 := by
  have hstores : ∀ i < 7, ∀ position ∈ (Machine.initial.after nestedCalls i).storePosition?
      nestedCalls, position < (Machine.initial.after nestedCalls i).sp := by
    decide +kernel
  have hlist : Machine.initial.listAfter nestedCalls 3 = [4, 7, 1] := by decide +kernel
  obtain ⟨hstack, hpop, hret⟩ := stack_after_initial nestedCalls 7 (by decide +kernel)
    fun i hi position hposition => hstores i hi position hposition
  refine ⟨(hstack 3 (by decide)).1.trans hlist, ?_, ?_⟩
  · obtain ⟨rest, htop⟩ := hret 3 (by decide) (by decide +kernel)
    rw [hlist] at htop
    exact (Int.ofNat.inj (List.cons.inj htop).1).symm
  · obtain ⟨destination, word, location, _, rest, hoperands, htop, hlocate, hword, -⟩ :=
      hpop 4 (by decide) (by decide +kernel)
    have hcell : ((Machine.initial.after nestedCalls 4).current? nestedCalls).map (·.operands) =
        some [⟨"[5]", .direct 5⟩] := by decide +kernel
    obtain ⟨rfl, -⟩ := List.cons.inj (Option.some.inj (hcell.symm.trans hoperands))
    obtain rfl : Location.cell 5 = location := Except.ok.inj hlocate
    have hseven : Machine.initial.listAfter nestedCalls 4 = [7, 1] := by decide +kernel
    exact (congrArg Word.toInt hword).trans (List.cons.inj (htop.symm.trans hseven)).1

end Machine

end RegisterMachine
