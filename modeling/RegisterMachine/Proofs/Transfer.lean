import RegisterMachine.Proofs.Frame

/-!
# Transfers by way of the stack

A word that is pushed and popped again is moved: a push followed by a pop succeeds if and only
if the move from the one operand to the other does, and has the same effect. What remains of
the detour is the word in the cell in front of the stack (`after_push_pop`).

Either operand may refer to that very cell, and a register through which the one goes may be
the other. But a push leaves the registers alone, so that the destination is located as it
would be before it; and a pop that stores into the cell it takes its word from changes nothing
there.

* `done_mov_iff`, `faultFree_push_pop_iff`: the move and the detour succeed if the source can be
  read and the destination located;
* `next_pop_next_push`: the state after the detour, by the state after the move.
-/

namespace RegisterMachine

namespace Memory

variable {size : Nat} (memory : Memory size)

theorem put_eq_set {address : Nat} (h : address < size) (word : Word) :
    memory.put address word = memory.set ⟨address, h⟩ word :=
  dif_pos h

/-- A word that is stored in two cells can be stored in either of them first. -/
theorem set_set_comm (first second : Fin size) (word : Word) :
    (memory.set first word).set second word = (memory.set second word).set first word := by
  rcases eq_or_ne first second with rfl | hne
  · rfl
  · rw [set, set, Vector.set_comm _ _ (Fin.val_ne_of_ne hne)]
    rfl

end Memory

namespace Machine

variable {machine : Machine} {program other : Program} {source destination : Operand}

/-! ## Moves -/

section

variable {line : Nat} (hhalted : machine.halted = false)
  (hmov : other.instructions[machine.pc]? = some ⟨.mov, [destination, source], line⟩)

include hhalted hmov

theorem step_mov {value : Value} {location : Location}
    (hread : machine.read source.mode = .ok value)
    (hlocate : machine.locate destination.mode = .ok location) :
    (machine.step other).outcome = .done ∧
      (machine.step other).machine =
        (Change.move location (Word.saturate value.toInt)).next machine :=
  step_of_transition hhalted hmov rfl (.mov hread hlocate) trivial

/-- A move succeeds if there is a word to move and a place for it. -/
theorem done_mov_iff :
    (machine.step other).outcome = .done ↔
      ∃ value location, machine.read source.mode = .ok value ∧
        machine.locate destination.mode = .ok location := by
  constructor
  · intro hdone
    obtain ⟨change, htransition, -⟩ := transition_of_current? hhalted hmov hdone
    cases htransition with
    | mov hread hlocate => exact ⟨_, _, hread, hlocate⟩
    | binary hstores => cases hstores
  · rintro ⟨value, location, hread, hlocate⟩
    exact (step_mov hhalted hmov hread hlocate).1

end

/-! ## Detours -/

theorem locate_next_push (machine : Machine) (word : Word) (mode : Mode) :
    ((Change.push word).next machine).locate mode = machine.locate mode := by
  cases mode <;> rfl

section

variable (hpos : 0 < machine.sp) (hle : machine.sp ≤ 256)

include hpos hle

/-- What is pushed is on top of the stack. -/
theorem top?_next_push (word : Word) : ((Change.push word).next machine).top? = .ok word := by
  have hlt : machine.sp - 1 < 256 := by omega
  have hcell : ((Change.push word).next machine).cell ⟨machine.sp - 1, hlt⟩ = word :=
    cell_push_self hlt
  exact (top?_eq_cell rfl).trans (congrArg Except.ok hcell)

/-- A word that is pushed and popped is moved, with a copy of it in front of the stack. -/
theorem next_pop_next_push (location : Location) (word : Word) :
    (Change.pop location word).next ((Change.push word).next machine) =
      { (Change.move location word).next machine with
        pc := machine.pc + 2
        memory := ((Change.move location word).next machine).memory.set
          ⟨machine.sp - 1, by omega⟩ word } := by
  have hput : machine.memory.put (machine.sp - 1) word = machine.memory.set
      ⟨machine.sp - 1, by omega⟩ word := Memory.put_eq_set _ _ _
  have hsp : machine.sp - 1 + 1 = machine.sp := Nat.sub_add_cancel hpos
  cases location with
  | register register =>
    simp only [Change.next, Change.apply, Change.flow, follow, setAt, setRegister, drop, push, hput,
      hsp]
  | cell address =>
    simp only [Change.next, Change.apply, Change.flow, follow, setAt, drop, push, hput, hsp,
      Memory.set_set_comm _ address]

variable {line line' : Nat} (hhalted : machine.halted = false)
  (hpush : program.instructions[machine.pc]? = some ⟨.push, [source], line⟩)
  (hpop : program.instructions[machine.pc + 1]? = some ⟨.pop, [destination], line'⟩)

include hhalted hpush hpop

theorem reaches_push_pop {value : Value} {location : Location}
    (hread : machine.read source.mode = .ok value)
    (hlocate : machine.locate destination.mode = .ok location) :
    machine.Reaches program 2
      ((Change.pop location (Word.saturate value.toInt)).next
        ((Change.push (Word.saturate value.toInt)).next machine)) := by
  have hpushed : machine.Reaches program 1
      ((Change.push (Word.saturate value.toInt)).next machine) :=
    Reaches.zero.step hhalted hpush rfl (.push hpos.ne' hread) hle
  exact hpushed.step hhalted hpop rfl
    (.pop (top?_next_push hpos hle _) ((locate_next_push _ _ _).trans hlocate)) trivial

/-- A detour succeeds if there is a word to move and a place for it. -/
theorem faultFree_push_pop_iff :
    machine.FaultFree program 2 ↔
      ∃ value location, machine.read source.mode = .ok value ∧
        machine.locate destination.mode = .ok location := by
  constructor
  · intro hfree
    -- The push reads the source, and the pop finds the destination as it was before the push.
    obtain ⟨change, htransition, -, hnext⟩ :=
      transition_of_current? hhalted hpush (hfree 0 Nat.zero_lt_two)
    cases htransition with
    | unary hstores => cases hstores
    | jump hbranches | skip hbranches => cases hbranches
    | @push _ value _ hread =>
      have hdone : ((machine.step program).machine.step program).outcome = .done :=
        hfree 1 Nat.one_lt_two
      rw [hnext] at hdone
      have hhalted' : ((Change.push (Word.saturate value.toInt)).next machine).halted = false :=
        hhalted
      obtain ⟨change, htransition', -⟩ := transition_of_current? hhalted' hpop hdone
      cases htransition' with
      | unary hstores => cases hstores
      | jump hbranches | skip hbranches => cases hbranches
      | pop _ hlocate => exact ⟨value, _, hread, (locate_next_push _ _ _).symm.trans hlocate⟩
  · rintro ⟨value, location, hread, hlocate⟩
    exact (reaches_push_pop hpos hle hhalted hpush hpop hread hlocate).faultFree

end

/-- From a state with room on the stack, a push and a pop go through without a fault if and only
    if the move from the one operand to the other does. The state is then that after the move,
    apart from the program counter, and from the cell in front of the stack, in which the value
    of the source is left. A word that is popped into the register that it was pushed from
    is always moved, and leaves the registers and the stack pointer as they are. -/
theorem after_push_pop {line line' line'' : Nat} (hhalted : machine.halted = false)
    (hpos : 0 < machine.sp) (hle : machine.sp ≤ 256)
    (hpush : program.instructions[machine.pc]? = some ⟨.push, [source], line⟩)
    (hpop : program.instructions[machine.pc + 1]? = some ⟨.pop, [destination], line'⟩)
    (hmov : other.instructions[machine.pc]? = some ⟨.mov, [destination, source], line''⟩) :
    (machine.FaultFree program 2 ↔ (machine.step other).outcome = .done) ∧
      ((machine.step other).outcome = .done →
        ∃ value, machine.read source.mode = .ok value ∧
          machine.after program 2 =
            { (machine.step other).machine with
              pc := machine.pc + 2
              memory := (machine.step other).machine.memory.set ⟨machine.sp - 1, by omega⟩
                (Word.saturate value.toInt) }) ∧
      ∀ register, source.mode = .register register → destination.mode = .register register →
        machine.FaultFree program 2 ∧
          (machine.after program 2).registers = machine.registers ∧
          (machine.after program 2).sp = machine.sp := by
  refine ⟨?_, ?_, ?_⟩
  · rw [faultFree_push_pop_iff hpos hle hhalted hpush hpop, done_mov_iff hhalted hmov]
  · intro hdone
    obtain ⟨value, location, hread, hlocate⟩ := (done_mov_iff hhalted hmov).1 hdone
    refine ⟨value, hread, ?_⟩
    rw [(reaches_push_pop hpos hle hhalted hpush hpop hread hlocate).after_eq,
      next_pop_next_push hpos hle, (step_mov hhalted hmov hread hlocate).2]
  · intro register hsource hdestination
    have hread : machine.read source.mode = .ok (machine.register register).toValue := by
      rw [hsource]
      rfl
    have hlocate : machine.locate destination.mode = .ok (.register register) := by
      rw [hdestination]
      rfl
    obtain ⟨hfree, hafter⟩ := reaches_push_pop hpos hle hhalted hpush hpop hread hlocate
    refine ⟨hfree, ?_⟩
    rw [hafter, next_pop_next_push hpos hle, Word.toInt_toValue, Word.saturate_toInt]
    exact ⟨Vector.set_getElem_self _, rfl⟩

/-- A word that is pushed from a cell, and popped into the register that the cell is found
    through. -/
def detour : Program where
  instructions :=
    #[⟨.push, [.ofText "[R0]".toList], 1⟩, ⟨.pop, [.ofText "R0".toList], 2⟩]
  labels := ∅

/-- The same as a move. -/
def shortcut : Program where
  instructions := #[⟨.mov, [.ofText "R0".toList, .ofText "[R0]".toList], 1⟩]
  labels := ∅

/-- The word is moved, also if the cell is the one in front of the stack. -/
theorem after_push_pop_sameCell :
    let machine : Machine :=
      { registers := Vector.replicate 4 (Word.saturate 255)
        memory := Memory.zero.set 255 (Word.saturate 7) }
    machine.FaultFree detour 2 ∧
      machine.after detour 2 =
        { machine with
          pc := 2
          registers := machine.registers.set 0 (Word.saturate 7) } := by
  intro machine
  obtain ⟨hfree, hafter, -⟩ :=
    @after_push_pop machine detour shortcut (.ofText "[R0]".toList) (.ofText "R0".toList) 1 2 1
      rfl (by decide) (by decide) rfl rfl rfl
  have hvalue : machine.read (Operand.ofText "[R0]".toList).mode = .ok 7 := by decide +kernel
  have hlocate : machine.locate (Operand.ofText "R0".toList).mode = .ok (.register ⟨0⟩) := by
    decide +kernel
  obtain ⟨hdone, hnext⟩ := @step_mov machine shortcut _ _ 1 rfl rfl _ _ hvalue hlocate
  obtain ⟨value, hread, hstate⟩ := hafter hdone
  obtain rfl := Except.ok.inj (hvalue.symm.trans hread)
  refine ⟨hfree.2 hdone, ?_⟩
  -- The cell in front of the stack is the one that the word has come from.
  have hcell : machine.memory.set 255 (Word.saturate 7) = machine.memory :=
    congrArg Memory.mk (Vector.set_set _ _)
  rw [hstate, hnext]
  exact congrArg (fun memory => { machine with
    pc := 2
    registers := machine.registers.set 0 (Word.saturate 7)
    memory }) hcell

end Machine

end RegisterMachine
