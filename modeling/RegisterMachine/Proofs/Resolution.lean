import RegisterMachine.Proofs.Fault
import RegisterMachine.Proofs.Labels

/-!
# Label resolution

A label is written on a line, and a jump to it leads to an instruction. In between there
is only an index, the number of the instructions in front of the line; but as these are
in the order of their lines, the index is that of the first instruction on the line or
after it.

* `SourceLines.countP_line_lt`, `SourceLines.find?_le_line`: the instructions in front
  of a line, and the first one that is not;
* `Machine.step_jump`, `Machine.step_branch`: a jump that succeeds leads to the index of a
  label, and one that is taken succeeds if there is the label;
* `label_resolution`: it leads to the first instruction from the last definition of the
  label on, or past the last instruction.
-/

namespace RegisterMachine

namespace SourceLines

variable {first : Nat} {texts : List (List Char)} {instruction : Instruction}

theorem line_of_mem_instructions (h : instruction ∈ instructions first texts) :
    first ≤ instruction.line ∧ instruction.line < first + texts.length := by
  obtain ⟨⟨text, number⟩, hmem, hinstruction⟩ := List.mem_filterMap.1 h
  obtain ⟨statement, -, rfl⟩ := Option.map_eq_some_iff.1 hinstruction
  obtain ⟨hlow, hhigh, -⟩ := List.mem_zipIdx hmem
  exact ⟨hlow, hhigh⟩

theorem line_le_of_mem_take {n : Nat} (h : instruction ∈ instructions 1 (texts.take n)) :
    instruction.line ≤ n := by
  have hline := (line_of_mem_instructions h).2
  have hlength := List.length_take_le n texts
  omega

theorem lt_line_of_mem_drop {n : Nat}
    (h : instruction ∈ instructions (1 + (texts.take n).length) (texts.drop n)) :
    n < instruction.line := by
  have hline := line_of_mem_instructions h
  rw [List.length_take, List.length_drop] at hline
  omega

theorem instructions_take_append_drop (n : Nat) :
    instructions 1 texts =
      instructions 1 (texts.take n) ++ instructions (1 + (texts.take n).length) (texts.drop n) := by
  rw [← instructions_append, List.take_append_drop]

/-- The instructions in front of a line are those of the lines in front of it. -/
theorem countP_line_lt (texts : List (List Char)) (n : Nat) :
    (program texts).instructions.countP (·.line < n + 1) = size (texts.take n) := by
  have hfront : ∀ instruction ∈ instructions 1 (texts.take n), instruction.line < n + 1 :=
    fun _ h => Nat.lt_succ_of_le (line_le_of_mem_take h)
  have hrest : ∀ instruction ∈ instructions (1 + (texts.take n).length) (texts.drop n),
      ¬ instruction.line < n + 1 :=
    fun _ h => Nat.not_lt.2 (lt_line_of_mem_drop h)
  rw [program, List.countP_toArray, instructions_take_append_drop n, List.countP_append,
    List.countP_eq_length.2 (by simpa using hfront), List.countP_eq_zero.2 (by simpa using hrest),
    length_instructions, Nat.add_zero]

/-- The first instruction on a line or after it comes behind those in front of the line. -/
theorem find?_le_line (texts : List (List Char)) (n : Nat) :
    (program texts).instructions.find? (n + 1 ≤ ·.line) =
      (program texts).instructions[size (texts.take n)]? := by
  have hfront : ∀ instruction ∈ instructions 1 (texts.take n), ¬ n + 1 ≤ instruction.line :=
    fun _ h => Nat.not_le.2 (Nat.lt_succ_of_le (line_le_of_mem_take h))
  have hrest : ∀ instruction ∈ instructions (1 + (texts.take n).length) (texts.drop n),
      n + 1 ≤ instruction.line :=
    fun _ h => lt_line_of_mem_drop h
  rw [program, List.find?_toArray, List.getElem?_toArray, instructions_take_append_drop n,
    List.find?_append, List.find?_eq_none.2 (by simpa using hfront), Option.none_or,
    List.getElem?_append_right (by rw [length_instructions]), length_instructions, Nat.sub_self]
  rcases hdrop : instructions (1 + (texts.take n).length) (texts.drop n) with _ | ⟨next, others⟩
  · rfl
  · have hnext := hrest next (hdrop ▸ List.mem_cons_self)
    rw [List.find?_cons_of_pos (by simpa using hnext)]
    rfl

end SourceLines

/-! ## Jumps -/

namespace Machine

variable {machine : Machine} {program : Program} {instruction : Instruction}

/-- Whether an operation jumps to a label. -/
def jumps (machine : Machine) : Opcode → Bool
  | .jmp | .call => true
  | .jz => machine.flags.zero
  | .jnz => !machine.flags.zero
  | .js => machine.flags.sign
  | _ => false

theorem takes_eq_jumps {opcode : Opcode} (h : opcode.branches) :
    machine.takes opcode = machine.jumps opcode := by
  cases opcode with
  | jmp | jz | jnz | js => rfl
  | _ => cases h

theorem not_jumps_of_stores {opcode : Opcode} (h : opcode.stores) : ¬ machine.jumps opcode := by
  cases opcode with
  | add | sub | mol | div | inc | dec | and | or | not => exact Bool.false_ne_true
  | _ => cases h

/-- A jump that succeeds leads to the index of the label that its operand names. -/
theorem step_jump (hhalted : machine.halted = false)
    (hcurrent : machine.current? program = some instruction)
    (hjumps : machine.jumps instruction.opcode)
    (hdone : (machine.step program).outcome = .done) :
    ∃ operand target, instruction.operands = [operand] ∧
      program.labels.get? operand.token = some target ∧
      (machine.step program).machine.pc = target ∧
      (machine.step program).machine.halted = false := by
  obtain ⟨change, htransition, -, hnext⟩ := transition_of_current? hhalted hcurrent hdone
  obtain ⟨opcode, operands, line⟩ := instruction
  rw [hnext]
  cases htransition with
  | jump _ _ htarget => exact ⟨_, _, rfl, htarget, rfl, hhalted⟩
  | call _ htarget _ => exact ⟨_, _, rfl, htarget, rfl, hhalted⟩
  | skip hbranches htakes =>
    rw [takes_eq_jumps hbranches, hjumps] at htakes
    cases htakes
  | binary hstores | unary hstores => exact absurd hjumps (not_jumps_of_stores hstores)
  | mov | push | pop | cmp | ret | out | hlt => cases hjumps

/-- A jump that is taken to a label in the table succeeds, and changes nothing else. -/
theorem step_branch {opcode : Opcode} {operand : Operand} {line target : Nat}
    (hhalted : machine.halted = false)
    (hcurrent : machine.current? program = some ⟨opcode, [operand], line⟩)
    (hbranches : opcode.branches) (htakes : machine.takes opcode)
    (htarget : program.labels.get? operand.token = some target) :
    (machine.step program).outcome = .done ∧
      (machine.step program).machine = { machine with pc := target } := by
  have harity : [operand].length = opcode.arity := by
    cases opcode with
    | jmp | jz | jnz | js => rfl
    | _ => cases hbranches
  exact step_of_transition hhalted hcurrent harity (.jump hbranches htakes htarget) trivial

/-- A machine that is not halted and has no instruction ends its step with a fault. -/
theorem step_of_current?_eq_none (hhalted : machine.halted = false)
    (hcurrent : machine.current? program = none) :
    (machine.step program).outcome = .fault ⟨.executionOutOfBounds, none⟩ := by
  rw [step, if_neg (by simp [hhalted]), hcurrent]

end Machine

open Grammar in
/-- A name has an index in the program of a source text if and only if a line defines it.
    The index is the number of the instructions in front of its last definition. A jump to
    it leads to the first instruction from that line on; if there is none, then the next
    step ends with a fault. -/
theorem label_resolution (source : String) (program : Program)
    (h : assemble source = .ok program) :
    (∀ name, (∃ index, program.labels.get? name = some index) ↔
      ∃ text ∈ Split.lines source.toList, Defines text name) ∧
    (∀ name number, LastDefinition (Split.lines source.toList) name number →
      program.labels.get? name = some (program.instructions.countP (·.line < number))) ∧
    ∀ (machine : Machine) (instruction : Instruction), machine.halted = false →
      machine.current? program = some instruction → machine.jumps instruction.opcode →
      (machine.step program).outcome = .done →
      ∃ operand number, instruction.operands = [operand] ∧
        LastDefinition (Split.lines source.toList) operand.token number ∧
        (machine.step program).machine.current? program =
          program.instructions.find? (number ≤ ·.line) ∧
        (program.instructions.find? (number ≤ ·.line) = none →
          ((machine.step program).machine.step program).outcome =
            .fault ⟨.executionOutOfBounds, none⟩) := by
  obtain ⟨-, rfl⟩ := assemble_eq_ok_iff.1 h
  refine ⟨fun name => SourceLines.exists_get?_iff, fun name number hlast => ?_,
    fun machine instruction hhalted hcurrent hjumps hdone => ?_⟩
  · obtain ⟨n, rfl⟩ := hlast.exists_eq_add_one
    rw [SourceLines.get?_of_lastDefinition hlast, SourceLines.countP_line_lt]
  · obtain ⟨operand, target, hoperands, htarget, hpc, hhalted'⟩ :=
      Machine.step_jump hhalted hcurrent hjumps hdone
    obtain ⟨number, hlast⟩ := exists_lastDefinition (SourceLines.exists_get?_iff.1 ⟨_, htarget⟩)
    obtain ⟨n, rfl⟩ := hlast.exists_eq_add_one
    rw [SourceLines.get?_of_lastDefinition hlast, Option.some.injEq] at htarget
    have hfirst := SourceLines.find?_le_line (Split.lines source.toList) n
    rw [htarget, ← hpc] at hfirst
    exact ⟨operand, n + 1, hoperands, hlast, hfirst.symm, fun hnone =>
      Machine.step_of_current?_eq_none hhalted' (hfirst.symm.trans hnone)⟩

/-- The lines of a jump to a label that has the name of a register. They define it twice,
    in either case, and the last time at the end. -/
def registerLabel : List (List Char) :=
  Split.lines "jmp r0\nR0:\nHLT\nr0:\n".toList

/-- The jump leads past the last instruction. -/
theorem label_resolution_registerLabel :
    assemble "jmp r0\nR0:\nHLT\nr0:\n" = .ok (SourceLines.program registerLabel) ∧
      ((Machine.initial.step (SourceLines.program registerLabel)).machine.step
        (SourceLines.program registerLabel)).outcome = .fault ⟨.executionOutOfBounds, none⟩ := by
  have h : assemble "jmp r0\nR0:\nHLT\nr0:\n" = .ok (SourceLines.program registerLabel) :=
    assemble_eq_ok_iff.2 ⟨by decide +kernel, rfl⟩
  have hcurrent : Machine.initial.current? (SourceLines.program registerLabel) =
      some ⟨.jmp, [⟨"r0", .register ⟨0⟩⟩], 1⟩ := by decide +kernel
  have htarget : (SourceLines.program registerLabel).labels.get? "r0" = some 2 := by
    rw [SourceLines.get?_program]
    decide +kernel
  obtain ⟨hdone, hmachine⟩ := Machine.step_branch rfl hcurrent rfl rfl htarget
  obtain ⟨-, -, hjump⟩ := label_resolution _ _ h
  obtain ⟨_, _, -, -, hfirst, hend⟩ := hjump Machine.initial _ rfl hcurrent rfl hdone
  have hnone : { Machine.initial with pc := 2 }.current? (SourceLines.program registerLabel) =
      none := by decide +kernel
  rw [hmachine] at hfirst
  exact ⟨h, hend (hfirst.symm.trans hnone)⟩

end RegisterMachine
