import RegisterMachine.Machine.Operation
import RegisterMachine.Proofs.Effect

/-!
# Execution has the effect

Executing an instruction carries out its effect (`Instruction.run_execute`): what the
actions do one after the other, on values of 64 bits and with writes that stay done
if a later action fails, amounts to one change, or to nothing but a fault. So

* a fault leaves the workspace as it was, which is a matter of the order of the
  actions in each operation;
* a success logs one message;
* the one defect there is, is that of pushing onto a stack outside of the memory
  (`Change.Fits`).

There is a lemma for each operation, or for each group of them that acts alike.
-/

namespace RegisterMachine

/-- A workspace after an effect is carried out. -/
def Workspace.carry (workspace : Workspace) :
    Except FaultKind Effect → EStateM.Result Trap Workspace Flow
  | .error kind => .error (.fault kind) workspace
  | .ok effect =>
    if effect.change.Fits workspace.machine then
      .ok effect.change.flow ((workspace.update effect.change.apply).report effect.text)
    else .error (.defect .stackPointer) workspace

namespace Instruction

open Execution

variable (workspace : Workspace) (labels : LabelTable)

/-! ## The last actions of an instruction -/

theorem run_report_return (text : String) (flow : Flow) :
    (do report text; return flow : Execution Flow).run workspace =
      .ok flow (workspace.report text) := rfl

theorem run_store_report (destination : Operand) (result : Int) (text : String) :
    (do store destination (Value.saturate result); report text; return .next :
      Execution Flow).run workspace =
      workspace.carry (do
        let location ← workspace.machine.locate destination.mode
        return ⟨.store location result, text⟩) := by
  rw [run_store_bind, Machine.write_eq, Value.saturate_toInt_saturate]
  obtain kind | location := workspace.machine.locate destination.mode
  · rfl
  · simp only [Except.map, Machine.setFlags_saturate]
    rfl

theorem run_pushWord_report (word : Word) (text : Nat → String) (flow : Flow)
    (hsp : workspace.machine.sp ≠ 0) :
    (do pushWord word; let sp ← stackPointer; report (text sp); return flow :
      Execution Flow).run workspace =
      if workspace.machine.sp ≤ 256 then
        .ok flow ((workspace.update (·.push word)).report (text (workspace.machine.sp - 1)))
      else .error (.defect .stackPointer) workspace := by
  obtain ⟨sp, hsp⟩ := Nat.exists_eq_succ_of_ne_zero hsp
  by_cases h : sp < 256
  · rw [run_pushWord_bind workspace word _ hsp h, run_stackPointer_bind, run_report_return,
      if_pos (by omega)]
    simp only [Workspace.update, Machine.push, Memory.put, hsp, Nat.succ_sub_one, dif_pos h]
  · rw [if_neg (by omega), pushWord, bind_assoc, run_stackPointer_bind, hsp]
    simp only [dif_neg h]
    rfl

/-! ## The operations -/

theorem run_mov (destination source : Operand) (line : Nat) :
    (perform ⟨.mov, [destination, source], line⟩ labels).run workspace =
      workspace.carry (effect ⟨.mov, [destination, source], line⟩ labels workspace.machine) := by
  simp only [perform, effect, run_fetch_bind, run_read_bind, run_write_bind, Machine.write_eq,
    List.getElem?_cons_zero, List.getElem?_cons_succ, run_report_return]
  obtain kind | value := workspace.machine.read source.mode
  · rfl
  obtain kind | location := workspace.machine.locate destination.mode <;> rfl

theorem run_push (source : Operand) (line : Nat) :
    (perform ⟨.push, [source], line⟩ labels).run workspace =
      workspace.carry (effect ⟨.push, [source], line⟩ labels workspace.machine) := by
  simp only [perform, effect, run_requireRoom_bind, run_fetch_bind, run_read_bind,
    List.getElem?_cons_zero]
  by_cases hsp : workspace.machine.sp = 0
  · simp only [if_pos hsp]
    rfl
  simp only [if_neg hsp]
  obtain kind | value := workspace.machine.read source.mode
  · rfl
  simp only [run_pushWord_report _ _ _ _ hsp]
  rfl

theorem run_pop (destination : Operand) (line : Nat) :
    (perform ⟨.pop, [destination], line⟩ labels).run workspace =
      workspace.carry (effect ⟨.pop, [destination], line⟩ labels workspace.machine) := by
  simp only [perform, effect, run_top_bind, run_fetch_bind, run_write_bind, Machine.write_eq,
    Machine.top?, Word.toInt_toValue, Word.saturate_toInt, List.getElem?_cons_zero]
  rcases workspace.machine.memory.cells[workspace.machine.sp]? with _ | word
  · rfl
  obtain kind | location := workspace.machine.locate destination.mode
  · rfl
  -- The message tells the stack pointer, which a write to either kind of location keeps.
  obtain register | address := location <;> rfl

theorem run_arithmetic {opcode : Opcode} {operation : Value → Value → Option Value}
    {exact : Int → Int → Int} (hexact : ∀ x y, opcode.exact x y = Opcode.exactWord (exact x y))
    (h : ∀ a b c, operation a b = some c ↔ exact a.toInt b.toInt = c.toInt)
    (destination source : Operand) (line : Nat) :
    (arithmetic ⟨opcode, [destination, source], line⟩ operation).run workspace =
      workspace.carry (workspace.machine.binary opcode destination source) := by
  simp only [arithmetic, Machine.binary, run_fetch_bind, run_read_bind, run_orTrap_bind,
    List.getElem?_cons_zero, List.getElem?_cons_succ]
  obtain kind | a := workspace.machine.read destination.mode
  · rfl
  obtain kind | b := workspace.machine.read source.mode
  · rfl
  simp only [Value.filter_isWord_eq (h a b), hexact, Opcode.exactWord, ok_bind]
  by_cases hword : -32768 ≤ exact a.toInt b.toInt ∧ exact a.toInt b.toInt ≤ 32767
  · simp only [if_pos hword, run_store_report, ok_bind]
  · simp only [if_neg hword]
    rfl

theorem run_bitwise {opcode : Opcode} {operation : Value → Value → Value}
    {exact : Int → Int → Int} (hexact : ∀ x y, opcode.exact x y = .ok (exact x y))
    (h : ∀ a b, operation a b = Value.saturate (exact a.toInt b.toInt))
    (destination source : Operand) (line : Nat) :
    (bitwise ⟨opcode, [destination, source], line⟩ operation).run workspace =
      workspace.carry (workspace.machine.binary opcode destination source) := by
  simp only [bitwise, Machine.binary, run_fetch_bind, run_read_bind, List.getElem?_cons_zero,
    List.getElem?_cons_succ]
  obtain kind | a := workspace.machine.read destination.mode
  · rfl
  obtain kind | b := workspace.machine.read source.mode
  · rfl
  simp only [h, hexact, run_store_report, ok_bind]

theorem run_div (destination source : Operand) (line : Nat) :
    (perform ⟨.div, [destination, source], line⟩ labels).run workspace =
      workspace.carry (workspace.machine.binary .div destination source) := by
  simp only [perform, Machine.binary, run_fetch_bind, run_read_bind, run_require_bind,
    run_orTrap_bind, List.getElem?_cons_zero, List.getElem?_cons_succ]
  obtain kind | a := workspace.machine.read destination.mode
  · rfl
  obtain kind | b := workspace.machine.read source.mode
  · rfl
  by_cases hb : b = 0
  · subst hb
    rfl
  · have hy : b.toInt ≠ 0 := fun h => hb (Int64.toInt_inj.1 h)
    simp only [bne_iff_ne.2 hb, if_true, Value.floorDiv?_eq hb, run_store_report, Opcode.exact,
      ok_bind, if_neg hy]
    rfl

theorem run_inc (destination : Operand) (line : Nat) :
    (perform ⟨.inc, [destination], line⟩ labels).run workspace =
      workspace.carry (workspace.machine.unary .inc destination) := by
  simp only [perform, Machine.unary, run_fetch_bind, run_read_bind, run_require_bind,
    List.getElem?_cons_zero]
  obtain kind | a := workspace.machine.read destination.mode
  · rfl
  simp only [Value.saturatingAdd_eq, Int64.toInt_one, Word.greatest, decide_eq_true_iff,
    run_store_report, Opcode.exact, ok_bind]
  have hbound : (Value.saturate (a.toInt + 1)).toInt ≤ 32767 ↔ ¬ a.toInt + 1 > 32767 := by
    rw [Value.toInt_saturate]; omega
  by_cases h : a.toInt + 1 > 32767
  · rw [if_neg fun hle => hbound.1 hle h, if_pos h]
    rfl
  · rw [if_pos (hbound.2 h), if_neg h]
    rfl

theorem run_dec (destination : Operand) (line : Nat) :
    (perform ⟨.dec, [destination], line⟩ labels).run workspace =
      workspace.carry (workspace.machine.unary .dec destination) := by
  simp only [perform, Machine.unary, run_fetch_bind, run_read_bind, run_require_bind,
    List.getElem?_cons_zero]
  obtain kind | a := workspace.machine.read destination.mode
  · rfl
  simp only [Value.saturatingSub_eq, Int64.toInt_one, Word.least, decide_eq_true_iff,
    run_store_report, Opcode.exact, ok_bind]
  have hbound : -32768 ≤ (Value.saturate (a.toInt - 1)).toInt ↔ ¬ a.toInt - 1 < -32768 := by
    rw [Value.toInt_saturate]; omega
  by_cases h : a.toInt - 1 < -32768
  · rw [if_neg fun hle => hbound.1 hle h, if_pos h]
    rfl
  · rw [if_pos (hbound.2 h), if_neg h]
    rfl

theorem run_not (destination : Operand) (line : Nat) :
    (perform ⟨.not, [destination], line⟩ labels).run workspace =
      workspace.carry (workspace.machine.unary .not destination) := by
  simp only [perform, Machine.unary, run_fetch_bind, run_read_bind, List.getElem?_cons_zero]
  obtain kind | a := workspace.machine.read destination.mode
  · rfl
  simp only [Value.not_eq, run_store_report]
  rfl

theorem run_cmp (left right : Operand) (line : Nat) :
    (perform ⟨.cmp, [left, right], line⟩ labels).run workspace =
      workspace.carry (effect ⟨.cmp, [left, right], line⟩ labels workspace.machine) := by
  simp only [perform, effect, run_fetch_bind, run_read_bind, run_update_bind,
    List.getElem?_cons_zero, List.getElem?_cons_succ, Value.saturatingSub_eq,
    Machine.setFlags_saturate, run_report_return]
  obtain kind | a := workspace.machine.read left.mode
  · rfl
  obtain kind | b := workspace.machine.read right.mode <;> rfl

theorem run_jumpIf_eq (opcode : Opcode) (operand : Operand) :
    (jumpIf (workspace.machine.takes opcode) labels opcode operand).run workspace =
      workspace.carry (workspace.machine.branch labels opcode operand) := by
  rw [run_jumpIf, run_jump, Machine.branch]
  cases workspace.machine.takes opcode with
  | true => rcases labels.get? operand.token with _ | target <;> rfl
  | false => rfl

theorem run_call (operand : Operand) (line : Nat) :
    (perform ⟨.call, [operand], line⟩ labels).run workspace =
      workspace.carry (effect ⟨.call, [operand], line⟩ labels workspace.machine) := by
  simp only [perform, effect, run_requireRoom_bind, run_fetch_bind, run_target_bind,
    run_machine_bind, run_orTrap_bind, List.getElem?_cons_zero]
  by_cases hsp : workspace.machine.sp = 0
  · simp only [if_pos hsp]
    rfl
  simp only [if_neg hsp]
  rcases labels.get? operand.token with _ | target
  · rfl
  rcases Word.ofNat? (workspace.machine.pc + 1) with _ | returnAddress
  · rfl
  simp only [run_pushWord_report _ _ _ _ hsp]
  rfl

theorem run_ret (line : Nat) :
    (perform ⟨.ret, [], line⟩ labels).run workspace =
      workspace.carry (effect ⟨.ret, [], line⟩ labels workspace.machine) := by
  simp only [perform, effect, run_top_bind, run_require_bind, Machine.top?]
  rcases workspace.machine.memory.cells[workspace.machine.sp]? with _ | word
  · rfl
  simp only [decide_eq_true_iff, ok_bind]
  by_cases h : 0 ≤ word.toInt
  · simp only [if_pos h]
    rfl
  · simp only [if_neg h]
    rfl

theorem run_out (source : Operand) (line : Nat) :
    (perform ⟨.out, [source], line⟩ labels).run workspace =
      workspace.carry (effect ⟨.out, [source], line⟩ labels workspace.machine) := by
  simp only [perform, effect, run_fetch_bind, run_read_bind, List.getElem?_cons_zero]
  obtain kind | value := workspace.machine.read source.mode <;> rfl

/-! ## All instructions -/

/-- An instruction with the right number of operands carries out its effect. -/
theorem run_perform {instruction : Instruction}
    (h : instruction.operands.length = instruction.opcode.arity) :
    (instruction.perform labels).run workspace =
      workspace.carry (instruction.effect labels workspace.machine) := by
  obtain ⟨opcode, operands, line⟩ := instruction
  cases opcode with
  | mov =>
    obtain ⟨destination, source, rfl⟩ := List.length_eq_two.1 h
    exact run_mov workspace labels destination source line
  | push =>
    obtain ⟨source, rfl⟩ := List.length_eq_one_iff.1 h
    exact run_push workspace labels source line
  | pop =>
    obtain ⟨destination, rfl⟩ := List.length_eq_one_iff.1 h
    exact run_pop workspace labels destination line
  | add =>
    obtain ⟨destination, source, rfl⟩ := List.length_eq_two.1 h
    exact run_arithmetic workspace (fun _ _ => rfl) (fun _ _ _ => Value.add?_eq_some_iff)
      destination source line
  | sub =>
    obtain ⟨destination, source, rfl⟩ := List.length_eq_two.1 h
    exact run_arithmetic workspace (fun _ _ => rfl) (fun _ _ _ => Value.sub?_eq_some_iff)
      destination source line
  | mol =>
    obtain ⟨destination, source, rfl⟩ := List.length_eq_two.1 h
    exact run_arithmetic workspace (fun _ _ => rfl) (fun _ _ _ => Value.mul?_eq_some_iff)
      destination source line
  | div =>
    obtain ⟨destination, source, rfl⟩ := List.length_eq_two.1 h
    exact run_div workspace labels destination source line
  | inc =>
    obtain ⟨destination, rfl⟩ := List.length_eq_one_iff.1 h
    exact run_inc workspace labels destination line
  | dec =>
    obtain ⟨destination, rfl⟩ := List.length_eq_one_iff.1 h
    exact run_dec workspace labels destination line
  | and =>
    obtain ⟨destination, source, rfl⟩ := List.length_eq_two.1 h
    exact run_bitwise workspace (fun _ _ => rfl) Value.and_eq destination source line
  | or =>
    obtain ⟨destination, source, rfl⟩ := List.length_eq_two.1 h
    exact run_bitwise workspace (fun _ _ => rfl) Value.or_eq destination source line
  | not =>
    obtain ⟨destination, rfl⟩ := List.length_eq_one_iff.1 h
    exact run_not workspace labels destination line
  | cmp =>
    obtain ⟨left, right, rfl⟩ := List.length_eq_two.1 h
    exact run_cmp workspace labels left right line
  | jmp =>
    obtain ⟨operand, rfl⟩ := List.length_eq_one_iff.1 h
    exact run_jumpIf_eq workspace labels .jmp operand
  | jz =>
    obtain ⟨operand, rfl⟩ := List.length_eq_one_iff.1 h
    exact run_jumpIf_eq workspace labels .jz operand
  | jnz =>
    obtain ⟨operand, rfl⟩ := List.length_eq_one_iff.1 h
    exact run_jumpIf_eq workspace labels .jnz operand
  | js =>
    obtain ⟨operand, rfl⟩ := List.length_eq_one_iff.1 h
    exact run_jumpIf_eq workspace labels .js operand
  | call =>
    obtain ⟨operand, rfl⟩ := List.length_eq_one_iff.1 h
    exact run_call workspace labels operand line
  | ret =>
    obtain rfl := List.length_eq_zero_iff.1 h
    exact run_ret workspace labels line
  | out =>
    obtain ⟨source, rfl⟩ := List.length_eq_one_iff.1 h
    exact run_out workspace labels source line
  | hlt =>
    obtain rfl := List.length_eq_zero_iff.1 h
    rfl

/-- Executing an instruction carries out its effect, whatever the number of its operands. -/
theorem run_execute (instruction : Instruction) :
    (instruction.execute labels).run workspace =
      workspace.carry (instruction.effect labels workspace.machine) := by
  rw [execute, run_require_bind]
  by_cases h : instruction.operands.length = instruction.opcode.arity
  · rw [if_pos (beq_iff_eq.2 h), run_perform workspace labels h]
  · rw [if_neg fun hbeq => h (beq_iff_eq.1 hbeq), effect_of_length_ne h]
    rfl

end Instruction

end RegisterMachine
