import RegisterMachine.Proofs.ExactStep

/-!
# Flags

The flags tell about the last result that was computed: whether it was zero, and
whether it was negative. The result is the exact integer (`Machine.exactResult`), but the
word that is stored in its place tells the same, as saturation keeps zero and the sign.
Nothing else touches the flags, neither a fault nor an operation that moves words or
jumps.

* `Change.flags_next`: the flags after a change;
* `Machine.flags_step_of_computes`: the flags after a step that computes;
* `Machine.flags_step_of_not_computes`: the other steps leave them alone, and so does a
  run without steps that compute (`Machine.flags_after_eq`);
* `Machine.flags_after_initial`: so they tell about the last step that computed.
-/

namespace RegisterMachine

/-- The flags that tell about a result. -/
def Flags.ofResult (result : Int) : Flags := ⟨decide (result = 0), decide (result < 0)⟩

theorem Flags.not_zero_and_sign (result : Int) :
    ¬ ((Flags.ofResult result).zero = true ∧ (Flags.ofResult result).sign = true) := by
  simp only [Flags.ofResult, decide_eq_true_eq]
  omega

theorem Flags.ofResult_saturate (result : Int) :
    Flags.ofResult (Word.saturate result).toInt = Flags.ofResult result := by
  simp only [Flags.ofResult, Word.toInt_saturate_eq_zero, Word.toInt_saturate_lt_zero]

/-- The result that a change sets the flags by. -/
def Change.result? : Change → Option Int
  | .store _ result | .compare result => some result
  | .move .. | .push _ | .pop .. | .jump _ | .skip | .call .. | .ret _ | .output _ | .halt => none

/-- A change sets the flags by its result, and leaves them alone if it has none. -/
theorem Change.flags_next (machine : Machine) (change : Change) :
    (change.next machine).flags = (change.result?.map Flags.ofResult).getD machine.flags := by
  cases change with
  | move location word | pop location word => cases location <;> rfl
  | store | compare | push | jump | skip | call | ret | output | halt => rfl

namespace Machine

/-- The integer that an instruction computes from the values of its operands, which are
    read first to last. -/
def exactResult (machine : Machine) (instruction : Instruction) : Except FaultKind Int :=
  match instruction.operands with
  | [left, right] => do
    let x ← machine.readInt left.mode
    let y ← machine.readInt right.mode
    instruction.opcode.exact x y
  | [operand] => do
    let x ← machine.readInt operand.mode
    instruction.opcode.exact x 0
  | _ => .error .operandCountMismatch

/-- The next step computes: it executes an operation that does, and it is done. -/
def Computes (machine : Machine) (program : Program) : Prop :=
  machine.halted = false ∧ (machine.current? program).any (·.opcode.computes) = true ∧
    (machine.step program).outcome = .done

instance (machine : Machine) (program : Program) : Decidable (machine.Computes program) :=
  inferInstanceAs (Decidable (_ ∧ _ ∧ _))

variable {machine : Machine} {program : Program} {labels : LabelTable} {opcode : Opcode}
  {operands : List Operand} {change : Change}

/-! ## Transitions -/

theorem computes_of_stores (h : opcode.stores) : opcode.computes := by
  rw [Opcode.stores, Bool.and_eq_true] at h
  exact h.1

theorem not_computes_of_branches (h : opcode.branches) : opcode.computes = false := by
  cases opcode with
  | jmp | jz | jnz | js => rfl
  | _ => cases h

/-- The changes with a result are those of the operations that compute. -/
theorem isSome_result? (h : Transition labels machine opcode operands change) :
    change.result?.isSome = opcode.computes := by
  cases h with
  | binary hstores | unary hstores => exact (computes_of_stores hstores).symm
  | jump hbranches | skip hbranches => exact (not_computes_of_branches hbranches).symm
  | mov | push | pop | cmp | call | ret | out | hlt => rfl

theorem readInt_of_read {mode : Mode} {value : Value} (h : machine.read mode = .ok value) :
    machine.readInt mode = .ok value.toInt := by
  rw [readInt_eq_map_read, h]
  rfl

/-- The result of a change is the one that the instruction computes. -/
theorem exactResult_of_result? {instruction : Instruction} {result : Int}
    (h : Transition labels machine instruction.opcode instruction.operands change)
    (hresult : change.result? = some result) : machine.exactResult instruction = .ok result := by
  obtain ⟨opcode, operands, line⟩ := instruction
  cases h with
  | binary _ hx hy hexact =>
    cases hresult
    simp only [exactResult, readInt_of_read hx, readInt_of_read hy, ok_bind, hexact]
  | unary _ hx hexact =>
    cases hresult
    simp only [exactResult, readInt_of_read hx, ok_bind, hexact]
  | cmp hx hy =>
    cases hresult
    simp only [exactResult, readInt_of_read hx, readInt_of_read hy, ok_bind, Opcode.exact]
  | mov | push | pop | jump | skip | call | ret | out | hlt => cases hresult

/-- All results but that of a comparison are stored, in the first operand. -/
theorem exists_wordAt_of_result? {result : Int}
    (h : Transition labels machine opcode operands change)
    (hresult : change.result? = some result) (hcmp : opcode ≠ .cmp) :
    ∃ destination rest location, operands = destination :: rest ∧
      machine.locate destination.mode = .ok location ∧
      (change.next machine).wordAt location = Word.saturate result := by
  cases h with
  | binary _ _ _ _ hlocate | unary _ _ _ hlocate =>
    cases hresult
    exact ⟨_, _, _, rfl, hlocate, wordAt_setAt_self _ _⟩
  | cmp => exact absurd rfl hcmp
  | mov | push | pop | jump | skip | call | ret | out | hlt => cases hresult

/-! ## Steps -/

/-- A step that computes sets the flags by the result, and stores it unless it compares. -/
theorem flags_step_of_computes (h : machine.Computes program) :
    ∃ instruction result, machine.current? program = some instruction ∧
      instruction.opcode.computes = true ∧ machine.exactResult instruction = .ok result ∧
      (machine.step program).machine.flags = Flags.ofResult result ∧
      (instruction.opcode ≠ .cmp → ∃ destination rest location,
        instruction.operands = destination :: rest ∧
        machine.locate destination.mode = .ok location ∧
        (machine.step program).machine.wordAt location = Word.saturate result) := by
  obtain ⟨hhalted, hcomputes, hdone⟩ := h
  obtain ⟨instruction, change, hcurrent, htransition, -, hnext⟩ := step_transition hhalted hdone
  rw [hcurrent, Option.any_some] at hcomputes
  obtain ⟨result, hresult⟩ :=
    Option.isSome_iff_exists.1 ((isSome_result? htransition).trans hcomputes)
  refine ⟨instruction, result, hcurrent, hcomputes, exactResult_of_result? htransition hresult,
    ?_, fun hcmp => ?_⟩
  · rw [hnext, Change.flags_next, hresult]
    rfl
  · rw [hnext]
    exact exists_wordAt_of_result? htransition hresult hcmp

/-- A step that does not compute leaves the flags alone. -/
theorem flags_step_of_not_computes (h : ¬ machine.Computes program) :
    (machine.step program).machine.flags = machine.flags := by
  by_cases hdone : (machine.step program).outcome = .done
  · obtain ⟨-, hnext⟩ | ⟨instruction, change, hhalted, hcurrent, htransition, -, hnext⟩ :=
      step_done hdone
    · rw [hnext]
    · have hcomputes : instruction.opcode.computes = false :=
        Bool.eq_false_iff.2 fun hcomputes => h ⟨hhalted, by rwa [hcurrent], hdone⟩
      rw [← isSome_result? htransition, Option.isSome_eq_false_iff, Option.isNone_iff_eq_none]
        at hcomputes
      rw [hnext, Change.flags_next, hcomputes]
      rfl
  · rw [step_machine_of_ne_done hdone]

theorem not_computes_of_executes (h : machine.Executes program opcode)
    (hopcode : opcode.computes = false) : ¬ machine.Computes program := by
  rintro ⟨-, hcomputes, -⟩
  obtain ⟨instruction, hcurrent, rfl⟩ := Option.map_eq_some_iff.1 h.2
  rw [hcurrent, Option.any_some, hopcode] at hcomputes
  cases hcomputes

/-! ## Runs -/

/-- The flags stay as they are during a run without steps that compute. -/
theorem flags_after_eq {m n : Nat} (hmn : m ≤ n)
    (h : ∀ i, m ≤ i → i < n → ¬ (machine.after program i).Computes program) :
    (machine.after program n).flags = (machine.after program m).flags := by
  induction n, hmn using Nat.le_induction with
  | base => rfl
  | succ n hmn ih =>
    rw [after_succ, flags_step_of_not_computes (h n hmn (Nat.lt_succ_self n))]
    exact ih fun i hi hlt => h i hi (Nat.lt_succ_of_lt hlt)

/-- The two flags are never both set. -/
theorem not_zero_and_sign_after (h : ¬ (machine.flags.zero = true ∧ machine.flags.sign = true))
    (n : Nat) :
    ¬ ((machine.after program n).flags.zero = true ∧
      (machine.after program n).flags.sign = true) := by
  induction n with
  | zero => exact h
  | succ n ih =>
    rw [after_succ]
    by_cases hcomputes : (machine.after program n).Computes program
    · obtain ⟨_, result, _, _, _, hflags, _⟩ := flags_step_of_computes hcomputes
      rw [hflags]
      exact Flags.not_zero_and_sign result
    · rwa [flags_step_of_not_computes hcomputes]

/-- The flags are clear until a step computes. From then on they tell about the exact result
    of the last step that did, and likewise about the word that this step stored, unless it
    was a comparison. A step that fails leaves them alone, as does one of an operation that
    does not compute. -/
theorem flags_after_initial (program : Program) (n : Nat) :
    ((∀ i < n, ¬ (initial.after program i).Computes program) →
      (initial.after program n).flags = ⟨false, false⟩) ∧
    (∀ i < n, (initial.after program i).Computes program →
      (∀ j, i < j → j < n → ¬ (initial.after program j).Computes program) →
      ∃ instruction result,
        (initial.after program i).current? program = some instruction ∧
        instruction.opcode.computes = true ∧
        (initial.after program i).exactResult instruction = .ok result ∧
        (initial.after program n).flags = Flags.ofResult result ∧
        (instruction.opcode ≠ .cmp → ∃ destination rest location word,
          instruction.operands = destination :: rest ∧
          (initial.after program i).locate destination.mode = .ok location ∧
          (initial.after program (i + 1)).wordAt location = word ∧
          word = Word.saturate result ∧
          (initial.after program n).flags = Flags.ofResult word.toInt)) ∧
    ¬ ((initial.after program n).flags.zero = true ∧
      (initial.after program n).flags.sign = true) ∧
    ∀ machine : Machine, ((machine.step program).outcome ≠ .done ∨
        ∃ opcode, machine.Executes program opcode ∧ opcode.computes = false) →
      (machine.step program).machine.flags = machine.flags := by
  refine ⟨fun hnone => ?_, fun i hi hcomputes hrest => ?_, not_zero_and_sign_after (by decide) n,
    fun machine h => flags_step_of_not_computes ?_⟩
  · rw [flags_after_eq (Nat.zero_le n) fun i _ hlt => hnone i hlt]
    rfl
  · obtain ⟨instruction, result, hcurrent, hopcode, hresult, hflags, hstore⟩ :=
      flags_step_of_computes hcomputes
    have hlast : (initial.after program n).flags = Flags.ofResult result := by
      rw [flags_after_eq hi fun j hj hlt => hrest j hj hlt, after_succ, hflags]
    refine ⟨instruction, result, hcurrent, hopcode, hresult, hlast, fun hcmp => ?_⟩
    obtain ⟨destination, rest, location, hoperands, hlocate, hword⟩ := hstore hcmp
    exact ⟨destination, rest, location, _, hoperands, hlocate, hword, rfl, by
      rw [Flags.ofResult_saturate, hlast]⟩
  · obtain hdone | ⟨opcode, hexecutes, hopcode⟩ := h
    · exact fun hcomputes => hdone hcomputes.2.2
    · exact not_computes_of_executes hexecutes hopcode

/-- A program that keeps the sign bit of a wide mask, moves a word over the result, and then
    fails to divide by zero again and again. -/
def wideMask : Program where
  instructions := #[
    ⟨.mov, [.ofText "R0".toList, .ofText "-1".toList], 1⟩,
    ⟨.and, [.ofText "R0".toList, .ofText "-99999".toList], 2⟩,
    ⟨.mov, [.ofText "R0".toList, .ofText "7".toList], 3⟩,
    ⟨.div, [.ofText "R0".toList, .ofText "0".toList], 4⟩]
  labels := ∅

/-- The conjunction is below the words, and stays the last result. -/
theorem flags_after_initial_wideMask :
    (initial.after wideMask 5).flags = ⟨false, true⟩ ∧
      (initial.after wideMask 2).wordAt (.register ⟨0⟩) = Word.saturate (-99999) := by
  obtain ⟨-, hlast, -, -⟩ := flags_after_initial wideMask 5
  have hrest : ∀ j < 5, 1 < j → ¬ (initial.after wideMask j).Computes wideMask := by
    decide +kernel
  obtain ⟨instruction, result, hcurrent, -, hresult, hflags, hstore⟩ :=
    hlast 1 (by decide) (by decide +kernel) fun j hj hlt => hrest j hlt hj
  have hand : (initial.after wideMask 1).current? wideMask =
      some ⟨.and, [⟨"R0", .register ⟨0⟩⟩, ⟨"-99999", .immediate (-99999)⟩], 2⟩ := by
    decide +kernel
  obtain rfl := Option.some.inj (hand.symm.trans hcurrent)
  have hexact : (initial.after wideMask 1).exactResult
      ⟨.and, [⟨"R0", .register ⟨0⟩⟩, ⟨"-99999", .immediate (-99999)⟩], 2⟩ = .ok (-99999) := by
    decide +kernel
  obtain rfl := Except.ok.inj (hexact.symm.trans hresult)
  obtain ⟨_, _, _, _, ⟨⟩, ⟨⟩, hword, hsaturate, -⟩ := hstore (by decide)
  exact ⟨hflags, hword.trans hsaturate⟩

end Machine

end RegisterMachine
