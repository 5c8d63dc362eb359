import RegisterMachine.Proofs.Safety

/-!
# What is logged in a run

A step of a machine that has not halted logs one message, and a machine that has halted
logs nothing. The message on an instruction that is executed begins with the name of its
operation. That on a fault begins with the program counter and ends with the text of the
fault. So there are as many messages in a run as there are steps made before the machine
has halted (`log_after`).

An operation reports when all of its actions are done, and reports in each of its ways to
be done, so there is no message in front of that on a fault, and none is left out. All of
this is in the effect of an instruction: it has one text, and a fault has none.

* `Instruction.text_of_effect`: how the message on an instruction begins;
* `Machine.log_step`: what a step logs;
* `Machine.size_logged`: how many messages a run has.
-/

namespace RegisterMachine

/-- A text begins with a word. -/
def BeginsWith (text word : String) : Prop := ∃ rest, text = word ++ rest

theorem BeginsWith.append {text word : String} (h : BeginsWith text word) (more : String) :
    BeginsWith (text ++ more) word := by
  obtain ⟨rest, rfl⟩ := h
  exact ⟨rest ++ more, String.append_assoc⟩

theorem beginsWith_append (word rest : String) : BeginsWith (word ++ rest) word := ⟨rest, rfl⟩

/-! ## The messages of instructions -/

section

variable {machine : Machine} {labels : LabelTable} {opcode : Opcode} {effect : Effect}

theorem Machine.text_of_binary {destination source : Operand}
    (h : machine.binary opcode destination source = .ok effect) :
    BeginsWith effect.text opcode.name := by
  simp only [binary, bind_eq_ok_iff, pure_eq_ok_iff] at h
  obtain ⟨x, -, y, -, result, -, location, -, rfl⟩ := h
  simp only [String.append_assoc]
  exact beginsWith_append _ _

theorem Machine.text_of_unary {destination : Operand}
    (h : machine.unary opcode destination = .ok effect) :
    BeginsWith effect.text opcode.name := by
  simp only [unary, bind_eq_ok_iff, pure_eq_ok_iff] at h
  obtain ⟨x, -, result, -, location, -, rfl⟩ := h
  simp only [String.append_assoc]
  exact beginsWith_append _ _

theorem Machine.text_of_branch {operand : Operand}
    (h : machine.branch labels opcode operand = .ok effect) :
    BeginsWith effect.text opcode.name := by
  rw [branch] at h
  split at h
  · split at h
    · cases h
      simp only [String.append_assoc]
      exact beginsWith_append _ _
    · cases h
  · cases h
    simp only [String.append_assoc]
    exact beginsWith_append _ _

/-- The message on an instruction begins with the name of its operation. -/
theorem Instruction.text_of_effect {instruction : Instruction}
    (h : instruction.effect labels machine = .ok effect) :
    BeginsWith effect.text instruction.opcode.name := by
  have harity : instruction.operands.length = instruction.opcode.arity := by
    by_contra hne
    rw [effect_of_length_ne hne] at h
    cases h
  obtain ⟨opcode, operands, line⟩ := instruction
  cases opcode with
  | mov =>
    obtain ⟨destination, source, rfl⟩ := List.length_eq_two.1 harity
    simp only [Instruction.effect, bind_eq_ok_iff, pure_eq_ok_iff] at h
    obtain ⟨value, -, location, -, rfl⟩ := h
    simp only [String.append_assoc]
    exact .append ⟨" ", by decide⟩ _
  | push =>
    obtain ⟨source, rfl⟩ := List.length_eq_one_iff.1 harity
    simp only [Instruction.effect] at h
    split at h
    · cases h
    · simp only [bind_eq_ok_iff, pure_eq_ok_iff] at h
      obtain ⟨value, -, rfl⟩ := h
      simp only [String.append_assoc]
      exact .append ⟨" ", by decide⟩ _
  | pop =>
    obtain ⟨destination, rfl⟩ := List.length_eq_one_iff.1 harity
    simp only [Instruction.effect, bind_eq_ok_iff, pure_eq_ok_iff] at h
    obtain ⟨word, -, location, -, rfl⟩ := h
    simp only [String.append_assoc]
    exact .append ⟨" ", by decide⟩ _
  | add | sub | mol | div | and | or =>
    obtain ⟨destination, source, rfl⟩ := List.length_eq_two.1 harity
    exact Machine.text_of_binary h
  | inc | dec | not =>
    obtain ⟨destination, rfl⟩ := List.length_eq_one_iff.1 harity
    exact Machine.text_of_unary h
  | cmp =>
    obtain ⟨left, right, rfl⟩ := List.length_eq_two.1 harity
    simp only [Instruction.effect, bind_eq_ok_iff, pure_eq_ok_iff] at h
    obtain ⟨x, -, y, -, rfl⟩ := h
    simp only [String.append_assoc]
    exact .append ⟨" ", by decide⟩ _
  | jmp | jz | jnz | js =>
    obtain ⟨operand, rfl⟩ := List.length_eq_one_iff.1 harity
    exact Machine.text_of_branch h
  | call =>
    obtain ⟨operand, rfl⟩ := List.length_eq_one_iff.1 harity
    simp only [Instruction.effect] at h
    split at h
    · cases h
    · split at h
      · cases h
        simp only [String.append_assoc]
        exact .append ⟨" ", by decide⟩ _
      · cases h
      · cases h
  | ret =>
    obtain rfl := List.length_eq_zero_iff.1 harity
    simp only [Instruction.effect, bind_eq_ok_iff] at h
    obtain ⟨word, -, h⟩ := h
    split at h
    · cases h
      simp only [String.append_assoc]
      exact .append ⟨" -> ", by decide⟩ _
    · cases h
  | out =>
    obtain ⟨source, rfl⟩ := List.length_eq_one_iff.1 harity
    simp only [Instruction.effect, bind_eq_ok_iff, pure_eq_ok_iff] at h
    obtain ⟨value, -, rfl⟩ := h
    change BeginsWith ("OUT " ++ _) "OUT"
    exact .append ⟨" ", by decide⟩ _
  | hlt =>
    obtain rfl := List.length_eq_zero_iff.1 harity
    cases h
    exact ⟨"", rfl⟩

end

/-! ## The messages of steps -/

namespace Machine

variable {machine : Machine} {program : Program}

/-- What a step of a machine that has not halted reports, by how it ends. -/
inductive Reports (machine : Machine) (program : Program) : Outcome → String → Prop
  | executed {instruction : Instruction} {text : String}
      (hcurrent : machine.current? program = some instruction)
      (htext : BeginsWith text instruction.opcode.name) : Reports machine program .done text
  | fault (fault : Fault) (middle : String) : Reports machine program (.fault fault)
      (s!"[pc: {machine.pc}] " ++ middle ++ fault.message)

theorem reports_endText (fault : Fault) :
    machine.Reports program (.fault fault) (machine.endText fault) := by
  have htext : machine.endText fault = s!"[pc: {machine.pc}] " ++ "" ++ fault.message := by
    rw [String.append_empty]
    rfl
  rw [htext]
  exact .fault fault ""

theorem reports_faultText (instruction : Instruction) (fault : Fault) :
    machine.Reports program (.fault fault) (machine.faultText instruction fault) := by
  have htext : machine.faultText instruction fault =
      s!"[pc: {machine.pc}] " ++ (instruction.text ++ ": ") ++ fault.message := by
    rw [← String.append_assoc]
    rfl
  rw [htext]
  exact .fault fault _

/-- A step of a machine that has not halted logs one message. -/
theorem log_step (hsp : machine.sp ≤ 256) (hhalted : machine.halted = false) :
    ∃ text, (machine.step program).log = #[⟨.debug, text⟩] ∧
      machine.Reports program (machine.step program).outcome text := by
  cases stepping machine program with
  | halted hhalted' =>
    rw [hhalted] at hhalted'
    cases hhalted'
  | ended _ _ hstep =>
    rw [hstep]
    exact ⟨_, rfl, reports_endText _⟩
  | refused _ _ _ hstep =>
    rw [hstep]
    exact ⟨_, rfl, reports_faultText _ _⟩
  | unfit _ _ _ hfits => exact absurd (fits_of_sp_le hsp _) hfits
  | executed _ hcurrent heffect _ hstep =>
    rw [hstep]
    exact ⟨_, rfl, .executed hcurrent (Instruction.text_of_effect heffect)⟩

theorem log_step_of_halted (hhalted : machine.halted = true) :
    (machine.step program).log = #[] := by
  rw [step, if_pos hhalted]

theorem size_log_step (hsp : machine.sp ≤ 256) :
    (machine.step program).log.size = if machine.halted then 0 else 1 := by
  cases hhalted : machine.halted with
  | true => rw [log_step_of_halted hhalted]; rfl
  | false =>
    obtain ⟨text, hlog, -⟩ := @log_step machine program hsp hhalted
    rw [hlog]
    rfl

/-- What is logged in a number of steps. -/
def logged (machine : Machine) (program : Program) : Nat → Log
  | 0 => #[]
  | n + 1 => machine.logged program n ++ ((machine.after program n).step program).log

/-- There are as many messages as there are steps of a machine that has not halted. -/
theorem size_logged (hsp : machine.sp ≤ 256) (n : Nat) :
    (machine.logged program n).size =
      (List.range n).countP fun i => !(machine.after program i).halted := by
  induction n with
  | zero => rfl
  | succ n ih =>
    rw [logged, Array.size_append, ih, size_log_step (sp_after_le hsp n), List.range_succ,
      List.countP_append, List.countP_singleton]
    cases (machine.after program n).halted <;> rfl

/-- Whatever was asked of a machine before, a step logs nothing if the machine has halted, and
    one message if it has not; and a number of further steps log as many messages as there are
    steps among them of the machine not halted. -/
theorem log_after (program : Program) (requests : List Call) (n : Nat) :
    let machine := initial.calls program requests
    (machine.halted = true → (machine.step program).log = #[]) ∧
      (machine.halted = false → ∃ text, (machine.step program).log = #[⟨.debug, text⟩] ∧
        machine.Reports program (machine.step program).outcome text) ∧
      (machine.logged program n).size =
        (List.range n).countP fun i => !(machine.after program i).halted := by
  have hsp : (initial.calls program requests).sp ≤ 256 :=
    calls_induction (P := (·.sp ≤ 256)) (by decide) (fun _ => sp_step_le) requests
  exact ⟨log_step_of_halted, log_step hsp, size_logged hsp n⟩

/-- A jump that is not taken, and the end of the instructions, which is reached twice. -/
example : initial.logged ⟨#[⟨.jz, [⟨"A", .symbol⟩], 1⟩], ∅⟩ 3 =
    #[⟨.debug, "JZ A not taken"⟩,
      ⟨.debug, "[pc: 1] program counter ran past the last instruction"⟩,
      ⟨.debug, "[pc: 1] program counter ran past the last instruction"⟩] := by
  decide +kernel

end Machine

end RegisterMachine
