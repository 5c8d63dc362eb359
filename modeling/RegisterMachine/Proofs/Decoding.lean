import Mathlib.Data.List.Forall2
import RegisterMachine.Proofs.Effect
import RegisterMachine.Proofs.Listing
import RegisterMachine.Proofs.Printing

/-!
# Programs in code

An instruction can be given in code, without a source text: by the number of its operation,
the texts of its operands and a line (`Instruction.Code`). A program is decoded from the
codes of its instructions, and from labels that are entered one after the other
(`Program.decode`). This fails only for a number that no operation has.

The operands of decoded instructions, and those of assembled ones, read back from their
texts (`Instruction.Legible`): what they were read from is trimmed once, and trimming again
does nothing. So a program of either kind is decoded from its own codes and labels.

* `Instruction.Code.decode_eq_ok_iff`: what is decoded from a code;
* `Instruction.decode_toCode_iff`: the instructions that are decoded from their own codes;
* `Program.decode_codes`: the programs that are;
* `decode_agrees`: assembling and decoding agree.
-/

namespace RegisterMachine

open SourceLines

/-- Each element has a result, in the order of the elements. -/
theorem mapM_eq_ok_iff {ε α β : Type} {f : α → Except ε β} {elements : List α}
    {results : List β} : elements.mapM f = .ok results ↔
      List.Forall₂ (fun element result => f element = .ok result) elements results := by
  induction elements generalizing results with
  | nil =>
    rw [List.mapM_nil, List.forall₂_nil_left_iff]
    exact ⟨fun h => (Except.ok.inj h).symm, fun h => h ▸ rfl⟩
  | cons element elements ih =>
    simp only [List.mapM_cons, bind_eq_ok_iff, ih, List.forall₂_cons_left_iff]
    constructor
    · rintro ⟨result, hresult, results, hresults, ⟨⟩⟩
      exact ⟨result, results, hresult, hresults, rfl⟩
    · rintro ⟨result, results, hresult, hresults, rfl⟩
      exact ⟨result, hresult, results, hresults, rfl⟩

/-- An instruction in code: the number of its operation, the texts of its operands, and its
    line. -/
structure Instruction.Code where
  operation : Nat
  tokens : List String
  line : Nat
  deriving DecidableEq, Repr

/-- The instruction in code. -/
def Instruction.toCode (instruction : Instruction) : Code :=
  ⟨instruction.opcode.code, instruction.operands.map (·.token), instruction.line⟩

/-- The instruction of a code, or a fault if there is no such operation. -/
def Instruction.Code.decode (code : Code) : Except Fault Instruction :=
  ofCode code.operation code.tokens code.line

/-- The operands of an instruction read back from their texts. -/
def Instruction.Legible (instruction : Instruction) : Prop :=
  ∀ operand ∈ instruction.operands, Operand.ofText operand.token.toList = operand

namespace Program

/-- The instructions of a program in code. -/
def codes (program : Program) : List Instruction.Code :=
  program.instructions.toList.map Instruction.toCode

/-- The program of instructions in code, with labels that are entered one after the other. The
    first code without an operation is a fault. -/
def decode (codes : List Instruction.Code) (entries : List (String × Nat)) :
    Except Fault Program := do
  let instructions ← codes.mapM Instruction.Code.decode
  return ⟨instructions.toArray, (∅ : LabelTable).insertAll entries⟩

end Program

/-! ## Instructions -/

theorem Opcode.ofCode?_eq_some_iff {code : Nat} {opcode : Opcode} :
    ofCode? code = some opcode ↔ opcode.code = code := by
  constructor
  · intro h
    simpa using List.find?_some h
  · rintro rfl
    exact ofCode?_code opcode

/-- The operand of a text reads back from its token, which is trimmed already. -/
theorem Operand.ofText_token (text : List Char) :
    ofText (ofText text).token.toList = ofText text := by
  rw [toList_token_ofText, ofText, Blank.trim_trim, ofText]

namespace Instruction

variable {instruction : Instruction} {code : Code}

theorem Code.decode_eq_ok_iff : code.decode = .ok instruction ↔
    ∃ opcode, Opcode.code opcode = code.operation ∧
      instruction = ⟨opcode, code.tokens.map (Operand.ofText ·.toList), code.line⟩ := by
  simp only [← Opcode.ofCode?_eq_some_iff]
  rw [decode, ofCode]
  rcases Opcode.ofCode? code.operation with _ | opcode
  · exact iff_of_false nofun fun ⟨_, h, _⟩ => nomatch h
  · constructor
    · rintro ⟨⟩
      exact ⟨opcode, rfl, rfl⟩
    · rintro ⟨_, ⟨⟩, rfl⟩
      rfl

theorem Code.legible_of_decode (h : code.decode = .ok instruction) : instruction.Legible := by
  obtain ⟨opcode, -, rfl⟩ := decode_eq_ok_iff.1 h
  intro operand hoperand
  obtain ⟨token, -, rfl⟩ := List.mem_map.1 hoperand
  exact Operand.ofText_token token.toList

theorem Printable.legible (h : instruction.Printable) : instruction.Legible :=
  fun operand hoperand => (h operand hoperand).reads

/-- The instructions that are decoded from their own codes are those whose operands read back
    from their texts. -/
theorem decode_toCode_iff : instruction.toCode.decode = .ok instruction ↔ instruction.Legible := by
  refine ⟨Code.legible_of_decode, fun h => ?_⟩
  refine Code.decode_eq_ok_iff.2 ⟨instruction.opcode, rfl, ?_⟩
  obtain ⟨opcode, operands, line⟩ := instruction
  have hoperands : (operands.map (·.token)).map (Operand.ofText ·.toList) = operands := by
    rw [List.map_map]
    exact (List.map_congr_left h).trans (List.map_id operands)
  rw [toCode, hoperands]

end Instruction

/-! ## Programs -/

namespace Program

variable {program : Program} {codes : List Instruction.Code} {instructions : List Instruction}
  {entries : List (String × Nat)}

/-- Instructions are decoded from codes, one by one. -/
def Decodes (codes : List Instruction.Code) (instructions : List Instruction) : Prop :=
  List.Forall₂ (fun code instruction => code.decode = .ok instruction) codes instructions

theorem decode_eq_ok_iff : decode codes entries = .ok program ↔
    Decodes codes program.instructions.toList ∧
      program.labels = (∅ : LabelTable).insertAll entries := by
  simp only [decode, bind_eq_ok_iff, mapM_eq_ok_iff]
  constructor
  · rintro ⟨instructions, hinstructions, ⟨⟩⟩
    exact ⟨hinstructions, rfl⟩
  · obtain ⟨instructions, labels⟩ := program
    rintro ⟨hinstructions, rfl⟩
    exact ⟨_, hinstructions, rfl⟩

theorem Decodes.legible (h : Decodes codes instructions) :
    ∀ instruction ∈ instructions, instruction.Legible := by
  induction h with
  | nil => exact nofun
  | cons hfirst _ ih =>
    exact List.forall_mem_cons.2 ⟨Instruction.Code.legible_of_decode hfirst, ih⟩

/-- Codes are decoded if and only if there is an operation for each of their numbers. -/
theorem exists_decodes_iff : (∃ instructions, Decodes codes instructions) ↔
    ∀ code ∈ codes, ∃ opcode, Opcode.code opcode = code.operation := by
  induction codes with
  | nil => exact iff_of_true ⟨[], .nil⟩ nofun
  | cons code codes ih =>
    rw [List.forall_mem_cons, ← ih]
    constructor
    · rintro ⟨_, _ | ⟨hfirst, hrest⟩⟩
      obtain ⟨opcode, hopcode, -⟩ := Instruction.Code.decode_eq_ok_iff.1 hfirst
      exact ⟨⟨opcode, hopcode⟩, _, hrest⟩
    · rintro ⟨⟨opcode, hopcode⟩, instructions, hrest⟩
      exact ⟨_, .cons (Instruction.Code.decode_eq_ok_iff.2 ⟨opcode, hopcode, rfl⟩) hrest⟩

theorem exists_decode_eq_ok_iff : (∃ program, decode codes entries = .ok program) ↔
    ∀ code ∈ codes, ∃ opcode, Opcode.code opcode = code.operation := by
  simp only [decode_eq_ok_iff, ← exists_decodes_iff]
  constructor
  · rintro ⟨program, hdecodes, -⟩
    exact ⟨_, hdecodes⟩
  · rintro ⟨instructions, hdecodes⟩
    exact ⟨⟨instructions.toArray, _⟩, hdecodes, rfl⟩

/-- A program whose operands read back is decoded from its own codes, whatever the order in which
    its labels are entered. -/
theorem decode_codes (h : ∀ instruction ∈ program.instructions.toList, instruction.Legible)
    (hentries : entries.Perm program.labels.toList) :
    decode program.codes entries = .ok program := by
  refine decode_eq_ok_iff.2 ⟨?_, (LabelTable.insertAll_of_perm hentries).symm⟩
  rw [Decodes, codes, List.forall₂_map_left_iff, List.forall₂_same]
  exact fun instruction hinstruction => Instruction.decode_toCode_iff.2 (h instruction hinstruction)

theorem legible_of_assemble {source : String} (h : assemble source = .ok program) :
    ∀ instruction ∈ program.instructions.toList, instruction.Legible := by
  obtain ⟨-, rfl⟩ := assemble_eq_ok_iff.1 h
  intro instruction hinstruction
  exact (printable_of_mem_instructions (fun _ => Split.lineFeed_notMem_of_mem_lines)
    hinstruction).legible

end Program

/-- An assembled program is decoded from the codes of its instructions and the entries of its
    label table, whatever their order. Codes are decoded if and only if there is an operation
    for each of their numbers; then the operands of the program read back from their texts,
    and it is decoded from its own codes and labels again. -/
theorem decode_agrees :
    (∀ source program, assemble source = .ok program →
      ∀ entries, entries.Perm program.labels.toList →
        Program.decode program.codes entries = .ok program) ∧
    ∀ codes entries,
      ((∃ program, Program.decode codes entries = .ok program) ↔
        ∀ code ∈ codes, ∃ opcode, Opcode.code opcode = code.operation) ∧
      ∀ program, Program.decode codes entries = .ok program →
        (∀ instruction ∈ program.instructions, ∀ operand ∈ instruction.operands,
          Operand.ofText operand.token.toList = operand) ∧
        ∀ others, others.Perm program.labels.toList →
          Program.decode program.codes others = .ok program := by
  refine ⟨fun source program hprogram entries => ?_, fun codes entries =>
    ⟨Program.exists_decode_eq_ok_iff, fun program hprogram => ?_⟩⟩
  · exact Program.decode_codes (Program.legible_of_assemble hprogram)
  · have hlegible := (Program.decode_eq_ok_iff.1 hprogram).1.legible
    exact ⟨fun instruction hinstruction =>
      hlegible instruction (Array.mem_toList_iff.2 hinstruction),
      fun others => Program.decode_codes hlegible⟩

/-- Blanks inside of brackets stay in the text of an operand, and names of labels may come in any
    case and order. -/
theorem decode_agrees_blankInside :
    let program := SourceLines.program
      (Split.lines "b: MOV R1,\t[ r0 ]\nA: jmp b\na:".toList)
    assemble "b: MOV R1,\t[ r0 ]\nA: jmp b\na:" = .ok program ∧
      program.labels.toList = [("A", 2), ("B", 0)] ∧
      Program.decode [⟨0x00, ["R1", "[ r0 ]"], 1⟩, ⟨0x30, ["b"], 2⟩] [("B", 0), ("A", 2)] =
        .ok program := by
  intro program
  have hprogram : assemble "b: MOV R1,\t[ r0 ]\nA: jmp b\na:" = .ok program :=
    assemble_eq_ok_iff.2 ⟨by decide +kernel, rfl⟩
  have hlabels : program.labels.toList = [("A", 2), ("B", 0)] := by decide +kernel
  have hcodes : program.codes = [⟨0x00, ["R1", "[ r0 ]"], 1⟩, ⟨0x30, ["b"], 2⟩] := by
    decide +kernel
  refine ⟨hprogram, hlabels, ?_⟩
  rw [← hcodes]
  exact decode_agrees.1 _ program hprogram _ (by rw [hlabels]; decide)

end RegisterMachine
