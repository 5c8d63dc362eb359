import RegisterMachine.Proofs.Labels
import RegisterMachine.Proofs.Simulation
import RegisterMachine.Proofs.UpperCase

/-!
# Letter case

The case of letters does not matter, from the source text to the last step of a run. Names
of operations, registers and labels are read in either case, each in its own way, and the
texts of operands are kept as they are written, to be looked up among the labels in either
case.

All of this follows from one fact: a source text in upper case is assembled to the same
program, with its texts in upper case (`assemble_toUpper`), or to the same error. So two
texts that agree but for the case of letters are assembled to programs that do
(`Instruction.Alike`), and these act alike (`assemble_letterCase`).
-/

namespace RegisterMachine

open Case

/-! ## Upper case -/

/-- The operand with its text in upper case. -/
def Operand.upper (operand : Operand) : Operand := { operand with token := operand.token.toUpper }

/-- The statement with its texts in upper case. -/
def Statement.upper (statement : Statement) : Statement :=
  { statement with operands := statement.operands.map Operand.upper }

/-- The instruction with its texts in upper case. -/
def Instruction.upper (instruction : Instruction) : Instruction :=
  { instruction with operands := instruction.operands.map Operand.upper }

/-- The program with its texts in upper case. Those of the labels are already. -/
def Program.upper (program : Program) : Program :=
  { program with instructions := program.instructions.map Instruction.upper }

/-- The cause with its text in upper case. -/
def SyntaxCause.upper : SyntaxCause → SyntaxCause
  | .invalidLabel name => .invalidLabel name.toUpper
  | .unknownMnemonic mnemonic => .unknownMnemonic mnemonic.toUpper
  | .emptyOperand => .emptyOperand

/-- The error with its text in upper case. -/
def SyntaxError.upper (error : SyntaxError) : SyntaxError :=
  { error with cause := error.cause.upper }

/-- The line with its texts in upper case. -/
def Line.upper (line : Line) : Line where
  label := line.label.map String.toUpper
  statement := (line.statement.map (Option.map Statement.upper)).mapError SyntaxCause.upper

/-! ## Lines -/

theorem Operand.ofText_upper (text : List Char) :
    ofText (Case.upper text) = (ofText text).upper := by
  rw [ofText, Blank.trim_upper, Mode.ofText_upper, upper, ofText, toUpper_ofList]

namespace Statement

theorem operandsOfText_upper (text : List Char) :
    operandsOfText (Case.upper text) =
      ((operandsOfText text).map (List.map Operand.upper)).mapError SyntaxCause.upper := by
  have hblank : (fun piece => (Blank.trim piece).isEmpty) ∘ Case.upper =
      fun piece => (Blank.trim piece).isEmpty := by
    funext piece
    rw [Function.comp_apply, Blank.trim_upper, isEmpty_upper]
  have hpieces (pieces : List (List Char)) : (pieces.map Case.upper).map Operand.ofText =
      (pieces.map Operand.ofText).map Operand.upper := by
    rw [List.map_map, List.map_map]
    exact List.map_congr_left fun piece _ => Operand.ofText_upper piece
  rw [operandsOfText, operandsOfText, isEmpty_upper, Split.splitOn_upper rfl]
  dsimp only
  rw [List.any_map, hblank, hpieces]
  split
  · rfl
  · split <;> rfl

theorem ofText_upper (text : List Char) :
    ofText (Case.upper text) = ((ofText text).map upper).mapError SyntaxCause.upper := by
  have hcut : (Split.cut? Blank.isBlank (Case.upper text)).getD (Case.upper text, []) =
      (fun sides => (Case.upper sides.1, Case.upper sides.2))
        ((Split.cut? Blank.isBlank text).getD (text, [])) := by
    rw [Split.cut?_upper caseless_isBlank]
    cases Split.cut? Blank.isBlank text <;> rfl
  rw [ofText, ofText, hcut]
  obtain ⟨mnemonic, rest⟩ := (Split.cut? Blank.isBlank text).getD (text, [])
  dsimp only
  rw [← toUpper_ofList, Opcode.ofMnemonic?_toUpper, Blank.trim_upper, operandsOfText_upper]
  rcases Opcode.ofMnemonic? (String.ofList mnemonic) with _ | opcode
  · rfl
  · rcases operandsOfText (Blank.trim rest) with cause | operands <;> rfl

theorem ofText?_upper (text : List Char) :
    ofText? (Case.upper text) =
      ((ofText? text).map (Option.map upper)).mapError SyntaxCause.upper := by
  rw [ofText?, ofText?, isEmpty_upper, ofText_upper]
  split
  · rfl
  · rcases ofText text with cause | statement <;> rfl

end Statement

namespace Line

theorem ofBody_upper (body : List Char) : ofBody (Case.upper body) = (ofBody body).upper := by
  rw [ofBody, ofBody, Split.cut?_upper (caseless_beq rfl)]
  rcases Split.cut? (· == ':') body with _ | ⟨name, rest⟩
  · exact congrArg (Line.mk none) (Statement.ofText?_upper body)
  · simp only [Option.map_some, isName_upper, Blank.trim_upper, Statement.ofText?_upper,
      ← toUpper_ofList]
    split <;> rfl

theorem ofText_upper (text : List Char) : ofText (Case.upper text) = (ofText text).upper := by
  rw [ofText, body, Split.before_upper (caseless_beq rfl), Blank.trim_upper, ofBody_upper, ofText,
    body]

theorem label_upper (line : Line) : line.upper.label = line.label.map String.toUpper := rfl

theorem statement?_upper (line : Line) :
    line.upper.statement? = line.statement?.map Statement.upper := by
  obtain ⟨label, cause | statement⟩ := line <;> rfl

theorem cause?_upper (line : Line) : line.upper.cause? = line.cause?.map SyntaxCause.upper := by
  obtain ⟨label, cause | statement⟩ := line <;> rfl

end Line

namespace LabelTable

theorem insert_toUpper (table : LabelTable) (name : String) (index : Nat) :
    table.insert name.toUpper index = table.insert name index := by
  refine ext_get? fun other => ?_
  rw [get?_insert, get?_insert, toUpper_toUpper]

theorem get?_congr (table : LabelTable) {name other : String} (h : name.toUpper = other.toUpper) :
    table.get? name = table.get? other := by
  rw [get?, h, get?]

theorem insertAll_toUpper (table : LabelTable) (entries : List (String × Nat)) :
    table.insertAll (entries.map fun entry => (entry.1.toUpper, entry.2)) =
      table.insertAll entries := by
  rw [insertAll, List.foldl_map, insertAll]
  simp only [insert_toUpper]

end LabelTable

namespace SourceLines

variable (first count : Nat) (text : List Char) (texts : List (List Char))

theorem instruction?_upper :
    instruction? (Case.upper text) count = (instruction? text count).map Instruction.upper := by
  rw [instruction?, Line.ofText_upper, Line.statement?_upper, instruction?, Option.map_map,
    Option.map_map]
  rfl

theorem lineError?_upper :
    lineError? (Case.upper text) count = (lineError? text count).map SyntaxError.upper := by
  rw [lineError?, Line.ofText_upper, Line.cause?_upper, lineError?, Option.map_map, Option.map_map]
  rfl

theorem instructions_upper :
    instructions first (texts.map Case.upper) =
      (instructions first texts).map Instruction.upper := by
  rw [instructions, List.zipIdx_map, List.filterMap_map, instructions, List.map_filterMap]
  congr 1
  funext line
  exact instruction?_upper line.2 line.1

theorem error?_upper :
    error? first (texts.map Case.upper) = (error? first texts).map SyntaxError.upper := by
  rw [error?, List.zipIdx_map, List.findSome?_map, error?, List.map_findSome?]
  congr 1
  funext line
  exact lineError?_upper line.2 line.1

theorem size_upper : size (texts.map Case.upper) = size texts := by
  rw [size, instructions_upper, List.length_map, size]

theorem labels_upper :
    labels count (texts.map Case.upper) =
      (labels count texts).map fun entry => (entry.1.toUpper, entry.2) := by
  induction texts generalizing count with
  | nil => rfl
  | cons text rest ih =>
    have hsize : size [Case.upper text] = size [text] := size_upper [text]
    rw [List.map_cons, labels, hsize, ih, labels, List.map_append, Line.ofText_upper,
      Line.label_upper]
    cases (Line.ofText text).label <;> rfl

theorem program_upper : program (texts.map Case.upper) = (program texts).upper := by
  rw [program, instructions_upper, labels_upper, LabelTable.insertAll_toUpper, ← List.map_toArray]
  rfl

end SourceLines

/-- A source text in upper case is assembled to the same program, in upper case. -/
theorem assemble_toUpper (source : String) :
    assemble source.toUpper =
      ((assemble source).map Program.upper).mapError SyntaxError.upper := by
  rw [assemble_eq, assemble_eq, toList_toUpper, Split.lines_upper, SourceLines.error?_upper,
    SourceLines.program_upper]
  cases SourceLines.error? 1 (Split.lines source.toList) <;> rfl

/-! ## Texts that agree -/

/-- Two texts agree character by character, but for the case of letters. -/
def Case.Agree (first second : List Char) : Prop :=
  List.Forall₂ (fun c d => c.toUpper = d.toUpper) first second

instance (first second : List Char) : Decidable (Case.Agree first second) :=
  inferInstanceAs (Decidable (List.Forall₂ _ first second))

/-- Operands of the same mode, with texts that agree. -/
structure Operand.Alike (operand other : Operand) : Prop where
  mode : operand.mode = other.mode
  token : Agree operand.token.toList other.token.toList

/-- Instructions of the same operation on the same line, with operands that are alike. -/
structure Instruction.Alike (instruction other : Instruction) : Prop where
  opcode : instruction.opcode = other.opcode
  line : instruction.line = other.line
  operands : List.Forall₂ Operand.Alike instruction.operands other.operands

/-- Causes of the same kind, with texts that agree. -/
inductive SyntaxCause.Alike : SyntaxCause → SyntaxCause → Prop
  | invalidLabel {name other : String} :
      Agree name.toList other.toList → Alike (.invalidLabel name) (.invalidLabel other)
  | unknownMnemonic {mnemonic other : String} :
      Agree mnemonic.toList other.toList →
      Alike (.unknownMnemonic mnemonic) (.unknownMnemonic other)
  | emptyOperand : Alike .emptyOperand .emptyOperand

theorem map_eq_map_iff_forall₂ {α β : Type} {f : α → β} {first second : List α} :
    first.map f = second.map f ↔ List.Forall₂ (fun a b => f a = f b) first second := by
  rw [← List.forall₂_eq_eq_eq, List.forall₂_map_left_iff, List.forall₂_map_right_iff]

theorem Case.agree_iff {first second : String} :
    Agree first.toList second.toList ↔ first.toUpper = second.toUpper := by
  rw [← String.toList_inj, toList_toUpper, toList_toUpper]
  exact map_eq_map_iff_forall₂.symm

theorem Operand.alike_of_upper_eq {operand other : Operand} (h : operand.upper = other.upper) :
    operand.Alike other := by
  obtain ⟨htoken, hmode⟩ := Operand.mk.inj h
  exact ⟨hmode, agree_iff.2 htoken⟩

theorem Instruction.alike_of_upper_eq {instruction other : Instruction}
    (h : instruction.upper = other.upper) : instruction.Alike other := by
  obtain ⟨hopcode, hoperands, hline⟩ := Instruction.mk.inj h
  exact ⟨hopcode, hline,
    (map_eq_map_iff_forall₂.1 hoperands).imp fun _ _ => Operand.alike_of_upper_eq⟩

theorem SyntaxCause.alike_of_upper_eq {cause other : SyntaxCause} (h : cause.upper = other.upper) :
    cause.Alike other := by
  obtain name | mnemonic | _ := cause <;> obtain name' | mnemonic' | _ := other
  case invalidLabel.invalidLabel => exact .invalidLabel (agree_iff.2 (invalidLabel.inj h))
  case unknownMnemonic.unknownMnemonic =>
    exact .unknownMnemonic (agree_iff.2 (unknownMnemonic.inj h))
  case emptyOperand.emptyOperand => exact .emptyOperand
  all_goals cases h

/-- Operands that are alike follow each other, as labels are looked up in either case. -/
theorem Operand.Alike.follows {operand other : Operand} (h : operand.Alike other)
    (labels : LabelTable) : operand.Follows labels labels other where
  mode := h.mode.symm
  target index hindex := by rwa [← labels.get?_congr (agree_iff.1 h.token)]

theorem Instruction.Alike.follows {instruction other : Instruction} (h : instruction.Alike other)
    (labels : LabelTable) : instruction.Follows labels labels other where
  opcode := h.opcode.symm
  line := h.line.symm
  operands := h.operands.imp fun _ _ halike => halike.follows labels

/-- Programs that agree in upper case extend each other. -/
theorem Program.extends_of_upper_eq {program other : Program} (h : program.upper = other.upper) :
    program.Extends other := by
  obtain ⟨hinstructions, hlabels⟩ := Program.mk.inj h
  intro index instruction hinstruction
  have hindex :=
    congrArg (fun instructions : Array Instruction => instructions[index]?) hinstructions
  simp only [Array.getElem?_map, hinstruction, Option.map_some] at hindex
  obtain ⟨found, hfound, halike⟩ := Option.map_eq_some_iff.1 hindex.symm
  rw [← hlabels]
  exact ⟨found, hfound, (Instruction.alike_of_upper_eq halike.symm).follows program.labels⟩

/-- Two source texts that agree but for the case of letters are both refused, for the same kind
    of cause on the same line, or both assembled. The programs then have the same labels
    and instructions that are alike, and each step of the one has the same outcome as that of the
    other and leads to the same state. -/
theorem assemble_letterCase (first second : String) (h : Agree first.toList second.toList) :
    (∃ error other, assemble first = .error error ∧ assemble second = .error other ∧
      error.cause.Alike other.cause ∧ error.line = other.line) ∨
    ∃ program other, assemble first = .ok program ∧ assemble second = .ok other ∧
      program.labels = other.labels ∧
      List.Forall₂ Instruction.Alike program.instructions.toList other.instructions.toList ∧
      ∀ k, Machine.initial.after program k = Machine.initial.after other k ∧
        ((Machine.initial.after program k).step program).outcome =
          ((Machine.initial.after other k).step other).outcome := by
  -- The two texts are the same one in upper case, and so are the results.
  have hupper : ((assemble first).map Program.upper).mapError SyntaxError.upper =
      ((assemble second).map Program.upper).mapError SyntaxError.upper := by
    rw [← assemble_toUpper, ← assemble_toUpper, agree_iff.1 h]
  rcases hfirst : assemble first with error | program <;>
    rcases hsecond : assemble second with other | other <;>
    rw [hfirst, hsecond] at hupper
  · obtain ⟨hcause, hline⟩ := SyntaxError.mk.inj (Except.error.inj hupper)
    exact .inl ⟨error, other, rfl, rfl, SyntaxCause.alike_of_upper_eq hcause, hline⟩
  · cases hupper
  · cases hupper
  · have hprogram : program.upper = other.upper := Except.ok.inj hupper
    obtain ⟨hinstructions, hlabels⟩ := Program.mk.inj hprogram
    have halike : List.Forall₂ Instruction.Alike program.instructions.toList
        other.instructions.toList := by
      rw [← Array.toList_inj, Array.toList_map, Array.toList_map] at hinstructions
      exact (map_eq_map_iff_forall₂.1 hinstructions).imp fun _ _ => Instruction.alike_of_upper_eq
    have hextends := Program.extends_of_upper_eq hprogram
    have hextends' := Program.extends_of_upper_eq hprogram.symm
    refine .inr ⟨program, other, rfl, rfl, hlabels, halike, fun k => ?_⟩
    have hafter : Machine.initial.after program k = Machine.initial.after other k :=
      Machine.after_of_extends_of_extends hextends' hextends k
    refine ⟨hafter, ?_⟩
    rw [hafter]
    exact congrArg Prod.snd (Machine.proceed_of_extends_of_extends hextends' hextends)

/-- A loop whose label is written in another case than the jump to it, with the cases swapped. -/
theorem assemble_letterCase_loop :
    ∃ program other, assemble "loop: Inc r0\nJMP Loop" = .ok program ∧
      assemble "LOOP: iNC R0\njmp lOOP" = .ok other ∧
      ∀ k, Machine.initial.after program k = Machine.initial.after other k := by
  have hassemble : assemble "loop: Inc r0\nJMP Loop" =
      .ok (SourceLines.program (Split.lines "loop: Inc r0\nJMP Loop".toList)) :=
    assemble_eq_ok_iff.2 ⟨by decide +kernel, rfl⟩
  obtain ⟨error, _, herror, -⟩ | ⟨program, other, hprogram, hother, -, -, hafter⟩ :=
    assemble_letterCase "loop: Inc r0\nJMP Loop" "LOOP: iNC R0\njmp lOOP" (by decide +kernel)
  · cases hassemble.symm.trans herror
  · exact ⟨program, other, hprogram, hother, fun k => (hafter k).1⟩

end RegisterMachine
