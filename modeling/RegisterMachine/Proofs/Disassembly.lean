import RegisterMachine.Proofs.Listing
import RegisterMachine.Proofs.Printing
import RegisterMachine.Proofs.UpperCase

/-!
# Disassembly

A listing without the indices of its instructions is a source text again
(`Program.disassembly`). It has a line for each row of the listing, which denotes what
the row shows: a label, or the operation and the operands of an instruction. Since the
labels come in front of the instructions that they point at, they have the same indices
as before.

* `assemble_disassembly`: the disassembly of an assembled program is assembled to the same labels
  and, but for the lines that they are on, the same instructions; if there is a colon in an
  operand, however, then it is refused at the first such instruction.
-/

namespace RegisterMachine

open Grammar Listing Split

/-! ## The source text -/

/-- A line of a listing without the index of an instruction and the two blanks behind it. -/
def Listing.withoutIndex (line : List Char) : List Char :=
  if line.head?.any Char.isDigit then (line.dropWhile Char.isDigit).drop 2 else line

/-- The lines of the listing without the indices, as one text. -/
def Program.disassembly (program : Program) : String :=
  String.ofList (((lines program.listing.toList).map withoutIndex).flatMap (· ++ ['\n']))

/-- Texts with a line feed behind each are the lines of them all. -/
theorem Split.lines_flatMap {texts : List (List Char)} (h : ∀ text ∈ texts, '\n' ∉ text) :
    lines (texts.flatMap (· ++ ['\n'])) = texts := by
  induction texts with
  | nil => rfl
  | cons text rest ih =>
    obtain ⟨htext, hrest⟩ := List.forall_mem_cons.1 h
    rw [List.flatMap_cons, List.append_assoc, List.singleton_append, lines_append_lineFeed,
      List.splitOn_eq_singleton htext, ih hrest, List.singleton_append]

namespace Numeral

theorem isDigit_of_mem_decimal {width n : Nat} {c : Char} (h : c ∈ (decimal width n).toList) :
    c.isDigit := by
  rw [decimal, String.toList_ofList, List.leftpad, List.mem_append] at h
  obtain hzero | hdigit := h
  · obtain rfl := List.eq_of_mem_replicate hzero
    decide
  · exact Nat.isDigit_of_mem_toDigits (by decide) (by decide) hdigit

theorem toList_decimal_ne_nil (width n : Nat) : (decimal width n).toList ≠ [] := by
  rw [decimal, String.toList_ofList, List.leftpad]
  exact List.append_ne_nil_of_right_ne_nil _ Nat.toDigits_ne_nil

end Numeral

/-! ## Rows -/

namespace Listing.Row

/-- The source line of a row. -/
def source : Row → List Char
  | .label name => name.toList ++ [':']
  | .instruction _ shown => shown.text.toList

/-- The name of a label is one, and the operands of an instruction are printable. -/
def Printable : Row → Prop
  | .label name => Name name.toList
  | .instruction _ shown => shown.Printable

/-- There is a colon in an operand of an instruction. -/
def HasColon : Row → Prop
  | .label _ => False
  | .instruction _ shown => shown.HasColon

/-- The label of a row. -/
def label? : Row → Option String
  | .label name => some name
  | .instruction _ _ => none

/-- The statement of a row. -/
def statement? : Row → Option Statement
  | .label _ => none
  | .instruction _ shown => some shown.statement

theorem toList_line_label (name : String) : (label name).line.toList = (label name).source :=
  String.toList_append

theorem toList_line_instruction (index : Nat) (shown : Instruction) :
    (Row.instruction index shown).line.toList =
      (Numeral.decimal 4 index).toList ++ ' ' :: ' ' :: shown.text.toList := by
  rw [line, instructionLine, String.toList_append, String.toList_append, List.append_assoc]
  rfl

variable {row : Row}

theorem Printable.withoutIndex_line (h : row.Printable) :
    withoutIndex row.line.toList = row.source := by
  cases row with
  | label name =>
    rw [toList_line_label, source, withoutIndex, if_neg]
    rw [List.head?_append_of_ne_nil _ (Name.ne_nil h), Option.any_eq_true]
    rintro ⟨c, hc, hdigit⟩
    exact Name.not_isDigit_of_mem_head? h hc hdigit
  | instruction index shown =>
    obtain ⟨digit, digits, hdigits⟩ :=
      List.exists_cons_of_ne_nil (Numeral.toList_decimal_ne_nil 4 index)
    have hall : ∀ c ∈ digit :: digits, c.isDigit := fun c hc =>
      Numeral.isDigit_of_mem_decimal (hdigits ▸ hc)
    rw [toList_line_instruction, hdigits, withoutIndex, List.cons_append, List.head?_cons,
      Option.any_some, if_pos (hall digit List.mem_cons_self), ← List.cons_append,
      List.dropWhile_append_of_pos hall]
    rfl

theorem Printable.lineFeed_notMem_source (h : row.Printable) : '\n' ∉ row.source := by
  cases row with
  | label name =>
    rw [source, List.mem_append, not_or]
    exact ⟨fun hc => absurd (Name.isNameRest_of_mem h hc) (by decide), by decide⟩
  | instruction index shown => exact Instruction.Printable.lineFeed_notMem_text h

theorem Printable.lineFeed_notMem_line (h : row.Printable) : '\n' ∉ row.line.toList := by
  have hsource := h.lineFeed_notMem_source
  cases row with
  | label name => rwa [toList_line_label]
  | instruction index shown =>
    rw [toList_line_instruction, List.mem_append, not_or]
    refine ⟨fun hc => absurd (Numeral.isDigit_of_mem_decimal hc) (by decide), ?_⟩
    exact List.not_mem_cons_of_ne_of_not_mem (by decide)
      (List.not_mem_cons_of_ne_of_not_mem (by decide) hsource)

/-- The source line of a row denotes its label or its statement. -/
theorem Printable.ofText_source (h : row.Printable) (hcolon : ¬ row.HasColon) :
    Line.ofText row.source = ⟨row.label?, .ok row.statement?⟩ := by
  cases row with
  | label name =>
    rw [source, Line.ofText_label h, String.ofList_toList]
    rfl
  | instruction index shown => exact Instruction.Printable.ofText_text h hcolon

end Listing.Row

namespace Program

variable {program : Program}

/-- The lines of a listing are those of its rows, of which none has a line feed. -/
theorem lines_listing (h : ∀ row ∈ program.rows, row.Printable) :
    lines program.listing.toList = program.rows.map (·.line.toList) := by
  have htext : program.listing.toList =
      (program.rows.map (·.line.toList)).flatMap (· ++ ['\n']) := by
    rw [listing, listingLines_eq, String.toList_join, List.map_map, List.flatMap_map,
      List.flatMap_map]
    simp only [Function.comp_apply, String.toList_append]
    rfl
  rw [htext]
  refine lines_flatMap fun text hmem => ?_
  obtain ⟨row, hrow, rfl⟩ := List.mem_map.1 hmem
  exact (h row hrow).lineFeed_notMem_line

/-- The lines of a disassembly are the source lines of the rows. -/
theorem lines_disassembly (h : ∀ row ∈ program.rows, row.Printable) :
    lines program.disassembly.toList = program.rows.map Row.source := by
  have htext : (lines program.listing.toList).map withoutIndex = program.rows.map Row.source := by
    rw [lines_listing h, List.map_map]
    exact List.map_congr_left fun row hrow => (h row hrow).withoutIndex_line
  rw [disassembly, String.toList_ofList, htext]
  refine lines_flatMap fun text hmem => ?_
  obtain ⟨row, hrow, rfl⟩ := List.mem_map.1 hmem
  exact (h row hrow).lineFeed_notMem_source

end Program

/-! ## What the source lines of rows denote -/

namespace SourceLines

variable {first count : Nat} {texts : List (List Char)}

theorem map_statement_instructions :
    (instructions first texts).map Instruction.statement =
      texts.filterMap fun text => (Line.ofText text).statement? := by
  induction texts generalizing first with
  | nil => rfl
  | cons text rest ih =>
    rw [instructions_cons, List.map_append, ih, instruction?, List.filterMap_cons]
    cases (Line.ofText text).statement? <;> rfl

/-- The names of labels are names, and there are no more instructions in front of a label than
    there are on the lines. -/
theorem name_and_le_of_mem_labels {entry : String × Nat} (h : entry ∈ labels count texts) :
    Name entry.1.toList ∧ entry.2 ≤ count + size texts := by
  induction texts generalizing count with
  | nil => cases h
  | cons text rest ih =>
    rw [labels, List.mem_append] at h
    obtain hfirst | hrest := h
    · obtain ⟨label, hlabel, rfl⟩ := Option.map_eq_some_iff.1 (Option.mem_toList.1 hfirst)
      obtain ⟨name, -, -, hname, rfl⟩ := label_eq_some_iff.1 hlabel
      exact ⟨by rwa [String.toList_ofList], Nat.le_add_right _ _⟩
    · rw [@size_cons _ rest, ← Nat.add_assoc]
      exact ih hrest

end SourceLines

namespace Listing

variable {index count : Nat} {pending : List (String × Nat)} {instructions : List Instruction}

theorem labels_source_cons {row : Row} (h : row.Printable) (hcolon : ¬ row.HasColon)
    (texts : List (List Char)) :
    SourceLines.labels count (row.source :: texts) =
      (row.label?.map (·, count)).toList ++
        SourceLines.labels (count + row.statement?.toList.length) texts := by
  rw [SourceLines.labels, SourceLines.size_singleton, h.ofText_source hcolon]
  rfl

/-- Labels in front of the instruction that they point at are read back with their indices. -/
theorem labels_source_labels {block : List (String × Nat)}
    (h : ∀ label ∈ block, Name label.1.toList ∧ label.2 = index) (texts : List (List Char)) :
    SourceLines.labels index ((block.map fun label => Row.label label.1).map Row.source ++ texts) =
      block ++ SourceLines.labels index texts := by
  induction block with
  | nil => rfl
  | cons first rest ih =>
    obtain ⟨⟨hname, rfl⟩, hrest⟩ := List.forall_mem_cons.1 h
    rw [List.map_cons, List.map_cons, List.cons_append,
      @labels_source_cons _ (.label first.1) hname id]
    exact congrArg (first :: ·) (ih hrest)

/-- The rows of instructions, with labels that are in their order, define just these labels. -/
theorem labels_source_rows (hsorted : pending.Pairwise fun a b => a.2 ≤ b.2)
    (hlabels : ∀ label ∈ pending, Name label.1.toList ∧ index ≤ label.2 ∧
      label.2 ≤ index + instructions.length)
    (hinstructions : ∀ instruction ∈ instructions,
      instruction.Printable ∧ ¬ instruction.HasColon) :
    SourceLines.labels index ((rows index pending instructions).map Row.source) = pending := by
  induction instructions generalizing index pending with
  | nil =>
    have hblock := @labels_source_labels index pending (fun label hlabel =>
      ⟨(hlabels label hlabel).1, Nat.le_antisymm (hlabels label hlabel).2.2
        (hlabels label hlabel).2.1⟩) []
    rwa [List.append_nil, SourceLines.labels, List.append_nil] at hblock
  | cons instruction rest ih =>
    obtain ⟨⟨hprintable, hcolon⟩, hrest⟩ := List.forall_mem_cons.1 hinstructions
    rw [rows, List.map_append, labels_source_labels, List.map_cons,
      @labels_source_cons _ (.instruction index instruction) hprintable hcolon]
    · -- The labels that are left point beyond this instruction, which has been read.
      have hlater : SourceLines.labels (index + 1)
          ((rows (index + 1) (pending.dropWhile (·.2 == index)) rest).map Row.source) =
          pending.dropWhile (·.2 == index) := by
        refine ih (hsorted.sublist (List.dropWhile_sublist _)) (fun label hlabel => ?_) hrest
        obtain ⟨hname, -, hle⟩ := hlabels label ((List.dropWhile_sublist _).mem hlabel)
        have hlt := lt_of_mem_dropWhile hsorted (fun label hlabel => (hlabels label hlabel).2.1)
          hlabel
        rw [List.length_cons] at hle
        exact ⟨hname, hlt, by omega⟩
      exact (congrArg _ hlater).trans List.takeWhile_append_dropWhile
    · intro label hlabel
      exact ⟨(hlabels label ((List.takeWhile_sublist _).mem hlabel)).1, by
        simpa using List.mem_takeWhile_imp hlabel⟩

theorem statements_rows (index : Nat) (pending : List (String × Nat))
    (instructions : List Instruction) :
    (rows index pending instructions).filterMap Row.statement? =
      instructions.map Instruction.statement := by
  have hlabels (block : List (String × Nat)) :
      (block.map fun label => Row.label label.1).filterMap Row.statement? = [] := by
    simp [List.filterMap_map, Row.statement?, Function.comp_def]
  induction instructions generalizing index pending with
  | nil => exact hlabels pending
  | cons instruction rest ih =>
    rw [rows, List.filterMap_append, hlabels, List.nil_append, List.map_cons, ← ih (index + 1)]
    rfl

/-- No row has a colon in an operand, if no instruction has. -/
theorem not_hasColon_of_mem_rows {row : Row} (h : row ∈ rows index pending instructions)
    (hcolon : ∀ instruction ∈ instructions, ¬ instruction.HasColon) : ¬ row.HasColon := by
  obtain ⟨_, -, rfl⟩ | ⟨_, instruction, hinstruction, rfl⟩ := exists_of_mem_rows h
  · exact id
  · exact hcolon instruction hinstruction

/-- The source lines of rows have no errors, if there are no colons in the operands. -/
theorem error?_source {number : Nat} {block : List Row}
    (h : ∀ row ∈ block, row.Printable ∧ ¬ row.HasColon) :
    SourceLines.error? number (block.map Row.source) = none := by
  rw [SourceLines.error?_eq_none_iff]
  intro text htext
  obtain ⟨row, hrow, rfl⟩ := List.mem_map.1 htext
  rw [Line.wellFormed_body_iff, (h row hrow).1.ofText_source (h row hrow).2]
  rfl

end Listing

/-- A printed instruction with a colon in an operand has an invalid label. -/
theorem Instruction.Printable.lineError?_text {instruction : Instruction}
    (h : instruction.Printable) (hcolon : instruction.HasColon) (number : Nat) :
    SourceLines.lineError? instruction.text.toList number =
      some ⟨.invalidLabel (String.ofList (before (· == ':') instruction.text.toList)), number⟩ := by
  rw [SourceLines.lineError?, Line.cause?, h.statement_ofText_text hcolon]
  rfl

/-! ## Assembled programs -/

namespace SourceLines

variable {texts : List (List Char)}

theorem name_and_le_of_mem_sortedLabels {label : String × Nat}
    (h : label ∈ sortedLabels (program texts).labels) :
    Name label.1.toList ∧ label.2 ≤ (program texts).instructions.toList.length := by
  have hget := get?_of_mem_sortedLabels h
  rw [get?_program] at hget
  obtain ⟨entry, hentry, hupper, hindex⟩ := LabelTable.mem_of_last?_eq_some hget
  obtain ⟨hname, hle⟩ := name_and_le_of_mem_labels hentry
  rw [toUpper_of_mem_sortedLabels h] at hupper
  constructor
  · rwa [← hupper, Case.toList_toUpper, ← isName_iff, Line.isName_upper, isName_iff]
  · rw [Nat.zero_add, hindex] at hle
    exact hle.trans_eq length_instructions.symm

theorem printable_of_mem_program (htexts : ∀ text ∈ texts, '\n' ∉ text)
    {instruction : Instruction} (h : instruction ∈ (program texts).instructions.toList) :
    instruction.Printable :=
  printable_of_mem_instructions htexts h

theorem printable_rows (htexts : ∀ text ∈ texts, '\n' ∉ text) {row : Row}
    (h : row ∈ (program texts).rows) : row.Printable := by
  obtain ⟨label, hlabel, rfl⟩ | ⟨_, instruction, hinstruction, rfl⟩ := exists_of_mem_rows h
  · exact (name_and_le_of_mem_sortedLabels hlabel).1
  · exact printable_of_mem_program htexts hinstruction

/-- Without a colon in an operand the program is assembled again. -/
theorem assemble_disassembly_program (htexts : ∀ text ∈ texts, '\n' ∉ text)
    (hcolon : ∀ instruction ∈ (program texts).instructions.toList, ¬ instruction.HasColon) :
    ∃ again, assemble (program texts).disassembly = .ok again ∧
      again.labels = (program texts).labels ∧
      again.instructions.toList.map Instruction.statement =
        (program texts).instructions.toList.map Instruction.statement := by
  have hrows (row : Row) (hrow : row ∈ (program texts).rows) :
      row.Printable ∧ ¬ row.HasColon :=
    ⟨printable_rows htexts hrow, not_hasColon_of_mem_rows hrow hcolon⟩
  have hlines := Program.lines_disassembly fun row hrow => (hrows row hrow).1
  refine ⟨_, assemble_eq_ok_iff.2 ⟨?_, rfl⟩, ?_, ?_⟩
  · rw [hlines]
    exact error?_source hrows
  · have hlabels : labels 0 ((program texts).rows.map Row.source) =
        sortedLabels (program texts).labels := by
      refine labels_source_rows (pairwise_sortedLabels _) (fun label hlabel => ?_)
        fun instruction hinstruction =>
          ⟨printable_of_mem_program htexts hinstruction, hcolon instruction hinstruction⟩
      have hlabel := name_and_le_of_mem_sortedLabels hlabel
      exact ⟨hlabel.1, Nat.zero_le _, by rw [Nat.zero_add]; exact hlabel.2⟩
    rw [hlines]
    exact (congrArg _ hlabels).trans (insertAll_sortedLabels _)
  · rw [hlines]
    calc (instructions 1 ((program texts).rows.map Row.source)).map Instruction.statement
        = (program texts).rows.filterMap fun row => (Line.ofText row.source).statement? := by
          rw [map_statement_instructions, List.filterMap_map]
          rfl
      _ = (program texts).rows.filterMap Row.statement? :=
          List.filterMap_congr fun row hrow => by
            rw [(hrows row hrow).1.ofText_source (hrows row hrow).2]
            rfl
      _ = (program texts).instructions.toList.map Instruction.statement := statements_rows _ _ _

/-- The first instruction with a colon in an operand is taken for an invalid label. -/
theorem assemble_disassembly_program_hasColon (htexts : ∀ text ∈ texts, '\n' ∉ text)
    {front back : List Instruction} {instruction : Instruction}
    (hinstructions : (program texts).instructions.toList = front ++ instruction :: back)
    (hfront : ∀ earlier ∈ front, ¬ earlier.HasColon) (hcolon : instruction.HasColon) :
    ∃ above below, lines (program texts).listing.toList =
        above ++ (instructionLine front.length instruction).toList :: below ∧
      assemble (program texts).disassembly =
        .error ⟨.invalidLabel (String.ofList (before (· == ':') instruction.text.toList)),
          above.length + 1⟩ := by
  obtain ⟨above, below, hrows, habove⟩ := exists_rows_append 0
    (sortedLabels (program texts).labels) front instruction back
  rw [← hinstructions, Nat.zero_add, ← Program.rows] at hrows
  have hprintable (row : Row) (hrow : row ∈ (program texts).rows) : row.Printable :=
    printable_rows htexts hrow
  refine ⟨above.map (·.line.toList), below.map (·.line.toList), ?_, ?_⟩
  · rw [Program.lines_listing hprintable, hrows, List.map_append, List.map_cons]
    rfl
  -- The rows above are those of labels and of instructions without a colon.
  have hnone : error? 1 (above.map Row.source) = none := error?_source fun row hrow =>
    ⟨hprintable row (hrows ▸ List.mem_append_left _ hrow),
      not_hasColon_of_mem_rows (habove.mem hrow) hfront⟩
  have hinstruction : instruction.Printable := hprintable (.instruction front.length instruction)
    (hrows ▸ List.mem_append_right _ List.mem_cons_self)
  rw [assemble_eq_error_iff, Program.lines_disassembly hprintable, hrows, List.map_append,
    List.map_cons, error?_append, hnone, Option.none_or, error?_cons, Row.source,
    hinstruction.lineError?_text hcolon, Option.some_or, List.length_map, List.length_map,
    Nat.add_comm 1]

end SourceLines

/-- The listing of an assembled program without its indices is assembled to the same labels and
    to instructions of the same operations and operands, if there is no colon in an operand.
    Otherwise it is refused for an invalid label, on the line of the first instruction
    with a colon. Such an instruction comes from a line that begins with a label. -/
theorem assemble_disassembly {source : String} {program : Program}
    (h : assemble source = .ok program) :
    ((∀ instruction ∈ program.instructions.toList, ¬ instruction.HasColon) →
      ∃ again, assemble program.disassembly = .ok again ∧ again.labels = program.labels ∧
        again.instructions.toList.map Instruction.statement =
          program.instructions.toList.map Instruction.statement) ∧
    ((∃ instruction ∈ program.instructions.toList, instruction.HasColon) →
      ∃ front instruction back above below,
        program.instructions.toList = front ++ instruction :: back ∧
        (∀ earlier ∈ front, ¬ earlier.HasColon) ∧ instruction.HasColon ∧
        lines program.listing.toList =
          above ++ (instructionLine front.length instruction).toList :: below ∧
        assemble program.disassembly =
          .error ⟨.invalidLabel (String.ofList (before (· == ':') instruction.text.toList)),
            above.length + 1⟩) ∧
    ∀ instruction ∈ program.instructions.toList, instruction.HasColon →
      ∃ text name rest, (lines source.toList)[instruction.line - 1]? = some text ∧
        Line.body text = name ++ ':' :: rest ∧ Name name := by
  obtain ⟨-, rfl⟩ := assemble_eq_ok_iff.1 h
  have htexts (text : List Char) (htext : text ∈ lines source.toList) : '\n' ∉ text :=
    lineFeed_notMem_of_mem_lines htext
  refine ⟨SourceLines.assemble_disassembly_program htexts, fun hsome => ?_,
    fun instruction hinstruction hcolon => ?_⟩
  · -- The first of them has only instructions without a colon in front of it.
    obtain ⟨instruction, hfirst⟩ : ∃ instruction, (SourceLines.program
        (lines source.toList)).instructions.toList.find? (·.HasColon) = some instruction := by
      rw [← Option.isSome_iff_exists, List.find?_isSome]
      simpa using hsome
    obtain ⟨hcolon, front, back, hinstructions, hfront⟩ := List.find?_eq_some_iff_append.1 hfirst
    simp only [decide_eq_true_eq, Bool.not_eq_true', decide_eq_false_iff_not] at hcolon hfront
    obtain ⟨above, below, hlines, herror⟩ :=
      SourceLines.assemble_disassembly_program_hasColon htexts hinstructions hfront hcolon
    exact ⟨front, instruction, back, above, below, hinstructions, hfront, hcolon, hlines, herror⟩
  · obtain ⟨index, text, htext, hline, hlabel⟩ :=
      SourceLines.exists_label_of_hasColon hinstruction hcolon
    obtain ⟨label, hlabel⟩ := Option.ne_none_iff_exists'.1 hlabel
    obtain ⟨name, rest, hbody, hname, -⟩ := label_eq_some_iff.1 hlabel
    exact ⟨text, name, rest, by rwa [hline, Nat.add_sub_cancel_left], hbody, hname⟩

/-- A program with a label at its end is assembled again; a label with a colon behind it is not,
    since it is moved to a line of its own. -/
theorem assemble_disassembly_label :
    (∃ program again, assemble "loop: inc R0, [ 1 ] ; up\nend:" = .ok program ∧
      assemble program.disassembly = .ok again ∧ again.labels = program.labels) ∧
    ∃ program error, assemble "HLT\nloop: MOV R0, x:y" = .ok program ∧
      assemble program.disassembly = .error error := by
  constructor
  · have h : assemble "loop: inc R0, [ 1 ] ; up\nend:" =
        .ok (SourceLines.program (lines "loop: inc R0, [ 1 ] ; up\nend:".toList)) :=
      assemble_eq_ok_iff.2 ⟨by decide +kernel, rfl⟩
    obtain ⟨again, hagain, hlabels, -⟩ := (assemble_disassembly h).1 (by decide +kernel)
    exact ⟨_, again, h, hagain, hlabels⟩
  · have h : assemble "HLT\nloop: MOV R0, x:y" =
        .ok (SourceLines.program (lines "HLT\nloop: MOV R0, x:y".toList)) :=
      assemble_eq_ok_iff.2 ⟨by decide +kernel, rfl⟩
    obtain ⟨_, _, _, _, _, -, -, -, -, herror⟩ := (assemble_disassembly h).2.1 (by decide +kernel)
    exact ⟨_, _, h, herror⟩

end RegisterMachine
