import RegisterMachine.Proofs.Assembly

/-!
# Printed instructions

An instruction is printed as its operation and the texts of its operands, with a blank
behind the operation and commas in between. This reads back as the same instruction if
the texts are what a source line has for operands (`Operand.Printable`), which those of
assembled programs are. There is one exception: a colon in an operand makes
the line look as if it began with a label.

* `SourceLines.printable_of_mem_instructions`: assembled instructions are printable, and
  those with a colon come from lines with a label (`SourceLines.exists_label_of_hasColon`);
* `Instruction.Printable.ofText_text`: a printed instruction denotes the instruction;
* `Instruction.Printable.statement_ofText_text`: with a colon, it has an invalid label;
* `Line.ofText_label`: a name with a colon behind it denotes a label;
* `Line.ofText_operation`: an operation and its operands may also be written more closely.
-/

namespace RegisterMachine

open Blank Split Grammar

/-! ## Texts -/

theorem intercalate_cons_eq (separator first : List Char) (rest : List (List Char)) :
    separator.intercalate (first :: rest) = first ++ rest.flatMap (separator ++ ·) := by
  induction rest generalizing first with
  | nil => simp
  | cons second rest ih => rw [List.intercalate_cons_cons, ih]; simp

theorem mem_intercalate {separator piece : List Char} {pieces : List (List Char)} {c : Char}
    (hpiece : piece ∈ pieces) (hc : c ∈ piece) : c ∈ separator.intercalate pieces := by
  obtain _ | ⟨first, rest⟩ := pieces
  · cases hpiece
  rw [intercalate_cons_eq]
  obtain _ | ⟨_, hrest⟩ := hpiece
  · exact List.mem_append_left _ hc
  · exact List.mem_append_right _ (List.mem_flatMap.2 ⟨piece, hrest, List.mem_append_right _ hc⟩)

theorem mem_or_exists_of_mem_intercalate {separator : List Char} {pieces : List (List Char)}
    {c : Char} (h : c ∈ separator.intercalate pieces) :
    c ∈ separator ∨ ∃ piece ∈ pieces, c ∈ piece := by
  obtain _ | ⟨first, rest⟩ := pieces
  · cases h
  rw [intercalate_cons_eq, List.mem_append, List.mem_flatMap] at h
  obtain hfirst | ⟨piece, hpiece, hc⟩ := h
  · exact .inr ⟨first, List.mem_cons_self, hfirst⟩
  · exact (List.mem_append.1 hc).imp_right fun h => ⟨piece, List.mem_cons_of_mem _ hpiece, h⟩

/-- Pieces end with one of them. -/
theorem exists_suffix_intercalate (separator : List Char) {pieces : List (List Char)}
    (h : pieces ≠ []) : ∃ piece ∈ pieces, piece <:+ separator.intercalate pieces := by
  obtain ⟨first, rest, rfl⟩ := List.exists_cons_of_ne_nil h
  induction rest generalizing first with
  | nil => exact ⟨first, List.mem_cons_self, List.intercalate_singleton ▸ List.suffix_refl _⟩
  | cons second rest ih =>
    obtain ⟨piece, hpiece, hsuffix⟩ := ih second (List.cons_ne_nil _ _)
    refine ⟨piece, List.mem_cons_of_mem _ hpiece, ?_⟩
    rw [List.intercalate_cons_cons]
    exact hsuffix.trans (List.suffix_append _ _)

theorem Blank.mem_of_mem_trim {text : List Char} {c : Char} (h : c ∈ trim text) : c ∈ text := by
  rw [trim_eq_rdropWhile] at h
  exact (List.dropWhile_sublist _).mem ((List.rdropWhile_prefix _ _).mem h)

/-- A text without blanks at its ends is trimmed. -/
theorem Blank.trim_eq_self {text : List Char} (hhead : ∀ c ∈ text.head?, ¬ isBlank c)
    (hlast : ∀ c ∈ text.getLast?, ¬ isBlank c) : trim text = text := by
  have hfront : text.dropWhile isBlank = text := by
    refine List.dropWhile_eq_self_iff.2 fun hpos => hhead _ ?_
    rw [List.head?_eq_getElem?, List.getElem?_eq_getElem hpos]
    rfl
  rw [trim_eq_rdropWhile, hfront]
  exact List.rdropWhile_eq_self_iff.2 fun hne => hlast _ (List.getLast?_eq_some_getLast hne)

theorem Split.before_append {separator : Char} {front : List Char} (h : separator ∉ front)
    (rest : List Char) :
    before (· == separator) (front ++ rest) = front ++ before (· == separator) rest :=
  List.takeWhile_append_of_pos fun _ hc => by simpa using ne_of_mem_of_not_mem hc h

theorem Split.before_eq_self {separator : Char} {text : List Char} (h : separator ∉ text) :
    before (· == separator) text = text := by
  rw [← List.append_nil text, before_append h]
  rfl

theorem Split.lineFeed_notMem_of_mem_lines {source text : List Char} (h : text ∈ lines source) :
    '\n' ∉ text := by
  rw [lines] at h
  split at h
  · exact notMem_of_mem_splitOn ((List.dropLast_sublist _).mem h)
  · exact notMem_of_mem_splitOn h

/-! ## Operands -/

/-- The text of an operand reads back as the operand, and it may stand between commas on a
    source line. -/
structure Operand.Printable (operand : Operand) : Prop where
  reads : Operand.ofText operand.token.toList = operand
  ne_nil : operand.token.toList ≠ []
  comma_notMem : ',' ∉ operand.token.toList
  semicolon_notMem : ';' ∉ operand.token.toList
  lineFeed_notMem : '\n' ∉ operand.token.toList

/-- The operands of an instruction are printable. -/
def Instruction.Printable (instruction : Instruction) : Prop :=
  ∀ operand ∈ instruction.operands, operand.Printable

/-- There is a colon in an operand of an instruction. -/
def Instruction.HasColon (instruction : Instruction) : Prop :=
  ∃ operand ∈ instruction.operands, ':' ∈ operand.token.toList

instance (instruction : Instruction) : Decidable instruction.HasColon :=
  inferInstanceAs (Decidable (∃ operand ∈ instruction.operands, ':' ∈ operand.token.toList))

namespace Operand

theorem toList_token_ofText (text : List Char) : (ofText text).token.toList = trim text :=
  String.toList_ofList

theorem Printable.trim_token {operand : Operand} (h : operand.Printable) :
    trim operand.token.toList = operand.token.toList := by
  rw [← toList_token_ofText, h.reads]

/-- The texts of operands between commas, all but the first with a blank in front. -/
def pieces : List Operand → List (List Char)
  | [] => []
  | first :: rest => first.token.toList :: rest.map fun operand => ' ' :: operand.token.toList

theorem intercalate_pieces (operands : List Operand) :
    [','].intercalate (pieces operands) =
      [',', ' '].intercalate (operands.map (·.token.toList)) := by
  obtain _ | ⟨first, rest⟩ := operands
  · rfl
  · rw [pieces, intercalate_cons_eq, List.flatMap_map, List.map_cons, intercalate_cons_eq,
      List.flatMap_map]
    rfl

theorem exists_of_mem_pieces {operands : List Operand} {piece : List Char}
    (h : piece ∈ pieces operands) :
    ∃ operand ∈ operands, piece = operand.token.toList ∨ piece = ' ' :: operand.token.toList := by
  obtain _ | ⟨first, rest⟩ := operands
  · cases h
  obtain _ | ⟨_, hrest⟩ := h
  · exact ⟨first, List.mem_cons_self, .inl rfl⟩
  · obtain ⟨operand, hoperand, rfl⟩ := List.mem_map.1 hrest
    exact ⟨operand, List.mem_cons_of_mem _ hoperand, .inr rfl⟩

theorem Printable.ofText_blank_cons {operand : Operand} (h : operand.Printable) :
    ofText (' ' :: operand.token.toList) = operand := by
  rw [ofText, trim_cons_of_isBlank (by decide), ← ofText, h.reads]

theorem map_ofText_pieces {operands : List Operand}
    (h : ∀ operand ∈ operands, operand.Printable) : (pieces operands).map ofText = operands := by
  obtain _ | ⟨first, rest⟩ := operands
  · rfl
  obtain ⟨hfirst, hrest⟩ := List.forall_mem_cons.1 h
  rw [pieces, List.map_cons, hfirst.reads, List.map_map]
  congr 1
  calc rest.map (ofText ∘ fun operand => ' ' :: operand.token.toList)
      = rest.map id :=
        List.map_congr_left fun operand hoperand => (hrest operand hoperand).ofText_blank_cons
    _ = rest := List.map_id rest

theorem pieces_pieces {operands : List Operand} (hne : operands ≠ [])
    (h : ∀ operand ∈ operands, operand.Printable) : Pieces (pieces operands) where
  ne_nil := by
    obtain ⟨first, rest, rfl⟩ := List.exists_cons_of_ne_nil hne
    exact List.cons_ne_nil _ _
  comma_notMem piece hpiece := by
    obtain ⟨operand, hoperand, rfl | rfl⟩ := exists_of_mem_pieces hpiece
    · exact (h operand hoperand).comma_notMem
    · exact List.not_mem_cons_of_ne_of_not_mem (by decide) (h operand hoperand).comma_notMem

theorem not_allBlank_of_mem_pieces {operands : List Operand}
    (h : ∀ operand ∈ operands, operand.Printable) {piece : List Char}
    (hpiece : piece ∈ pieces operands) : ¬ AllBlank piece := by
  intro hall
  obtain ⟨operand, hoperand, rfl | rfl⟩ := exists_of_mem_pieces hpiece <;>
    have hprintable := h operand hoperand
  · exact hprintable.ne_nil (by rw [← hprintable.trim_token, trim_eq_nil_iff.2 hall])
  · refine hprintable.ne_nil ?_
    rw [← hprintable.trim_token, trim_eq_nil_iff.2 fun c hc => hall c (List.mem_cons_of_mem _ hc)]

end Operand

/-! ## Assembled instructions -/

namespace Grammar

variable {text : List Char} {statement : Statement} {operand : Operand}

/-- An operand of an instruction text is that of a piece between commas, which is not blank. -/
theorem InstructionText.exists_piece (h : InstructionText text statement)
    (hoperand : operand ∈ statement.operands) :
    ∃ piece, operand = Operand.ofText piece ∧ ¬ AllBlank piece ∧ ',' ∉ piece ∧ piece ⊆ text := by
  cases h with
  | bare => cases hoperand
  | operands _ _ _ hpieces hblank =>
    obtain ⟨piece, hpiece, rfl⟩ := List.mem_map.1 hoperand
    refine ⟨piece, rfl, hblank piece hpiece, hpieces.comma_notMem piece hpiece, fun c hc => ?_⟩
    exact List.mem_append_right _ (List.mem_cons_of_mem _ (mem_intercalate hpiece hc))

theorem InstructionText.mem_of_mem_token (h : InstructionText text statement)
    (hoperand : operand ∈ statement.operands) {c : Char} (hc : c ∈ operand.token.toList) :
    c ∈ text := by
  obtain ⟨piece, rfl, -, -, hsubset⟩ := h.exists_piece hoperand
  rw [Operand.toList_token_ofText] at hc
  exact hsubset (mem_of_mem_trim hc)

/-- The operands that an instruction text denotes are printable, if it may stand on a line. -/
theorem InstructionText.printable (h : InstructionText text statement) (hsemicolon : ';' ∉ text)
    (hlineFeed : '\n' ∉ text) (hoperand : operand ∈ statement.operands) : operand.Printable := by
  have hsemicolon' : ';' ∉ operand.token.toList := fun hc =>
    hsemicolon (h.mem_of_mem_token hoperand hc)
  have hlineFeed' : '\n' ∉ operand.token.toList := fun hc =>
    hlineFeed (h.mem_of_mem_token hoperand hc)
  obtain ⟨piece, rfl, hblank, hcomma, -⟩ := h.exists_piece hoperand
  rw [Operand.toList_token_ofText] at hsemicolon' hlineFeed'
  constructor <;> rw [Operand.toList_token_ofText]
  · rw [Operand.ofText, trim_trim, Operand.ofText]
  · exact fun hnil => hblank (trim_eq_nil_iff.1 hnil)
  · exact fun hc => hcomma (mem_of_mem_trim hc)
  · exact hsemicolon'
  · exact hlineFeed'

/-- The statement of a body is that of a part of it. -/
theorem Body.exists_instructionText {body : List Char} {label : Option String}
    (h : Body body label (some statement)) :
    ∃ text, InstructionText text statement ∧ text ⊆ body := by
  cases h with
  | statement _ htext => exact ⟨body, htext, List.Subset.refl _⟩
  | labelled _ htext =>
    exact ⟨_, htext, fun c hc =>
      List.mem_append_right _ (List.mem_cons_of_mem _ (mem_of_mem_trim hc))⟩

theorem Body.label_ne_none {body : List Char} {label : Option String}
    (h : Body body label (some statement)) (hcolon : ':' ∈ body) : label ≠ none := by
  cases h with
  | statement hnot => exact absurd hcolon hnot
  | labelled => exact Option.some_ne_none _

end Grammar

namespace Line

theorem mem_of_mem_body {text : List Char} {c : Char} (h : c ∈ body text) : c ∈ text :=
  (List.takeWhile_sublist _).mem (mem_of_mem_trim h)

theorem semicolon_notMem_body (text : List Char) : ';' ∉ body text := by
  intro h
  have hbefore := List.mem_takeWhile_imp (mem_of_mem_trim h)
  simp at hbefore

theorem body_eq_self {text : List Char} (htrim : trim text = text) (hsemicolon : ';' ∉ text) :
    body text = text := by
  rw [body, before_eq_self hsemicolon, htrim]

theorem body_of_statement?_eq_some {text : List Char} {statement : Statement}
    (h : (ofText text).statement? = some statement) :
    Body (body text) (ofText text).label (some statement) := by
  rw [← h]
  refine body_of_cause?_eq_none ?_
  rw [statement?] at h
  rw [cause?]
  split at h
  · rfl
  · cases h

end Line

namespace SourceLines

variable {first : Nat} {texts : List (List Char)} {instruction : Instruction}

/-- The instructions of lines are on lines among them. -/
theorem exists_of_mem_instructions (h : instruction ∈ instructions first texts) :
    ∃ index text, texts[index]? = some text ∧ instruction.line = first + index ∧
      (Line.ofText text).statement? = some ⟨instruction.opcode, instruction.operands⟩ := by
  obtain ⟨⟨text, number⟩, hmem, hinstruction⟩ := List.mem_filterMap.1 h
  obtain ⟨hfirst, htext⟩ := List.mk_mem_zipIdx_iff_le_and_getElem?_sub.1 hmem
  obtain ⟨statement, hstatement, rfl⟩ := Option.map_eq_some_iff.1 hinstruction
  exact ⟨number - first, text, htext, (Nat.add_sub_cancel' hfirst).symm, hstatement⟩

/-- The instructions of source lines are printable. -/
theorem printable_of_mem_instructions (htexts : ∀ text ∈ texts, '\n' ∉ text)
    (h : instruction ∈ instructions first texts) : instruction.Printable := by
  intro operand hoperand
  obtain ⟨index, text, htext, -, hstatement⟩ := exists_of_mem_instructions h
  obtain ⟨part, hpart, hsubset⟩ :=
    (Line.body_of_statement?_eq_some hstatement).exists_instructionText
  refine hpart.printable (fun hc => Line.semicolon_notMem_body text (hsubset hc)) (fun hc => ?_)
    hoperand
  exact htexts text (List.mem_of_getElem? htext) (Line.mem_of_mem_body (hsubset hc))

/-- An operand with a colon is on a line with a label. -/
theorem exists_label_of_hasColon (h : instruction ∈ instructions first texts)
    (hcolon : instruction.HasColon) :
    ∃ index text, texts[index]? = some text ∧ instruction.line = first + index ∧
      (Line.ofText text).label ≠ none := by
  obtain ⟨index, text, htext, hline, hstatement⟩ := exists_of_mem_instructions h
  obtain ⟨operand, hoperand, hmem⟩ := hcolon
  have hbody := Line.body_of_statement?_eq_some hstatement
  obtain ⟨part, hpart, hsubset⟩ := hbody.exists_instructionText
  exact ⟨index, text, htext, hline,
    hbody.label_ne_none (hsubset (hpart.mem_of_mem_token hoperand hmem))⟩

end SourceLines

/-! ## Instructions as text -/

namespace Opcode

theorem isAlpha_of_mem_name {opcode : Opcode} {c : Char} (h : c ∈ opcode.name.toList) :
    c.isAlpha := by
  have hall : opcode.name.toList.all Char.isAlpha := by cases opcode <;> decide +kernel
  exact List.all_eq_true.1 hall c h

theorem isWord_name (opcode : Opcode) : IsWord opcode.name.toList := by
  have hall : opcode.name.toList.all (!isBlank ·) := by cases opcode <;> decide +kernel
  exact fun c hc => by simpa using List.all_eq_true.1 hall c hc

theorem spells_name (opcode : Opcode) : Spells opcode.name.toList opcode := by
  rw [← ofMnemonic?_eq_some_iff_spells, String.ofList_toList, ofMnemonic?_name]

/-- A text that begins with an operation and ends with a trimmed text has no blanks at its ends. -/
theorem trim_name_append {opcode : Opcode} {rest piece : List Char} (hsuffix : piece <:+ rest)
    (hne : piece ≠ []) (htrim : trim piece = piece) :
    trim (opcode.name.toList ++ ' ' :: rest) = opcode.name.toList ++ ' ' :: rest := by
  have hend : piece <:+ opcode.name.toList ++ ' ' :: rest :=
    hsuffix.trans ((List.suffix_cons _ _).trans (List.suffix_append _ _))
  refine trim_eq_self (fun c hc => ?_) fun c hc => ?_
  · rw [List.head?_append_of_ne_nil _ opcode.spells_name.ne_nil] at hc
    exact opcode.isWord_name c (List.mem_of_mem_head? hc)
  · obtain ⟨front, hfront⟩ := hend
    rw [← hfront, List.getLast?_append_of_ne_nil _ hne, List.getLast?_eq_some_getLast hne] at hc
    obtain rfl := Option.mem_some.1 hc
    exact getLast_of_trim_eq_self htrim hne

end Opcode

namespace Instruction

/-- The operation and the operands of an instruction. -/
def statement (instruction : Instruction) : Statement :=
  ⟨instruction.opcode, instruction.operands⟩

variable {instruction : Instruction}

theorem toList_text_of_eq_nil (h : instruction.operands = []) :
    instruction.text.toList = instruction.opcode.name.toList := by
  rw [text, h]

theorem toList_text_of_ne_nil (h : instruction.operands ≠ []) :
    instruction.text.toList = instruction.opcode.name.toList ++
      ' ' :: [',', ' '].intercalate (instruction.operands.map (·.token.toList)) := by
  rw [text]
  split
  · contradiction
  · rw [String.toList_append, String.toList_append, String.toList_intercalate, List.map_map,
      List.append_assoc]
    rfl

theorem mem_text {c : Char} (h : c ∈ instruction.text.toList) :
    c.isAlpha ∨ c = ' ' ∨ c = ',' ∨ ∃ operand ∈ instruction.operands, c ∈ operand.token.toList := by
  by_cases hnil : instruction.operands = []
  · rw [toList_text_of_eq_nil hnil] at h
    exact .inl (Opcode.isAlpha_of_mem_name h)
  rw [toList_text_of_ne_nil hnil, List.mem_append, List.mem_cons] at h
  obtain hname | hblank | hoperands := h
  · exact .inl (Opcode.isAlpha_of_mem_name hname)
  · exact .inr (.inl hblank)
  obtain hseparator | ⟨piece, hpiece, hc⟩ := mem_or_exists_of_mem_intercalate hoperands
  · simp only [List.mem_cons, List.not_mem_nil, or_false] at hseparator
    exact .inr (hseparator.elim (.inr ∘ .inl) .inl)
  · obtain ⟨operand, hoperand, rfl⟩ := List.mem_map.1 hpiece
    exact .inr (.inr (.inr ⟨operand, hoperand, hc⟩))

theorem notMem_text {c : Char} (hletter : ¬ c.isAlpha) (hseparator : c ≠ ' ' ∧ c ≠ ',')
    (hoperands : ∀ operand ∈ instruction.operands, c ∉ operand.token.toList) :
    c ∉ instruction.text.toList := by
  intro h
  obtain hname | hblank | hcomma | ⟨operand, hoperand, hc⟩ := mem_text h
  · exact hletter hname
  · exact hseparator.1 hblank
  · exact hseparator.2 hcomma
  · exact hoperands operand hoperand hc

theorem Printable.lineFeed_notMem_text (h : instruction.Printable) :
    '\n' ∉ instruction.text.toList :=
  notMem_text (by decide) (by decide) fun operand hoperand => (h operand hoperand).lineFeed_notMem

theorem Printable.semicolon_notMem_text (h : instruction.Printable) :
    ';' ∉ instruction.text.toList :=
  notMem_text (by decide) (by decide) fun operand hoperand => (h operand hoperand).semicolon_notMem

theorem hasColon_iff : instruction.HasColon ↔ ':' ∈ instruction.text.toList := by
  constructor
  · rintro ⟨operand, hoperand, hc⟩
    rw [toList_text_of_ne_nil (List.ne_nil_of_mem hoperand)]
    exact List.mem_append_right _
      (List.mem_cons_of_mem _ (mem_intercalate (List.mem_map_of_mem hoperand) hc))
  · contrapose
    intro h
    exact notMem_text (by decide) (by decide) fun operand hoperand hc => h ⟨operand, hoperand, hc⟩

/-- A printed instruction has no blanks at its ends: it begins with its operation and ends
    with its last operand, if it has operands. -/
theorem Printable.trim_text (h : instruction.Printable) :
    trim instruction.text.toList = instruction.text.toList := by
  by_cases hnil : instruction.operands = []
  · have hword := instruction.opcode.isWord_name
    rw [toList_text_of_eq_nil hnil]
    exact trim_eq_self (fun c hc => hword c (List.mem_of_mem_head? hc)) fun c hc =>
      hword c (List.mem_of_mem_getLast? hc)
  have hne : instruction.operands.map (·.token.toList) ≠ [] := by simpa using hnil
  obtain ⟨piece, hpiece, hsuffix⟩ := exists_suffix_intercalate [',', ' '] hne
  obtain ⟨operand, hoperand, rfl⟩ := List.mem_map.1 hpiece
  rw [toList_text_of_ne_nil hnil]
  exact Opcode.trim_name_append hsuffix (h operand hoperand).ne_nil (h operand hoperand).trim_token

theorem Printable.body_text (h : instruction.Printable) :
    Line.body instruction.text.toList = instruction.text.toList :=
  Line.body_eq_self h.trim_text h.semicolon_notMem_text

/-- A printed instruction is an instruction text, which denotes it. -/
theorem Printable.instructionText (h : instruction.Printable) :
    InstructionText instruction.text.toList instruction.statement := by
  have hword := instruction.opcode.isWord_name
  have hspells := instruction.opcode.spells_name
  by_cases hnil : instruction.operands = []
  · rw [toList_text_of_eq_nil hnil, statement, hnil]
    exact .bare hword hspells
  · rw [toList_text_of_ne_nil hnil, ← Operand.intercalate_pieces, statement]
    nth_rewrite 2 [← Operand.map_ofText_pieces h]
    exact .operands hword hspells (by decide) (Operand.pieces_pieces hnil h)
      fun _ hpiece => Operand.not_allBlank_of_mem_pieces h hpiece

/-- Without a colon a printed instruction reads back as the instruction. -/
theorem Printable.ofText_text (h : instruction.Printable) (hcolon : ¬ instruction.HasColon) :
    Line.ofText instruction.text.toList = ⟨none, .ok (some instruction.statement)⟩ := by
  rw [Line.ofText, h.body_text, Line.ofBody_eq_iff h.trim_text]
  exact .statement (hasColon_iff.not.1 hcolon) h.instructionText

/-- With a colon a printed instruction looks like a label with a blank in it, which is no name. -/
theorem Printable.statement_ofText_text (h : instruction.Printable)
    (hcolon : instruction.HasColon) :
    (Line.ofText instruction.text.toList).statement =
      .error (.invalidLabel (String.ofList (before (· == ':') instruction.text.toList))) := by
  rw [Line.ofText, h.body_text, Line.statement_ofBody_eq_error_iff h.trim_text]
  obtain ⟨front, back, htext, hfront⟩ := List.eq_append_cons_of_mem (hasColon_iff.1 hcolon)
  have hbefore : before (· == ':') instruction.text.toList = front := by
    rw [htext, before_append hfront]
    exact List.append_nil front
  -- There are operands, so a blank follows the operation, which has no colon.
  have hblank : ' ' ∈ front := by
    obtain ⟨operand, hoperand, -⟩ := hcolon
    have hname : ':' ∉ instruction.opcode.name.toList := fun hc =>
      absurd (Opcode.isAlpha_of_mem_name hc) (by decide)
    rw [← hbefore, toList_text_of_ne_nil (List.ne_nil_of_mem hoperand), before_append hname]
    exact List.mem_append_right _ List.mem_cons_self
  rw [hbefore, htext]
  exact .invalidLabel hfront fun hname => hname.blank_notMem hblank

end Instruction

/-! ## Labels as text -/

namespace Grammar

/-- The characters of names are ASCII characters. -/
theorem exists_of_isNameRest {c : Char} (h : Line.isNameRest c) :
    ∃ i : Fin 128, c = Char.ofNat i := by
  have hlt : c.toNat < 128 := by
    simp only [Line.isNameRest, Char.isAlphanum, Bool.or_eq_true, beq_iff_eq, isAlpha_iff,
      isDigit_iff] at h
    obtain ((⟨-, h⟩ | ⟨-, h⟩) | ⟨-, h⟩) | rfl := h
    · exact Nat.lt_of_le_of_lt (UInt32.le_iff_toNat_le.1 h) (by decide)
    · exact Nat.lt_of_le_of_lt (UInt32.le_iff_toNat_le.1 h) (by decide)
    · exact Nat.lt_of_le_of_lt (UInt32.le_iff_toNat_le.1 h) (by decide)
    · decide
  exact ⟨⟨c.toNat, hlt⟩, (Char.ofNat_toNat c).symm⟩

theorem not_isBlank_of_isNameRest {c : Char} (h : Line.isNameRest c) : ¬ isBlank c := by
  obtain ⟨i, rfl⟩ := exists_of_isNameRest h
  revert i
  decide

theorem not_isDigit_of_isNameStart {c : Char} (h : Line.isNameStart c) : ¬ c.isDigit := by
  obtain ⟨i, rfl⟩ := exists_of_isNameRest (isNameRest_of_isNameStart h)
  revert i
  decide

theorem Name.ne_nil {name : List Char} (h : Name name) : name ≠ [] := by
  obtain ⟨_, _⟩ := h
  exact List.cons_ne_nil _ _

theorem Name.not_isDigit_of_mem_head? {name : List Char} (h : Name name) {c : Char}
    (hc : c ∈ name.head?) : ¬ c.isDigit := by
  rw [← isName_iff] at h
  obtain _ | ⟨first, rest⟩ := name
  · cases hc
  obtain rfl := Option.mem_some.1 hc
  exact not_isDigit_of_isNameStart (Bool.and_eq_true_iff.1 h).1

end Grammar

namespace Line

/-- A name with a colon behind it is a label. -/
theorem ofText_label {name : List Char} (h : Name name) :
    ofText (name ++ [':']) = ⟨some (String.ofList name), .ok none⟩ := by
  have hsemicolon : ';' ∉ name ++ [':'] := by
    rw [List.mem_append, not_or]
    exact ⟨fun hc => absurd (h.isNameRest_of_mem hc) (by decide), by decide⟩
  have htrim : trim (name ++ [':']) = name ++ [':'] := by
    refine trim_eq_self (fun c hc => ?_) fun c hc => ?_
    · rw [List.head?_append_of_ne_nil _ h.ne_nil] at hc
      exact not_isBlank_of_isNameRest (h.isNameRest_of_mem (List.mem_of_mem_head? hc))
    · rw [List.getLast?_concat] at hc
      obtain rfl := Option.mem_some.1 hc
      decide
  rw [ofText, body_eq_self htrim hsemicolon, ofBody_eq_iff htrim]
  exact .label h fun _ hc => absurd hc List.not_mem_nil

end Line

/-! ## Solid texts -/

/-- A text of letters, digits, underscores and minus signs. There are no blanks in it, and
    nothing that ends an operand, a line or a part of it. -/
structure Grammar.Solid (text : List Char) : Prop where
  ne_nil : text ≠ []
  char : ∀ c ∈ text, Line.isNameRest c ∨ c = '-'

namespace Grammar.Solid

variable {text : List Char}

theorem iff_all : Solid text ↔ text ≠ [] ∧ text.all (fun c => Line.isNameRest c || c == '-') := by
  rw [List.all_eq_true]
  simp only [Bool.or_eq_true, beq_iff_eq]
  exact ⟨fun h => ⟨h.ne_nil, h.char⟩, fun h => ⟨h.1, h.2⟩⟩

instance (text : List Char) : Decidable (Solid text) := decidable_of_iff' _ iff_all

theorem notMem (h : Solid text) {c : Char} (hrest : ¬ Line.isNameRest c) (hminus : c ≠ '-') :
    c ∉ text :=
  fun hc => (h.char c hc).elim hrest hminus

theorem isWord (h : Solid text) : IsWord text := by
  intro c hc
  obtain hrest | rfl := h.char c hc
  · exact not_isBlank_of_isNameRest hrest
  · decide

theorem trim_eq (h : Solid text) : trim text = text :=
  trim_eq_self (fun c hc => h.isWord c (List.mem_of_mem_head? hc)) fun c hc =>
    h.isWord c (List.mem_of_mem_getLast? hc)

theorem not_allBlank (h : Solid text) : ¬ AllBlank text :=
  fun hall => h.ne_nil (by rw [← h.trim_eq, trim_eq_nil_iff.2 hall])

end Grammar.Solid

namespace Line

/-- An operation and solid texts behind it, with one blank and with commas in between, are read
    as the operation with the operands that the texts stand for. -/
theorem ofText_operation {opcode : Opcode} {pieces : List (List Char)} (hne : pieces ≠ [])
    (h : ∀ piece ∈ pieces, Solid piece) :
    ofText (opcode.name.toList ++ ' ' :: [','].intercalate pieces) =
      ⟨none, .ok (some ⟨opcode, pieces.map Operand.ofText⟩)⟩ := by
  have hnotMem {c : Char} (hrest : ¬ isNameRest c) (hseparator : c ≠ '-' ∧ c ≠ ' ' ∧ c ≠ ',') :
      c ∉ opcode.name.toList ++ ' ' :: [','].intercalate pieces := by
    rw [List.mem_append, List.mem_cons]
    rintro (hname | hblank | hpieces)
    · exact hrest (by simp [isNameRest, Char.isAlphanum, Opcode.isAlpha_of_mem_name hname])
    · exact hseparator.2.1 hblank
    obtain hcomma | ⟨piece, hpiece, hc⟩ := mem_or_exists_of_mem_intercalate hpieces
    · exact hseparator.2.2 (List.mem_singleton.1 hcomma)
    · exact (h piece hpiece).notMem hrest hseparator.1 hc
  obtain ⟨last, hlast, hsuffix⟩ := exists_suffix_intercalate [','] hne
  have htrim := @Opcode.trim_name_append opcode _ _ hsuffix (h last hlast).ne_nil
    (h last hlast).trim_eq
  rw [ofText, body_eq_self htrim (hnotMem (by decide) (by decide)), ofBody_eq_iff htrim]
  refine .statement (hnotMem (by decide) (by decide))
    (.operands opcode.isWord_name opcode.spells_name (by decide) ⟨hne, fun piece hpiece => ?_⟩
      fun piece hpiece => (h piece hpiece).not_allBlank)
  exact (h piece hpiece).notMem (by decide) (by decide)

end Line

end RegisterMachine
