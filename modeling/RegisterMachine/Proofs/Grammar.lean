import RegisterMachine.Assembly.Line
import RegisterMachine.Proofs.Text

/-!
# The grammar of source lines

What the body of a source line may be, and what it denotes, as rules that build a
text from its parts. A line is read by cutting its text into parts instead, and by
trimming them; the two agree, so reading accepts the bodies of the grammar and no
others.

* `InstructionText`: an operation, alone or with operands, with the statement that
  it denotes; `BadInstruction`: what is none, with what is wrong with it;
* `Body`: a body, with its label and its statement; `Rejected`: what is none;
* `Line.ofBody_eq_iff`, `Line.statement_ofBody_eq_error_iff`: a body is read as what
  it denotes, and is rejected for the cause that the grammar tells.
-/

namespace RegisterMachine

open Blank Split

namespace Grammar

/-- An ASCII letter. -/
def IsLetter (c : Char) : Prop := ('A' ≤ c ∧ c ≤ 'Z') ∨ ('a' ≤ c ∧ c ≤ 'z')

/-- An ASCII digit. -/
def IsDigit (c : Char) : Prop := '0' ≤ c ∧ c ≤ '9'

/-- A name: a letter or an underscore, and then letters, digits and underscores. -/
inductive Name : List Char → Prop
  | intro {first : Char} {rest : List Char} : IsLetter first ∨ first = '_' →
      (∀ c ∈ rest, IsLetter c ∨ IsDigit c ∨ c = '_') → Name (first :: rest)

/-- A word without blanks. -/
def IsWord (word : List Char) : Prop := ∀ c ∈ word, ¬ isBlank c

/-- A text of nothing but blanks. -/
def AllBlank (text : List Char) : Prop := ∀ c ∈ text, isBlank c

/-- A word is the name of an operation, whatever the case of its letters. -/
def Spells (word : List Char) (opcode : Opcode) : Prop :=
  word.map Char.toUpper = opcode.name.toList

/-- Pieces without commas, which are what lies between the commas of a text. -/
structure Pieces (pieces : List (List Char)) : Prop where
  ne_nil : pieces ≠ []
  comma_notMem : ∀ piece ∈ pieces, ',' ∉ piece

/-- The texts of instructions, with the statements that they denote. -/
inductive InstructionText : List Char → Statement → Prop
  | bare {word : List Char} {opcode : Opcode} : IsWord word → Spells word opcode →
      InstructionText word ⟨opcode, []⟩
  | operands {word : List Char} {opcode : Opcode} {blank : Char} {pieces : List (List Char)} :
      IsWord word → Spells word opcode → isBlank blank → Pieces pieces →
      (∀ piece ∈ pieces, ¬ AllBlank piece) →
      InstructionText (word ++ blank :: [','].intercalate pieces)
        ⟨opcode, pieces.map Operand.ofText⟩

/-- Texts that are not those of instructions, with what is wrong with them. -/
inductive BadInstruction : List Char → SyntaxCause → Prop
  | unknownMnemonic {word rest : List Char} : IsWord word → (∀ c ∈ rest.head?, isBlank c) →
      word ++ rest ≠ [] → (∀ opcode, ¬ Spells word opcode) →
      BadInstruction (word ++ rest) (.unknownMnemonic (String.ofList word))
  | emptyOperand {word : List Char} {opcode : Opcode} {blank : Char}
      {pieces : List (List Char)} :
      IsWord word → Spells word opcode → isBlank blank → Pieces pieces →
      (∃ piece ∈ pieces, AllBlank piece) →
      BadInstruction (word ++ blank :: [','].intercalate pieces) .emptyOperand

/-- The well-formed bodies, with their labels and statements. -/
inductive Body : List Char → Option String → Option Statement → Prop
  | empty : Body [] none none
  | statement {text : List Char} {statement : Statement} : ':' ∉ text →
      InstructionText text statement → Body text none (some statement)
  | label {name rest : List Char} : Name name → AllBlank rest →
      Body (name ++ ':' :: rest) (some (String.ofList name)) none
  | labelled {name rest : List Char} {statement : Statement} : Name name →
      InstructionText (trim rest) statement →
      Body (name ++ ':' :: rest) (some (String.ofList name)) (some statement)

/-- A body is well formed if it is one of the grammar. -/
def WellFormed (body : List Char) : Prop := ∃ label statement, Body body label statement

/-- The bodies that are not well formed, with what is wrong with them. -/
inductive Rejected : List Char → SyntaxCause → Prop
  | invalidLabel {name rest : List Char} : ':' ∉ name → ¬ Name name →
      Rejected (name ++ ':' :: rest) (.invalidLabel (String.ofList name))
  | statement {text : List Char} {cause : SyntaxCause} : ':' ∉ text →
      BadInstruction text cause → Rejected text cause
  | labelled {name rest : List Char} {cause : SyntaxCause} : Name name →
      BadInstruction (trim rest) cause → Rejected (name ++ ':' :: rest) cause

/-! ## Names and words -/

theorem isAlpha_iff {c : Char} : c.isAlpha ↔ IsLetter c := by
  have hupper : c.isUpper ↔ 'A' ≤ c ∧ c ≤ 'Z' := decide_eq_true_iff
  have hlower : c.isLower ↔ 'a' ≤ c ∧ c ≤ 'z' :=
    Bool.and_eq_true_iff.trans (and_congr decide_eq_true_iff decide_eq_true_iff)
  exact Bool.or_eq_true_iff.trans (or_congr hupper hlower)

theorem isDigit_iff {c : Char} : c.isDigit ↔ IsDigit c :=
  Bool.and_eq_true_iff.trans (and_congr decide_eq_true_iff decide_eq_true_iff)

theorem isName_iff {name : List Char} : Line.isName name ↔ Name name := by
  constructor
  · intro h
    obtain _ | ⟨first, rest⟩ := name
    · cases h
    simp only [Line.isName, Line.isNameStart, Line.isNameRest, Char.isAlphanum, Bool.and_eq_true,
      Bool.or_eq_true, List.all_eq_true, beq_iff_eq, isAlpha_iff, isDigit_iff, or_assoc] at h
    exact .intro h.1 h.2
  · rintro ⟨hfirst, hrest⟩
    simp only [Line.isName, Line.isNameStart, Line.isNameRest, Char.isAlphanum, Bool.and_eq_true,
      Bool.or_eq_true, List.all_eq_true, beq_iff_eq, isAlpha_iff, isDigit_iff, or_assoc]
    exact ⟨hfirst, hrest⟩

theorem isNameRest_of_isNameStart {c : Char} (h : Line.isNameStart c) : Line.isNameRest c := by
  simp only [Line.isNameStart, Line.isNameRest, Char.isAlphanum, Bool.or_eq_true] at h ⊢
  exact h.imp_left .inl

theorem Name.isNameRest_of_mem {name : List Char} (h : Name name) {c : Char} (hc : c ∈ name) :
    Line.isNameRest c := by
  rw [← isName_iff] at h
  obtain _ | ⟨first, rest⟩ := name
  · cases hc
  simp only [Line.isName, Bool.and_eq_true, List.all_eq_true] at h
  obtain _ | ⟨_, hrest⟩ := hc
  · exact isNameRest_of_isNameStart h.1
  · exact h.2 c hrest

theorem Name.colon_notMem {name : List Char} (h : Name name) : ':' ∉ name :=
  fun hc => absurd (h.isNameRest_of_mem hc) (by decide)

theorem Name.blank_notMem {name : List Char} (h : Name name) : ' ' ∉ name :=
  fun hc => absurd (h.isNameRest_of_mem hc) (by decide)

theorem ofMnemonic?_eq_some_iff_spells {word : List Char} {opcode : Opcode} :
    Opcode.ofMnemonic? (String.ofList word) = some opcode ↔ Spells word opcode := by
  rw [Opcode.ofMnemonic?_eq_some_iff, ← String.toList_inj, String.toUpper, String.toList_map,
    String.toList_ofList, Spells]

theorem ofMnemonic?_eq_none_iff {word : List Char} :
    Opcode.ofMnemonic? (String.ofList word) = none ↔ ∀ opcode, ¬ Spells word opcode := by
  simp only [Option.eq_none_iff_forall_ne_some, ne_eq, ofMnemonic?_eq_some_iff_spells]

/-! ## Operands -/

theorem notMem_of_mem_splitOn {separator : Char} {text piece : List Char}
    (h : piece ∈ text.splitOn separator) : separator ∉ piece := by
  induction text generalizing piece with
  | nil =>
    rw [List.splitOn_nil, List.mem_singleton] at h
    exact h ▸ List.not_mem_nil
  | cons c rest ih =>
    rw [List.splitOn_cons_eq_if_modifyHead] at h
    obtain ⟨first, others, hpieces⟩ :=
      List.exists_cons_of_ne_nil (List.splitOn_ne_nil separator rest)
    rw [hpieces] at h ih
    split at h
    · obtain _ | ⟨_, h⟩ := h
      · exact List.not_mem_nil
      · exact ih h
    · next hc =>
      -- The first piece begins with this character, which is not the separator.
      obtain _ | ⟨_, h⟩ := h
      · rintro (_ | ⟨_, hfirst⟩)
        · exact hc (beq_self_eq_true _)
        · exact ih List.mem_cons_self hfirst
      · exact ih (List.mem_cons_of_mem _ h)

theorem pieces_splitOn (text : List Char) : Pieces (text.splitOn ',') :=
  ⟨List.splitOn_ne_nil _ _, fun _ => notMem_of_mem_splitOn⟩

theorem Pieces.splitOn_intercalate {pieces : List (List Char)} (h : Pieces pieces) :
    ([','].intercalate pieces).splitOn ',' = pieces :=
  List.splitOn_intercalate ',' h.comma_notMem h.ne_nil

theorem operand_dropWhile (piece : List Char) :
    Operand.ofText (piece.dropWhile isBlank) = Operand.ofText piece := by
  rw [Operand.ofText, trim_dropWhile, Operand.ofText]

instance (text : List Char) : Decidable (AllBlank text) :=
  inferInstanceAs (Decidable (∀ c ∈ text, isBlank c))

theorem isEmpty_trim_iff {piece : List Char} : (trim piece).isEmpty ↔ AllBlank piece :=
  List.isEmpty_iff.trans trim_eq_nil_iff

/-- Behind the first blank of a trimmed text there are operands, which are read piece by piece. -/
theorem operandsOfText_trim {text word rest : List Char} {blank : Char} (h : trim text = text)
    (htext : text = word ++ blank :: rest) (hblank : isBlank blank) :
    Statement.operandsOfText (trim rest) =
      if ∃ piece ∈ rest.splitOn ',', AllBlank piece then .error .emptyOperand
      else .ok ((rest.splitOn ',').map Operand.ofText) := by
  have htail : blank :: rest <:+ text := ⟨word, htext.symm⟩
  have hne : trim rest ≠ [] := by
    rw [← trim_cons_of_isBlank hblank rest]
    exact trim_ne_nil_of_suffix h htail (List.cons_ne_nil _ _)
  have htrim : trim rest = rest.dropWhile isBlank :=
    trim_of_suffix h ((List.suffix_cons blank rest).trans htail)
  obtain ⟨first, others, hpieces⟩ := List.exists_cons_of_ne_nil (List.splitOn_ne_nil ',' rest)
  -- The blanks in front belong to the first piece, which is trimmed in any case.
  rw [Statement.operandsOfText, if_neg (by simpa using hne), htrim,
    splitOn_dropWhile (by decide), hpieces]
  simp only [List.modifyHead_cons, List.any_cons, List.map_cons, trim_dropWhile,
    operand_dropWhile, Bool.or_eq_true, List.any_eq_true, isEmpty_trim_iff,
    List.exists_mem_cons_iff]

/-! ## Instruction texts -/

/-- A text is a word, or it is cut at its first blank. -/
theorem isWord_or_exists_blank (text : List Char) :
    IsWord text ∨
      ∃ word blank rest, text = word ++ blank :: rest ∧ IsWord word ∧ isBlank blank := by
  rcases hcut : cut? isBlank text with _ | ⟨word, rest⟩
  · exact .inl fun c hc => by simpa using cut?_eq_none_iff.1 hcut c hc
  · obtain ⟨blank, htext, hblank, hword⟩ := cut?_eq_some_iff.1 hcut
    exact .inr ⟨word, blank, rest, htext, fun c hc => by simpa using hword c hc, hblank⟩

theorem ofText_word {word : List Char} (hword : IsWord word) :
    Statement.ofText word = match Opcode.ofMnemonic? (String.ofList word) with
      | none => .error (.unknownMnemonic (String.ofList word))
      | some opcode => .ok ⟨opcode, []⟩ := by
  have hcut : cut? isBlank word = none :=
    cut?_eq_none_iff.2 fun c hc => by simpa using hword c hc
  rw [Statement.ofText, hcut]
  rfl

theorem ofText_append {word rest : List Char} {blank : Char}
    (h : trim (word ++ blank :: rest) = word ++ blank :: rest) (hword : IsWord word)
    (hblank : isBlank blank) :
    Statement.ofText (word ++ blank :: rest) =
      match Opcode.ofMnemonic? (String.ofList word) with
      | none => .error (.unknownMnemonic (String.ofList word))
      | some opcode =>
        if ∃ piece ∈ rest.splitOn ',', AllBlank piece then .error .emptyOperand
        else .ok ⟨opcode, (rest.splitOn ',').map Operand.ofText⟩ := by
  have hcut : cut? isBlank (word ++ blank :: rest) = some (word, rest) :=
    cut?_eq_some_iff.2 ⟨blank, rfl, hblank, fun c hc => by simpa using hword c hc⟩
  rw [Statement.ofText, hcut]
  simp only [Option.getD_some, operandsOfText_trim h rfl hblank]
  rcases Opcode.ofMnemonic? (String.ofList word) with _ | opcode
  · rfl
  · dsimp only
    split <;> rfl

/-- A trimmed text is read as the statement that it denotes. -/
theorem ofText_eq_ok_iff {text : List Char} {statement : Statement} (h : trim text = text) :
    Statement.ofText text = .ok statement ↔ InstructionText text statement := by
  constructor
  · intro hread
    obtain hword | ⟨word, blank, rest, rfl, hword, hblank⟩ := isWord_or_exists_blank text
    · rw [ofText_word hword] at hread
      split at hread
      · cases hread
      · next opcode hopcode =>
        cases hread
        exact .bare hword (ofMnemonic?_eq_some_iff_spells.1 hopcode)
    · rw [ofText_append h hword hblank] at hread
      split at hread
      · cases hread
      next opcode hopcode =>
      split at hread
      · cases hread
      next hpieces =>
      cases hread
      have hrest : rest = [','].intercalate (rest.splitOn ',') :=
        (List.intercalate_splitOn ',').symm
      nth_rewrite 1 [hrest]
      refine .operands hword (ofMnemonic?_eq_some_iff_spells.1 hopcode) hblank (pieces_splitOn rest)
        fun piece hpiece hall => hpieces ⟨piece, hpiece, hall⟩
  · rintro (⟨hword, hspells⟩ | ⟨hword, hspells, hblank, hpieces, hnot⟩)
    · rw [ofText_word hword, ofMnemonic?_eq_some_iff_spells.2 hspells]
    · rw [ofText_append h hword hblank, ofMnemonic?_eq_some_iff_spells.2 hspells]
      simp only [hpieces.splitOn_intercalate]
      rw [if_neg fun ⟨piece, hpiece, hall⟩ => hnot piece hpiece hall]

/-- A trimmed text that is not empty is rejected for what is wrong with it. -/
theorem ofText_eq_error_iff {text : List Char} {cause : SyntaxCause} (h : trim text = text)
    (hne : text ≠ []) : Statement.ofText text = .error cause ↔ BadInstruction text cause := by
  constructor
  · intro hread
    obtain hword | ⟨word, blank, rest, rfl, hword, hblank⟩ := isWord_or_exists_blank text
    · rw [ofText_word hword] at hread
      split at hread
      · next hopcode =>
        cases hread
        have hbad := @BadInstruction.unknownMnemonic _ [] hword nofun (by simpa using hne)
          (ofMnemonic?_eq_none_iff.1 hopcode)
        rwa [List.append_nil] at hbad
      · cases hread
    · rw [ofText_append h hword hblank] at hread
      split at hread
      · next hopcode =>
        cases hread
        exact .unknownMnemonic hword (by simpa using hblank) hne
          (ofMnemonic?_eq_none_iff.1 hopcode)
      next opcode hopcode =>
      split at hread
      · next hpieces =>
        cases hread
        have hrest : rest = [','].intercalate (rest.splitOn ',') :=
          (List.intercalate_splitOn ',').symm
        rw [hrest]
        exact .emptyOperand hword (ofMnemonic?_eq_some_iff_spells.1 hopcode) hblank
          (pieces_splitOn rest) hpieces
      · cases hread
  · rintro (⟨hword, hrest, -, hspells⟩ | ⟨hword, hspells, hblank, hpieces, hall⟩)
    · next word rest =>
      have hopcode := ofMnemonic?_eq_none_iff.2 hspells
      obtain _ | ⟨blank, rest⟩ := rest
      · rw [List.append_nil, ofText_word hword, hopcode]
      · rw [ofText_append h hword (by simpa using hrest), hopcode]
    · rw [ofText_append h hword hblank, ofMnemonic?_eq_some_iff_spells.2 hspells]
      simp only [hpieces.splitOn_intercalate]
      rw [if_pos hall]

theorem Spells.ne_nil {word : List Char} {opcode : Opcode} (h : Spells word opcode) :
    word ≠ [] := by
  rintro rfl
  cases opcode <;> cases h

theorem InstructionText.ne_nil {text : List Char} {statement : Statement}
    (h : InstructionText text statement) : text ≠ [] := by
  cases h with
  | bare _ hspells => exact hspells.ne_nil
  | operands _ hspells => exact List.append_ne_nil_of_left_ne_nil hspells.ne_nil _

theorem BadInstruction.ne_nil {text : List Char} {cause : SyntaxCause}
    (h : BadInstruction text cause) : text ≠ [] := by
  cases h with
  | unknownMnemonic _ _ hne => exact hne
  | emptyOperand _ hspells => exact List.append_ne_nil_of_left_ne_nil hspells.ne_nil _

theorem ofText?_eq_ok_iff {text : List Char} {statement : Option Statement}
    (h : trim text = text) :
    Statement.ofText? text = .ok statement ↔
      (text = [] ∧ statement = none) ∨
        ∃ found, InstructionText text found ∧ statement = some found := by
  by_cases hnil : text = []
  · subst hnil
    have hnot (found : Statement) : ¬ InstructionText [] found := fun hfound => hfound.ne_nil rfl
    simp only [Statement.ofText?, List.isEmpty_nil, if_true, Except.ok.injEq, true_and, hnot,
      false_and, exists_false, or_false, eq_comm]
  · simp only [Statement.ofText?, List.isEmpty_iff, hnil, false_and, false_or,
      ← ofText_eq_ok_iff h]
    cases Statement.ofText text with
    | error cause => simp [Except.map]
    | ok found => simp [Except.map, eq_comm]

theorem ofText?_eq_error_iff {text : List Char} {cause : SyntaxCause} (h : trim text = text) :
    Statement.ofText? text = .error cause ↔ BadInstruction text cause := by
  by_cases hnil : text = []
  · subst hnil
    exact iff_of_false nofun fun hbad => hbad.ne_nil rfl
  · rw [Statement.ofText?, if_neg (by simpa using hnil), ← ofText_eq_error_iff h hnil]
    cases Statement.ofText text with
    | error found => simp [Except.map]
    | ok found => simp [Except.map]

/-! ## Bodies -/

/-- A body has no colon, or it is cut at its first one. -/
theorem colon_notMem_or_exists_colon (body : List Char) :
    ':' ∉ body ∨ ∃ name rest, body = name ++ ':' :: rest ∧ ':' ∉ name := by
  by_cases h : ':' ∈ body
  · obtain ⟨name, rest, rfl, hname⟩ := List.eq_append_cons_of_mem h
    exact .inr ⟨name, rest, rfl, hname⟩
  · exact .inl h

end Grammar

namespace Line

open Grammar

theorem ofBody_of_colon_notMem {body : List Char} (h : ':' ∉ body) :
    ofBody body = ⟨none, Statement.ofText? body⟩ := by
  have hcut : cut? (· == ':') body = none :=
    cut?_eq_none_iff.2 fun c hc => by simpa using ne_of_mem_of_not_mem hc h
  rw [ofBody, hcut]

theorem ofBody_append {name rest : List Char} (h : ':' ∉ name) :
    ofBody (name ++ ':' :: rest) =
      if isName name then ⟨some (String.ofList name), Statement.ofText? (trim rest)⟩
      else ⟨none, .error (.invalidLabel (String.ofList name))⟩ := by
  rw [ofBody, cut?_append h]

/-- A trimmed body is read as what it denotes. -/
theorem ofBody_eq_iff {body : List Char} {label : Option String} {statement : Option Statement}
    (h : trim body = body) : ofBody body = ⟨label, .ok statement⟩ ↔ Body body label statement := by
  constructor
  · intro hread
    obtain hcolon | ⟨name, rest, rfl, hname⟩ := colon_notMem_or_exists_colon body
    · rw [ofBody_of_colon_notMem hcolon, Line.mk.injEq] at hread
      obtain ⟨rfl, hread⟩ := hread
      obtain ⟨rfl, rfl⟩ | ⟨found, hfound, rfl⟩ := (ofText?_eq_ok_iff h).1 hread
      · exact .empty
      · exact .statement hcolon hfound
    · rw [ofBody_append hname] at hread
      split at hread
      · next hisName =>
        rw [Line.mk.injEq] at hread
        obtain ⟨rfl, hread⟩ := hread
        obtain ⟨hnil, rfl⟩ | ⟨found, hfound, rfl⟩ := (ofText?_eq_ok_iff (trim_trim rest)).1 hread
        · exact .label (isName_iff.1 hisName) (trim_eq_nil_iff.1 hnil)
        · exact .labelled (isName_iff.1 hisName) hfound
      · cases hread
  · rintro (_ | ⟨hcolon, hfound⟩ | ⟨hname, hrest⟩ | ⟨hname, hfound⟩)
    · rfl
    · rw [ofBody_of_colon_notMem hcolon, (ofText?_eq_ok_iff h).2 (.inr ⟨_, hfound, rfl⟩)]
    · rw [ofBody_append hname.colon_notMem, if_pos (isName_iff.2 hname), trim_eq_nil_iff.2 hrest]
      rfl
    · rw [ofBody_append hname.colon_notMem, if_pos (isName_iff.2 hname),
        (ofText?_eq_ok_iff (trim_trim _)).2 (.inr ⟨_, hfound, rfl⟩)]

/-- A trimmed body is rejected for the cause that the grammar tells. -/
theorem statement_ofBody_eq_error_iff {body : List Char} {cause : SyntaxCause}
    (h : trim body = body) : (ofBody body).statement = .error cause ↔ Rejected body cause := by
  constructor
  · intro hread
    obtain hcolon | ⟨name, rest, rfl, hname⟩ := colon_notMem_or_exists_colon body
    · rw [ofBody_of_colon_notMem hcolon] at hread
      exact .statement hcolon ((ofText?_eq_error_iff h).1 hread)
    · rw [ofBody_append hname] at hread
      split at hread
      · next hisName =>
        exact .labelled (isName_iff.1 hisName) ((ofText?_eq_error_iff (trim_trim rest)).1 hread)
      · next hisName =>
        cases hread
        exact .invalidLabel hname fun hfound => hisName (isName_iff.2 hfound)
  · rintro (⟨hcolon, hname⟩ | ⟨hcolon, hbad⟩ | ⟨hname, hbad⟩)
    · rw [ofBody_append hcolon, if_neg fun hisName => hname (isName_iff.1 hisName)]
    · rw [ofBody_of_colon_notMem hcolon, (ofText?_eq_error_iff h).2 hbad]
    · rw [ofBody_append hname.colon_notMem, if_pos (isName_iff.2 hname),
        (ofText?_eq_error_iff (trim_trim _)).2 hbad]

end Line

end RegisterMachine
