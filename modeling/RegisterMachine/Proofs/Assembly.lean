import RegisterMachine.Assembly
import RegisterMachine.Proofs.Grammar

/-!
# What source lines denote

The assembler reads lines one after the other and keeps the number of the line, the
instructions and the labels so far. What comes of it is a matter of the lines alone:
they have a first error (`SourceLines.error?`), or they denote instructions
(`SourceLines.instructions`) and labels (`SourceLines.labels`). Each of these goes
well with appending lines and with numbering them from elsewhere.

* `assemble_eq_ok_iff`, `assemble_eq_error_iff`: assembling a source text gives what
  its lines denote;
* `assemble_grammar`: it succeeds if all bodies of lines are well formed, and emits
  what they denote; otherwise it tells what is wrong with the first that is not.
-/

namespace RegisterMachine

namespace Line

/-- The statement of a line, if it has one that is in order. -/
def statement? (line : Line) : Option Statement :=
  match line.statement with
  | .ok statement => statement
  | .error _ => none

/-- What is wrong with a line, if anything is. -/
def cause? (line : Line) : Option SyntaxCause :=
  match line.statement with
  | .ok _ => none
  | .error cause => some cause

end Line

/-- The instruction of a statement on a line. -/
def Statement.onLine (statement : Statement) (line : Nat) : Instruction :=
  ⟨statement.opcode, statement.operands, line⟩

/-- The instruction as one on a line that comes later by a number of lines. -/
def Instruction.moved (instruction : Instruction) (shift : Nat) : Instruction :=
  { instruction with line := instruction.line + shift }

/-- The error as one on a line that comes later by a number of lines. -/
def SyntaxError.moved (error : SyntaxError) (shift : Nat) : SyntaxError :=
  { error with line := error.line + shift }

/-- The table with entries added one after the other. -/
def LabelTable.insertAll (table : LabelTable) (entries : List (String × Nat)) : LabelTable :=
  entries.foldl (fun table entry => table.insert entry.1 entry.2) table

theorem LabelTable.insertAll_append (table : LabelTable) (entries others : List (String × Nat)) :
    table.insertAll (entries ++ others) = (table.insertAll entries).insertAll others :=
  List.foldl_append

namespace SourceLines

/-- The instruction on a line of a number. -/
def instruction? (text : List Char) (number : Nat) : Option Instruction :=
  (Line.ofText text).statement?.map (·.onLine number)

/-- The error on a line of a number. -/
def lineError? (text : List Char) (number : Nat) : Option SyntaxError :=
  (Line.ofText text).cause?.map (⟨·, number⟩)

/-- The instructions on lines that are numbered from `first` on. -/
def instructions (first : Nat) (texts : List (List Char)) : List Instruction :=
  (texts.zipIdx first).filterMap fun line => instruction? line.1 line.2

/-- The first error on lines that are numbered from `first` on. -/
def error? (first : Nat) (texts : List (List Char)) : Option SyntaxError :=
  (texts.zipIdx first).findSome? fun line => lineError? line.1 line.2

/-- The number of instructions on lines. -/
def size (texts : List (List Char)) : Nat := (instructions 0 texts).length

/-- The labels of lines in their order, with the number of the instructions in front of
    each. There are `count` instructions in front of the lines. -/
def labels (count : Nat) : List (List Char) → List (String × Nat)
  | [] => []
  | text :: rest =>
    ((Line.ofText text).label.map (·, count)).toList ++ labels (count + size [text]) rest

variable {first count : Nat} {text : List Char} {texts others : List (List Char)}

@[simp] theorem instructions_nil : instructions first [] = [] := rfl

theorem instructions_cons :
    instructions first (text :: texts) =
      (instruction? text first).toList ++ instructions (first + 1) texts := by
  rw [instructions, List.zipIdx_cons, List.filterMap_cons]
  cases instruction? text first <;> rfl

theorem instructions_append :
    instructions first (texts ++ others) =
      instructions first texts ++ instructions (first + texts.length) others := by
  rw [instructions, List.zipIdx_append, List.filterMap_append, instructions, instructions]

/-- The numbers of the lines only go into the instructions. -/
theorem instructions_add (shift : Nat) :
    instructions (shift + first) texts = (instructions first texts).map (·.moved shift) := by
  rw [instructions, ← List.map_snd_add_zipIdx_eq_zipIdx, List.filterMap_map, instructions,
    List.map_filterMap]
  congr 1
  funext line
  simp [instruction?, Statement.onLine, Instruction.moved, Function.comp_def]

@[simp] theorem error?_nil : error? first [] = none := rfl

theorem error?_cons :
    error? first (text :: texts) = (lineError? text first).or (error? (first + 1) texts) := by
  rw [error?, List.zipIdx_cons, List.findSome?_cons]
  cases lineError? text first <;> rfl

theorem error?_append :
    error? first (texts ++ others) =
      (error? first texts).or (error? (first + texts.length) others) := by
  rw [error?, List.zipIdx_append, List.findSome?_append, error?, error?]

theorem error?_add (shift : Nat) :
    error? (shift + first) texts = (error? first texts).map (·.moved shift) := by
  rw [error?, ← List.map_snd_add_zipIdx_eq_zipIdx, List.findSome?_map, error?,
    List.map_findSome?]
  congr 1
  funext line
  simp [lineError?, SyntaxError.moved, Function.comp_def]

theorem length_instructions : (instructions first texts).length = size texts := by
  rw [← Nat.add_zero first, instructions_add, List.length_map, size]

theorem length_toList_instruction? (number : Nat) :
    (instruction? text number).toList.length = size [text] := by
  have hlength : (instructions number [text]).length = size [text] := length_instructions
  rwa [instructions_cons, instructions_nil, List.append_nil] at hlength

theorem size_singleton (text : List Char) :
    size [text] = (Line.ofText text).statement?.toList.length := by
  rw [← length_toList_instruction? 0, instruction?]
  cases (Line.ofText text).statement? <;> rfl

theorem size_append : size (texts ++ others) = size texts + size others := by
  rw [size, instructions_append, List.length_append, length_instructions, length_instructions]

theorem size_cons : size (text :: texts) = size [text] + size texts :=
  @size_append [text] texts

theorem labels_append :
    labels count (texts ++ others) =
      labels count texts ++ labels (count + size texts) others := by
  induction texts generalizing count with
  | nil => rfl
  | cons text texts ih =>
    rw [List.cons_append, labels, ih, labels, List.append_assoc, @size_cons _ texts,
      Nat.add_assoc]

/-- The number of the instructions in front only goes into the indices. -/
theorem labels_add (shift : Nat) :
    labels (count + shift) texts =
      (labels count texts).map fun entry => (entry.1, entry.2 + shift) := by
  induction texts generalizing count with
  | nil => rfl
  | cons text texts ih =>
    rw [labels, Nat.add_right_comm, ih, labels, List.map_append]
    cases (Line.ofText text).label <;> rfl

end SourceLines

/-! ## Reading lines -/

namespace Assembly

open SourceLines

variable {assembly : Assembly} {name : String} {text : List Char} {texts : List (List Char)}

theorem exists_define_eq (assembly : Assembly) (name : String) :
    ∃ log, assembly.define name =
      { assembly with
        labels := assembly.labels.insert name assembly.instructions.size
        log := log } := by
  unfold define
  split <;> exact ⟨_, rfl⟩

theorem exists_readLabel_eq (assembly : Assembly) (label : Option String) :
    ∃ log, assembly.readLabel label =
      { assembly with
        labels := assembly.labels.insertAll (label.map (·, assembly.instructions.size)).toList
        log := log } := by
  rcases label with _ | name
  · exact ⟨_, rfl⟩
  · exact exists_define_eq assembly name

theorem exists_readStatement_eq (assembly : Assembly) (line : Line) :
    ∃ log, assembly.readStatement line.statement =
      { assembly with
        instructions :=
          assembly.instructions ++ (line.statement?.map (·.onLine assembly.lines)).toList.toArray
        log := log
        error? := (line.cause?.map (⟨·, assembly.lines⟩)).or assembly.error? } := by
  obtain ⟨label, cause | (_ | statement)⟩ := line <;> exact ⟨_, rfl⟩

/-- A line that is read adds what it denotes to what has come of the lines before. -/
theorem exists_readLine_eq (assembly : Assembly) (text : List Char) :
    ∃ log, assembly.readLine text =
      { lines := assembly.lines + 1
        instructions :=
          assembly.instructions ++ (instruction? text (assembly.lines + 1)).toList.toArray
        labels := assembly.labels.insertAll
          ((Line.ofText text).label.map (·, assembly.instructions.size)).toList
        log := log
        error? := (lineError? text (assembly.lines + 1)).or assembly.error? } := by
  obtain ⟨log, hlabel⟩ := exists_readLabel_eq { assembly with lines := assembly.lines + 1 }
    (Line.ofText text).label
  obtain ⟨log', hstatement⟩ := exists_readStatement_eq _ (Line.ofText text)
  exact ⟨log', by rw [readLine, hlabel, hstatement]; rfl⟩

/-- Reading stops at the first error of the lines. -/
theorem error?_readLines (h : assembly.error? = none) :
    (assembly.readLines texts).error? = SourceLines.error? (assembly.lines + 1) texts := by
  induction texts generalizing assembly with
  | nil => exact h
  | cons text rest ih =>
    obtain ⟨log, hline⟩ := exists_readLine_eq assembly text
    rw [readLines, hline, h, Option.or_none, error?_cons]
    cases hfirst : lineError? text (assembly.lines + 1) with
    | some error => rfl
    | none => exact ih rfl

/-- Lines without an error add what they denote to what has come of the lines before. -/
theorem exists_readLines_eq (h : assembly.error? = none)
    (htexts : SourceLines.error? (assembly.lines + 1) texts = none) :
    ∃ log, assembly.readLines texts =
      { lines := assembly.lines + texts.length
        instructions := assembly.instructions ++
          (SourceLines.instructions (assembly.lines + 1) texts).toArray
        labels := assembly.labels.insertAll
          (SourceLines.labels assembly.instructions.size texts)
        log := log
        error? := none } := by
  induction texts generalizing assembly with
  | nil =>
    obtain ⟨lines, instructions, labels, log, error⟩ := assembly
    cases h
    exact ⟨log, by simp [readLines, SourceLines.labels, LabelTable.insertAll]⟩
  | cons text rest ih =>
    rw [error?_cons, Option.or_eq_none_iff] at htexts
    obtain ⟨log, hline⟩ := exists_readLine_eq assembly text
    rw [h, htexts.1] at hline
    obtain ⟨log', hrest⟩ := @ih (assembly.readLine text) (by rw [hline]; rfl)
      (by rw [hline]; exact htexts.2)
    have hsize : (assembly.readLine text).instructions.size =
        assembly.instructions.size + size [text] := by
      rw [hline, ← length_toList_instruction? (assembly.lines + 1)]
      exact Array.size_append
    refine ⟨log', ?_⟩
    rw [readLines, if_neg (by simp [hline]), hrest, hsize, hline]
    congr 1
    · exact Nat.add_right_comm _ _ _
    · rw [instructions_cons, ← List.append_toArray, ← Array.append_assoc]
    · exact (LabelTable.insertAll_append _ _ _).symm

end Assembly

/-! ## Assembling -/

/-- The program that lines without an error denote. -/
def SourceLines.program (texts : List (List Char)) : Program where
  instructions := (instructions 1 texts).toArray
  labels := (∅ : LabelTable).insertAll (labels 0 texts)

theorem assemble_eq (source : String) :
    assemble source = match SourceLines.error? 1 (Split.lines source.toList) with
      | some error => .error error
      | none => .ok (SourceLines.program (Split.lines source.toList)) := by
  have herror : (Assembly.ofSource source).error? = _ :=
    @Assembly.error?_readLines {} _ rfl
  rw [assemble, Assembly.result, herror]
  cases hlines : SourceLines.error? 1 (Split.lines source.toList) with
  | some error => rfl
  | none =>
    obtain ⟨log, hread⟩ := @Assembly.exists_readLines_eq {} _ rfl hlines
    rw [Assembly.ofSource, hread]
    simp [SourceLines.program]

/-- A source text assembles if its lines have no error, to the program that they denote. -/
theorem assemble_eq_ok_iff {source : String} {program : Program} :
    assemble source = .ok program ↔
      SourceLines.error? 1 (Split.lines source.toList) = none ∧
        SourceLines.program (Split.lines source.toList) = program := by
  rw [assemble_eq]
  cases SourceLines.error? 1 (Split.lines source.toList) <;> simp

/-- A source text does not assemble if its lines have an error. -/
theorem assemble_eq_error_iff {source : String} {error : SyntaxError} :
    assemble source = .error error ↔
      SourceLines.error? 1 (Split.lines source.toList) = some error := by
  rw [assemble_eq]
  cases SourceLines.error? 1 (Split.lines source.toList) <;> simp

/-! ## The grammar of source texts -/

namespace Line

open Grammar

variable {text : List Char} {cause : SyntaxCause}

theorem trim_body (text : List Char) : Blank.trim (body text) = body text := Blank.trim_trim _

theorem cause?_eq_some_iff : (ofText text).cause? = some cause ↔ Rejected (body text) cause := by
  rw [← statement_ofBody_eq_error_iff (trim_body text), cause?, ofText]
  cases (ofBody (body text)).statement <;> simp

/-- A line without an error denotes what its body does. -/
theorem body_of_cause?_eq_none (h : (ofText text).cause? = none) :
    Body (body text) (ofText text).label (ofText text).statement? := by
  refine (ofBody_eq_iff (trim_body text)).1 ?_
  rw [cause?] at h
  rw [statement?]
  split at h
  · next statement hstatement =>
    rw [← hstatement]
    rfl
  · cases h

theorem ofText_of_body {label : Option String} {statement : Option Statement}
    (h : Body (body text) label statement) : ofText text = ⟨label, .ok statement⟩ :=
  (ofBody_eq_iff (trim_body text)).2 h

theorem wellFormed_body_iff : WellFormed (body text) ↔ (ofText text).cause? = none := by
  constructor
  · rintro ⟨label, statement, hbody⟩
    rw [ofText_of_body hbody]
    rfl
  · exact fun h => ⟨_, _, body_of_cause?_eq_none h⟩

theorem not_wellFormed_of_rejected (h : Rejected (body text) cause) : ¬ WellFormed (body text) := by
  rw [wellFormed_body_iff, cause?_eq_some_iff.2 h]
  exact Option.some_ne_none cause

end Line

namespace SourceLines

open Grammar

variable {first : Nat} {texts : List (List Char)}

theorem lineError?_eq_none_iff {text : List Char} {number : Nat} :
    lineError? text number = none ↔ WellFormed (Line.body text) := by
  rw [lineError?, Option.map_eq_none_iff, Line.wellFormed_body_iff]

theorem error?_eq_none_iff :
    error? first texts = none ↔ ∀ text ∈ texts, WellFormed (Line.body text) := by
  induction texts generalizing first with
  | nil => simp
  | cons text rest ih =>
    rw [error?_cons, Option.or_eq_none_iff, lineError?_eq_none_iff, ih, List.forall_mem_cons]

/-- The first error is that of the first line with a body that is not well formed. -/
theorem exists_of_error?_eq_some {error : SyntaxError} (h : error? first texts = some error) :
    ∃ before text after, texts = before ++ text :: after ∧
      (∀ earlier ∈ before, WellFormed (Line.body earlier)) ∧
      Rejected (Line.body text) error.cause ∧ error.line = first + before.length := by
  induction texts generalizing first with
  | nil => cases h
  | cons text rest ih =>
    rw [error?_cons, Option.or_eq_some_iff] at h
    obtain hfirst | ⟨hnone, hrest⟩ := h
    · obtain ⟨cause, hcause, rfl⟩ := Option.map_eq_some_iff.1 hfirst
      exact ⟨[], text, rest, rfl, nofun, Line.cause?_eq_some_iff.1 hcause, rfl⟩
    · obtain ⟨before, bad, after, rfl, hbefore, hrejected, hline⟩ := ih hrest
      refine ⟨text :: before, bad, after, rfl, ?_, hrejected, ?_⟩
      · exact List.forall_mem_cons.2 ⟨lineError?_eq_none_iff.1 hnone, hbefore⟩
      · rw [hline, List.length_cons]
        omega

end SourceLines

namespace Grammar

/-- What lines that are numbered from a number on emit: an instruction for each line that
    has a statement, in the order of the lines. -/
inductive Emits : Nat → List (List Char) → List Instruction → Prop
  | nil {number : Nat} : Emits number [] []
  | silent {number : Nat} {text : List Char} {rest : List (List Char)} {label : Option String}
      {instructions : List Instruction} :
      Body (Line.body text) label none → Emits (number + 1) rest instructions →
      Emits number (text :: rest) instructions
  | instruction {number : Nat} {text : List Char} {rest : List (List Char)}
      {label : Option String} {statement : Statement} {instructions : List Instruction} :
      Body (Line.body text) label (some statement) → Emits (number + 1) rest instructions →
      Emits number (text :: rest)
        (⟨statement.opcode, statement.operands, number⟩ :: instructions)

theorem emits_instructions {first : Nat} {texts : List (List Char)}
    (h : ∀ text ∈ texts, WellFormed (Line.body text)) :
    Emits first texts (SourceLines.instructions first texts) := by
  induction texts generalizing first with
  | nil => exact .nil
  | cons text rest ih =>
    obtain ⟨htext, hrest⟩ := List.forall_mem_cons.1 h
    have hbody := Line.body_of_cause?_eq_none (Line.wellFormed_body_iff.1 htext)
    rw [SourceLines.instructions_cons, SourceLines.instruction?]
    rcases hstatement : (Line.ofText text).statement? with _ | statement
    · exact .silent (hstatement ▸ hbody) (ih hrest)
    · exact .instruction (hstatement ▸ hbody) (ih hrest)

theorem Emits.instructions_eq {first : Nat} {texts : List (List Char)}
    {emitted : List Instruction} (h : Emits first texts emitted) :
    SourceLines.instructions first texts = emitted := by
  induction h with
  | nil => rfl
  | silent hbody _ ih | instruction hbody _ ih =>
    rw [SourceLines.instructions_cons, SourceLines.instruction?, Line.ofText_of_body hbody, ih]
    rfl

theorem Rejected.cause_eq {body : List Char} {cause other : SyntaxCause}
    (htrim : Blank.trim body = body) (h : Rejected body cause) (hother : Rejected body other) :
    cause = other := by
  rw [← Line.statement_ofBody_eq_error_iff htrim] at h hother
  exact Except.error.inj (h.symm.trans hother)

theorem BadInstruction.cause_ne_invalidLabel {text : List Char} {cause : SyntaxCause}
    (h : BadInstruction text cause) (name : String) : cause ≠ .invalidLabel name := by
  cases h <;> nofun

theorem Rejected.invalidLabel_iff {body : List Char} {cause : SyntaxCause}
    (htrim : Blank.trim body = body) (h : Rejected body cause) :
    (∃ name, cause = .invalidLabel name) ↔
      ∃ name rest, body = name ++ ':' :: rest ∧ ':' ∉ name ∧ ¬ Name name := by
  constructor
  · rintro ⟨found, rfl⟩
    cases h with
    | invalidLabel hcolon hname => exact ⟨_, _, rfl, hcolon, hname⟩
    | statement _ hbad | labelled _ hbad => exact absurd rfl (hbad.cause_ne_invalidLabel found)
  · rintro ⟨name, rest, rfl, hcolon, hname⟩
    exact ⟨_, h.cause_eq htrim (.invalidLabel hcolon hname)⟩

end Grammar

open Grammar in
/-- A source text assembles if and only if the body of each of its lines is well formed.
    The program then has just the instructions that the lines emit. Otherwise the error is on
    the first line with a body that is not well formed, and tells the one thing that is
    wrong with it: that of a label, if the text in front of its first colon is no name. -/
theorem assemble_grammar (source : String) :
    ((∃ program, assemble source = .ok program) ↔
      ∀ text ∈ Split.lines source.toList, WellFormed (Line.body text)) ∧
    (∀ program, assemble source = .ok program → ∀ emitted,
      Emits 1 (Split.lines source.toList) emitted ↔ program.instructions.toList = emitted) ∧
    ∀ error, assemble source = .error error →
      ∃ before text after, Split.lines source.toList = before ++ text :: after ∧
        (∀ earlier ∈ before, WellFormed (Line.body earlier)) ∧
        ¬ WellFormed (Line.body text) ∧
        error.line = before.length + 1 ∧
        (∀ cause, Rejected (Line.body text) cause ↔ error.cause = cause) ∧
        ((∃ name, error.cause = .invalidLabel name) ↔
          ∃ name rest, Line.body text = name ++ ':' :: rest ∧ ':' ∉ name ∧ ¬ Name name) := by
  refine ⟨?_, fun program hprogram => ?_, fun error herror => ?_⟩
  · simp only [assemble_eq_ok_iff, exists_and_left, exists_eq', and_true,
      SourceLines.error?_eq_none_iff]
  · obtain ⟨hnone, rfl⟩ := assemble_eq_ok_iff.1 hprogram
    have hemits := @emits_instructions 1 _ (SourceLines.error?_eq_none_iff.1 hnone)
    exact fun emitted => ⟨Emits.instructions_eq, fun h => h ▸ hemits⟩
  · obtain ⟨before, text, after, hlines, hbefore, hrejected, hline⟩ :=
      SourceLines.exists_of_error?_eq_some (assemble_eq_error_iff.1 herror)
    have htrim := Line.trim_body text
    refine ⟨before, text, after, hlines, hbefore, Line.not_wellFormed_of_rejected hrejected,
      by omega, fun cause => ⟨hrejected.cause_eq htrim, fun h => h ▸ hrejected⟩,
      hrejected.invalidLabel_iff htrim⟩

open Grammar in
/-- A colon is no matter in a comment, or in an operand behind a label, but a blank in front of
    that of a label is one. -/
theorem assemble_grammar_colons :
    (∃ program, assemble "A: mov R0, x:y ; B: HLT\n\t; C :\r\nHLT" = .ok program ∧
      program.instructions.toList =
        [⟨.mov, [⟨"R0", .register ⟨0⟩⟩, ⟨"x:y", .symbol⟩], 1⟩, ⟨.hlt, [], 3⟩]) ∧
    ∃ text ∈ Split.lines "A: MOV R0, x:y\r\nB : HLT".toList, ∃ name rest,
      Line.body text = name ++ ':' :: rest ∧ ':' ∉ name ∧ ¬ Name name := by
  constructor
  · obtain ⟨hok, hinstructions, -⟩ := assemble_grammar "A: mov R0, x:y ; B: HLT\n\t; C :\r\nHLT"
    have hcause : ∀ text ∈ Split.lines "A: mov R0, x:y ; B: HLT\n\t; C :\r\nHLT".toList,
        (Line.ofText text).cause? = none := by decide +kernel
    obtain ⟨program, hprogram⟩ :=
      hok.2 fun text htext => Line.wellFormed_body_iff.2 (hcause text htext)
    refine ⟨program, hprogram, (hinstructions program hprogram _).1 ?_⟩
    have hlines : Split.lines "A: mov R0, x:y ; B: HLT\n\t; C :\r\nHLT".toList =
        ["A: mov R0, x:y ; B: HLT".toList, "\t; C :\r".toList, "HLT".toList] := by decide +kernel
    have hmov : (Line.ofText "A: mov R0, x:y ; B: HLT".toList).statement? =
        some ⟨.mov, [⟨"R0", .register ⟨0⟩⟩, ⟨"x:y", .symbol⟩]⟩ := by decide +kernel
    have hcomment : Body (Line.body "\t; C :\r".toList) none none := .empty
    have hhlt : (Line.ofText "HLT".toList).statement? = some ⟨.hlt, []⟩ := by decide +kernel
    rw [hlines] at hcause ⊢
    simp only [List.forall_mem_cons] at hcause
    obtain ⟨hfirst, -, hlast, -⟩ := hcause
    exact .instruction (hmov ▸ Line.body_of_cause?_eq_none hfirst)
      (.silent hcomment (.instruction (hhlt ▸ Line.body_of_cause?_eq_none hlast) .nil))
  · obtain ⟨-, -, herror⟩ := assemble_grammar "A: MOV R0, x:y\r\nB : HLT"
    obtain ⟨before, text, after, hlines, -, -, -, -, hlabel⟩ :=
      herror ⟨.invalidLabel "B ", 2⟩ (by decide +kernel)
    refine ⟨text, ?_, hlabel.1 ⟨"B ", rfl⟩⟩
    rw [hlines]
    exact List.mem_append_right before List.mem_cons_self

end RegisterMachine
