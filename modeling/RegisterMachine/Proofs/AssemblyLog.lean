import RegisterMachine.Proofs.Labels
import RegisterMachine.Proofs.Printing

/-!
# What is logged in assembling

Each line up to the first that is not well formed leaves its messages in the log
(`Grammar.Logs`): a warning, if its label was found before, that tells the index the name
had; its label; and its instruction, or what is wrong with it. A line that is rejected for
its statement may have left its label, and one that is rejected for its label leaves
nothing but the error.

The messages read back. So the labels of a program are those of the log, entered one after
the other, and its instructions are those of the log in their order
(`Assembly.log_ofSource`).

* `Entry.label?`, `Entry.instruction?`: what a message tells of a label or an instruction;
* `Assembly.log_readLines`: reading lines adds their messages to the log;
* `Grammar.Logs.exists_front`: of these an error is the last, and there is none if the
  lines have none;
* `Grammar.Logs.filterMap_label?`, `Grammar.Logs.filterMap_instruction?`: they tell the
  labels and the instructions of the lines.
-/

namespace RegisterMachine

open Split Grammar

theorem Numeral.toList_toString (n : Nat) : (toString n).toList = Nat.toDigits 10 n :=
  String.toList_ofList

/-! ## Messages -/

namespace Entry

/-- A message about a line. -/
def about (line : Nat) (level : Level) (text : String) : Entry := ⟨level, s!"[{line}] {text}"⟩

/-- The message on a label. -/
def label (line : Nat) (name : String) (index : Nat) : Entry :=
  about line .debug s!"Found label `{name}` -> {index}"

/-- The message on a name that is not new. -/
def redefinition (line : Nat) (name : String) (previous index : Nat) : Entry :=
  about line .warn s!"Label `{name}` redefined (was {previous}, now {index})"

/-- The message on an instruction. -/
def instruction (line : Nat) (statement : Statement) : Entry :=
  about line .debug s!"Found instruction {(statement.onLine line).text}"

/-- The message on an error. -/
def ofError (error : SyntaxError) : Entry := ⟨.error, error.message⟩

/-! ### Reading messages -/

/-- The line of a message that matters only for debugging, and what is told of it. -/
def finding? (entry : Entry) : Option (Nat × List Char) :=
  match entry.level with
  | .debug => do
    let text ← entry.text.toList.dropPrefix? ['[']
    let (digits, rest) ← cut? (· == ']') text
    let line ← Numeral.digits? digits
    let finding ← rest.dropPrefix? [' ']
    return (line, finding)
  | _ => none

/-- The label that a message tells, with its index. -/
def label? (entry : Entry) : Option (String × Nat) := do
  let (_, finding) ← entry.finding?
  let text ← finding.dropPrefix? "Found label `".toList
  let digits ← (text.dropWhile Line.isNameRest).dropPrefix? "` -> ".toList
  let index ← Numeral.digits? digits
  return (String.ofList (text.takeWhile Line.isNameRest), index)

/-- The instruction that a message tells. -/
def instruction? (entry : Entry) : Option Instruction := do
  let (line, finding) ← entry.finding?
  let text ← finding.dropPrefix? "Found instruction ".toList
  let statement ← (Statement.ofText text).toOption
  return statement.onLine line

theorem finding?_of_ne_debug {entry : Entry} (h : entry.level ≠ .debug) :
    entry.finding? = none := by
  rw [finding?]
  split
  · contradiction
  · rfl

theorem label?_of_ne_debug {entry : Entry} (h : entry.level ≠ .debug) : entry.label? = none := by
  rw [label?, finding?_of_ne_debug h]
  rfl

theorem instruction?_of_ne_debug {entry : Entry} (h : entry.level ≠ .debug) :
    entry.instruction? = none := by
  rw [instruction?, finding?_of_ne_debug h]
  rfl

theorem finding?_about (line : Nat) (text : String) :
    (about line .debug text).finding? = some (line, text.toList) := by
  have htext : (about line .debug text).text.toList =
      '[' :: (Nat.toDigits 10 line ++ ']' :: ' ' :: text.toList) := by
    simp only [about, String.toList_append, Numeral.toList_toString, List.append_assoc]
    rfl
  have hbracket : ']' ∉ Nat.toDigits 10 line := fun h =>
    absurd (Nat.isDigit_of_mem_toDigits (by decide) (by decide) h) (by decide)
  rw [finding?, htext]
  simp [List.dropPrefix?, cut?_append hbracket, Numeral.digits?_toDigits, about]

theorem finding?_label (line : Nat) (name : String) (index : Nat) :
    (label line name index).finding? = some (line, "Found label `".toList ++
      (name.toList ++ ("` -> ".toList ++ Nat.toDigits 10 index))) := by
  rw [label, finding?_about]
  change some (line, ("Found label `" ++ name ++ "` -> " ++ toString index).toList) = _
  simp only [String.toList_append, Numeral.toList_toString, List.append_assoc]

theorem finding?_instruction (line : Nat) (statement : Statement) :
    (instruction line statement).finding? = some (line, "Found instruction ".toList ++
      (statement.onLine line).text.toList) := by
  rw [instruction, finding?_about]
  change some (line, ("Found instruction " ++ (statement.onLine line).text).toList) = _
  rw [String.toList_append]

/-- The message on a label reads back, as the name ends where its characters do. -/
theorem label?_label {name : String} (h : Name name.toList) (line index : Nat) :
    (label line name index).label? = some (name, index) := by
  have hname : ∀ c ∈ name.toList, Line.isNameRest c := fun c => h.isNameRest_of_mem
  have hfront : (name.toList ++ ("` -> ".toList ++ Nat.toDigits 10 index)).takeWhile
      Line.isNameRest = name.toList := by
    rw [List.takeWhile_append_of_pos hname]
    exact List.append_nil name.toList
  have hback : (name.toList ++ ("` -> ".toList ++ Nat.toDigits 10 index)).dropWhile
      Line.isNameRest = "` -> ".toList ++ Nat.toDigits 10 index := by
    rw [List.dropWhile_append_of_pos hname]
    rfl
  rw [label?, finding?_label]
  simp only [Option.bind_eq_bind, Option.bind_some, Option.pure_def, hfront, hback,
    List.dropPrefix?_append_of_beq _ (beq_self_eq_true _), Numeral.digits?_toDigits,
    String.ofList_toList]

theorem instruction?_label (line : Nat) (name : String) (index : Nat) :
    (label line name index).instruction? = none := by
  rw [instruction?, finding?_label]
  rfl

/-- The message on an instruction reads back, as its text does. -/
theorem instruction?_instruction {line : Nat} {statement : Statement}
    (h : (statement.onLine line).Printable) :
    (instruction line statement).instruction? = some (statement.onLine line) := by
  have hread : Statement.ofText (statement.onLine line).text.toList = .ok statement :=
    (ofText_eq_ok_iff h.trim_text).2 h.instructionText
  rw [instruction?, finding?_instruction]
  simp only [Option.bind_eq_bind, Option.bind_some, Option.pure_def, hread, Except.toOption,
    List.dropPrefix?_append_of_beq _ (beq_self_eq_true _)]

theorem label?_instruction (line : Nat) (statement : Statement) :
    (instruction line statement).label? = none := by
  rw [label?, finding?_instruction]
  rfl

end Entry

/-! ## The messages on lines -/

namespace Grammar

/-- What leads a body: a label, or nothing if the text in front of its first colon is no name. -/
inductive Leads : List Char → Option String → Prop
  | label {name rest : List Char} : Name name →
      Leads (name ++ ':' :: rest) (some (String.ofList name))
  | unlabelled {body : List Char} : (∀ name rest, body = name ++ ':' :: rest → ¬ Name name) →
      Leads body none

/-- What the label of a line logs, if it has one. There is a number of instructions in front,
    and there are the labels recorded so far. -/
inductive LogsLabel (number index : Nat) (recorded : List (String × Nat)) :
    Option String → List Entry → Prop
  | unlabelled : LogsLabel number index recorded none []
  | first {name : String} : (∀ entry ∈ recorded, entry.1.toUpper ≠ name.toUpper) →
      LogsLabel number index recorded (some name) [.label number name index]
  | again {name other : String} {previous : Nat} {before after : List (String × Nat)} :
      recorded = before ++ (other, previous) :: after → other.toUpper = name.toUpper →
      (∀ entry ∈ after, entry.1.toUpper ≠ name.toUpper) →
      LogsLabel number index recorded (some name)
        [.redefinition number name previous index, .label number name index]

/-- What lines log that are numbered from a number on, with the instructions and the labels in
    front of them. The first line with an error is the last that logs anything. -/
inductive Logs : Nat → Nat → List (String × Nat) → List (List Char) → List Entry → Prop
  | nil {number index : Nat} {recorded : List (String × Nat)} : Logs number index recorded [] []
  | rejected {number index : Nat} {recorded : List (String × Nat)} {text : List Char}
      {rest : List (List Char)} {label : Option String} {cause : SyntaxCause}
      {entries : List Entry} :
      Leads (Line.body text) label → Rejected (Line.body text) cause →
      LogsLabel number index recorded label entries →
      Logs number index recorded (text :: rest) (entries ++ [.ofError ⟨cause, number⟩])
  | line {number index : Nat} {recorded : List (String × Nat)} {text : List Char}
      {rest : List (List Char)} {label : Option String} {statement : Option Statement}
      {entries others : List Entry} :
      Body (Line.body text) label statement →
      LogsLabel number index recorded label entries →
      Logs (number + 1) (index + statement.toList.length)
        (recorded ++ (label.map (·, index)).toList) rest others →
      Logs number index recorded (text :: rest)
        (entries ++ (statement.map (Entry.instruction number)).toList ++ others)

variable {number index : Nat} {recorded : List (String × Nat)} {text : List Char}
  {texts : List (List Char)} {label : Option String} {statement : Option Statement}
  {entries : List Entry}

theorem leads_iff : Leads (Line.body text) label ↔ (Line.ofText text).label = label := by
  constructor
  · intro h
    generalize hbody : Line.body text = body at h
    cases h with
    | label hname => exact label_eq_some_iff.2 ⟨_, _, hbody, hname, rfl⟩
    | unlabelled hnone =>
      refine Option.eq_none_iff_forall_ne_some.2 fun found hfound => ?_
      obtain ⟨name, rest, hcut, hname, -⟩ := label_eq_some_iff.1 hfound
      exact hnone name rest (hbody.symm.trans hcut) hname
  · rintro rfl
    rcases hlabel : (Line.ofText text).label with _ | found
    · refine .unlabelled fun name rest hbody hname => ?_
      cases hlabel.symm.trans (label_eq_some_iff.2 ⟨name, rest, hbody, hname, rfl⟩)
    · obtain ⟨name, rest, hbody, hname, rfl⟩ := label_eq_some_iff.1 hlabel
      rw [hbody]
      exact .label hname

theorem exists_logsLabel (number index : Nat) (recorded : List (String × Nat))
    (label : Option String) : ∃ entries, LogsLabel number index recorded label entries := by
  rcases label with _ | name
  · exact ⟨_, .unlabelled⟩
  rcases hlast : LabelTable.last? name recorded with _ | previous
  · exact ⟨_, .first (LabelTable.last?_eq_none_iff.1 hlast)⟩
  · obtain ⟨before, other, after, hrecorded, hupper, hafter⟩ := LabelTable.last?_eq_some_iff.1 hlast
    exact ⟨_, .again hrecorded hupper hafter⟩

/-- Whatever the lines, there is something that they log. -/
theorem exists_logs (number index : Nat) (recorded : List (String × Nat))
    (texts : List (List Char)) : ∃ entries, Logs number index recorded texts entries := by
  induction texts generalizing number index recorded with
  | nil => exact ⟨[], .nil⟩
  | cons text rest ih =>
    obtain ⟨entries, hentries⟩ := exists_logsLabel number index recorded (Line.ofText text).label
    rcases hcause : (Line.ofText text).cause? with _ | cause
    · obtain ⟨others, hothers⟩ := ih (number + 1) _ _
      exact ⟨_, .line (Line.body_of_cause?_eq_none hcause) hentries hothers⟩
    · exact ⟨_, .rejected (leads_iff.2 rfl) (Line.cause?_eq_some_iff.1 hcause) hentries⟩

end Grammar

/-! ## The log -/

namespace Assembly

open SourceLines

/-- What has come of the lines in front of the one of a number: a number of instructions, the
    labels recorded, and no error. -/
structure At (assembly : Assembly) (number index : Nat) (recorded : List (String × Nat)) :
    Prop where
  lines_eq : assembly.lines + 1 = number
  size_eq : assembly.instructions.size = index
  labels_eq : assembly.labels = (∅ : LabelTable).insertAll recorded
  error?_eq : assembly.error? = none

variable {assembly : Assembly} {number index : Nat} {recorded : List (String × Nat)}
  {text : List Char} {label : Option String} {statement : Option Statement} {entries : List Entry}

/-- The labels recorded are those of the table. -/
theorem At.get?_labels (h : assembly.At number index recorded) (name : String) :
    assembly.labels.get? name = LabelTable.last? name recorded := by
  rw [h.labels_eq, LabelTable.get?_insertAll, LabelTable.get?_empty, Option.or_none]

theorem log_define (assembly : Assembly) (name : String) :
    (assembly.define name).log.toList = assembly.log.toList ++
      ((assembly.labels.get? name).map fun previous =>
        Entry.redefinition assembly.lines name previous assembly.instructions.size).toList ++
      [Entry.label assembly.lines name assembly.instructions.size] := by
  rw [define]
  rcases assembly.labels.get? name with _ | previous <;>
    simp [note, entry, Entry.label, Entry.redefinition, Entry.about]

theorem At.log_readLabel (h : assembly.At number index recorded)
    (hentries : LogsLabel number index recorded label entries) :
    (({ assembly with lines := assembly.lines + 1 } : Assembly).readLabel label).log.toList =
      assembly.log.toList ++ entries := by
  have hget (name : String) := h.get?_labels name
  obtain ⟨rfl, rfl, -, -⟩ := h
  cases hentries with
  | unlabelled => exact (List.append_nil _).symm
  | first hnone =>
    rw [readLabel, log_define, hget, LabelTable.last?_eq_none_iff.2 hnone]
    simp
  | again hrecorded hupper hafter =>
    rw [readLabel, log_define, hget,
      LabelTable.last?_eq_some_iff.2 ⟨_, _, _, hrecorded, hupper, hafter⟩]
    simp

/-- What the statement of a line logs, or its error. -/
def statementLog (number : Nat) : Except SyntaxCause (Option Statement) → List Entry
  | .ok statement => (statement.map (Entry.instruction number)).toList
  | .error cause => [.ofError ⟨cause, number⟩]

theorem log_readStatement (assembly : Assembly)
    (statement : Except SyntaxCause (Option Statement)) :
    (assembly.readStatement statement).log.toList =
      assembly.log.toList ++ statementLog assembly.lines statement := by
  rcases statement with cause | (_ | statement)
  · exact Array.toList_push
  · exact (List.append_nil _).symm
  · exact Array.toList_push

/-- A line that is read adds its messages to the log. -/
theorem At.log_readLine (h : assembly.At number index recorded)
    (hentries : LogsLabel number index recorded (Line.ofText text).label entries) :
    (assembly.readLine text).log.toList =
      assembly.log.toList ++ (entries ++ statementLog number (Line.ofText text).statement) := by
  obtain ⟨log, hlabel⟩ := exists_readLabel_eq { assembly with lines := assembly.lines + 1 }
    (Line.ofText text).label
  have hlog := h.log_readLabel hentries
  rw [readLine, log_readStatement, hlog, hlabel, h.lines_eq, List.append_assoc]

/-- Behind a line that is well formed there is its statement, and its label is recorded. -/
theorem At.readLine (h : assembly.At number index recorded)
    (hbody : Body (Line.body text) label statement) :
    (assembly.readLine text).At (number + 1) (index + statement.toList.length)
      (recorded ++ (label.map (·, index)).toList) := by
  obtain ⟨log, hline⟩ := exists_readLine_eq assembly text
  have herror : lineError? text (assembly.lines + 1) = none :=
    lineError?_eq_none_iff.2 ⟨label, statement, hbody⟩
  obtain ⟨rfl, rfl, hlabels, hnone⟩ := h
  rw [hline, herror, instruction?, Line.ofText_of_body hbody, hlabels, hnone,
    ← LabelTable.insertAll_append]
  refine ⟨rfl, ?_, rfl, rfl⟩
  cases statement <;> exact Array.size_append

theorem isSome_error?_readLine {cause : SyntaxCause}
    (h : Rejected (Line.body text) cause) : (assembly.readLine text).error?.isSome := by
  obtain ⟨log, hline⟩ := exists_readLine_eq assembly text
  rw [hline, lineError?, Line.cause?_eq_some_iff.2 h]
  rfl

/-- Reading lines adds their messages to the log. -/
theorem log_readLines {texts : List (List Char)} (hlogs : Logs number index recorded texts entries)
    (h : assembly.At number index recorded) :
    (assembly.readLines texts).log.toList = assembly.log.toList ++ entries := by
  induction hlogs generalizing assembly with
  | nil => exact (List.append_nil _).symm
  | @rejected _ _ _ text _ _ cause _ hleads hrejected hentries =>
    obtain rfl := leads_iff.1 hleads
    have hstatement : (Line.ofText text).statement = .error cause :=
      (Line.statement_ofBody_eq_error_iff (Line.trim_body text)).2 hrejected
    rw [readLines, if_pos (isSome_error?_readLine hrejected), h.log_readLine hentries, hstatement]
    rfl
  | line hbody hentries _ ih =>
    have hline := Line.ofText_of_body hbody
    have hnext := h.readLine hbody
    have hlog := h.log_readLine (by rwa [hline])
    rw [readLines, if_neg (by simp [hnext.error?_eq]), ih hnext, hlog, hline]
    simp [statementLog]

end Assembly

/-! ## Reading the log -/

namespace Grammar

variable {number index : Nat} {recorded : List (String × Nat)} {text : List Char}
  {texts : List (List Char)} {label : Option String} {statement : Option Statement}
  {entries : List Entry}

theorem LogsLabel.level_ne_error (h : LogsLabel number index recorded label entries) :
    ∀ entry ∈ entries, entry.level ≠ .error := by
  cases h with
  | unlabelled => exact nofun
  | first | again => simp [Entry.label, Entry.redefinition, Entry.about]

/-- If the lines have an error, the message on it is the last, and in front of it, or if they
    have none, there are no messages on errors. -/
theorem Logs.exists_front (h : Logs number index recorded texts entries) :
    ∃ front, entries = front ++ ((SourceLines.error? number texts).map Entry.ofError).toList ∧
      ∀ entry ∈ front, entry.level ≠ .error := by
  induction h with
  | nil => exact ⟨[], rfl, nofun⟩
  | rejected hleads hrejected hentries =>
    refine ⟨_, ?_, hentries.level_ne_error⟩
    rw [SourceLines.error?_cons, SourceLines.lineError?, Line.cause?_eq_some_iff.2 hrejected]
    rfl
  | @line number _ _ _ _ _ statement _ _ hbody hentries _ ih =>
    obtain ⟨front, rfl, hfront⟩ := ih
    have hstatement : ∀ entry ∈ (statement.map (Entry.instruction number)).toList,
        entry.level ≠ .error := by
      cases statement with
      | none => simp
      | some statement => simp [Entry.instruction, Entry.about]
    refine ⟨_ ++ front, ?_, List.forall_mem_append.2 ⟨List.forall_mem_append.2
      ⟨hentries.level_ne_error, hstatement⟩, hfront⟩⟩
    rw [SourceLines.error?_cons, SourceLines.lineError?_eq_none_iff.2 ⟨_, _, hbody⟩,
      Option.none_or, ← List.append_assoc]

theorem Body.name_of_mem_label {body : List Char} (h : Body body label statement) :
    ∀ name ∈ label, Name name.toList := by
  cases h with
  | empty | statement => exact nofun
  | label hname | labelled hname =>
    rintro _ ⟨⟩
    rwa [String.toList_ofList]

theorem LogsLabel.filterMap_label? (h : LogsLabel number index recorded label entries)
    (hname : ∀ name ∈ label, Name name.toList) :
    entries.filterMap Entry.label? = (label.map (·, index)).toList := by
  cases h with
  | unlabelled => rfl
  | first =>
    rw [List.filterMap_cons_some (Entry.label?_label (hname _ rfl) number index)]
    rfl
  | again =>
    rw [List.filterMap_cons_none (Entry.label?_of_ne_debug Level.noConfusion),
      List.filterMap_cons_some (Entry.label?_label (hname _ rfl) number index)]
    rfl

theorem filterMap_label?_instruction (number : Nat) (statement : Option Statement) :
    (statement.map (Entry.instruction number)).toList.filterMap Entry.label? = [] := by
  cases statement with
  | none => rfl
  | some statement => exact List.filterMap_cons_none (Entry.label?_instruction number statement)

/-- The labels that well-formed lines log are those of the lines, in their order. -/
theorem Logs.filterMap_label? (h : Logs number index recorded texts entries)
    (htexts : ∀ text ∈ texts, WellFormed (Line.body text)) :
    entries.filterMap Entry.label? = SourceLines.labels index texts := by
  induction h with
  | nil => rfl
  | rejected _ hrejected =>
    exact absurd (htexts _ List.mem_cons_self) (Line.not_wellFormed_of_rejected hrejected)
  | line hbody hentries _ ih =>
    rw [List.filterMap_append, List.filterMap_append, ih (List.forall_mem_cons.1 htexts).2,
      hentries.filterMap_label? hbody.name_of_mem_label, filterMap_label?_instruction,
      List.append_nil, SourceLines.labels, SourceLines.size_singleton,
      Line.ofText_of_body hbody]
    rfl

theorem LogsLabel.filterMap_instruction? (h : LogsLabel number index recorded label entries) :
    entries.filterMap Entry.instruction? = [] := by
  cases h with
  | unlabelled => rfl
  | first => exact List.filterMap_cons_none (Entry.instruction?_label _ _ _)
  | again =>
    rw [List.filterMap_cons_none (Entry.instruction?_of_ne_debug Level.noConfusion),
      List.filterMap_cons_none (Entry.instruction?_label _ _ _)]
    rfl

/-- The message on the instruction of a line reads back, as operands on a line are printable. -/
theorem Body.filterMap_instruction? (h : Body (Line.body text) label statement)
    (htext : '\n' ∉ text) (number : Nat) :
    (statement.map (Entry.instruction number)).toList.filterMap Entry.instruction? =
      (SourceLines.instruction? text number).toList := by
  rw [SourceLines.instruction?, Line.ofText_of_body h]
  cases statement with
  | none => rfl
  | some statement =>
    have hmem : statement.onLine number ∈ SourceLines.instructions number [text] := by
      rw [SourceLines.instructions_cons, SourceLines.instruction?, Line.ofText_of_body h]
      exact List.mem_cons_self
    have hprintable : (statement.onLine number).Printable :=
      SourceLines.printable_of_mem_instructions (by simpa using htext) hmem
    exact List.filterMap_cons_some (Entry.instruction?_instruction hprintable)

/-- The instructions that well-formed lines log are those of the lines, in their order. -/
theorem Logs.filterMap_instruction? (h : Logs number index recorded texts entries)
    (htexts : ∀ text ∈ texts, WellFormed (Line.body text)) (hlines : ∀ text ∈ texts, '\n' ∉ text) :
    entries.filterMap Entry.instruction? = SourceLines.instructions number texts := by
  induction h with
  | nil => rfl
  | rejected _ hrejected =>
    exact absurd (htexts _ List.mem_cons_self) (Line.not_wellFormed_of_rejected hrejected)
  | line hbody hentries _ ih =>
    obtain ⟨-, htexts⟩ := List.forall_mem_cons.1 htexts
    obtain ⟨htext, hlines⟩ := List.forall_mem_cons.1 hlines
    rw [List.filterMap_append, List.filterMap_append, hentries.filterMap_instruction?,
      hbody.filterMap_instruction? htext, ih htexts hlines, List.nil_append,
      SourceLines.instructions_cons]

end Grammar

/-- The log of the assembler tells what it does: the messages are those that the lines log, up
    to and with the first that is not well formed. If there is a program, there is no message on
    an error, the labels that the messages tell, entered one after the other, make up the label
    table, and the instructions that they tell are those of the program. Otherwise the one
    message on an error is the last, and is on the error of the assembler. -/
theorem Assembly.log_ofSource (source : String) :
    let log := (Assembly.ofSource source).log.toList
    (∀ entries, Logs 1 0 [] (Split.lines source.toList) entries ↔ log = entries) ∧
      (∀ program, assemble source = .ok program →
        (∀ entry ∈ log, entry.level ≠ .error) ∧
          (∅ : LabelTable).insertAll (log.filterMap Entry.label?) = program.labels ∧
          log.filterMap Entry.instruction? = program.instructions.toList) ∧
      ∀ error, assemble source = .error error →
        ∃ front, log = front ++ [⟨.error, error.message⟩] ∧
          ∀ entry ∈ front, entry.level ≠ .error := by
  intro log
  have hlog {entries : List Entry} (h : Logs 1 0 [] (Split.lines source.toList) entries) :
      log = entries :=
    Assembly.log_readLines h ⟨rfl, rfl, rfl, rfl⟩
  obtain ⟨entries, hlogs⟩ := exists_logs 1 0 [] (Split.lines source.toList)
  obtain rfl := hlog hlogs
  refine ⟨fun entries => ⟨hlog, fun h => h ▸ hlogs⟩, fun program hprogram => ?_,
    fun error herror => ?_⟩
  · obtain ⟨hnone, rfl⟩ := assemble_eq_ok_iff.1 hprogram
    have htexts := SourceLines.error?_eq_none_iff.1 hnone
    obtain ⟨front, hfront, hlevel⟩ := hlogs.exists_front
    rw [hnone, Option.map_none, Option.toList_none, List.append_nil] at hfront
    refine ⟨hfront ▸ hlevel, ?_, ?_⟩
    · rw [hlogs.filterMap_label? htexts]
      rfl
    · exact hlogs.filterMap_instruction? htexts fun _ => lineFeed_notMem_of_mem_lines
  · obtain ⟨front, hfront, hlevel⟩ := hlogs.exists_front
    rw [assemble_eq_error_iff.1 herror] at hfront
    exact ⟨front, hfront, hlevel⟩

/-- The label of a line that is rejected for its statement is logged. -/
example : (Assembly.ofSource "A: HLT\na: inc\tr0\nB: JUMP A").log.toList =
    [⟨.debug, "[1] Found label `A` -> 0"⟩, ⟨.debug, "[1] Found instruction HLT"⟩,
      ⟨.warn, "[2] Label `a` redefined (was 0, now 1)"⟩, ⟨.debug, "[2] Found label `a` -> 1"⟩,
      ⟨.debug, "[2] Found instruction INC r0"⟩, ⟨.debug, "[3] Found label `B` -> 2"⟩,
      ⟨.error, "error [ln: 3]: failed to resolve instruction - no instruction named `JUMP`"⟩] := by
  decide +kernel

end RegisterMachine
