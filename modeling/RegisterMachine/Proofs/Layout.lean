import RegisterMachine.Proofs.Printing
import RegisterMachine.Proofs.Simulation

/-!
# Layout

The same program can be laid out on source lines in many ways. Lines with nothing on them
but a comment may stand anywhere, and a label may stand in front of its instruction or on
a line of its own above it. Laying out a text anew moves its instructions to other lines,
and that is all: it is assembled to the program with the numbers of the lines changed, or
to the same error on another line (`assemble_eq_of_relaid`). The machine does not look at
these numbers. It tells them, in faults (`Machine.proceed_relocate`).

* `Relaid`: lines laid out anew, with the places that the lines have gone to;
* `Line.parted_of_cut`: a line may be cut behind its label;
* `SourceLines.instructions_relaid`, `SourceLines.labels_relaid`: the instructions are moved to
  their new lines, the labels stay what they are;
* `Machine.after_relocate`: a run goes through the same states;
* `assemble_relaid`: so the layout of a program does not change its meaning.
-/

namespace RegisterMachine

open Blank Split Grammar

/-! ## Programs on other lines -/

/-- The instruction with its line at another place. -/
def Instruction.relocate (place : Nat → Nat) (instruction : Instruction) : Instruction :=
  { instruction with line := place instruction.line }

/-- The program with its lines at other places. -/
def Program.relocate (place : Nat → Nat) (program : Program) : Program :=
  { program with instructions := program.instructions.map (·.relocate place) }

/-- The error with its line at another place. -/
def SyntaxError.relocate (place : Nat → Nat) (error : SyntaxError) : SyntaxError :=
  { error with line := place error.line }

/-- The fault with its line, if it tells one, at another place. -/
def Fault.relocate (place : Nat → Nat) (fault : Fault) : Fault :=
  { fault with line := fault.line.map place }

/-- The outcome with the line of its fault at another place. -/
def Outcome.relocate (place : Nat → Nat) : Outcome → Outcome
  | .done => .done
  | .fault raised => .fault (raised.relocate place)
  | .defect found => .defect found

namespace Machine

variable (machine : Machine) (program : Program) (place : Nat → Nat)

theorem current?_relocate :
    machine.current? (program.relocate place) =
      (machine.current? program).map (·.relocate place) :=
  Array.getElem?_map

theorem settle_relocate (line : Nat) (result : Except FaultKind Change) :
    machine.settle (place line) result =
      (machine.settle line result).map id (·.relocate place) := by
  rcases result with kind | change
  · rfl
  · rw [settle, settle]
    split <;> rfl

/-- The step of a program on other lines is the step of the program. It only tells the other
    line if it ends with a fault. -/
theorem proceed_relocate :
    machine.proceed (program.relocate place) =
      (machine.proceed program).map id (·.relocate place) := by
  rcases hhalted : machine.halted with _ | _
  swap
  · rw [proceed_of_halted hhalted, proceed_of_halted hhalted]
    rfl
  have hrelocate := machine.current?_relocate program place
  rcases hcurrent : machine.current? program with _ | instruction
  · rw [hcurrent] at hrelocate
    rw [proceed_of_current?_eq_none hhalted hcurrent,
      proceed_of_current?_eq_none hhalted hrelocate]
    rfl
  · rw [hcurrent] at hrelocate
    rw [proceed_of_current? hhalted hcurrent, proceed_of_current? hhalted hrelocate,
      ← settle_relocate]
    rfl

/-- A run of a program on other lines goes through the same states. -/
theorem after_relocate (n : Nat) :
    machine.after (program.relocate place) n = machine.after program n := by
  induction n with
  | zero => rfl
  | succ n ih =>
    rw [after_succ, after_succ, ih]
    exact congrArg Prod.fst ((machine.after program n).proceed_relocate program place)

end Machine

/-! ## Lines laid out anew -/

namespace Line

/-- There is nothing on a line, up to its comment. -/
def Silent (text : List Char) : Prop := AllBlank (before (· == ';') text)

/-- Two lines are the parts of a line: its label is alone on the one, and what is behind it,
    without a colon in it, is on the other. -/
inductive Parted (text label rest : List Char) : Prop
  | intro {name tail : List Char} : body text = name ++ ':' :: tail → Name name → ':' ∉ tail →
      body label = name ++ [':'] → body rest = trim tail → Parted text label rest

variable {text label rest : List Char}

theorem Silent.ofText (h : Silent text) : ofText text = ⟨none, .ok none⟩ := by
  have hbody : body text = [] := trim_eq_nil_iff.2 h
  rw [Line.ofText, hbody]
  rfl

theorem Parted.ofText_label (h : Parted text label rest) :
    ofText label = ⟨(ofText text).label, .ok none⟩ := by
  obtain ⟨htext, hname, -, hlabel, -⟩ := h
  rw [ofText, ofText, hlabel, htext, ofBody_append hname.colon_notMem,
    ofBody_append hname.colon_notMem, if_pos (isName_iff.2 hname), if_pos (isName_iff.2 hname)]
  rfl

theorem Parted.ofText_rest (h : Parted text label rest) :
    ofText rest = ⟨none, (ofText text).statement⟩ := by
  obtain ⟨htext, hname, htail, -, hrest⟩ := h
  rw [ofText, ofText, hrest, htext, ofBody_append hname.colon_notMem, if_pos (isName_iff.2 hname),
    ofBody_of_colon_notMem fun hc => htail (mem_of_mem_trim hc)]

/-- The body of a line with a name and a colon in front, up to blanks, begins with these. -/
theorem body_label {lead name tail : List Char} (hlead : AllBlank lead) (hname : Name name) :
    body (lead ++ (name ++ ':' :: tail)) =
      name ++ ':' :: (before (· == ';') tail).rdropWhile isBlank := by
  have hsemicolon : ';' ∉ lead ++ (name ++ [':']) := by
    simp only [List.mem_append, not_or]
    exact ⟨fun hc => absurd (hlead _ hc) (by decide),
      fun hc => absurd (hname.isNameRest_of_mem hc) (by decide), by decide⟩
  have hbefore : before (· == ';') (lead ++ (name ++ ':' :: tail)) =
      lead ++ (name ++ ':' :: before (· == ';') tail) := by
    simpa using before_append hsemicolon tail
  obtain ⟨first, others, rfl⟩ := List.exists_cons_of_ne_nil hname.ne_nil
  have hfirst : ¬ isBlank first :=
    not_isBlank_of_isNameRest (hname.isNameRest_of_mem List.mem_cons_self)
  rw [body, hbefore, trim_eq_rdropWhile, List.dropWhile_append_of_pos hlead, List.cons_append,
    List.dropWhile_cons_of_neg hfirst, ← List.cons_append, rdropWhile_append_cons (by decide)]

/-- A line with a label may be cut behind the colon of the label. -/
theorem parted_of_cut {lead name tail : List Char} (hlead : AllBlank lead) (hname : Name name)
    (htail : ':' ∉ before (· == ';') tail) :
    Parted (lead ++ (name ++ ':' :: tail)) (lead ++ (name ++ [':'])) tail := by
  refine .intro (body_label hlead hname) hname (fun hc => htail ?_) (body_label hlead hname) ?_
  · exact (List.rdropWhile_prefix _ _).mem hc
  · rw [trim_rdropWhile, body]

end Line

/-- Lines are laid out anew: in front of each, and after the last one, there may be further
    lines with nothing on them, and a label may go to a line of its own. The lines are numbered
    from `first` on, the others from `second` on, and `place` takes the number of a line to that
    of the line where it has gone, without its label if that has a line of its own. -/
inductive Relaid (place : Nat → Nat) : Nat → Nat → List (List Char) → List (List Char) → Prop
  | nil {first second : Nat} : Relaid place first second [] []
  | keep {first second : Nat} {text : List Char} {texts others : List (List Char)} :
      place first = second → Relaid place (first + 1) (second + 1) texts others →
      Relaid place first second (text :: texts) (text :: others)
  | insert {first second : Nat} {text : List Char} {texts others : List (List Char)} :
      Line.Silent text → Relaid place first (second + 1) texts others →
      Relaid place first second texts (text :: others)
  | part {first second : Nat} {text label rest : List Char} {texts others : List (List Char)} :
      Line.Parted text label rest → Relaid place first (second + 1) (rest :: texts) others →
      Relaid place first second (text :: texts) (label :: others)

namespace SourceLines

variable {place : Nat → Nat} {first second : Nat} {texts others : List (List Char)}

theorem instruction?_relocate (text : List Char) (number : Nat) :
    instruction? text (place number) = (instruction? text number).map (·.relocate place) := by
  rw [instruction?, instruction?, Option.map_map]
  rfl

theorem lineError?_relocate (text : List Char) (number : Nat) :
    lineError? text (place number) = (lineError? text number).map (·.relocate place) := by
  rw [lineError?, lineError?, Option.map_map]
  rfl

theorem instructions_relaid (h : Relaid place first second texts others) :
    instructions second others = (instructions first texts).map (·.relocate place) := by
  induction h with
  | nil => rfl
  | @keep first second text texts others hplace _ ih =>
    rw [instructions_cons, instructions_cons, ih, ← hplace, instruction?_relocate,
      List.map_append]
    rcases instruction? text first with _ | instruction <;> rfl
  | insert hsilent _ ih =>
    rw [instructions_cons, ih, instruction?, hsilent.ofText]
    rfl
  | @part first second text label rest texts others hparted _ ih =>
    have hrest : instruction? rest first = instruction? text first := by
      rw [instruction?, hparted.ofText_rest, instruction?]
      rfl
    rw [instructions_cons, ih, instruction?, hparted.ofText_label, instructions_cons, hrest,
      ← instructions_cons]
    rfl

theorem error?_relaid (h : Relaid place first second texts others) :
    error? second others = (error? first texts).map (·.relocate place) := by
  induction h with
  | nil => rfl
  | @keep first second text texts others hplace _ ih =>
    rw [error?_cons, error?_cons, ih, ← hplace, lineError?_relocate, Option.map_or]
  | insert hsilent _ ih =>
    rw [error?_cons, ih, lineError?, hsilent.ofText]
    rfl
  | @part first second text label rest texts others hparted _ ih =>
    have hrest : lineError? rest first = lineError? text first := by
      rw [lineError?, hparted.ofText_rest, lineError?]
      rfl
    rw [error?_cons, ih, lineError?, hparted.ofText_label, error?_cons, hrest, ← error?_cons]
    rfl

/-- The labels of lines do not tell the numbers of the lines. -/
theorem labels_relaid (h : Relaid place first second texts others) (count : Nat) :
    labels count others = labels count texts := by
  induction h generalizing count with
  | nil => rfl
  | keep _ _ ih => rw [labels, ih, labels]
  | insert hsilent _ ih =>
    rw [labels, size_singleton, hsilent.ofText, ih]
    rfl
  | @part first second text label rest texts others hparted _ ih =>
    have hsize : size [rest] = size [text] := by
      rw [size_singleton, hparted.ofText_rest, size_singleton]
      rfl
    rw [labels, size_singleton, hparted.ofText_label, ih, labels, hparted.ofText_rest, hsize,
      labels]
    rfl

theorem program_relaid (h : Relaid place 1 1 texts others) :
    program others = (program texts).relocate place := by
  rw [program, instructions_relaid h, labels_relaid h, ← List.map_toArray]
  rfl

end SourceLines

/-- A text that is laid out anew is assembled to the program on its new lines, or to the error
    on its new line. -/
theorem assemble_eq_of_relaid {source other : String} {place : Nat → Nat}
    (h : Relaid place 1 1 (lines source.toList) (lines other.toList)) :
    assemble other =
      ((assemble source).map (·.relocate place)).mapError (·.relocate place) := by
  rw [assemble_eq, assemble_eq, SourceLines.error?_relaid h, SourceLines.program_relaid h]
  rcases SourceLines.error? 1 (lines source.toList) with _ | error <;> rfl

/-- The layout of a source text does not change its meaning. Silent lines may be inserted
    anywhere, and labels without a colon behind them may go to lines of their own: the text
    is assembled to the same labels and to the same instructions on their new lines. Each
    step of the one program leads to the same state as that of the other, with the same
    outcome, but for the line that a fault tells. -/
theorem assemble_relaid (source other : String) (program : Program) (place : Nat → Nat)
    (h : assemble source = .ok program)
    (hrelaid : Relaid place 1 1 (lines source.toList) (lines other.toList)) :
    ∃ relaid, assemble other = .ok relaid ∧ relaid.labels = program.labels ∧
      relaid.instructions = program.instructions.map (·.relocate place) ∧
      ∀ k, Machine.initial.after relaid k = Machine.initial.after program k ∧
        ((Machine.initial.after relaid k).step relaid).outcome =
          (((Machine.initial.after program k).step program).outcome).relocate place := by
  refine ⟨program.relocate place, ?_, rfl, rfl, fun k => ?_⟩
  · rw [assemble_eq_of_relaid hrelaid, h]
    rfl
  · have hafter := Machine.initial.after_relocate program place k
    refine ⟨hafter, ?_⟩
    rw [hafter]
    exact congrArg Prod.snd (Machine.proceed_relocate _ program place)

/-- A division by zero behind a label is the same fault, two lines further down, if the label
    has a line of its own below a comment. -/
theorem assemble_relaid_divide :
    ∃ relaid, assemble "; F\nf:\n  DIV R1, R0 ; a:b\n\nCALL F\n" = .ok relaid ∧
      (Machine.initial.step relaid).outcome = .fault ⟨.divisionByZero, some 3⟩ := by
  have hsource : assemble "f:  DIV R1, R0 ; a:b\nCALL F" =
      .ok (SourceLines.program (lines "f:  DIV R1, R0 ; a:b\nCALL F".toList)) :=
    assemble_eq_ok_iff.2 ⟨by decide +kernel, rfl⟩
  have hparted : Line.Parted "f:  DIV R1, R0 ; a:b".toList "f:".toList
      "  DIV R1, R0 ; a:b".toList :=
    @Line.parted_of_cut [] "f".toList "  DIV R1, R0 ; a:b".toList nofun (isName_iff.1 rfl)
      (by decide +kernel)
  have hrelaid : Relaid (2 * · + 1) 1 1 (lines "f:  DIV R1, R0 ; a:b\nCALL F".toList)
      (lines "; F\nf:\n  DIV R1, R0 ; a:b\n\nCALL F\n".toList) :=
    .insert nofun (.part hparted (.keep rfl (.insert nofun (.keep rfl .nil))))
  obtain ⟨relaid, hassemble, -, -, hsteps⟩ := assemble_relaid _ _ _ _ hsource hrelaid
  have hfault : (Machine.initial.step
      (SourceLines.program (lines "f:  DIV R1, R0 ; a:b\nCALL F".toList))).outcome =
        .fault ⟨.divisionByZero, some 1⟩ := by decide +kernel
  exact ⟨relaid, hassemble, (hsteps 0).2.trans (congrArg _ hfault)⟩

end RegisterMachine
