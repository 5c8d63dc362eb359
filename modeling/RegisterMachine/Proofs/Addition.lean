import Mathlib
import RegisterMachine.Proofs.AddressingMode
import RegisterMachine.Proofs.Refusal

/-!
# Adding two numbers

A source text that moves two numbers into registers, adds them, outputs the sum and halts,
from its characters to the text that it writes. The numbers are written in decimal, in the
usual way (`Numeral.integer_toString`) or with zeros in front, and may be of any size. An
immediate operand is the value nearest to such a number, and a register holds the word nearest
to that value, which is the word nearest to the number. If the sum of the two words is a word,
it is what is written; otherwise the addition is refused (`after_addition`).

* `assemble_of_denotes`: a source text of instructions, without labels, assembles to these;
* `Addition.assemble_source`: the program of the source text;
* `Addition.reaches_loaded`, `Addition.reaches_halted`: the states that it leads to.
-/

namespace RegisterMachine

open Grammar Split

/-! ## Source texts without labels -/

/-- A line has an instruction and no label. -/
def Line.Denotes (text : List Char) (statement : Statement) : Prop :=
  ofText text = ⟨none, .ok (some statement)⟩

section

variable {texts : List (List Char)} {statements : List Statement}

namespace SourceLines

theorem error?_of_denotes (h : List.Forall₂ Line.Denotes texts statements) (first : Nat) :
    error? first texts = none := by
  induction h generalizing first with
  | nil => rfl
  | cons hline _ ih =>
    rw [error?_cons, ih, lineError?, hline]
    rfl

theorem instructions_of_denotes (h : List.Forall₂ Line.Denotes texts statements) (first : Nat) :
    instructions first texts =
      (statements.zipIdx first).map fun statement => statement.1.onLine statement.2 := by
  induction h generalizing first with
  | nil => rfl
  | cons hline _ ih =>
    rw [instructions_cons, ih, instruction?, hline]
    rfl

theorem labels_of_denotes (h : List.Forall₂ Line.Denotes texts statements) (count : Nat) :
    labels count texts = [] := by
  induction h generalizing count with
  | nil => rfl
  | cons hline _ ih =>
    rw [labels, ih, hline]
    rfl

end SourceLines

/-- A source text with an instruction on each line, and no labels, is the program of these. -/
theorem assemble_of_denotes {source : String} (hlines : lines source.toList = texts)
    (h : List.Forall₂ Line.Denotes texts statements) :
    assemble source =
      .ok ⟨((statements.zipIdx 1).map fun statement => statement.1.onLine statement.2).toArray,
        ∅⟩ := by
  rw [assemble_eq_ok_iff, hlines, SourceLines.program, SourceLines.instructions_of_denotes h,
    SourceLines.labels_of_denotes h]
  exact ⟨SourceLines.error?_of_denotes h 1, rfl⟩

end

/-! ## The program -/

namespace Addition

/-- The source text of a program that adds two numbers. -/
def source (first second : String) : String :=
  "\n".intercalate
    ["MOV R0," ++ first, "MOV R1," ++ second, "ADD R0,R1", "OUT R0", "HLT"]

/-- The register for the first number, and then for the sum. -/
def r0 : Operand := .ofText "R0".toList

/-- The register for the second number. -/
def r1 : Operand := .ofText "R1".toList

/-- The program of the source text, by its two operands. -/
def program (first second : Operand) : Program where
  instructions :=
    #[⟨.mov, [r0, first], 1⟩, ⟨.mov, [r1, second], 2⟩, ⟨.add, [r0, r1], 3⟩, ⟨.out, [r0], 4⟩,
      ⟨.hlt, [], 5⟩]
  labels := ∅

/-- A line that moves something into a register. -/
def move (register text : List Char) : List Char := "MOV ".toList ++ register ++ ',' :: text

theorem lineFeed_notMem_move {register text : List Char} (hregister : Solid register)
    (h : Solid text) : '\n' ∉ move register text := by
  rw [move, List.mem_append, List.mem_append, List.mem_cons]
  rintro ((hname | hc) | hcomma | hc)
  · exact absurd hname (by decide)
  · exact hregister.notMem (by decide) (by decide) hc
  · exact absurd hcomma (by decide)
  · exact h.notMem (by decide) (by decide) hc

theorem denotes_move {register text : List Char} (hregister : Solid register) (h : Solid text) :
    Line.Denotes (move register text) ⟨.mov, [.ofText register, .ofText text]⟩ := by
  have hmove : move register text =
      Opcode.mov.name.toList ++ ' ' :: [','].intercalate [register, text] := by
    simp [move, Opcode.name]
  rw [hmove]
  refine Line.ofText_operation (List.cons_ne_nil _ _) fun piece hpiece => ?_
  obtain rfl | rfl := List.mem_pair.1 hpiece
  · exact hregister
  · exact h

theorem solid_registers : Solid "R0".toList ∧ Solid "R1".toList := by decide

/-- The lines of the source text. -/
def lineTexts (first second : List Char) : List (List Char) :=
  [move "R0".toList first, move "R1".toList second, "ADD R0,R1".toList, "OUT R0".toList,
    "HLT".toList]

section

variable {first second : String} (hfirst : Solid first.toList) (hsecond : Solid second.toList)

include hfirst hsecond

theorem lines_source :
    lines (source first second).toList = lineTexts first.toList second.toList := by
  have htoList : (source first second).toList =
      ['\n'].intercalate (lineTexts first.toList second.toList) := by
    simp [source, lineTexts, move]
  rw [htoList]
  refine lines_intercalate ?_ (List.cons_ne_nil _ _) (by simp [lineTexts])
  simp only [lineTexts, List.forall_mem_cons]
  exact ⟨lineFeed_notMem_move solid_registers.1 hfirst,
    lineFeed_notMem_move solid_registers.2 hsecond, by decide, by decide, by decide,
    List.forall_mem_nil _⟩

/-- The source text is that of the program, whatever solid texts its operands are. -/
theorem assemble_source :
    assemble (source first second) =
      .ok (program (.ofText first.toList) (.ofText second.toList)) := by
  have hadd : Line.Denotes "ADD R0,R1".toList ⟨.add, [r0, r1]⟩ := by cbv
  have hout : Line.Denotes "OUT R0".toList ⟨.out, [r0]⟩ := by cbv
  have hhlt : Line.Denotes "HLT".toList ⟨.hlt, []⟩ := by cbv
  exact assemble_of_denotes (lines_source hfirst hsecond)
    (.cons (denotes_move solid_registers.1 hfirst)
      (.cons (denotes_move solid_registers.2 hsecond) (.cons hadd (.cons hout (.cons hhlt .nil)))))

end

/-! ## Its run -/

section

variable {first second : Operand} {v w : Value} {x y : Word}
  (hfirst : first.mode = .immediate v) (hsecond : second.mode = .immediate w)
  (hx : Word.saturate v.toInt = x) (hy : Word.saturate w.toInt = y)

include hfirst hsecond hx hy

/-- The moves put the words nearest to the operands into registers. -/
theorem reaches_loaded :
    Machine.initial.Reaches (program first second) 2
      { registers := #v[x, y, Word.zero, Word.zero], pc := 2 } := by
  have hmove (machine : Machine) :
      Transition ∅ machine .mov [r0, first] (.move (.register ⟨0⟩) x) :=
    hx ▸ .mov (by rw [hfirst, Machine.read]) rfl
  have hmove' (machine : Machine) :
      Transition ∅ machine .mov [r1, second] (.move (.register ⟨1⟩) y) :=
    hy ▸ .mov (by rw [hsecond, Machine.read]) rfl
  have hstart : Machine.initial.Reaches (program first second) 0 Machine.initial := .zero
  have hmoved := hstart.step rfl rfl rfl (hmove _) trivial
  exact hmoved.step rfl rfl rfl (hmove' _) trivial

/-- If the sum is a word, it is stored and written. -/
theorem reaches_halted {sum : Word} (hsum : sum.toInt = x.toInt + y.toInt) :
    Machine.initial.Reaches (program first second) 5
      { registers := #v[sum, y, Word.zero, Word.zero]
        pc := 4
        flags := ⟨decide (sum.toInt = 0), decide (sum.toInt < 0)⟩
        halted := true
        output := #[toString sum.toInt] } := by
  have hexact : Opcode.add.exact x.toValue.toInt y.toValue.toInt = .ok sum.toInt := by
    rw [Word.toInt_toValue, Word.toInt_toValue, Opcode.exact, ← hsum]
    exact if_pos ⟨sum.least_le, sum.le_greatest⟩
  have hadd : Transition ∅ { registers := #v[x, y, Word.zero, Word.zero], pc := 2 } .add [r0, r1]
      (.store (.register ⟨0⟩) sum.toInt) :=
    .binary rfl rfl rfl hexact rfl
  have hadded := (reaches_loaded hfirst hsecond hx hy).step rfl rfl rfl hadd trivial
  rw [Change.next, Change.apply, Word.saturate_toInt] at hadded
  have hwritten := hadded.step rfl rfl rfl (.out rfl) trivial
  rw [Change.next, Change.apply, Word.toInt_toValue] at hwritten
  exact hwritten.step rfl rfl rfl .hlt trivial

/-- If the sum is no word, the addition is refused. -/
theorem outcome_of_outOfRange
    (hrange : x.toInt + y.toInt < -32768 ∨ 32767 < x.toInt + y.toInt) :
    ((Machine.initial.after (program first second) 2).step (program first second)).outcome =
      .fault ⟨.arithmeticOverflow, some 3⟩ := by
  rw [(reaches_loaded hfirst hsecond hx hy).after_eq]
  have hrange' : Opcode.add.OutOfRange x.toValue.toInt y.toValue.toInt := by
    rwa [Word.toInt_toValue, Word.toInt_toValue]
  have hrefusal : Refusal (program first second).labels
      { registers := #v[x, y, Word.zero, Word.zero], pc := 2 } .add [r0, r1] .arithmeticOverflow :=
    .binary rfl rfl rfl hrange'
  exact @Machine.outcome_of_refusal _ _ _ ⟨.add, [r0, r1], 3⟩ rfl rfl hrefusal

end

end Addition

/-- The source text assembles, whatever numbers `a` and `b` its operands stand for. The words
    `x` and `y` nearest to these are added. If their sum is a word, the machine halts after
    five steps without a fault, and has written the sum in decimal; the flags tell about it,
    and the registers hold the sum and `y`. Otherwise the third step ends with an overflow on
    the third line, and the state remains the one with `x` and `y` in the registers, without
    flags or output. -/
theorem after_addition (first second : String) (a b : Int) (hfirst : Integer first.toList a)
    (hsecond : Integer second.toList b) :
    let x := Word.saturate a
    let y := Word.saturate b
    ∃ program, assemble (Addition.source first second) = .ok program ∧
      (-32768 ≤ x.toInt + y.toInt ∧ x.toInt + y.toInt ≤ 32767 →
        Machine.initial.FaultFree program 5 ∧
          ∃ sum : Word, sum.toInt = x.toInt + y.toInt ∧
            Machine.initial.after program 5 =
              { registers := #v[sum, y, Word.zero, Word.zero]
                pc := 4
                flags := ⟨decide (x.toInt + y.toInt = 0), decide (x.toInt + y.toInt < 0)⟩
                halted := true
                output := #[toString (x.toInt + y.toInt)] }) ∧
      (x.toInt + y.toInt < -32768 ∨ 32767 < x.toInt + y.toInt →
        Machine.initial.FaultFree program 2 ∧
          ((Machine.initial.after program 2).step program).outcome =
            .fault ⟨.arithmeticOverflow, some 3⟩ ∧
          Machine.initial.after program 3 =
            { registers := #v[x, y, Word.zero, Word.zero], pc := 2 }) := by
  intro x y
  have hmode : (Operand.ofText first.toList).mode = .immediate (Value.saturate a) := by
    rw [Operand.ofText_integer hfirst]
  have hmode' : (Operand.ofText second.toList).mode = .immediate (Value.saturate b) := by
    rw [Operand.ofText_integer hsecond]
  have hx : Word.saturate (Value.saturate a).toInt = x := Value.saturate_toInt_saturate a
  have hy : Word.saturate (Value.saturate b).toInt = y := Value.saturate_toInt_saturate b
  refine ⟨_, Addition.assemble_source (Numeral.solid_of_integer hfirst)
    (Numeral.solid_of_integer hsecond), fun ⟨hlow, hhigh⟩ => ?_, fun hrange => ?_⟩
  · have hsum : (Word.saturate (x.toInt + y.toInt)).toInt = x.toInt + y.toInt :=
      Word.toInt_saturate_of_mem hlow hhigh
    obtain ⟨hfree, hafter⟩ := Addition.reaches_halted hmode hmode' hx hy hsum
    rw [hsum] at hafter
    exact ⟨hfree, _, hsum, hafter⟩
  · obtain ⟨hfree, hafter⟩ := Addition.reaches_loaded hmode hmode' hx hy
    have houtcome := Addition.outcome_of_outOfRange hmode hmode' hx hy hrange
    have hkeep := Machine.step_machine_of_ne_done (fun hdone => nomatch houtcome.symm.trans hdone)
    exact ⟨hfree, houtcome, (Machine.after_succ 2).trans (hkeep.trans hafter)⟩

/-- A number of twenty digits, beyond the range of values, is the greatest word. -/
theorem after_addition_wideOperand :
    ∃ program,
      assemble "MOV R0,-0017\nMOV R1,99999999999999999999\nADD R0,R1\nOUT R0\nHLT" =
          .ok program ∧
        (Machine.initial.after program 5).output = #["32750"] := by
  obtain ⟨program, hassemble, hsum, -⟩ :=
    after_addition "-0017" "99999999999999999999" (-17) 99999999999999999999
      (Numeral.integer?_eq_some_iff.1 (by decide +kernel))
      (Numeral.integer?_eq_some_iff.1 (by decide +kernel))
  obtain ⟨-, sum, -, hafter⟩ := hsum (by decide)
  have houtput : (Machine.initial.after program 5).output =
      #[toString ((Word.saturate (-17)).toInt + (Word.saturate 99999999999999999999).toInt)] :=
    congrArg Machine.output hafter
  refine ⟨program, hassemble, ?_⟩
  rw [houtput]
  decide +kernel

end RegisterMachine
