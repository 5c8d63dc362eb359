import RegisterMachine.Proofs.Footprint
import RegisterMachine.Proofs.Printing

/-!
# Addressing modes

What the text of an operand may be, and the mode that it stands for, as rules that build
the text from its parts (`OperandText`). Numerals come with the integers that they stand
for, of whatever size; only then are these saturated to values.

An operand is classified by asking one question after the other. The order of the
questions does not matter, for no text is both a register and a numeral, and none of
either begins with a bracket; a text that is neither, with brackets or without, is a
symbol.

* `Numeral.digits?_eq_some_iff_decimal`, `Numeral.integer?_eq_some_iff`: which texts are
  read as numbers, and as which;
* `Mode.ofText_eq_iff`: a text has the mode that the grammar tells, and is a symbol if
  the grammar tells none;
* `Operand.ofText_toString`, `Operand.ofText_bracketed`: values in decimal read back;
* `Machine.eq_toString_of_mem_output_after`: the output consists of values in decimal;
* `operand_grammar`: all of this at once.
-/

namespace RegisterMachine

open Blank

namespace Grammar

/-- Decimal numerals, with the numbers that they stand for. A digit behind a numeral is
    added to ten times the number. -/
inductive Decimal : List Char → Nat → Prop
  | digit {c : Char} : IsDigit c → Decimal [c] (c.toNat - '0'.toNat)
  | append {digits : List Char} {n : Nat} {c : Char} : Decimal digits n → IsDigit c →
      Decimal (digits ++ [c]) (10 * n + (c.toNat - '0'.toNat))

/-- Decimal numerals with or without a minus sign, with the integers that they stand for. -/
inductive Integer : List Char → Int → Prop
  | natural {digits : List Char} {n : Nat} : Decimal digits n → Integer digits n
  | negative {digits : List Char} {n : Nat} : Decimal digits n → Integer ('-' :: digits) (-n)

/-- The names of registers: a letter, in either case, and the index as a digit. -/
inductive RegisterName : List Char → Register → Prop
  | intro {letter digit : Char} {register : Register} : letter = 'R' ∨ letter = 'r' →
      Decimal [digit] register.index → RegisterName [letter, digit] register

/-- A value is the one nearest to an integer. -/
def Nearest (n : Int) (value : Value) : Prop :=
  value.toInt = max (-2 ^ 63) (min (2 ^ 63 - 1) n)

/-- The texts of operands that are no symbols, with the modes that they stand for. -/
inductive OperandText : List Char → Mode → Prop
  | register {text : List Char} {register : Register} : RegisterName text register →
      OperandText text (.register register)
  | immediate {text : List Char} {n : Int} {value : Value} : Integer text n → Nearest n value →
      OperandText text (.immediate value)
  | indirect {inner : List Char} {register : Register} : RegisterName (trim inner) register →
      OperandText ('[' :: inner ++ [']']) (.indirect register)
  | direct {inner : List Char} {n : Int} {value : Value} : Integer (trim inner) n →
      Nearest n value → OperandText ('[' :: inner ++ [']']) (.direct value)

instance (c : Char) : Decidable (IsDigit c) := inferInstanceAs (Decidable (_ ∧ _))

variable {n : Int} {value : Value}

theorem nearest_iff : Nearest n value ↔ Value.saturate n = value := by
  rw [← Int64.toInt_inj, Value.toInt_saturate, Nearest, eq_comm]
  norm_num

theorem nearest_toInt (value : Value) : Nearest value.toInt value := by
  have hle := value.le_toInt
  have hlt := value.toInt_lt
  rw [Nearest]
  omega

end Grammar

open Grammar

/-! ## Numerals -/

namespace Numeral

variable {text digits : List Char}

theorem decimal_ofDigitChars (hne : digits ≠ []) (hall : ∀ c ∈ digits, IsDigit c) :
    Decimal digits (Nat.ofDigitChars 10 digits 0) := by
  induction digits using List.reverseRecOn with
  | nil => exact absurd rfl hne
  | append_singleton front c ih =>
    obtain ⟨hfront, hc⟩ := List.forall_mem_append.1 hall
    have hdigit : IsDigit c := hc c (List.mem_singleton_self c)
    rw [Nat.ofDigitChars_append, Nat.ofDigitChars_cons, Nat.ofDigitChars_nil]
    by_cases hnil : front = []
    · subst hnil
      rw [Nat.ofDigitChars_nil, Nat.mul_zero, Nat.zero_add]
      exact .digit hdigit
    · exact .append (ih hnil hfront) hdigit

theorem ofDigitChars_of_decimal {n : Nat} (h : Decimal digits n) :
    digits ≠ [] ∧ (∀ c ∈ digits, IsDigit c) ∧ Nat.ofDigitChars 10 digits 0 = n := by
  induction h with
  | @digit c hc =>
    refine ⟨List.cons_ne_nil c [], List.forall_mem_singleton.2 hc, ?_⟩
    rw [Nat.ofDigitChars_cons, Nat.ofDigitChars_nil, Nat.mul_zero, Nat.zero_add]
  | @append digits n c _ hc ih =>
    obtain ⟨-, hall, hn⟩ := ih
    refine ⟨List.append_ne_nil_of_right_ne_nil _ (List.cons_ne_nil c []),
      List.forall_mem_append.2 ⟨hall, List.forall_mem_singleton.2 hc⟩, ?_⟩
    rw [Nat.ofDigitChars_append, hn, Nat.ofDigitChars_cons, Nat.ofDigitChars_nil]

/-- A run of digits is read as the number that it stands for. -/
theorem digits?_eq_some_iff_decimal {n : Nat} : digits? digits = some n ↔ Decimal digits n := by
  rw [digits?_eq_some_iff, List.all_eq_true]
  simp only [isDigit_iff]
  constructor
  · rintro ⟨hne, hall, rfl⟩
    exact decimal_ofDigitChars hne hall
  · exact ofDigitChars_of_decimal

theorem decimal_singleton_iff {c : Char} {n : Nat} :
    Decimal [c] n ↔ IsDigit c ∧ c.toNat - '0'.toNat = n := by
  rw [← digits?_eq_some_iff_decimal, digits?_eq_some_iff, ← isDigit_iff, Nat.ofDigitChars_cons,
    Nat.ofDigitChars_nil, Nat.mul_zero, Nat.zero_add]
  simp

theorem isDigit_of_integer {n : Int} (h : Integer text n) :
    ∀ c ∈ text, IsDigit c ∨ c = '-' := by
  cases h with
  | natural h => exact fun c hc => .inl ((ofDigitChars_of_decimal h).2.1 c hc)
  | negative h =>
    rintro c (_ | ⟨_, hc⟩)
    · exact .inr rfl
    · exact .inl ((ofDigitChars_of_decimal h).2.1 c hc)

/-- There is nothing in a numeral that could end it. -/
theorem solid_of_integer {n : Int} (h : Integer text n) : Solid text where
  ne_nil := by
    cases h with
    | natural h => exact (ofDigitChars_of_decimal h).1
    | negative => exact List.cons_ne_nil _ _
  char c hc := by
    refine (isDigit_of_integer h c hc).imp_left fun hdigit => ?_
    rw [Line.isNameRest, Char.isAlphanum, isDigit_iff.2 hdigit, Bool.or_true, Bool.true_or]

/-- A text is read as the integer that it stands for. -/
theorem integer?_eq_some_iff {n : Int} : integer? text = some n ↔ Integer text n := by
  constructor
  · intro h
    obtain _ | ⟨c, rest⟩ := text
    · cases h
    obtain rfl | hc := eq_or_ne c '-'
    · rw [integer?_minus] at h
      obtain ⟨m, hm, rfl⟩ := Option.map_eq_some_iff.1 h
      exact .negative (digits?_eq_some_iff_decimal.1 hm)
    · rw [integer?_of_ne hc] at h
      obtain ⟨m, hm, rfl⟩ := Option.map_eq_some_iff.1 h
      exact .natural (digits?_eq_some_iff_decimal.1 hm)
  · intro h
    cases h with
    | natural h =>
      have hdigits := digits?_eq_some_iff_decimal.2 h
      obtain ⟨hne, hall, -⟩ := ofDigitChars_of_decimal h
      obtain ⟨c, rest, rfl⟩ := List.exists_cons_of_ne_nil hne
      -- The first digit is no minus sign.
      have hc : c ≠ '-' := by
        rintro rfl
        exact absurd (hall '-' List.mem_cons_self) (by decide)
      rw [integer?_of_ne hc, hdigits]
      rfl
    | negative h =>
      rw [integer?_minus, digits?_eq_some_iff_decimal.2 h]
      rfl

/-- An integer in decimal stands for itself. -/
theorem integer_toString (n : Int) : Integer (toString n).toList n := by
  have hnat (m : Nat) : Decimal (Nat.repr m).toList m :=
    digits?_eq_some_iff_decimal.1 (by rw [Nat.repr, String.toList_ofList, digits?_toDigits])
  cases n with
  | ofNat m => exact .natural (hnat m)
  | negSucc m =>
    have htext : (toString (Int.negSucc m)).toList = '-' :: (Nat.repr (m + 1)).toList :=
      String.toList_append
    rw [htext]
    exact .negative (hnat (m + 1))

end Numeral

/-! ## Registers -/

namespace Register

variable {text : List Char} {register : Register}

theorem ofDigit?_eq_some_iff {c : Char} :
    ofDigit? c = some register ↔ Decimal [c] register.index := by
  constructor
  · intro h
    unfold ofDigit? at h
    split at h <;> cases h <;> exact .digit (by decide)
  · intro h
    obtain ⟨⟨hlow, -⟩, hindex⟩ := Numeral.decimal_singleton_iff.1 h
    obtain ⟨index⟩ := register
    have hc : c = Char.ofNat ('0'.toNat + index) := by
      have hle : '0'.toNat ≤ c.toNat := hlow
      rw [← hindex, Nat.add_sub_cancel' hle, Char.ofNat_toNat]
    subst hc
    clear hindex hlow h
    revert index
    decide

/-- A text is read as the register that it names. -/
theorem ofText?_eq_some_iff : ofText? text = some register ↔ RegisterName text register := by
  constructor
  · intro h
    by_cases hlength : text.length = 2
    · obtain ⟨letter, digit, rfl⟩ := List.length_eq_two.1 hlength
      rw [ofText?_pair, Option.ite_none_right_eq_some] at h
      exact .intro h.1 (ofDigit?_eq_some_iff.1 h.2)
    · rw [ofText?_of_length_ne hlength] at h
      cases h
  · rintro ⟨hletter, hdigit⟩
    rw [ofText?_pair, if_pos hletter, ofDigit?_eq_some_iff.2 hdigit]

/-- The name of a register begins with a letter. -/
theorem ofText?_eq_none {c : Char} (hmem : c ∈ text.head?) (hlarge : c ≠ 'R') (hsmall : c ≠ 'r') :
    ofText? text = none := by
  rw [Option.eq_none_iff_forall_ne_some]
  intro register h
  obtain ⟨hletter, -⟩ := ofText?_eq_some_iff.1 h
  obtain rfl := Option.mem_some.1 hmem
  exact hletter.elim hlarge hsmall

theorem ofText?_of_integer {n : Int} (h : Integer text n) : ofText? text = none := by
  rw [Option.eq_none_iff_forall_ne_some]
  intro register hregister
  obtain ⟨hletter, -⟩ := ofText?_eq_some_iff.1 hregister
  have hfirst := Numeral.isDigit_of_integer h _ List.mem_cons_self
  obtain rfl | rfl := hletter <;> exact absurd hfirst (by decide)

end Register

/-! ## Modes -/

namespace Mode

variable {text inner : List Char} {mode : Mode}

theorem value?_eq_some_iff {value : Value} :
    value? text = some value ↔ ∃ n, Integer text n ∧ Nearest n value := by
  simp only [value?, Option.map_eq_some_iff, Numeral.integer?_eq_some_iff, nearest_iff]

/-- A numeral begins with a digit or a minus sign. -/
theorem value?_eq_none {c : Char} (hmem : c ∈ text.head?) (hc : ¬ (IsDigit c ∨ c = '-')) :
    value? text = none := by
  rw [Option.eq_none_iff_forall_ne_some]
  intro value h
  obtain ⟨n, hn, -⟩ := value?_eq_some_iff.1 h
  exact hc (Numeral.isDigit_of_integer hn c (List.mem_of_mem_head? hmem))

theorem bracketed?_eq_some_iff : bracketed? text = some inner ↔ text = '[' :: inner ++ [']'] := by
  constructor
  · intro h
    obtain _ | ⟨c, rest⟩ := text
    · cases h
    obtain rfl | hc := eq_or_ne c '['
    · rw [bracketed?, Option.ite_none_right_eq_some] at h
      obtain ⟨hlast, hinner⟩ := h
      obtain ⟨front, rfl⟩ := List.getLast?_eq_some_iff.1 hlast
      rw [List.dropLast_concat, Option.some_inj] at hinner
      rw [hinner, List.cons_append]
    · rw [bracketed?_of_ne hc] at h
      cases h
  · rintro rfl
    rw [List.cons_append, bracketed?, List.getLast?_concat, if_pos rfl, List.dropLast_concat]

/-- A text has the mode that it stands for. -/
theorem ofText_of_operandText (h : OperandText text mode) : ofText text = mode := by
  have hbracket (inner : List Char) : ofText ('[' :: inner ++ [']']) =
      (ofBracketed? (trim inner)).getD symbol := by
    have hregister : Register.ofText? ('[' :: inner ++ [']']) = none :=
      Register.ofText?_eq_none rfl (by decide) (by decide)
    have hvalue : value? ('[' :: inner ++ [']']) = none := value?_eq_none rfl (by decide)
    simp only [ofText, hregister, hvalue, bracketed?_eq_some_iff.2 rfl, Option.bind_some]
    rfl
  cases h with
  | register h =>
    simp only [ofText, Register.ofText?_eq_some_iff.2 h]
    rfl
  | immediate h hnearest =>
    simp only [ofText, Register.ofText?_of_integer h, value?_eq_some_iff.2 ⟨_, h, hnearest⟩]
    rfl
  | indirect h =>
    simp only [hbracket, ofBracketed?, Register.ofText?_eq_some_iff.2 h]
    rfl
  | direct h hnearest =>
    simp only [hbracket, ofBracketed?, Register.ofText?_of_integer h,
      value?_eq_some_iff.2 ⟨_, h, hnearest⟩]
    rfl

/-- A text that is no symbol stands for its mode. -/
theorem operandText_ofText (h : ofText text ≠ symbol) : OperandText text (ofText text) := by
  rcases hregister : Register.ofText? text with _ | register
  swap
  · have hmode := Register.ofText?_eq_some_iff.1 hregister
    rw [ofText_of_operandText (.register hmode)]
    exact .register hmode
  rcases hvalue : value? text with _ | value
  swap
  · obtain ⟨n, hn, hnearest⟩ := value?_eq_some_iff.1 hvalue
    rw [ofText_of_operandText (.immediate hn hnearest)]
    exact .immediate hn hnearest
  rcases hbracket : bracketed? text with _ | inner
  · exact absurd (by simp only [ofText, hregister, hvalue, hbracket]; rfl) h
  obtain rfl := bracketed?_eq_some_iff.1 hbracket
  rcases hinner : Register.ofText? (trim inner) with _ | register
  swap
  · have hmode := Register.ofText?_eq_some_iff.1 hinner
    rw [ofText_of_operandText (.indirect hmode)]
    exact .indirect hmode
  rcases haddress : value? (trim inner) with _ | address
  · exact absurd (by
      simp only [ofText, hregister, hvalue, hbracket, Option.bind_some, ofBracketed?, hinner,
        haddress]
      rfl) h
  · obtain ⟨n, hn, hnearest⟩ := value?_eq_some_iff.1 haddress
    rw [ofText_of_operandText (.direct hn hnearest)]
    exact .direct hn hnearest

/-- A text has the mode that the grammar tells, and is a symbol if the grammar tells none. -/
theorem ofText_eq_iff : ofText text = mode ↔
    OperandText text mode ∨ mode = symbol ∧ ∀ other, ¬ OperandText text other := by
  constructor
  · rintro rfl
    by_cases h : ofText text = symbol
    · refine .inr ⟨h, fun other hother => ?_⟩
      rw [ofText_of_operandText hother] at h
      subst h
      cases hother
    · exact .inl (operandText_ofText h)
  · rintro (h | ⟨rfl, h⟩)
    · exact ofText_of_operandText h
    · by_contra hne
      exact h _ (operandText_ofText hne)

end Mode

/-! ## Operands -/

namespace Operand

variable {text : List Char} {n : Int} {value : Value}

theorem ofText_of_operandText {mode : Mode} (htrim : trim text = text)
    (h : OperandText text mode) : ofText text = ⟨String.ofList text, mode⟩ := by
  rw [ofText, htrim, Mode.ofText_of_operandText h]

theorem ofText_integer (h : Integer text n) :
    ofText text = ⟨String.ofList text, .immediate (Value.saturate n)⟩ :=
  ofText_of_operandText (Numeral.solid_of_integer h).trim_eq (.immediate h (nearest_iff.2 rfl))

/-- A value in decimal is an immediate operand of this value. -/
theorem ofText_toString (value : Value) :
    ofText (toString value.toInt).toList = ⟨toString value.toInt, .immediate value⟩ := by
  rw [ofText_integer (Numeral.integer_toString _), nearest_iff.1 (nearest_toInt value),
    String.ofList_toList]

/-- A value in decimal and in brackets is the memory cell at this value. -/
theorem ofText_bracketed (value : Value) :
    ofText ('[' :: (toString value.toInt).toList ++ [']']) =
      ⟨"[" ++ toString value.toInt ++ "]", .direct value⟩ := by
  have hinteger := Numeral.integer_toString value.toInt
  have htrim : trim ('[' :: (toString value.toInt).toList ++ [']']) =
      '[' :: (toString value.toInt).toList ++ [']'] := by
    refine trim_eq_self (fun c hc => ?_) fun c hc => ?_
    · obtain rfl := Option.mem_some.1 hc
      decide
    · rw [List.getLast?_concat] at hc
      obtain rfl := Option.mem_some.1 hc
      decide
  rw [ofText_of_operandText htrim (.direct (by rwa [(Numeral.solid_of_integer hinteger).trim_eq])
    (nearest_toInt value)), Operand.mk.injEq, ← String.toList_inj]
  simp

end Operand

/-! ## The output -/

namespace Machine

variable {machine : Machine} {program : Program}

/-- An output that is done writes the value of its operand in decimal. -/
theorem read_of_succeeds_out (h : machine.Succeeds program (· == .out)) :
    ∃ instruction operand value, machine.current? program = some instruction ∧
      instruction.operands = [operand] ∧ machine.read operand.mode = .ok value ∧
      (machine.step program).machine.output = machine.output.push (toString value.toInt) := by
  obtain ⟨instruction, operand, n, hcurrent, hoperands, hread, houtput⟩ :=
    output_step_of_succeeds h
  rw [readInt_eq_map_read] at hread
  rcases hvalue : machine.read operand.mode with kind | value
  · rw [hvalue] at hread
    cases hread
  · rw [hvalue] at hread
    obtain rfl : value.toInt = n := Except.ok.inj hread
    exact ⟨instruction, operand, value, hcurrent, hoperands, hvalue, houtput⟩

/-- All texts of the output are values in decimal, if they are so at the start. -/
theorem eq_toString_of_mem_output_after
    (h : ∀ text ∈ machine.output, ∃ value : Value, text = toString value.toInt) (n : Nat) :
    ∀ text ∈ (machine.after program n).output, ∃ value : Value, text = toString value.toInt := by
  induction n with
  | zero => exact h
  | succ n ih =>
    intro text htext
    rw [after_succ] at htext
    by_cases hout : (machine.after program n).Succeeds program (· == .out)
    · obtain ⟨_, _, value, _, _, _, houtput⟩ := read_of_succeeds_out hout
      rw [houtput, Array.mem_push] at htext
      exact htext.elim (ih text) fun heq => ⟨value, heq⟩
    · rw [output_step_of_not_succeeds hout] at htext
      exact ih text htext

end Machine

/-- The token of an operand is its text without the blanks at its ends, and its mode is the one
    that the grammar tells of the token: a symbol, if the grammar tells none. So a value in
    decimal is read as this value, and in brackets as the cell at this value; and what an
    output writes is read as the value that was written. -/
theorem operand_grammar (text : List Char) :
    (Operand.ofText text).token = String.ofList (trim text) ∧
    (∀ mode, (Operand.ofText text).mode = mode ↔
      OperandText (trim text) mode ∨
        mode = .symbol ∧ ∀ other, ¬ OperandText (trim text) other) ∧
    (∀ value : Value,
      Operand.ofText (toString value.toInt).toList =
        ⟨toString value.toInt, .immediate value⟩ ∧
      Operand.ofText ('[' :: (toString value.toInt).toList ++ [']']) =
        ⟨"[" ++ toString value.toInt ++ "]", .direct value⟩) ∧
    (∀ program machine, Machine.Succeeds machine program (· == .out) →
      ∃ instruction operand value written, machine.current? program = some instruction ∧
        instruction.operands = [operand] ∧ machine.read operand.mode = .ok value ∧
        (machine.step program).machine.output = machine.output.push written ∧
        Operand.ofText written.toList = ⟨written, .immediate value⟩) ∧
    ∀ program n, ∀ written ∈ (Machine.initial.after program n).output,
      ∃ value : Value, written = toString value.toInt ∧
        Operand.ofText written.toList = ⟨written, .immediate value⟩ := by
  refine ⟨rfl, fun mode => Mode.ofText_eq_iff, fun value => ⟨Operand.ofText_toString value,
    Operand.ofText_bracketed value⟩, fun program machine hout => ?_,
    fun program n written hwritten => ?_⟩
  · obtain ⟨instruction, operand, value, hcurrent, hoperands, hread, houtput⟩ :=
      Machine.read_of_succeeds_out hout
    exact ⟨instruction, operand, value, _, hcurrent, hoperands, hread, houtput,
      Operand.ofText_toString value⟩
  · obtain ⟨value, rfl⟩ :=
      Machine.eq_toString_of_mem_output_after
        (fun _ htext => absurd htext (Array.not_mem_empty _)) n written hwritten
    exact ⟨value, rfl, Operand.ofText_toString value⟩

/-- A program that writes a number given with leading zeros. -/
def leadingZeros : Program where
  instructions := #[⟨.out, [.ofText "-007".toList], 1⟩]
  labels := ∅

/-- Blanks and zeros do not matter in front of a number, and are not written. -/
theorem operand_grammar_leadingZeros :
    OperandText "[ -007 ]".toList (.direct (-7)) ∧
      (Machine.initial.step leadingZeros).machine.output = #["-7"] ∧
      Operand.ofText "-7".toList = ⟨"-7", .immediate (-7)⟩ := by
  obtain ⟨-, hmode, -, hout, hrun⟩ := operand_grammar " [ -007 ]\t".toList
  have houtput : (Machine.initial.step leadingZeros).machine.output = #["-7"] := by
    decide +kernel
  obtain ⟨_, _, _, written, -, -, -, hpush, -⟩ :=
    hout leadingZeros Machine.initial (by decide +kernel)
  obtain rfl : written = "-7" := by
    have hsingle : #["-7"] = #[written] := houtput.symm.trans hpush
    simpa using hsingle.symm
  obtain ⟨value, -, hvalue⟩ := hrun leadingZeros 1 "-7" (by
    rw [Machine.after_succ, Machine.after_zero, houtput]
    exact Array.mem_singleton.2 rfl)
  refine ⟨?_, houtput, ?_⟩
  · exact ((hmode (.direct (-7))).1 (by decide +kernel)).resolve_right fun h => nomatch h.1
  · have himmediate : (Operand.ofText "-7".toList).mode = .immediate (-7) := by decide +kernel
    rw [hvalue] at himmediate
    obtain rfl := Mode.immediate.inj himmediate
    exact hvalue

end RegisterMachine
