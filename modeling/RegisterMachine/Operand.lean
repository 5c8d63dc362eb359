import RegisterMachine.Text.Blank
import RegisterMachine.Text.Numeral
import RegisterMachine.Value

/-!
# Operands

An operand is a piece of source text together with its *addressing mode*, the
way in which the text denotes a location or a value:

* `R0` to `R3` is a register;
* a decimal integer is an immediate value;
* a decimal integer in brackets is the memory cell at that address;
* a register in brackets is the memory cell whose address the register holds;
* anything else is a symbol, such as the name of a label.

Blanks around the text, and inside of the brackets, do not count.
-/

namespace RegisterMachine

open Blank Numeral

/-- A general purpose register. -/
structure Register where
  index : Fin 4
  deriving DecidableEq, Repr

namespace Register

/-- The register of a digit. -/
def ofDigit? : Char → Option Register
  | '0' => some ⟨0⟩
  | '1' => some ⟨1⟩
  | '2' => some ⟨2⟩
  | '3' => some ⟨3⟩
  | _ => none

/-- The register that a text names, in upper or lower case. -/
def ofText? : List Char → Option Register
  | ['R', digit] | ['r', digit] => ofDigit? digit
  | _ => none

/-- The name of a register. -/
def name (register : Register) : String := s!"R{register.index.val}"

/-- A register is its letter, in either case, with a digit. -/
theorem ofText?_pair (letter digit : Char) :
    ofText? [letter, digit] = if letter = 'R' ∨ letter = 'r' then ofDigit? digit else none := by
  by_cases hlarge : letter = 'R'
  · subst hlarge
    rfl
  by_cases hsmall : letter = 'r'
  · subst hsmall
    rfl
  simp [ofText?, hlarge, hsmall]

theorem ofText?_of_length_ne {text : List Char} (h : text.length ≠ 2) : ofText? text = none := by
  unfold ofText?
  split
  · exact absurd rfl h
  · exact absurd rfl h
  · rfl

end Register

/-- The way in which an operand denotes a location or a value. -/
inductive Mode
  | register (register : Register)
  | immediate (value : Value)
  | direct (address : Value)
  | indirect (register : Register)
  | symbol
  deriving DecidableEq

namespace Mode

/-- The value of a decimal integer, saturated if it is no value. -/
def value? (text : List Char) : Option Value :=
  (integer? text).map Value.saturate

/-- The text inside of a pair of brackets. -/
def bracketed? : List Char → Option (List Char)
  | '[' :: text => if text.getLast? = some ']' then some text.dropLast else none
  | _ => none

/-- The mode of a text in brackets, given the text inside of them. -/
def ofBracketed? (text : List Char) : Option Mode :=
  (Register.ofText? text).map indirect <|> (value? text).map direct

/-- The mode of a text without blanks around it. -/
def ofText (text : List Char) : Mode :=
  ((Register.ofText? text).map register
    <|> (value? text).map immediate
    <|> (bracketed? text).bind fun inner => ofBracketed? (trim inner)).getD symbol

theorem bracketed?_of_ne {c : Char} (h : c ≠ '[') (rest : List Char) :
    bracketed? (c :: rest) = none := by
  unfold bracketed?
  split
  · next heq =>
    cases heq
    exact absurd rfl h
  · rfl

end Mode

/-- An operand as written, with its addressing mode. -/
@[ext]
structure Operand where
  token : String
  mode : Mode
  deriving DecidableEq

/-- The operand that a text denotes. -/
def Operand.ofText (text : List Char) : Operand where
  token := String.ofList (trim text)
  mode := Mode.ofText (trim text)

end RegisterMachine
