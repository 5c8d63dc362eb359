/-!
# Numerals

Reading and writing numbers as text.

* `digits?` reads a run of one or more ASCII digits, `integer?` the same with an
  optional minus sign in front, both without any bound on the value;
* `bounded` reads a counter that has a largest value, and tells apart what can
  be wrong with it. The digits are taken one by one, so the first digit that
  exceeds the bound or is no digit decides (`Refusal`);
* `decimal` and `hexadecimal` write a number, with zeros in front up to a least
  width, the hexadecimal digits in upper case.
-/

namespace RegisterMachine.Numeral

/-- The value of a run of one or more ASCII digits. -/
def digits? (text : List Char) : Option Nat :=
  if !text.isEmpty && text.all Char.isDigit then some (Nat.ofDigitChars 10 text 0) else none

/-- The value of a run of ASCII digits with an optional minus sign in front. -/
def integer? : List Char → Option Int
  | '-' :: text => (digits? text).map fun value => -(value : Int)
  | text => (digits? text).map Int.ofNat

/-- Why a text is not a counter. -/
inductive Refusal
  | empty
  | notDigit
  | tooLarge
  deriving DecidableEq, Repr

/-- The wording of a refusal. -/
def Refusal.message : Refusal → String
  | .empty => "cannot parse integer from empty string"
  | .notDigit => "invalid digit found in string"
  | .tooLarge => "number too large to fit in target type"

/-- Appends one digit to a counter of at most `bound`. -/
def appendDigit (bound value : Nat) (c : Char) : Except Refusal Nat :=
  if !c.isDigit then .error .notDigit
  else
    let value := 10 * value + (c.toNat - '0'.toNat)
    if value ≤ bound then .ok value else .error .tooLarge

/-- The value of a counter of at most `bound`: one or more digits, with an
    optional plus sign in front. -/
def bounded (bound : Nat) : List Char → Except Refusal Nat
  | [] => .error .empty
  | ['+'] => .error .notDigit
  | '+' :: text => text.foldlM (appendDigit bound) 0
  | text => text.foldlM (appendDigit bound) 0

/-- The decimal numeral of `n`, of at least `width` digits. -/
def decimal (width n : Nat) : String :=
  String.ofList ((Nat.toDigits 10 n).leftpad width '0')

/-- The hexadecimal numeral of `n`, of at least `width` digits. -/
def hexadecimal (width n : Nat) : String :=
  String.ofList (((Nat.toDigits 16 n).map Char.toUpper).leftpad width '0')

@[simp] theorem digits?_nil : digits? [] = none := rfl

theorem digits?_eq_some_iff {digits : List Char} {n : Nat} : digits? digits = some n ↔
    digits ≠ [] ∧ digits.all Char.isDigit ∧ Nat.ofDigitChars 10 digits 0 = n := by
  rw [digits?, Option.ite_none_right_eq_some, Option.some_inj, Bool.and_eq_true,
    Bool.not_eq_true', List.isEmpty_eq_false_iff, and_assoc]

/-- The shortest decimal numeral of a number reads back as it. -/
theorem digits?_toDigits (n : Nat) : digits? (Nat.toDigits 10 n) = some n := by
  have hne : (Nat.toDigits 10 n).isEmpty = false := by
    simp [List.isEmpty_eq_false_iff]
  have hall : (Nat.toDigits 10 n).all Char.isDigit = true :=
    List.all_eq_true.2 fun c hc => Nat.isDigit_of_mem_toDigits (by decide) (by decide) hc
  simp [digits?, hne, hall, Nat.ofDigitChars_toDigits]

theorem integer?_minus (rest : List Char) :
    integer? ('-' :: rest) = (digits? rest).map fun value => -(Int.ofNat value) := by
  rw [integer?]
  cases digits? rest <;> rfl

theorem integer?_of_ne {c : Char} (h : c ≠ '-') (rest : List Char) :
    integer? (c :: rest) = (digits? (c :: rest)).map Int.ofNat := by
  unfold integer?
  split
  · next heq =>
    cases heq
    exact absurd rfl h
  · rfl

end RegisterMachine.Numeral
