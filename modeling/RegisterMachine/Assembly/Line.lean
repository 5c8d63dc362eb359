import RegisterMachine.Assembly.SyntaxError
import RegisterMachine.Opcode
import RegisterMachine.Operand
import RegisterMachine.Text.Split

/-!
# Source lines

A source line is read up to its first semicolon, which begins a comment, and
without blanks at its ends. What is left, the *body*, consists of two parts, both
of which may be missing:

* a *label*, a name in front of the first colon;
* a *statement*, an operation and its operands. A blank separates the operation
  from the operands, and commas separate the operands from one another.

A line that has no label and no statement is empty. Whether the operands fit the
operation does not matter here.
-/

namespace RegisterMachine

open Blank Split

/-- An operation and its operands. -/
@[ext]
structure Statement where
  opcode : Opcode
  operands : List Operand
  deriving DecidableEq

namespace Statement

/-- The operands in a text without blanks at its ends. None of them is blank. -/
def operandsOfText (text : List Char) : Except SyntaxCause (List Operand) :=
  if text.isEmpty then .ok []
  else
    let pieces := text.splitOn ','
    if pieces.any fun piece => (trim piece).isEmpty then .error .emptyOperand
    else .ok (pieces.map Operand.ofText)

/-- The statement of a text without blanks at its ends. -/
def ofText (text : List Char) : Except SyntaxCause Statement :=
  let (mnemonic, rest) := (cut? isBlank text).getD (text, [])
  match Opcode.ofMnemonic? (String.ofList mnemonic) with
  | none => .error (.unknownMnemonic (String.ofList mnemonic))
  | some opcode => (operandsOfText (trim rest)).map fun operands => ⟨opcode, operands⟩

/-- The statement of a text without blanks at its ends, if it is not empty. -/
def ofText? (text : List Char) : Except SyntaxCause (Option Statement) :=
  if text.isEmpty then .ok none else (ofText text).map some

end Statement

/-- A source line: its label, and its statement or what is wrong with it. -/
structure Line where
  label : Option String
  statement : Except SyntaxCause (Option Statement)

namespace Line

/-- Names begin with an ASCII letter or an underscore. -/
def isNameStart (c : Char) : Bool := c.isAlpha || c == '_'

/-- Names go on with ASCII letters, digits and underscores. -/
def isNameRest (c : Char) : Bool := c.isAlphanum || c == '_'

/-- Whether a text is a name. -/
def isName : List Char → Bool
  | [] => false
  | c :: rest => isNameStart c && rest.all isNameRest

/-- The body of a source line. -/
def body (text : List Char) : List Char := trim (before (· == ';') text)

/-- The line of a body. -/
def ofBody (body : List Char) : Line :=
  match cut? (· == ':') body with
  | none => ⟨none, Statement.ofText? body⟩
  | some (name, rest) =>
    if isName name then ⟨some (String.ofList name), Statement.ofText? (trim rest)⟩
    else ⟨none, .error (.invalidLabel (String.ofList name))⟩

/-- The line of a source text. -/
def ofText (text : List Char) : Line := ofBody (body text)

end Line

end RegisterMachine
