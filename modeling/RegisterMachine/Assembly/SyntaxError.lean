/-!
# Syntax errors

A syntax error is the reason for which a source line cannot be assembled, with
the number of that line. Lines count from one.
-/

namespace RegisterMachine

/-- What is wrong with a line. -/
inductive SyntaxCause
  /-- The text in front of the first colon is no name. -/
  | invalidLabel (name : String)
  /-- The first word is no operation. -/
  | unknownMnemonic (mnemonic : String)
  /-- There is nothing in front of a comma, or after one. -/
  | emptyOperand
  deriving DecidableEq, Repr

/-- The wording of a cause. -/
def SyntaxCause.message : SyntaxCause → String
  | .invalidLabel name => s!"invalid label - `{name}` is not a valid label name"
  | .unknownMnemonic mnemonic =>
    s!"failed to resolve instruction - no instruction named `{mnemonic}`"
  | .emptyOperand => "empty operand - operands must not be empty"

/-- What is wrong with a program text, and on which line. -/
structure SyntaxError where
  cause : SyntaxCause
  line : Nat
  deriving DecidableEq, Repr

/-- The wording of an error on a line. -/
def SyntaxError.wording (line : Nat) (problem : String) : String :=
  s!"error [ln: {line}]: {problem}"

/-- The wording of a syntax error. -/
def SyntaxError.message (error : SyntaxError) : String :=
  wording error.line error.cause.message

end RegisterMachine
