import RegisterMachine.Assembly

/-!
# Source files

A program is loaded from a file in two steps that may both fail: the file is
read, and its text is assembled. The text of a file is its bytes as UTF-8.

The paths of files have a meaning only to the one who reads them, so reading is a
function that is given: `loadFrom` takes what it answered.
-/

namespace RegisterMachine

/-- Why a file cannot be read. -/
inductive ReadError
  /-- There is no such file. -/
  | notFound
  /-- A file is taken for a directory. -/
  | notDirectory
  /-- A directory is taken for a file. -/
  | isDirectory
  /-- The operating system refuses for another reason, with a description and a number. -/
  | system (description : String) (number : Nat)
  /-- The bytes of the file are no text. -/
  | notText
  deriving DecidableEq, Repr

namespace ReadError

/-- The reason that the operating system gives by a number and a description. -/
def ofNumber (number : Nat) (description : String) : ReadError :=
  match number with
  | 2 => .notFound
  | 20 => .notDirectory
  | 21 => .isDirectory
  | number => .system description number

/-- The wording of a refusal of the operating system. -/
def systemText (description : String) (number : Nat) : String :=
  s!"{description} (os error {number})"

/-- The wording of a reason. -/
def message : ReadError → String
  | .notFound => systemText "No such file or directory" 2
  | .notDirectory => systemText "Not a directory" 20
  | .isDirectory => systemText "Is a directory" 21
  | .system description number => systemText description number
  | .notText => "stream did not contain valid UTF-8"

end ReadError

/-- Why a program cannot be loaded from a file. -/
inductive LoadError
  | unreadable (path : String) (reason : ReadError)
  | malformed (error : SyntaxError)
  deriving DecidableEq, Repr

namespace LoadError

/-- The line that a program cannot be loaded for: zero if no line was read. -/
def line : LoadError → Nat
  | .unreadable _ _ => 0
  | .malformed error => error.line

/-- The wording of an error. -/
def message : LoadError → String
  | .unreadable path reason =>
    SyntaxError.wording 0 s!"failed to read source - {path}: {reason.message}"
  | .malformed error => error.message

end LoadError

/-- What can be read at a path: bytes, or nothing for a reason. -/
abbrev FileContents := Except ReadError ByteArray

/-- The text in what was read. -/
def FileContents.text (contents : FileContents) : Except ReadError String := do
  match String.fromUTF8? (← contents) with
  | some text => .ok text
  | none => .error .notText

/-- The program in the file at a path, with what was logged while it was
    assembled. A file that cannot be read logs nothing. -/
def loadFrom (path : String) (contents : FileContents) : Except LoadError Program × Log :=
  match contents.text with
  | .error reason => (.error (.unreadable path reason), #[])
  | .ok source =>
    let assembly := Assembly.ofSource source
    (assembly.result.mapError .malformed, assembly.log)

end RegisterMachine
