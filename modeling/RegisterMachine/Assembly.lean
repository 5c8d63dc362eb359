import RegisterMachine.Assembly.Line
import RegisterMachine.Log
import RegisterMachine.Program

/-!
# Assembly

A source text is assembled line by line. A label is entered into the table with
the number of the instructions so far, which is the index of the next one; a
statement becomes an instruction. Assembly stops at the first line with an error.

The assembler logs every label and every instruction that it finds, a label that
it has found before, and the error that it stops at. An `Assembly` is what has
come of the lines read so far:

* `Assembly.readLine` reads a further line;
* `Assembly.readLines` reads lines up to an error;
* `assemble` is the program of a source text, or its first error.
-/

namespace RegisterMachine

/-- What has come of the source lines read so far. -/
structure Assembly where
  /-- The number of lines read, which is that of the line read last. -/
  lines : Nat := 0
  instructions : Array Instruction := #[]
  labels : LabelTable := ∅
  log : Log := #[]
  /-- The error at which assembly has stopped. -/
  error? : Option SyntaxError := none

namespace Assembly

/-- A message about the line read last. -/
def entry (assembly : Assembly) (level : Level) (text : String) : Entry :=
  ⟨level, s!"[{assembly.lines}] {text}"⟩

/-- Logs a message about the line read last. -/
def note (assembly : Assembly) (level : Level) (text : String) : Assembly :=
  let entry := assembly.entry level text
  { assembly with log := assembly.log.push entry }

/-- Enters a label for the next instruction, in place of one of the same name. -/
def define (assembly : Assembly) (name : String) : Assembly :=
  let index := assembly.instructions.size
  let warned := match assembly.labels.get? name with
    | some previous =>
      assembly.note .warn s!"Label `{name}` redefined (was {previous}, now {index})"
    | none => assembly
  { warned with labels := warned.labels.insert name index }.note .debug
    s!"Found label `{name}` -> {index}"

/-- Appends the instruction of a statement on the line read last. -/
def emit (assembly : Assembly) (statement : Statement) : Assembly :=
  let instruction : Instruction := ⟨statement.opcode, statement.operands, assembly.lines⟩
  let entry := assembly.entry .debug s!"Found instruction {instruction.text}"
  { assembly with
    instructions := assembly.instructions.push instruction
    log := assembly.log.push entry }

/-- Stops at an error on the line read last. -/
def fail (assembly : Assembly) (cause : SyntaxCause) : Assembly :=
  let error : SyntaxError := ⟨cause, assembly.lines⟩
  { assembly with log := assembly.log.push ⟨.error, error.message⟩, error? := some error }

/-- Enters the label of a line, if it has one. -/
def readLabel (assembly : Assembly) (label : Option String) : Assembly :=
  match label with
  | some name => assembly.define name
  | none => assembly

/-- Appends the instruction of a line, if it has one, or stops at its error. -/
def readStatement (assembly : Assembly) (statement : Except SyntaxCause (Option Statement)) :
    Assembly :=
  match statement with
  | .ok (some statement) => assembly.emit statement
  | .ok none => assembly
  | .error cause => assembly.fail cause

/-- Reads a further line. -/
def readLine (assembly : Assembly) (text : List Char) : Assembly :=
  let line := Line.ofText text
  let assembly := { assembly with lines := assembly.lines + 1 }
  (assembly.readLabel line.label).readStatement line.statement

/-- Reads lines up to the first with an error. -/
def readLines (assembly : Assembly) : List (List Char) → Assembly
  | [] => assembly
  | text :: rest =>
    let assembly := assembly.readLine text
    if assembly.error?.isSome then assembly else assembly.readLines rest

/-- Reads the lines of a source text. -/
def ofSource (source : String) : Assembly :=
  ({} : Assembly).readLines (Split.lines source.toList)

/-- The program, or the error at which assembly has stopped. -/
def result (assembly : Assembly) : Except SyntaxError Program :=
  match assembly.error? with
  | some error => .error error
  | none => .ok ⟨assembly.instructions, assembly.labels⟩

end Assembly

/-- The program of a source text, or its first error. -/
def assemble (source : String) : Except SyntaxError Program :=
  (Assembly.ofSource source).result

end RegisterMachine
