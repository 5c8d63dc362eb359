import RegisterMachine.Machine.Run
import RegisterMachine.SourceFile

/-!
# The command line

The command runs a program from a file until it halts. Its arguments are the path
of the file and a budget of steps, `10000` if there is none; with `--dump`, which
may stand anywhere, it also shows the memory at the end. Further arguments do not
count.

The command answers with a `Report`: the messages that it shows, and the reasons
for which it has failed. The arguments are understood before the file is read.

* `Options.ofArguments`: what the arguments ask for;
* `Options.report`: the report on the file, given what can be read at its path;
* `CommandLine.report`: the report on the arguments, given how to read files.
-/

namespace RegisterMachine

/-- A line shown: a message of the log, or a line printed as it is. -/
inductive Shown
  | logged (entry : Entry)
  | printed (line : String)
  deriving DecidableEq, Repr

/-- What a command shows, and why it has failed, each reason followed by the one
    behind it. There is none if it has not failed. -/
structure Report where
  shown : Array Shown
  reasons : List String
  deriving DecidableEq, Repr

namespace Report

/-- The messages of a log as lines shown. -/
def ofLog (log : Log) : Array Shown := log.map .logged

/-- The exit status: one for a failure. -/
def status (report : Report) : Nat := if report.reasons.isEmpty then 0 else 1

end Report

/-- Why arguments do not make sense. -/
inductive UsageError
  | missingPath
  | invalidBudget (text : String) (refusal : Numeral.Refusal)
  deriving DecidableEq, Repr

/-- The wording of a usage error, as the reasons of a failure. -/
def UsageError.reasons : UsageError → List String
  | .missingPath => ["usage: run <file.asm> [budget] [--dump]"]
  | .invalidBudget text refusal => [s!"invalid step budget `{text}`", refusal.message]

/-- What the arguments ask for. -/
structure Options where
  path : String
  budget : Nat
  dump : Bool
  deriving DecidableEq, Repr

namespace Options

/-- The number of steps allowed by default. -/
def defaultBudget : Nat := 10000

/-- The largest budget. -/
def greatestBudget : Nat := 18446744073709551615

/-- The flag that asks for the memory. -/
def dumpFlag : String := "--dump"

/-- What the arguments ask for. -/
def ofArguments (arguments : List String) : Except UsageError Options :=
  let dump := arguments.contains dumpFlag
  match arguments.filter (· != dumpFlag) with
  | [] => .error .missingPath
  | [path] => .ok ⟨path, defaultBudget, dump⟩
  | path :: budget :: _ =>
    match Numeral.bounded greatestBudget budget.toList with
    | .ok steps => .ok ⟨path, steps, dump⟩
    | .error refusal => .error (.invalidBudget budget refusal)

/-- The words of the registers, in brackets. -/
def registersText (machine : Machine) : String :=
  "[" ++ ", ".intercalate (machine.registers.toList.map fun word => toString word.toInt) ++ "]"

/-- What is shown after a run that has halted: the output, the final state of the
    registers, and the memory if it is asked for. -/
def finalLog (options : Options) (run : Run) : Log :=
  let registers := registersText run.machine
  let output := run.machine.output.map fun text => ⟨.info, s!"OUT {text}"⟩
  let halted := s!"Program halted after {run.steps} steps. Registers: {registers}"
  let memory := if options.dump then run.machine.memory.dump else #[]
  output.push ⟨.info, halted⟩ ++ memory

/-- Why a run has not halted. -/
def failure? (options : Options) : Stop → Option String
  | .halted => none
  | .outOfBudget => some s!"no HLT after {options.budget} steps, giving up"
  | .fault fault => some fault.message
  | .defect defect => some defect.message

/-- The report on a program. -/
def reportOn (options : Options) (program : Program) : Report :=
  let run := Machine.initial.run program options.budget
  let loaded : Entry :=
    ⟨.info, s!"Loaded {program.instructions.size} instructions from {options.path}"⟩
  match options.failure? run.stop with
  | some reason => ⟨Report.ofLog #[loaded], [reason]⟩
  | none => ⟨Report.ofLog (#[loaded] ++ options.finalLog run), []⟩

/-- The report on the file at the path, given what can be read there. -/
def report (options : Options) (contents : FileContents) : Report :=
  let (loaded, log) := loadFrom options.path contents
  let shown := Report.ofLog log.withoutDebug
  match loaded with
  | .error error => ⟨shown, [error.message]⟩
  | .ok program =>
    let report := options.reportOn program
    { report with shown := shown ++ report.shown }

end Options

/-- The report of the command, given how to read the file at a path. -/
def CommandLine.report {m : Type → Type} [Monad m] (read : String → m FileContents)
    (arguments : List String) : m Report :=
  match Options.ofArguments arguments with
  | .error error => return ⟨#[], error.reasons⟩
  | .ok options => return options.report (← read options.path)

end RegisterMachine
