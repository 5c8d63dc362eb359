import RegisterMachine.CommandLine

/-!
# The command

`main` runs the command on its arguments: it reads the file, shows the messages
on the standard output and the reasons of a failure on the standard error, and
ends with the exit status.
-/

namespace RegisterMachine

/-- Why the operating system does not give a file. The number of a reason may be
    negated. -/
def ReadError.ofSystem : IO.Error → ReadError
  | .noFileOrDirectory _ number description
  | .inappropriateType _ number description
  | .permissionDenied _ number description
  | .resourceExhausted _ number description
  | .invalidArgument _ number description
  | .alreadyExists _ number description
  | .noSuchThing _ number description
  | .interrupted _ number description
  | .otherError number description
  | .resourceBusy number description
  | .resourceVanished number description
  | .unsupportedOperation number description
  | .hardwareFault number description
  | .unsatisfiedConstraints number description
  | .illegalOperation number description
  | .protocolError number description
  | .timeExpired number description =>
    .ofNumber number.toInt32.toInt.natAbs description.capitalize
  | .unexpectedEof => .system "unexpected end of file" 0
  | .userError description => .system description 0

/-- What can be read at a path of the file system. -/
def readFile (path : String) : IO FileContents := do
  match ← (IO.FS.readBinFile path).toBaseIO with
  | .ok bytes => return .ok bytes
  | .error error => return .error (.ofSystem error)

/-- A line as it is shown. -/
def Shown.text : Shown → String
  | .logged entry => s!"{entry.level.name} {entry.text}"
  | .printed line => line

/-- Shows a report, and answers its exit status. -/
def Report.emit (report : Report) : IO UInt32 := do
  for line in report.shown do
    IO.println line.text
  for reason in report.reasons do
    IO.eprintln reason
  return report.status.toUInt32

end RegisterMachine

def main (arguments : List String) : IO UInt32 := do
  (← RegisterMachine.CommandLine.report RegisterMachine.readFile arguments).emit
