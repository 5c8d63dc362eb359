/-!
# The log

What the assembler and the machine report while they work: a list of messages,
each of a level, in the order of their being logged.
-/

namespace RegisterMachine

/-- How much a message matters, from most to least. -/
inductive Level
  | error
  | warn
  | info
  | debug
  deriving DecidableEq, Repr

/-- The name of a level. -/
def Level.name : Level → String
  | .error => "ERROR"
  | .warn => "WARN"
  | .info => "INFO"
  | .debug => "DEBUG"

/-- A logged message. -/
structure Entry where
  level : Level
  text : String
  deriving DecidableEq, Repr

/-- The messages in the order of their being logged. -/
abbrev Log := Array Entry

/-- The log without the messages that matter only for debugging. -/
def Log.withoutDebug (log : Log) : Log :=
  log.filter (·.level != .debug)

end RegisterMachine
