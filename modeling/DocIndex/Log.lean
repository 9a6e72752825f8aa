/-!
# Logs

What is told beside an answer, with how much it matters.
-/

namespace DocIndex

/-- How much a line of the log matters. -/
inductive Level
  | debug
  | info
  | warn
  | error
  deriving DecidableEq, Repr

/-- The name that a level is shown by. -/
def Level.name : Level → String
  | debug => "DEBUG"
  | info => "INFO"
  | warn => "WARN"
  | error => "ERROR"

/-- One line of the log. -/
structure LogLine where
  level : Level
  message : String
  deriving DecidableEq, Repr

end DocIndex
