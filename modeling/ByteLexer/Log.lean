/-! # Log records

    What happens on the way is reported as a list of records, each with a level.
    Levels have a rank: the higher it is, the more has to be asked for.
-/

namespace ByteLexer

/-- How important a record is. -/
inductive Level where
  | error
  | warn
  | info
  | debug
  | trace
deriving DecidableEq, Repr

namespace Level

/-- The name of a level. -/
def name : Level → String
  | .error => "ERROR"
  | .warn => "WARN"
  | .info => "INFO"
  | .debug => "DEBUG"
  | .trace => "TRACE"

/-- How verbose a log has to be to show records of a level. -/
def rank : Level → Nat
  | .error => 0
  | .warn => 1
  | .info => 2
  | .debug => 3
  | .trace => 4

end Level

/-- One report. -/
structure Record where
  level : Level
  text : String
deriving DecidableEq, Repr

end ByteLexer
