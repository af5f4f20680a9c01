/-!
# Log records

What a pass reports as it goes, in order.
-/

namespace Dataflow

inductive Level
  | debug
  | info
  | warn
deriving Repr, DecidableEq

structure LogRecord where
  level : Level
  message : String
deriving Repr, DecidableEq

def Level.text : Level → String
  | .debug => "DEBUG"
  | .info => "INFO"
  | .warn => "WARN"

/-- A record with its level before the message. -/
def LogRecord.text (r : LogRecord) : String := r.level.text ++ " " ++ r.message

end Dataflow
