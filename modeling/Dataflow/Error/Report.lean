import Dataflow.Text.Quoted

/-!
# Kinds of errors and reports

Every error has a kind, which tells bad input from a defect of the planner, and
a message. A `Report` is an error whose message was written by someone else: a
data source that refuses a projection, or a visitor that gives up.
-/

namespace Dataflow

/-- What went wrong, roughly. -/
inductive ErrorKind
  | fieldNotFound
  | schemaMismatch
  | typeError
  | valueError
  /-- Text could not be written. -/
  | format
  /-- A defect of the planner, not of its input. -/
  | internal
  /-- An error of another component, passed on. -/
  | external
deriving Repr, DecidableEq, Inhabited

def ErrorKind.name : ErrorKind → String
  | .fieldNotFound => "FieldNotFound"
  | .schemaMismatch => "SchemaMismatch"
  | .typeError => "TypeError"
  | .valueError => "ValueError"
  | .format => "FmtError"
  | .internal => "InternalError"
  | .external => "External"

/-- An error in someone else's words. -/
structure Report where
  kind : ErrorKind
  text : String
deriving Repr, DecidableEq, Inhabited

/-- The message of a report. A format error has no text of its own, and the
text of an external error is shown as a value. -/
def Report.message (r : Report) : String :=
  match r.kind with
  | .format => "Error"
  | .external => Text.quote r.text
  | _ => r.text

end Dataflow
