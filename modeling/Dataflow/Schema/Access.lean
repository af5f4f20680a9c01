import Dataflow.Error.Basic

/-!
# Fields by position

Reading fields out of a schema by their positions, where a position outside the
schema is an error that names both.
-/

namespace Dataflow.Schema

def fieldAt (s : Schema) (p : Nat) : Except Error Field :=
  match s[p]? with
  | some f => .ok f
  | none => .error (.position p s)

/-- The fields at some positions, in the given order. -/
def project (s : Schema) (ps : List Nat) : Except Error Schema := ps.mapM s.fieldAt

end Dataflow.Schema
