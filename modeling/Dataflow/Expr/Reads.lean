import Dataflow.Expr.Walk
import Dataflow.Positions

/-!
# What an expression reads

Which fields of its row an expression reads, and how much of each: all of it,
one key of a map, or some inner columns of a bag or tuple. A key or a choice of
columns counts only where it is applied to a column directly; anything else
reads its columns whole.
-/

namespace Dataflow

/-- How a field is read. -/
inductive Access
  | whole
  | key (key : String)
  | columns (columns : List Nat)
deriving Repr, DecidableEq

/-- The fields an expression reads, in the order of a walk. -/
structure Reads where
  accesses : List (Nat × Access)
  /-- The whole row is read. -/
  star : Bool
deriving Repr, DecidableEq

namespace Reads

def none : Reads := ⟨[], false⟩

def append (a b : Reads) : Reads := ⟨a.accesses ++ b.accesses, a.star || b.star⟩

instance : Append Reads := ⟨append⟩

/-- The same fields, each read as a whole: for values that are compared or
given to a function. -/
def toWhole (r : Reads) : Reads := { r with accesses := r.accesses.map fun a => (a.1, .whole) }

/-- The positions that are read, ascending, each once. -/
def positions (r : Reads) : List Nat :=
  Positions.ofList (r.accesses.map Prod.fst)

end Reads

namespace Expr

mutual

def reads : Expr → Reads
  | .column p => ⟨[(p, .whole)], false⟩
  | .literal _ => .none
  | .star => ⟨[], true⟩
  | .lookup (.column p) key => ⟨[(p, .key key)], false⟩
  | .select (.column p) columns => ⟨[(p, .columns columns)], false⟩
  | .unary _ e => e.reads
  | .binary _ l r => l.reads ++ r.reads
  | .ifElse t e p => t.reads ++ e.reads ++ p.reads
  | .call _ args => readsAll args

def readsAll : List Expr → Reads
  | [] => .none
  | e :: es => e.reads ++ readsAll es

end

end Expr

end Dataflow
