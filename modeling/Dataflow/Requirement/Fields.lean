import Dataflow.Error.Basic
import Dataflow.Positions

/-!
# Required fields

Which fields of a node its consumers need: none, some positions, or all of
them. The requirements form a join semilattice under `merge`, and during an
analysis they only grow; every operation says whether it changed anything.

The empty requirement has one form only: no operation makes `positions []`.
-/

namespace Dataflow

/-- The fields that consumers need of a node. -/
inductive Required
  | none
  /-- Some positions, ascending. -/
  | positions (ps : List Nat)
  | all
deriving Repr, DecidableEq, Inhabited

namespace Required

def ofPositions (ps : List Nat) : Required :=
  match Positions.ofList ps with
  | [] => .none
  | qs => .positions qs

def isAll : Required → Bool
  | .all => true
  | _ => false

def isEmpty : Required → Bool
  | .none => true
  | _ => false

def contains : Required → Nat → Bool
  | .none, _ => false
  | .positions ps, p => ps.contains p
  | .all, _ => true

/-- Adds a position, and says whether that changed anything. -/
def insert (r : Required) (p : Nat) : Required × Bool :=
  match r with
  | .all => (.all, false)
  | .positions ps => (.positions (Positions.insert p ps), !ps.contains p)
  | .none => (.positions [p], true)

/-- Requires everything, and says whether that changed anything. -/
def setAll (r : Required) : Required × Bool := (.all, !r.isAll)

/-- Adds several positions, and says whether that changed anything. -/
def insertAll : Required → List Nat → Required × Bool
  | r, [] => (r, false)
  | r, p :: ps =>
    let (r', changed) := r.insert p
    let (r'', changed') := insertAll r' ps
    (r'', changed || changed')

/-- The least requirement above both, and whether it is above the first. -/
def merge (r other : Required) : Required × Bool :=
  match other with
  | .none => (r, false)
  | .all => r.setAll
  | .positions ps => r.insertAll ps

/-- The required positions among `arity` fields, ascending. -/
def resolve (r : Required) (arity : Nat) : Except Error (List Nat) :=
  match r with
  | .all => .ok (List.range arity)
  | .none => .ok []
  | .positions ps =>
    match ps.find? fun p => arity ≤ p with
    | some p => .error (.internal (.requiredPosition p arity))
    | .none => .ok ps

def text : Required → String
  | .all => "ALL"
  | .positions ps => "\x7b" ++ positionsText ps ++ "\x7d"
  | .none => "\x7b\x7d"

end Required

end Dataflow
