import Dataflow.Plan.Natural
import Dataflow.Prune.Log
import Dataflow.Requirement.Parts

/-!
# Offering projections to sources

Every load whose source has a reader is asked, in the order of the plan, to
read only the fields that it still exposes. A reader may decline or fail, which
only means that it keeps reading every field; the plan does not depend on the
answer. What the answer was is recorded on the load.
-/

namespace Dataflow

/-- How the offer to one load's source ended. -/
structure PushdownOutcome where
  node : Nat
  label : String
  status : PushdownStatus
deriving Repr, DecidableEq

/-- A projection that was offered to a reader. -/
structure Offer where
  reader : Nat
  projection : Projection
deriving Repr, DecidableEq

structure Offers where
  outcomes : List PushdownOutcome
  offers : List Offer
  logs : List LogRecord

namespace Pushdown

def empty : Offers := ⟨[], [], []⟩

/-- The fields that a load still exposes, with the required keys of maps. -/
def projectionOf (l : Load) (exposed : List Nat) (mapKeys : Option (Tracker String)) :
    Except Error Projection := do
  let fields ← exposed.mapM fun p => do
    let f ← l.source.schema.fieldAt p
    return ⟨p, f.name, mapKeys.bind fun t => t.narrowed? f.uid⟩
  return ⟨fields⟩

/-- The answer of a reader as a status and a log record. -/
def statusOf (reader : Reader) (label : String) : Except Report Answer → PushdownStatus × LogRecord
  | .ok .accepted =>
    (.accepted, ⟨.debug, reader.name ++ " accepted projection for " ++ label⟩)
  | .ok .declined =>
    (.declined, ⟨.debug, reader.name ++ " declined projection for " ++ label⟩)
  | .error report =>
    (.failed report.message,
      ⟨.warn, reader.name ++ " failed to push projection for " ++ label ++
        ", reading all fields: " ++ report.message⟩)

/-- Offers its projection to the reader of a load: the load with the answer
recorded, and what came of it. -/
def offerLoad (id : Nat) (n : Node) (l : Load) (reader : Reader)
    (mapKeys : Option (Tracker String)) : Except Error (Node × Offers) := do
  let label := n.displayName
  let record := fun (status : PushdownStatus) =>
    ({ n with op := .load { l with pushdown := some status } }, ⟨id, label, status⟩)
  match reader.answer? with
  | none =>
    let (n', outcome) := record .unsupported
    return (n', ⟨[outcome], [], []⟩)
  | some answer =>
    let projection ← projectionOf l n.exposed mapKeys
    let (status, log) := statusOf reader label (answer projection)
    let (n', outcome) := record status
    return (n', ⟨[outcome], [⟨reader.id, projection⟩], [log]⟩)

/-- Offers its projection to a node's reader, if it has one. -/
def offerNode (id : Nat) (n : Node) (mapKeys : Option (Tracker String)) :
    Except Error (Node × Offers) :=
  match n.op with
  | .load l =>
    match l.source.reader with
    | some reader => offerLoad id n l reader mapKeys
    | none => .ok (n, empty)
  | _ => .ok (n, empty)

/-- Offers projections from the node `id` on: the nodes after the last offer,
what came of the offers, and whether they were all made. -/
def offerNodes (mapKeys : Option (Tracker String)) :
    (id : Nat) → List Node → List Node × Offers × Except Error Unit
  | _, [] => ([], empty, .ok ())
  | id, n :: rest =>
    match offerNode id n mapKeys with
    | .error e => (n :: rest, empty, .error e)
    | .ok (n', o) =>
      let (nodes, os, result) := offerNodes mapKeys (id + 1) rest
      (n' :: nodes,
        ⟨o.outcomes ++ os.outcomes, o.offers ++ os.offers, o.logs ++ os.logs⟩, result)

end Pushdown

end Dataflow
