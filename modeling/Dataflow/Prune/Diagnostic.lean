import Dataflow.Execution.Sort
import Dataflow.Plan.Natural
import Dataflow.Prune.Log
import Dataflow.Requirement.Parts

/-!
# Diagnostics of pruning

What a pruning run took away from each load: the source positions that are no
longer read, and the keys that are still read of its maps. The keys are
recorded on the load as well, and reported only when they differ from the ones
recorded before.
-/

namespace Dataflow

/-- A record of what was taken away from a load. -/
inductive Diagnostic
  /-- Source positions that are no longer read. -/
  | columnsPruned (label : String) (positions : List Nat)
  /-- Keys that are still read of maps, by source position. -/
  | mapKeysRequired (label : String) (fields : MapKeys)
deriving Repr, DecidableEq

def Diagnostic.text : Diagnostic → String
  | .columnsPruned label ps => "Columns pruned for " ++ label ++ ": " ++ positionsText ps
  | .mapKeysRequired label fields =>
    "Map key required for " ++ label ++ ": " ++ MapKeys.text fields

namespace Diagnostics

def ascending (ps : List Nat) : List Nat := stableSort (fun a b => a < b) ps

/-- The source positions that each load exposes, with the load's number. -/
def exposures (p : Plan) : List (Nat × List Nat) :=
  p.nodes.filterMap fun n =>
    match n.op with
    | .load _ => some (n.id, n.exposed)
    | _ => none

/-- The narrowed keys of the maps that a load exposes. -/
def narrowedKeys (source : Schema) (exposed : List Nat) (mapKeys : Tracker String) :
    Except Error MapKeys := do
  let fields ← (ascending exposed).mapM fun p => do
    let f ← source.fieldAt p
    if f.type.isMap then return (mapKeys.narrowed? f.uid).map fun ks => (p, ks)
    else return none
  return fields.filterMap id

/-- The record of positions that a load no longer exposes. -/
def lostColumns (n : Node) (before : List Nat) : List Diagnostic :=
  let exposed := n.exposed
  let lost := ascending (before.filter fun p => !exposed.contains p)
  if lost.isEmpty then [] else [.columnsPruned n.displayName lost]

/-- Compares a load with its exposure before: the load with its keys recorded,
and what is to be reported. Without a tracker of keys none are recorded. -/
def reportLoad (n : Node) (l : Load) (before : List Nat) (mapKeys : Option (Tracker String)) :
    Except Error (Node × List Diagnostic) := do
  let lost := lostColumns n before
  let withKeys := fun (keys : Option MapKeys) => { n with op := .load { l with mapKeys := keys } }
  match mapKeys with
  | none => return (withKeys none, lost)
  | some tracker =>
    let fields ← narrowedKeys l.source.schema n.exposed tracker
    if fields.isEmpty then return (withKeys none, lost)
    else if l.mapKeys = some fields then return (n, lost)
    else return (withKeys (some fields), lost ++ [.mapKeysRequired n.displayName fields])

/-- Compares a node with its exposure before, if it is a load. -/
def reportNode (n : Node) (before : List Nat) (mapKeys : Option (Tracker String)) :
    Except Error (Node × List Diagnostic) :=
  match n.op with
  | .load l => reportLoad n l before mapKeys
  | _ => .ok (n, [])

/-- Compares every load with its exposure before: the plan after the last
record, and the diagnostics. -/
def report (mapKeys : Option (Tracker String)) :
    List (Nat × List Nat) → Plan → Plan × Except Error (List Diagnostic)
  | [], p => (p, .ok [])
  | (id, before) :: rest, p =>
    match (do reportNode (← p.node id) before mapKeys) with
    | .error e => (p, .error e)
    | .ok (n, ds) =>
      let (p', result) := report mapKeys rest ⟨p.nodes.set id n⟩
      (p', result.map fun more => ds ++ more)

end Diagnostics

end Dataflow
