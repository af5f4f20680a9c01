import Dataflow.Execution.Eval
import Dataflow.Execution.Sort
import Dataflow.Plan.Natural

/-!
# Running plans

The rows of every node of a plan over given tables, computed node by node. A
split has rows for each of its branches, any other node one list of rows. The
result of a plan is the rows of its sinks, where a store gives the rows that it
was to write.

With restricted map keys, a load gives only those keys of its maps that were
recorded as required; that is how a source that honours the record behaves.
-/

namespace Dataflow

/-- The tables a plan runs over, by location. -/
structure Tables where
  tables : List (String × List Row)
  /-- Whether loads drop map keys that are not recorded as required. -/
  restrictKeys : Bool

/-- The rows of a table; a location without a table has none. -/
def Tables.rows (t : Tables) (location : String) : List Row := (t.tables.lookup location).getD []

inductive Output
  | rows (rows : List Row)
  | branches (branches : List (List Row))

namespace Run

/-! ## Operators on rows -/

/-- A value without the map keys that are not listed. -/
def restrictValue (keep : List String) : Value → Value
  | .map entries => .map (entries.filter fun e => keep.contains e.1)
  | v => v

/-- A row whose maps are restricted to the recorded keys. -/
def restrictRow (keys : MapKeys) (row : Row) : Row :=
  keys.foldl (fun row (p, keep) => row.modify p (restrictValue keep)) row

def loadRows (t : Tables) (l : Load) : List Row :=
  let rows := t.rows l.source.location
  match l.mapKeys, t.restrictKeys with
  | some keys, true => rows.map (restrictRow keys)
  | _, _ => rows

/-- Every row of the first list extended by every row of the second. -/
def pairUp (xs ys : List Row) : List Row := xs.flatMap fun x => ys.map fun y => x ++ y

/-- All combinations of rows, one of each list. -/
def product (inputs : List (List Row)) : List Row := inputs.foldl pairUp [[]]

/-- What an item contributes to a row: one list of fields for each row that
comes out. -/
def itemRows (schema : Schema) (row : Row) (item : Item) : Except Failure (List Row) :=
  if item.isStar then .ok [row]
  else do
    let width := (← failing (item.fields schema)).length
    let v ← item.expr.eval row
    match item.flatten, v with
    | true, .bag rows => return rows
    | true, .tuple values => return [values]
    | true, .null => return [List.replicate width .null]
    | _, v => return [[v]]

/-- A `forEach`: each row gives all combinations of what its items contribute. -/
def forEachRows (schema : Schema) (items : List Item) (rows : List Row) :
    Except Failure (List Row) := do
  let perRow ← rows.mapM fun row => do
    return product (← items.mapM (itemRows schema row))
  return perRow.flatten

def isTrue : Value → Bool
  | .bool b => b
  | _ => false

def filterRows (predicate : Expr) (rows : List Row) : Except Failure (List Row) :=
  rows.filterM fun row => return isTrue (← predicate.eval row)

def distinctRows (rows : List Row) : List Row :=
  rows.foldl (fun seen row =>
    if seen.any fun r => Value.sameRow r row then seen else seen ++ [row]) []

def keyRows (keys : List Expr) (rows : List Row) : Except Failure (List (Row × Row)) :=
  rows.mapM fun row => return (← Expr.evalAll row keys, row)

/-- The order of two lists of sort keys: the first that differ decide, in their
direction. -/
def orderKeys : List Bool → Row → Row → Ordering
  | down :: ds, a :: as, b :: bs =>
    match if down then (a.order b).swap else a.order b with
    | .eq => orderKeys ds as bs
    | other => other
  | _, _, _ => .eq

def sortRows (o : OrderBy) (rows : List Row) : Except Failure (List Row) := do
  let keyed ← keyRows o.keys rows
  let sorted := stableSort (fun a b => orderKeys o.descending a.1 b.1 == .lt) keyed
  return sorted.map Prod.snd

/-! ## Joins and groups -/

/-- Whether the keys of two rows match. A null among the keys matches
nothing. -/
def keysMatch (a b : Row) : Bool :=
  !a.any Value.isNull && a.length == b.length &&
    (a.zip b).all fun (x, y) => x.order y == .eq

/-- Extends each row by the rows of another side whose keys match. -/
def joinSide (rows side : List (Row × Row)) : List (Row × Row) :=
  rows.flatMap fun (key, row) =>
    (side.filter fun other => keysMatch key other.1).map fun other => (key, row ++ other.2)

/-- The rows of a side that match none of the other. -/
def unmatched (side other : List (Row × Row)) : List Row :=
  (side.filter fun r => !other.any fun s => keysMatch r.1 s.1).map Prod.snd

/-- The rows of a join: the matches, then the rows without a match of a side
that is kept in full, padded with nulls. -/
def joinRows (sides : List (List (Row × Row))) (type : JoinType) (widths : List Nat) : List Row :=
  match sides with
  | [] => []
  | first :: rest =>
    let matches' := (rest.foldl joinSide first).map Prod.snd
    match sides, widths with
    | [left, right], [leftWidth, rightWidth] =>
      let lefts :=
        if type = .leftOuter || type = .fullOuter then
          (unmatched left right).map fun row => row ++ List.replicate rightWidth .null
        else []
      let rights :=
        if type = .rightOuter || type = .fullOuter then
          (unmatched right left).map fun row => List.replicate leftWidth .null ++ row
        else []
      matches' ++ lefts ++ rights
    | _, _ => matches'

/-- The value of a group with these keys. -/
def groupValue : Row → Value
  | [] => .str "all"
  | [v] => v
  | vs => .tuple vs

/-- The values of a list without those that equal an earlier one. -/
def distinctValues (vs : List Value) : List Value :=
  vs.foldl (fun seen v => if seen.any fun w => w.same v then seen else seen ++ [v]) []

/-- The rows of a side that belong to a group. -/
def groupBag (group : Value) (side : List (Row × Row)) : List Row :=
  (side.filter fun r => (groupValue r.1).same group).map Prod.snd

/-- The rows of a cogroup: one for each group in order of first appearance,
except groups that lack a row of an input that must have one. -/
def groupRows (sides : List (List (Row × Row))) (inner : List Bool) : List Row :=
  let groups := distinctValues (sides.flatten.map fun r => groupValue r.1)
  groups.filterMap fun group =>
    let bags := sides.map (groupBag group)
    if (bags.zip inner).any fun (bag, needed) => needed && bag.isEmpty then none
    else some (group :: bags.map Value.bag)

def unionRows (u : Union) (inputs : List (List Row)) : List Row :=
  (inputs.zip u.mappings).flatMap fun (rows, mapping) =>
    rows.map fun row => mapping.map fun q => (q.bind fun q => row[q]?).getD .null

/-- A row with the given number of fields: cut off, or padded with nulls. -/
def fitRow (width : Nat) (row : Row) : Row :=
  row.take width ++ List.replicate (width - row.length) .null

/-! ## Nodes -/

def projectRows (projection : Option (List Nat)) (rows : List Row) : Except Failure (List Row) :=
  match projection with
  | none => .ok rows
  | some ps => rows.mapM fun row => ps.mapM fun p =>
    match row[p]? with
    | some v => .ok v
    | none => raise (.internal (.noProjected p))

def edgeRows (outputs : List Output) (e : Edge) : Except Failure (List Row) :=
  match outputs[e.node]?, e.branch with
  | some (.rows rows), none => .ok rows
  | some (.branches branches), some b =>
    match branches[b]? with
    | some rows => .ok rows
    | none => raise (.internal (.noSuchBranch b e.node))
  | _, _ => raise (.internal (.notRun e.node))

def keyedSides (keys : List (List Expr)) (inputs : List (List Row)) :
    Except Failure (List (List (Row × Row))) :=
  (inputs.zip keys).mapM fun (rows, keys) => keyRows keys rows

/-- The natural rows of an operator that has one list of rows. -/
def naturalRows (t : Tables) (id : Nat) (op : Operator) (schemas : List Schema)
    (inputs : List (List Row)) : Except Failure (List Row) :=
  let first : Except Failure (List Row) :=
    match inputs with
    | rows :: _ => .ok rows
    | [] => raise (.internal (.nodeWithoutInput id))
  match op with
  | .load l => .ok (loadRows t l)
  | .store _ => .ok []
  | .forEach items =>
    match schemas with
    | [] => raise (.internal .forEachWithoutInput)
    | schema :: _ => do forEachRows schema items (← first)
  | .filter p => do filterRows p (← first)
  | .limit n => do return (← first).take n
  | .distinct => do return distinctRows (← first)
  | .orderBy o => do sortRows o (← first)
  | .cross => .ok (product inputs)
  | .join j => do
    return joinRows (← keyedSides j.keys inputs) j.type (schemas.map List.length)
  | .cogroup g => do return groupRows (← keyedSides g.keys inputs) g.inner
  | .union u => .ok (unionRows u inputs)
  | .stream command schema =>
    -- The only command known here is the identity.
    if command = "cat" then do return (← first).map (fitRow schema.length)
    else raise (.value (.unknownCommand command))
  | .split _ => first

def runNode (t : Tables) (p : Plan) (n : Node) (inputs : List (List Row)) :
    Except Failure Output := do
  let schemas ← failing (p.inputSchemas n.id)
  match n.op with
  | .split predicates => do
    let rows ← match inputs with
      | rows :: _ => .ok rows
      | [] => raise (.internal (.nodeWithoutInput n.id))
    let branches ← predicates.mapM fun predicate => do
      projectRows n.projection (← filterRows predicate rows)
    return .branches branches
  | op => do
    let rows ← naturalRows t n.id op schemas inputs
    return .rows (← projectRows n.projection rows)

def outputs (t : Tables) (p : Plan) : Except Failure (List Output) :=
  p.nodes.foldlM (fun done n => do
    let inputs ← n.inputs.mapM (edgeRows done)
    return done ++ [← runNode t p n inputs]) []

def Output.all : Output → List Row
  | .rows rows => rows
  | .branches branches => branches.flatten

/-- The rows that a store writes: those of its input. -/
def storedRows (outputs : List Output) (n : Node) : Except Failure (List Row) :=
  match n.inputs with
  | [] => raise (.internal .storeWithoutInput)
  | e :: _ =>
    match outputs[e.node]? with
    | some (.rows rows) => .ok rows
    | some (.branches branches) => .ok ((branches[e.branch.getD 0]?).getD [])
    | none => .ok []

def sinkRows (p : Plan) (outputs : List Output) (id : Nat) : Except Failure (List Row) := do
  let n ← failing (p.node id)
  match n.op with
  | .store _ => storedRows outputs n
  | _ => return ((outputs[id]?).map Output.all).getD []

end Run

/-- The rows of every sink of a plan, by number. -/
def Plan.run (p : Plan) (t : Tables) : Except Failure (List (Nat × List Row)) := do
  let outputs ← Run.outputs t p
  p.sinks.mapM fun id => return (id, ← Run.sinkRows p outputs id)

def sortedRows (rows : List Row) : List Row :=
  stableSort (fun a b => Value.orderRows a b == .lt) rows

end Dataflow
