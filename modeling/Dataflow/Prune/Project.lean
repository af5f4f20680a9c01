import Dataflow.Expr.Renumber
import Dataflow.Plan.Natural
import Dataflow.Plan.Revise
import Dataflow.Requirement.Fields

/-!
# Narrowing a plan

Reduces every node of a plan to the fields that are required of it and
renumbers every reference. Nodes are revised in order, so that the new
positions in a node's inputs are known when the node's turn comes. Most
operators keep their natural output and expose a part of it; a `forEach` drops
items and a union drops columns.

A node that cannot be narrowed ends the pass: the nodes before it stay
revised, the others are as they were.
-/

namespace Dataflow

/-- The new position of each old position, `none` for one that is gone. -/
abbrev PositionMap := List (Option Nat)

/-- The new positions when only `kept` remain, out of `width`. -/
def PositionMap.ofKept (width : Nat) (kept : List Nat) : PositionMap :=
  (List.range width).map fun p => kept.findIdx? fun q => q == p

/-- What became of a node's exposed fields. -/
structure Narrowed where
  old : Schema
  new : Schema
  moved : PositionMap

namespace Narrowed

def column (n : Narrowed) (p : Nat) : Except Error Nat :=
  match n.moved[p]?.join with
  | some q => .ok q
  | none => .error (.internal (.prunedColumn p))

/-- The new inner positions of a bag or tuple, found by identity. -/
def inner (n : Narrowed) (p : Nat) (columns : List Nat) : Except Error (List Nat) := do
  let oldField ← (n.old.fieldAt p).mapError Error.asDefect
  let newField ← (n.new.fieldAt (← n.column p)).mapError Error.asDefect
  match oldField.type.inner?, newField.type.inner? with
  | some oldInner, some newInner => columns.mapM fun c => do
    let f ← (Schema.fieldAt oldInner c).mapError Error.asDefect
    match Schema.positionOf? newInner f.uid with
    | some q => return q
    | none => .error (.internal (.prunedInner c p))
  | _, _ => .error (.internal (.notNested p))

/-- References into the node, renumbered. -/
def renumbering (n : Narrowed) : Renumbering Error := ⟨n.column, n.inner⟩

end Narrowed

/-- The new state of a node. -/
structure Projected where
  /-- The new operator, if it is another one. -/
  op : Option Operator
  schema : Schema
  projection : Option (List Nat)
  /-- The old exposed positions that remain, in order. -/
  kept : List Nat

namespace Projected

/-- A `forEach` that keeps the items of which something is required, and those
that unnest. -/
def ofItems (items : List Item) (keep : List Nat) (inputs : List Narrowed) :
    Except Error Projected :=
  match inputs with
  | [] => .error (.internal (.missingInput "ForEach"))
  | input :: _ => do
    let ranges ← Items.ranges items input.old
    let wanted := (items.zip ranges).filter fun (item, start, stop) =>
      item.flatten || keep.any fun p => start ≤ p && p < stop
    let revised ← wanted.mapM fun (item, _) => item.expr.renumber input.renumbering
    let items' := List.zipWith (fun (item, _) e => { item with expr := e.value }) wanted revised
    let kept := wanted.flatMap fun (_, start, stop) => List.range' start (stop - start)
    let changed := decide (wanted.length ≠ items.length) || revised.any Revised.changed
    let schema ← Items.schema items' input.new
    if schema.length ≠ kept.length then
      .error (.internal (.itemWidth schema.length kept.length))
    else return ⟨if changed then some (.forEach items') else none, schema, none, kept⟩

/-- A union that keeps the required columns. -/
def ofUnion (u : Union) (keep : List Nat) (inputs : List Narrowed) : Except Error Projected := do
  let fields ← keep.mapM fun p =>
    match u.fields[p]? with
    | some f => .ok f
    | none => .error (.internal (.noOutput "Union" p))
  let mappings ← (u.mappings.zip inputs).mapM fun (mapping, input) =>
    keep.mapM fun p =>
      match mapping[p]?.join with
      | some q => some <$> input.column q
      | none => .ok none
  let u' : Union := ⟨fields, mappings⟩
  return ⟨if u' = u then none else some (.union u'), fields, none, keep⟩

/-- The new natural positions of the sides of a join, one after the other. -/
def joined : (offset : Nat) → List Narrowed → PositionMap
  | _, [] => []
  | offset, n :: rest =>
    (n.moved.map fun q => q.map (· + offset)) ++ joined (offset + n.new.length) rest

/-- The new position of each natural position of an operator of the given
natural width. -/
def naturalMap (op : Operator) (inputs : List Narrowed) (width : Nat) : PositionMap :=
  match op with
  | .filter _ | .distinct | .orderBy _ | .limit _ | .split _ =>
    (inputs.head?.map Narrowed.moved).getD []
  | .join _ | .cross => joined 0 inputs
  | _ => (List.range width).map some

/-- The natural positions that a node is to expose. -/
def exposing (n : Node) (moved : PositionMap) (keep : List Nat) : Except Error (List Nat) :=
  let exposed := n.exposed
  keep.mapM fun p =>
    match exposed[p]? with
    | none => .error (.internal (.doesNotExpose n.displayName p))
    | some natural =>
      match moved[natural]?.join with
      | some q => .ok q
      | none => .error (.internal (.inputPruned n.displayName p))

/-- A node of any other kind, which exposes the required part of its natural
output. -/
def ofNode (n : Node) (keep : List Nat) (inputs : List Narrowed) : Except Error Projected := do
  let revision := n.op.revise fun i e =>
    match inputs[i]? with
    | none => .error (.internal (.noInput n.displayName i))
    | some input => e.renumber input.renumbering
  let changed ← revision.result
  let op := revision.op
  let op' := if changed then some op else none
  let natural ← op.natural (inputs.map Narrowed.new)
  if !op.canProject then return ⟨op', natural, none, keep⟩
  let oldNatural ← n.op.natural (inputs.map Narrowed.old)
  let projection ← exposing n (naturalMap op inputs oldNatural.length) keep
  let schema ← Schema.project natural projection
  let whole := decide (projection = List.range natural.length)
  return ⟨op', schema, if whole then none else some projection, keep⟩

/-- The new state of a node, given what became of its inputs. -/
def ofAny (n : Node) (keep : List Nat) (inputs : List Narrowed) : Except Error Projected :=
  match n.op with
  | .forEach items => ofItems items keep inputs
  | .union u => ofUnion u keep inputs
  | _ => ofNode n keep inputs

/-- Whether the new state differs from the node as it is. -/
def differs (p : Projected) (n : Node) : Bool :=
  p.op.isSome || decide (p.projection ≠ n.projection) || decide (p.schema ≠ n.schema)

def apply (p : Projected) (n : Node) : Node :=
  { n with op := p.op.getD n.op, schema := p.schema, projection := p.projection }

end Projected

namespace Plan

/-- What became of the inputs of a node, all of which come before it. -/
def narrowedInputs (done : List Narrowed) (n : Node) : Except Failure (List Narrowed) :=
  n.inputs.mapM fun e =>
    match done[e.node]? with
    | some narrowed => .ok narrowed
    | none => .error (.outOfOrder done.length e.node)

/-- Narrows a node, given what became of the nodes before it. -/
def projectNode (required : List Required) (done : List Narrowed) (n : Node) :
    Except Failure Projected := do
  let id := done.length
  let r ← match required[id]? with
    | some r => .ok r
    | none => .error (.error (.internal (.noRequirement id)))
  let keep ← failing (r.resolve n.schema.length)
  let inputs ← narrowedInputs done n
  failing (Projected.ofAny n keep inputs)

/-- Narrows nodes in turn, given what became of the nodes before them: the
nodes after the last step, and whether any changed. -/
def projectNodes (required : List Required) :
    (done : List Narrowed) → List Node → List Node × Except Failure Bool
  | _, [] => ([], .ok false)
  | done, n :: rest =>
    match projectNode required done n with
    | .error cause => (n :: rest, .error cause)
    | .ok p =>
      let narrowed : Narrowed := ⟨n.schema, p.schema, .ofKept n.schema.length p.kept⟩
      let (nodes, result) := projectNodes required (done ++ [narrowed]) rest
      (p.apply n :: nodes, result.map fun changed => p.differs n || changed)

/-- Narrows every node to what is required of it. -/
def project (p : Plan) (required : List Required) : Plan × Except Failure Bool :=
  let (nodes, result) := projectNodes required [] p.nodes
  (⟨nodes⟩, result)

end Plan

end Dataflow
