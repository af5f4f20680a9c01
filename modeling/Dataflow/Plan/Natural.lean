import Dataflow.Expr.Typing
import Dataflow.Plan.Basic

/-!
# Natural output

The schema that an operator produces from the schemas of its inputs, before a
node hides any of it. An item of a `forEach` keeps the identity of what it
forwards, a column or the inner fields it unnests, and has an identity of its
own for what it computes.
-/

namespace Dataflow

/-! ## Items -/

/-- The fields that an item contributes to the output. -/
def Item.fields (item : Item) (input : Schema) : Except Error (List Field) :=
  if item.isStar then .ok input
  else
    match item.expr.forwards? with
    | some p => do
      let field ← input.fieldAt p
      match if item.flatten then field.type.inner? else none with
      | some inner => return inner
      | none => return [field.rename (← item.expr.name input)]
    | none => do
      let type ← item.expr.type input
      match if item.flatten then type.inner? else none with
      | some inner => return inner
      | none => return [⟨← item.expr.name input, type, item.uid⟩]

namespace Items

def schema (items : List Item) (input : Schema) : Except Error Schema := do
  let fields ← items.mapM fun item => item.fields input
  return fields.flatten

/-- Consecutive ranges of the given widths, each by its first position and the
first position after it. -/
def spans : (start : Nat) → List Nat → List (Nat × Nat)
  | _, [] => []
  | start, w :: ws => (start, start + w) :: spans (start + w) ws

/-- The output positions of each item. -/
def ranges (items : List Item) (input : Schema) : Except Error (List (Nat × Nat)) := do
  let fields ← items.mapM fun item => item.fields input
  return spans 0 (fields.map List.length)

end Items

/-- The output of a cogroup: the group, then a bag of each input's rows. -/
def CoGroup.schema (g : CoGroup) (inputs : List Schema) : Schema :=
  g.group :: List.zipWith (fun (name, uid) input => ⟨name, .bag input, uid⟩) g.bags inputs

def CoGroup.bagPosition (input : Nat) : Nat := input + 1

/-! ## Operators and nodes -/

namespace Operator

def natural (op : Operator) (inputs : List Schema) : Except Error Schema :=
  match op, inputs with
  | .load l, _ => .ok l.source.schema
  | .store _, _ => .ok []
  | .join _, _ | .cross, _ => .ok inputs.flatten
  | .cogroup g, _ => .ok (g.schema inputs)
  | .union u, _ => .ok u.fields
  | .stream _ schema, _ => .ok schema
  | .forEach items, input :: _ => Items.schema items input
  | .filter _, input :: _ | .distinct, input :: _ | .orderBy _, input :: _
  | .limit _, input :: _ | .split _, input :: _ => .ok input
  | .forEach _, [] | .filter _, [] | .distinct, [] | .orderBy _, [] | .limit _, []
  | .split _, [] => .error (.internal (.missingInput op.name))

end Operator

namespace Plan

def node (p : Plan) (id : Nat) : Except Error Node :=
  match p.nodes[id]? with
  | some n => .ok n
  | none => .error (.internal (.noNode id))

/-- The exposed schema of the node stored under a number. -/
def schemaOf (p : Plan) (id : Nat) : Except Error Schema := (p.node id).map Node.schema

theorem node_ok {p : Plan} {id : Nat} {n : Node} :
    p.node id = .ok n ↔ p.nodes[id]? = some n := by
  unfold node
  cases p.nodes[id]? with
  | none => simp
  | some m => simp

theorem schemaOf_ok {p : Plan} {id : Nat} {s : Schema} :
    p.schemaOf id = .ok s ↔ ∃ n, p.nodes[id]? = some n ∧ n.schema = s := by
  unfold schemaOf node
  cases p.nodes[id]? with
  | none => simp [Except.map]
  | some m => simp [Except.map]

def edgeSchemas (p : Plan) (edges : List Edge) : Except Error (List Schema) :=
  edges.mapM fun e => p.schemaOf e.node

def inputSchemas (p : Plan) (id : Nat) : Except Error (List Schema) := do
  p.edgeSchemas (← p.node id).inputs

def natural (p : Plan) (id : Nat) : Except Error Schema := do
  let n ← p.node id
  n.op.natural (← p.inputSchemas id)

end Plan

end Dataflow
