import Dataflow.Plan.Operator

/-!
# Plans

A plan is a list of nodes in the order of their construction. A node has an
operator, reads earlier nodes through its input edges, and exposes a schema:
its operator's natural output, or the part of it that `projection` lists. In a
sound plan every input is an earlier node, so the order of the list is an order
of evaluation; the definitions here do not depend on it.
-/

namespace Dataflow

/-- A reference from a node to one of its inputs. -/
structure Edge where
  node : Nat
  /-- The branch of a split; `none` for an input of any other kind. -/
  branch : Option Nat
deriving Repr, DecidableEq

/-- A consumer of a node: it reads the node as its `input`-th input. -/
structure Consumer where
  node : Nat
  input : Nat
deriving Repr, DecidableEq

structure Node where
  id : Nat
  label : Option String
  op : Operator
  inputs : List Edge
  /-- The fields that consumers see. -/
  schema : Schema
  /-- The positions of the natural output that are exposed, when not all of
  them are. -/
  projection : Option (List Nat)

namespace Node

/-- The positions of the natural output that are exposed. -/
def exposed (n : Node) : List Nat := n.projection.getD (List.range n.schema.length)

/-- The name of a node in messages: its label, the location of a load, or its
kind and number. -/
def displayName (n : Node) : String :=
  match n.label, n.op with
  | some label, _ => label
  | none, .load l => l.source.location
  | none, op => op.name ++ "#" ++ toString n.id

end Node

/-- A plan: nodes in the order of their construction. -/
structure Plan where
  nodes : List Node

namespace Plan

def empty : Plan := ⟨[]⟩

/-- The last node that carries `label`. -/
def find? (p : Plan) (label : String) : Option Nat :=
  (p.nodes.reverse.find? fun n => n.label == some label).map Node.id

/-- The edges by which node `id` is read, in the order of the plan. -/
def consumersOf (p : Plan) (id : Nat) : List Consumer :=
  p.nodes.flatMap fun n =>
    n.inputs.zipIdx.filterMap fun (e, i) => if e.node = id then some ⟨n.id, i⟩ else none

def consumers (p : Plan) : List (List Consumer) :=
  (List.range p.nodes.length).map p.consumersOf

/-- The nodes that no node reads; their output is the result of the plan. -/
def sinks (p : Plan) : List Nat :=
  (List.range p.nodes.length).filter fun id => (p.consumersOf id).isEmpty

end Plan

/-! ## Text -/

def Edge.text (e : Edge) : String :=
  "#" ++ toString e.node ++ (e.branch.map fun b => "[" ++ toString b ++ "]").getD ""

def Node.text (n : Node) : String :=
  "#" ++ toString n.id ++ (n.label.map fun a => " " ++ a).getD "" ++
    " = " ++ ", ".intercalate n.op.lines ++
    (if n.inputs.isEmpty then "" else " <- " ++ ", ".intercalate (n.inputs.map Edge.text)) ++
    (n.projection.map fun ps => " project(" ++ positionsText ps ++ ")").getD "" ++
    " [" ++ Schema.text n.schema ++ "]"

/-- The description of a plan, one node per line. -/
def Plan.text (p : Plan) : String := "\n".intercalate (p.nodes.map Node.text)

end Dataflow
