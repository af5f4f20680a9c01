import Dataflow.Plan.Natural

/-!
# Consistent plans

The structural invariants that every pass over a plan relies on: a node is
stored under its own number, has as many inputs as its operator takes and reads
earlier nodes only, addresses a branch exactly where it reads a split, has
expressions that are well typed over its inputs, and exposes what its operator
produces. The first violation, in the order of the nodes, is the error.
-/

namespace Dataflow

def Error.invalid (id : Nat) (fault : NodeFault) : Error := .internal (.invalidNode id fault)

namespace Plan

/-- Whether a branch may be addressed on an input. -/
def checkBranch (id : Nat) (e : Edge) (input : Node) : Except Error Unit :=
  match input.op, e.branch with
  | .split ps, some b => if b < ps.length then .ok () else .error (.invalid id (.noBranch e.node))
  | .split _, none => .error (.invalid id (.noBranch e.node))
  | _, none => .ok ()
  | _, some _ => .error (.invalid id (.branchOfOther e.node))

/-- Every input is an earlier node, addressed as its kind demands. -/
def checkInput (p : Plan) (id : Nat) (e : Edge) : Except Error Unit :=
  if id ≤ e.node then .error (.invalid id (.notEarlier e.node))
  else do checkBranch id e (← p.node e.node)

/-- The number of inputs is one the operator takes. -/
def checkArity (id : Nat) (n : Node) : Except Error Unit :=
  let (least, greatest) := n.op.arity
  if n.inputs.length < least || greatest.any fun g => g < n.inputs.length then
    .error (.invalid id (.inputCount n.op.name n.inputs.length))
  else .ok ()

/-- An expression has a type over the input it belongs to. -/
def checkExpr (id : Nat) (inputs : List Schema) (input : Nat) (e : Expr) : Except Error Unit :=
  match inputs[input]? with
  | none => .error (.invalid id (.noInput e input))
  | some schema =>
    match e.type schema with
    | .ok _ => .ok ()
    | .error cause => .error (.invalid id (.illTyped e cause.message))

/-- The mapping of a union covers every output field and stays within its
input. -/
def checkMapping (id : Nat) (width : Nat) (mapping : List (Option Nat)) (input : Schema) :
    Except Error Unit :=
  if mapping.length ≠ width then .error (.invalid id .unionWidth)
  else
    match (mapping.filterMap fun q => q).find? fun q => input.length ≤ q with
    | some q => .error (.invalid id (.unionPosition q))
    | none => .ok ()

/-- The part of the natural output that a node exposes. -/
def exposedPart (id : Nat) (n : Node) (natural : Schema) : Except Error Schema :=
  match n.projection with
  | none => .ok natural
  | some ps =>
    if !n.op.canProject then .error (.invalid id (.cannotProject n.op.name))
    else if ¬ ps.Nodup then .error (.invalid id .repeatedPosition)
    else Schema.project natural ps

/-- The invariants of the node stored under `id`. -/
def checkNode (p : Plan) (id : Nat) (n : Node) : Except Error Unit := do
  if n.id ≠ id then throw (.invalid id (.storedAs n.id))
  checkArity id n
  n.inputs.forM fun e => p.checkInput id e
  let inputs ← p.edgeSchemas n.inputs
  n.op.expressions.forM fun (i, e) => checkExpr id inputs i e
  if let .union u := n.op then
    (u.mappings.zip inputs).forM fun (m, s) => checkMapping id u.fields.length m s
  let natural ← n.op.natural inputs
  let exposed ← exposedPart id n natural
  if exposed ≠ n.schema then throw (.invalid id (.schemaMismatch n.schema exposed))

/-- An error met while checking a node, as a defect that names the node. -/
def atNode (id : Nat) (e : Error) : Error :=
  if e.isInternal then e else .invalid id (.other e.message)

def check (p : Plan) : Except Error Unit :=
  p.nodes.zipIdx.forM fun (n, id) => (p.checkNode id n).mapError (atNode id)

end Plan

end Dataflow
