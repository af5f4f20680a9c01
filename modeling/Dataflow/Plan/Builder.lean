import Dataflow.Plan.Check

/-!
# Building plans

Plans are built node by node. Each operation checks what its operator needs of
its inputs, draws the identities of the fields it makes, and appends one node
whose schema is its natural output. An operation that fails appends nothing,
but identities it has drawn by then stay drawn.
-/

namespace Dataflow

/-- A plan under construction. -/
structure Builder where
  plan : Plan
  uids : UidSource

/-- A step of building: it may fail, and keeps what it has done until then. -/
abbrev Build := ExceptT Error (StateM Builder)

namespace Builder

def empty : Builder := ⟨.empty, ⟨0⟩⟩

/-! ## Operators -/

/-- The error of an operator that cannot be created. -/
def refuse {α : Type} (fault : ValueFault) : Except Error α := .error (.creation (.value fault))

/-- The keys of one input have types. -/
def checkKeys (schema : Schema) (keys : List Expr) : Except Error Unit :=
  keys.forM fun e => discard (creating (e.type schema))

/-- A filter's predicate is a truth value, or null. -/
def checkFilter (schema : Schema) (predicate : Expr) : Except Error Unit := creating do
  let t ← predicate.type schema
  if t = .scalar .boolean || t = .scalar .null then .ok ()
  else .error (.type (.notPredicate predicate t))

/-- A join has two inputs or more, exactly two if it is an outer join, and
equally many keys on each, at least one. -/
def checkJoin (j : Join) (inputs : List Schema) : Except Error Unit := do
  if j.keys.length < 2 then refuse .joinInputs
  if j.type ≠ .inner && j.keys.length ≠ 2 then refuse (.outerJoinInputs j.type j.keys.length)
  let arity := (j.keys.head?.getD []).length
  (j.keys.zip inputs).forM fun (side, schema) => do
    if side.length ≠ arity || arity = 0 then refuse .joinKeys
    checkKeys schema side

/-- The inputs of a cogroup have equally many keys. -/
def checkGroup (keys : List (List Expr)) (inputs : List Schema) : Except Error Unit := do
  let arity := (keys.head?.getD []).length
  if keys.isEmpty then refuse .groupShape
  if keys.any fun side => side.length ≠ arity then refuse .groupKeys
  (keys.zip inputs).forM fun (side, schema) => checkKeys schema side

/-- A sort has a direction for each of its keys, at least one. -/
def checkOrder (o : OrderBy) (schema : Schema) : Except Error Unit := do
  if o.keys.isEmpty || o.keys.length ≠ o.descending.length then
    refuse (.sortDirections o.keys.length o.descending.length)
  checkKeys schema o.keys

/-- A split has at least one branch. -/
def checkSplit (predicates : List Expr) (schema : Schema) : Except Error Unit := do
  if predicates.isEmpty then refuse .splitBranches
  checkKeys schema predicates

/-! ## Steps -/

/-- The outcome of a check as a step of building. -/
def lift {α : Type} (r : Except Error α) : Build α := ExceptT.mk (pure r)

def draw : Build Uid := do
  let b ← get
  let (u, uids) := b.uids.draw
  set { b with uids := uids }
  return u

/-- A field with an identity of its own. -/
def field (name : String) (type : DataType) : Build Field := return ⟨name, type, ← draw⟩

/-- A schema of fields with identities of their own. -/
def schema (fields : List (String × DataType)) : Build Schema :=
  fields.mapM fun (name, type) => field name type

def schemaOf (id : Nat) : Build Schema := do lift ((← get).plan.schemaOf id)

def edgeSchemas (edges : List Edge) : Build (List Schema) := do
  lift ((← get).plan.edgeSchemas edges)

/-- Appends a node that exposes its natural output. -/
def add (label : Option String) (op : Operator) (inputs : List Edge) : Build Nat := do
  let b ← get
  let schemas ← edgeSchemas inputs
  if op.forwardsInput && schemas.isEmpty then lift (.error (.value (.needsInput op.name)))
  let natural ← lift (op.natural schemas)
  let id := b.plan.nodes.length
  let node : Node := ⟨id, label, op, inputs, natural, none⟩
  set { b with plan := ⟨b.plan.nodes ++ [node]⟩ }
  return id

/-! ## Operations -/

def load (label location : String) (schema : Schema) (reader : Option Reader) : Build Nat :=
  add (some label) (.load ⟨⟨location, schema, reader⟩, none, none⟩) []

def store (input : Edge) (location : String) : Build Nat := add none (.store location) [input]

/-- A `forEach` with expressions to be unnested or not. -/
def forEach (label : String) (input : Edge) (items : List (Expr × Bool)) : Build Nat := do
  let schema ← schemaOf input.node
  let items ← items.mapM fun (e, flatten) => return ⟨e, flatten, ← draw⟩
  discard (lift (creating (Items.schema items schema)))
  add (some label) (.forEach items) [input]

def filter (label : String) (input : Edge) (predicate : Expr) : Build Nat := do
  lift (checkFilter (← schemaOf input.node) predicate)
  add (some label) (.filter predicate) [input]

def join (label : String) (inputs : List (Edge × List Expr)) (type : JoinType)
    (strategy : JoinStrategy) : Build Nat := do
  let edges := inputs.map Prod.fst
  let j : Join := ⟨inputs.map Prod.snd, type, strategy⟩
  lift (checkJoin j (← edgeSchemas edges))
  add (some label) (.join j) edges

/-- The type of a group: a text without keys, the key's type with one key, a
tuple with several. -/
def groupType (schema : Schema) : List Expr → Build DataType
  | [] => pure (.scalar .chararray)
  | [key] => lift (creating (key.type schema))
  | keys => do
    let fields ← keys.mapM fun key => do
      let name ← lift (creating (key.name schema))
      let type ← lift (creating (key.type schema))
      field name type
    return .tuple fields

/-- The name of an input's bag: the label of the input, or its number. -/
def bagName (input : Node) (i : Nat) : String := input.label.getD ("input" ++ toString i)

/-- A cogroup of inputs with their keys and whether a group needs a row of
theirs. -/
def cogroup (label : String) (inputs : List (Edge × List Expr × Bool)) : Build Nat := do
  let plan := (← get).plan
  let edges := inputs.map Prod.fst
  let keys := inputs.map fun i => i.2.1
  let nodes ← lift (edges.mapM fun e => plan.node e.node)
  let schemas := nodes.map Node.schema
  lift (checkGroup keys schemas)
  let type ← groupType (schemas.head?.getD []) (keys.head?.getD [])
  let group ← field "group" type
  let bags ← nodes.zipIdx.mapM fun (n, i) => return (bagName n i, ← draw)
  add (some label) (.cogroup ⟨keys, inputs.map fun i => i.2.2, group, bags⟩) edges

def group (label : String) (input : Edge) (keys : List Expr) : Build Nat :=
  cogroup label [(input, keys, false)]

/-- One group of all rows. -/
def groupAll (label : String) (input : Edge) : Build Nat := group label input []

def cross (label : String) (inputs : List Edge) : Build Nat := do
  if inputs.length < 2 then lift (.error (.value .crossInputs))
  add (some label) .cross inputs

/-- Appends a union, which has at least two inputs. -/
def addUnion (label : String) (inputs : List Edge) (u : Union) : Build Nat := do
  if inputs.length < 2 then lift (.error (.value .unionInputs))
  add (some label) (.union u) inputs

/-- A union by position: each output field is named and typed after the first
input that has the position, and narrower inputs are padded. -/
def union (label : String) (inputs : List Edge) : Build Nat := do
  let schemas ← edgeSchemas inputs
  let width := (schemas.map List.length).foldl max 0
  let fields ← (List.range width).mapM fun p =>
    match schemas.findSome? fun s => s[p]? with
    | some f => field f.name f.type
    | none => lift (.error (.internal (.noUnionField p)))
  let mappings := schemas.map fun s =>
    (List.range width).map fun p => if p < s.length then some p else none
  addUnion label inputs ⟨fields, mappings⟩

/-- The first field of each name, in order of first appearance. -/
def firstByName : List Field → List Field
  | [] => []
  | f :: fs => f :: (firstByName fs).filter fun g => g.name ≠ f.name

/-- A union by name: the output has every name once, typed as where it appears
first. -/
def unionByName (label : String) (inputs : List Edge) : Build Nat := do
  let schemas ← edgeSchemas inputs
  let named := firstByName schemas.flatten
  let mappings := schemas.map fun s => named.map fun f => s.findIdx? fun g => g.name == f.name
  let fields ← named.mapM fun f => field f.name f.type
  addUnion label inputs ⟨fields, mappings⟩

def distinct (label : String) (input : Edge) : Build Nat := add (some label) .distinct [input]

def orderBy (label : String) (input : Edge) (o : OrderBy) : Build Nat := do
  lift (checkOrder o (← schemaOf input.node))
  add (some label) (.orderBy o) [input]

def limit (label : String) (input : Edge) (count : Nat) : Build Nat :=
  add (some label) (.limit count) [input]

/-- A split with one branch for each predicate. -/
def split (label : String) (input : Edge) (predicates : List Expr) : Build Nat := do
  lift (checkSplit predicates (← schemaOf input.node))
  add (some label) (.split predicates) [input]

def stream (label : String) (input : Edge) (command : String) (schema : Schema) : Build Nat :=
  add (some label) (.stream command schema) [input]

/-- The finished plan, if it is consistent. -/
def build (b : Builder) : Except Error Plan := do
  b.plan.check
  return b.plan

end Builder

end Dataflow
