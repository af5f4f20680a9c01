import Dataflow.Expr.Reads
import Dataflow.Plan.Natural
import Dataflow.Requirement.Fields
import Dataflow.Requirement.Parts

/-!
# Requirement rules

What each operator needs of its inputs, given what is needed of its output. A
`Demand` says which fields of an input are needed and how much of the nested
ones; demands are combined by `++`, which joins the fields and lists the
findings in order.

A field that is compared, hashed, written out or given to a function is read
whole. A field that is only passed on is required without a word about its
parts: what its consumers find out about it has its identity on it, and reaches
whoever produces it. A cogroup and a union look up what was found out about the
fields that they themselves originate.
-/

namespace Dataflow

/-- What a node needs of one of its inputs. -/
structure Demand where
  fields : Required
  parts : List PartDemand
deriving Repr, DecidableEq

namespace Demand

def empty : Demand := ⟨.none, []⟩

def append (a b : Demand) : Demand := ⟨(a.fields.merge b.fields).1, a.parts ++ b.parts⟩

instance : Append Demand := ⟨append⟩

/-- The demands of several causes together. -/
def collect {α : Type} (causes : List α) (demand : α → Except Error Demand) :
    Except Error Demand := do
  let ds ← causes.mapM demand
  return ds.foldl append empty

/-! ## Demands on one input -/

/-- The field at a position that is known to exist. -/
def field (s : Schema) (p : Nat) : Except Error Field :=
  (s.fieldAt p).mapError fun e => .internal (.restated e.message)

/-- Needs a position and, of the field there, the given parts. -/
def onField (s : Schema) (p : Nat) (parts : Field → List PartDemand) : Except Error Demand := do
  let f ← field s p
  return ⟨.positions [p], parts f⟩

/-- Needs a position, whatever parts of it. -/
def require (s : Schema) (p : Nat) : Except Error Demand := onField s p fun _ => []

/-- Needs every position, whatever parts of them. -/
def allPositions : Demand := ⟨.all, []⟩

def readAll (s : Schema) : Demand := ⟨.all, Schema.wholeDemands s⟩

/-- The findings of reading some inner columns of a field. -/
def readColumns (f : Field) (columns : List Nat) : Except Error (List PartDemand) :=
  match f.type.inner? with
  | none => .ok f.wholeDemands
  | some inner => do
    let fs ← columns.mapM (field inner)
    return fs.flatMap Field.wholeDemands ++ [.bagColumns f.uid (fs.map Field.uid)]

/-- Reads a field as an expression does. -/
def access (s : Schema) (p : Nat) : Access → Except Error Demand
  | .whole => onField s p Field.wholeDemands
  | .key k => onField s p fun f =>
    if f.type.isMap then [.mapKey f.uid k] else f.wholeDemands
  | .columns cs => do
    let f ← field s p
    return ⟨.positions [p], ← readColumns f cs⟩

def ofReads (s : Schema) (r : Reads) : Except Error Demand :=
  if r.star then .ok (readAll s) else collect r.accesses fun (p, a) => access s p a

def ofExpr (s : Schema) (e : Expr) : Except Error Demand := ofReads s e.reads

/-- Evaluates keys, which are compared: every field they touch is read whole. -/
def ofKeys (s : Schema) (keys : List Expr) : Except Error Demand :=
  collect keys fun e => ofReads s e.reads.toWhole

/-- Needs those of the required output positions that come from this input,
whose fields are the output positions from `start` on. -/
def ofRange (s : Schema) (required : List Nat) (start : Nat) : Except Error Demand :=
  collect (required.filter fun p => start ≤ p && p < start + s.length) fun p =>
    require s (p - start)

/-! ## Operators -/

/-- An item of a `forEach`, which is needed if some of its output is. An item
that unnests decides how many rows come out, needed or not. -/
def ofItem (s : Schema) (required : List Nat) (item : Item) (range : Nat × Nat) :
    Except Error Demand :=
  if !item.flatten && !required.any fun p => range.1 ≤ p && p < range.2 then .ok empty
  else if item.isStar then .ok allPositions
  else if item.expr.hasStar then .ok (readAll s)
  else
    match item.expr.forwards? with
    | some p => onField s p fun f => if item.flatten then f.forwardDemands else []
    | none => ofReads s (if item.flatten then item.expr.reads.toWhole else item.expr.reads)

/-- The bag of a cogroup's input: the columns that are read of it, by identity,
or everything. -/
def ofBag (s : Schema) : Option (KeySet Uid) → Except Error Demand
  | some (.only columns) => collect columns fun u =>
    match Schema.positionOf? s u with
    | some p => require s p
    | none => .ok allPositions
  | _ => .ok allPositions

/-- What is known to be read of a union's output, said of the input field that
feeds it. -/
def ofUnionField (trackers : Trackers) (output input : Field) : List PartDemand :=
  if input.type.isMap then
    match trackers.mapKeys.get? output.uid with
    | some (.only keys) => keys.map fun k => .mapKey input.uid k
    | _ => [.allKeys input.uid]
  else input.wholeDemands

/-- An input of a union: each required output field needs the input field it is
mapped to, and one that is padded needs everything. -/
def ofMapping (name : String) (trackers : Trackers) (u : Union) (required : List Nat)
    (s : Schema) (mapping : List (Option Nat)) : Except Error Demand :=
  collect required fun p =>
    match u.fields[p]? with
    | none => .error (.internal (.noOutput name p))
    | some output =>
      match mapping[p]?.join with
      | some q => onField s q (ofUnionField trackers output)
      | none => .ok (readAll s)

/-- An input of a cogroup: its keys, and its bag if that is required. -/
def ofGroup (name : String) (trackers : Trackers) (g : CoGroup) (required : List Nat)
    (s : Schema) (keys : List Expr) (input : Nat) : Except Error Demand := do
  let ks ← ofKeys s keys
  if !required.contains (CoGroup.bagPosition input) then return ks
  match g.bags[input]? with
  | none => .error (.internal (.noBag name input))
  | some (_, uid) => return ks ++ (← ofBag s (trackers.bagColumns.get? uid))

/-- Demands on the first input; the others, if any, are not read. -/
def onFirst (name : String) (inputs : List Schema) (demand : Schema → Except Error Demand) :
    Except Error (List Demand) :=
  match inputs with
  | [] => .error (.internal (.missingInput name))
  | s :: rest => do return (← demand s) :: rest.map fun _ => empty

/-- The first output position of each input of a join. -/
def offsets : (start : Nat) → List Schema → List (Schema × Nat)
  | _, [] => []
  | start, s :: rest => (s, start) :: offsets (start + s.length) rest

/-- What an operator needs of its inputs, given the required positions of its
natural output. -/
def ofOperator (name : String) (trackers : Trackers) (op : Operator) (inputs : List Schema)
    (required : List Nat) : Except Error (List Demand) :=
  match op with
  | .load _ => .ok (inputs.map fun _ => empty)
  | .store _ | .distinct | .stream _ _ => .ok (inputs.map readAll)
  | .filter p => onFirst name inputs fun s => do
    return (← ofRange s required 0) ++ (← ofExpr s p)
  | .limit _ => onFirst name inputs fun s => ofRange s required 0
  | .orderBy o => onFirst name inputs fun s => do
    return (← ofRange s required 0) ++ (← ofKeys s o.keys)
  | .split ps => onFirst name inputs fun s => do
    return (← ofRange s required 0) ++ (← collect ps (ofExpr s))
  | .forEach items => onFirst name inputs fun s => do
    let ranges ← Items.ranges items s
    collect (items.zip ranges) fun (item, range) => ofItem s required item range
  | .cross => (offsets 0 inputs).mapM fun (s, start) => ofRange s required start
  | .join j => (offsets 0 inputs).zipIdx.mapM fun ((s, start), i) => do
    return (← ofRange s required start) ++ (← ofKeys s (j.keys[i]?.getD []))
  | .cogroup g => inputs.zipIdx.mapM fun (s, i) =>
    match g.keys[i]? with
    | none => .ok empty
    | some keys => ofGroup name trackers g required s keys i
  | .union u => inputs.zipIdx.mapM fun (s, i) =>
    match u.mappings[i]? with
    | none => .ok empty
    | some mapping => ofMapping name trackers u required s mapping

end Demand

/-- A requirement on the exposed output, said of the natural output. -/
def Node.naturalRequired (n : Node) (r : Required) : Except Error Required :=
  match n.projection, r with
  | none, _ => .ok r
  | some _, .none => .ok .none
  | some ps, .all => .ok (.ofPositions ps)
  | some ps, .positions qs => do
    let natural ← qs.mapM fun q =>
      match ps[q]? with
      | some p => .ok p
      | none => .error (.internal (.notExposed q n.displayName))
    return .ofPositions natural

/-- What a node needs of each of its inputs, given what is required of it. -/
def Plan.inputDemands (p : Plan) (id : Nat) (r : Required) (trackers : Trackers) :
    Except Error (List Demand) := do
  let n ← p.node id
  let inputs ← p.inputSchemas id
  let natural ← p.natural id
  let required ← (← n.naturalRequired r).resolve natural.length
  Demand.ofOperator n.displayName trackers n.op inputs required

end Dataflow
