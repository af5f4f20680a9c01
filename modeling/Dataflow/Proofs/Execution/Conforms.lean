import Dataflow.Execution.Run
import Dataflow.Proofs.Traversal

/-!
# Rows that have the declared shape

Neither the tables nor the commands and functions of a plan are bound to the
types that the plan declares, so a run may produce rows that are longer or
shorter than their schema, or hold a number where a bag is declared. A run
conforms (`Plan.Conforms`) when this does not happen: the rows of every table
have the shape of the load's source, those of every node the shape of its
schema, and what each item of a `forEach` contributes the shape of the fields
that the item declares.

The shape of a row is its width and the nesting of its values. Null has every
shape, and the kind of a scalar does not matter.
-/

namespace Dataflow

namespace Value

def isNested : Value → Bool
  | .map _ | .tuple _ | .bag _ => true
  | _ => false

mutual

/-- Whether a value has the shape of a type. -/
def conforms : Value → DataType → Bool
  | .null, _ => true
  | .map _, .map _ => true
  | .tuple values, .tuple inner => rowConforms values inner
  | .bag rows, .bag inner => rowsConform rows inner
  | v, .scalar _ => !v.isNested
  | _, _ => false

def rowConforms : List Value → Schema → Bool
  | [], [] => true
  | v :: vs, f :: fs => v.conforms f.type && rowConforms vs fs
  | _, _ => false

def rowsConform : List (List Value) → Schema → Bool
  | [], _ => true
  | row :: rows, s => rowConforms row s && rowsConform rows s

end

theorem rowConforms_length {row : Row} {s : Schema} (h : rowConforms row s = true) :
    row.length = s.length := by
  induction row generalizing s with
  | nil => cases s with
    | nil => rfl
    | cons f fs => cases h
  | cons v vs ih => cases s with
    | nil => cases h
    | cons f fs => exact congrArg Nat.succ (ih (Bool.and_eq_true_iff.mp h).2)

theorem conforms_at {row : Row} {s : Schema} (h : rowConforms row s = true) {p : Nat} {v : Value}
    {f : Field} (hv : row[p]? = some v) (hf : s[p]? = some f) : v.conforms f.type = true := by
  induction row generalizing s p with
  | nil => cases hv
  | cons u vs ih =>
    cases s with
    | nil => cases hf
    | cons x fs =>
      obtain ⟨hu, hvs⟩ := Bool.and_eq_true_iff.mp h
      cases p with
      | zero => cases hv; cases hf; exact hu
      | succ p => exact ih hvs hv hf

/-- A map stands only where a map is declared. -/
theorem isMap_of_conforms {entries : List (String × Value)} {type : DataType}
    (h : (Value.map entries).conforms type = true) : type.isMap = true := by
  cases type <;> first | rfl | cases h

end Value

namespace Run

/-- Whether what an item contributes to a row has the shape of its fields. -/
def itemConforms (schema : Schema) (row : Row) (item : Item) : Bool :=
  match item.fields schema, itemRows schema row item with
  | .ok fields, .ok rows => rows.all fun row => Value.rowConforms row fields
  | _, _ => true

/-- Whether the rows that a node reads and produces have the declared shape,
given the outputs of all nodes. -/
def nodeConforms (t : Tables) (p : Plan) (outputs : List Output) (n : Node) : Bool :=
  ((outputs[n.id]?.map Output.all).getD []).all (fun row => Value.rowConforms row n.schema) &&
    match n.op with
    | .load l => (t.rows l.source.location).all fun row => Value.rowConforms row l.source.schema
    | .forEach items =>
      match n.inputs.mapM (edgeRows outputs), p.edgeSchemas n.inputs with
      | .ok (rows :: _), .ok (schema :: _) =>
        rows.all fun row => items.all (itemConforms schema row)
      | _, _ => true
    | _ => true

end Run

/-- A run that ends without an error and whose rows have the declared shapes. -/
def Plan.Conforms (p : Plan) (t : Tables) : Prop :=
  ∃ outputs, Run.outputs t p = .ok outputs ∧ ∀ n ∈ p.nodes, Run.nodeConforms t p outputs n = true

namespace Run

variable {t : Tables} {p : Plan} {outputs : List Output} {n : Node}

theorem nodeConforms_output (h : nodeConforms t p outputs n = true) {out : Output}
    (hout : outputs[n.id]? = some out) {row : Row} (hrow : row ∈ Output.all out) :
    Value.rowConforms row n.schema = true := by
  have hall := (Bool.and_eq_true_iff.mp h).1
  rw [hout] at hall
  exact List.all_eq_true.mp hall row hrow

theorem nodeConforms_load (h : nodeConforms t p outputs n = true) {l : Load} (hn : n.op = .load l)
    {row : Row} (hrow : row ∈ t.rows l.source.location) : row.length = l.source.schema.length := by
  have hload := (Bool.and_eq_true_iff.mp h).2
  rw [hn] at hload
  exact Value.rowConforms_length (List.all_eq_true.mp hload row hrow)

theorem nodeConforms_item (h : nodeConforms t p outputs n = true) {items : List Item}
    (hn : n.op = .forEach items) {rows : List Row} {more : List (List Row)} {schema : Schema}
    {schemas : List Schema} (hinputs : n.inputs.mapM (edgeRows outputs) = .ok (rows :: more))
    (hschemas : p.edgeSchemas n.inputs = .ok (schema :: schemas)) {row : Row} (hrow : row ∈ rows)
    {item : Item} (hitem : item ∈ items) {fields : List Field} {out : List Row}
    (hfields : item.fields schema = .ok fields) (hout : itemRows schema row item = .ok out) :
    ∀ r ∈ out, r.length = fields.length := by
  have hitems := (Bool.and_eq_true_iff.mp h).2
  rw [hn] at hitems
  simp only [hinputs, hschemas] at hitems
  have hone := List.all_eq_true.mp (List.all_eq_true.mp hitems row hrow) item hitem
  simp only [itemConforms, hfields, hout] at hone
  exact fun r hr => Value.rowConforms_length (List.all_eq_true.mp hone r hr)

end Run

end Dataflow
