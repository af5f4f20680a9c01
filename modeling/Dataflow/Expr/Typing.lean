import Dataflow.Schema.Access

/-!
# Types and names of expressions

The type an expression has over a schema, and the name of the field it makes.
Neither looks at everything: a cast, a call and a null test have a type of
their own whatever their operands are, and a conditional has the type of its
first branch.
-/

namespace Dataflow.Expr

def type (s : Schema) : Expr → Except Error DataType
  | .column p => (s.fieldAt p).map Field.type
  | .literal v => .ok v.type
  | .star => .ok (.tuple s)
  | .unary op e =>
    match op with
    | .named _ => e.type s
    | .cast type => .ok type
    | .isNull => .ok (.scalar .boolean)
    | .lookup key => do
      match ← e.type s with
      | .map value => .ok value
      | other => .error (.type (.noKeys key other))
    | .not => do
      let t ← e.type s
      if t = .scalar .boolean then .ok t else .error (.type (.notBoolean t))
    | .select columns => do
      match ← e.type s with
      | .bag inner => return .bag (← Schema.project inner columns)
      | .tuple inner => return .tuple (← Schema.project inner columns)
      | other => .error (.type (.noColumns other))
  | .binary op l r => do
    let lt ← l.type s
    let rt ← r.type s
    if op.isComparison || op.isLogical then .ok (.scalar .boolean)
    else
      match lt.wider? rt with
      | some t => .ok t
      | none => .error (.type (.noArithmetic op lt rt))
  | .ifElse t _ _ => t.type s
  | .call f _ => .ok f.returns

def name (s : Schema) : Expr → Except Error String
  | .column p => (s.fieldAt p).map Field.name
  | .literal _ => .ok "literal"
  | .star => .ok "*"
  | .unary op e =>
    match op with
    | .named name => .ok name
    | _ => e.name s
  | .binary _ l _ => l.name s
  | .ifElse t _ _ => t.name s
  | .call f _ => .ok f.name

def withChildren (e : Expr) (children : List Expr) : Except Error Expr :=
  match e.withChildren? children with
  | some e => .ok e
  | none => .error (.internal (.tooFewChildren e))

end Dataflow.Expr
