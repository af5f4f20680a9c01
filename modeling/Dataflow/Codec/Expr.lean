import Dataflow.Codec.Schema
import Dataflow.Expr.Basic

/-!
# Interchange form of expressions

An expression is the choice of its outermost operation. A double is written
with the digits that identify it; one that is infinite or not a number has no
form and is written as `null`.
-/

namespace Dataflow

def Numeral.ofFloat (x : Float) : Numeral :=
  let (negative, cs) := Json.readSign (Decimal.interchange.finite x)
  let whole := cs.takeWhile Char.isDigit
  let (fraction, rest) := match cs.dropWhile Char.isDigit with
    | '.' :: rest => (some (rest.takeWhile Char.isDigit), rest.dropWhile Char.isDigit)
    | rest => (none, rest)
  let exponent := match rest with
    | 'e' :: '-' :: ds => some (true, ds)
    | 'e' :: ds => some (false, ds)
    | _ => none
  ⟨negative, whole, fraction, exponent⟩

namespace Literal

def toJson : Literal → Json
  | .null => .ofString "Null"
  | .boolean b => .choice "Boolean" (.bool b)
  | .int n => .choice "Int32" (.ofInt n.toInt)
  | .long n => .choice "Int64" (.ofInt n.toInt)
  | .double x =>
    .choice "Float64" (if x.isNaN || x.isInf then .null else .number (.ofFloat x))
  | .chararray s => .choice "Chararray" (.ofString s)

def ofJson? (room : Nat) (j : Json) : Option Literal :=
  if Json.bareTag? room j = some "Null" then some .null
  else
    match room, j with
    | _ + 1, .object [(some tag, body)] =>
      match tag with
      | "Boolean" => body.bool?.map .boolean
      | "Int32" =>
        (body.intIn? Int32.minValue.toInt Int32.maxValue.toInt).map fun i => .int (Int32.ofInt i)
      | "Int64" =>
        (body.intIn? Int64.minValue.toInt Int64.maxValue.toInt).map fun i => .long (Int64.ofInt i)
      | "Float64" => body.float?.map .double
      | "Chararray" => body.text?.map .chararray
      | _ => none
    | _, _ => none

end Literal

instance : Coded Literal := ⟨Literal.toJson, Literal.ofJson?⟩

namespace BinaryOp

def tag : BinaryOp → String
  | .eq => "Eq"
  | .ne => "NotEq"
  | .lt => "Lt"
  | .le => "LtEq"
  | .gt => "Gt"
  | .ge => "GtEq"
  | .plus => "Plus"
  | .minus => "Minus"
  | .times => "Multiply"
  | .divide => "Divide"
  | .modulo => "Modulus"
  | .and => "And"
  | .or => "Or"

def all : List BinaryOp :=
  [.eq, .ne, .lt, .le, .gt, .ge, .plus, .minus, .times, .divide, .modulo, .and, .or]

end BinaryOp

instance : Coded BinaryOp where
  toJson op := .ofString op.tag
  ofJson? room j := (Json.bareTag? room j).bind (Coded.ofTag? BinaryOp.all BinaryOp.tag)

instance : Coded Function where
  toJson f := .record [("name", .ofString f.name), ("return_dtype", f.returns.toJson)]
  ofJson?
    | 0, _ => none
    | room + 1, j => do
      match ← j.fields? ["name", "return_dtype"] with
      | [some name, some type] => return ⟨← name.text?, ← DataType.ofJson? room type⟩
      | _ => none

namespace Expr

mutual

def toJson : Expr → Json
  | .column p => .choice "Column" (.ofNat p)
  | .literal v => .choice "Literal" v.toJson
  | .star => .ofString "Star"
  | .unary op e =>
    match op with
    | .named name => .choice "Alias" (.array [e.toJson, .ofString name])
    | .cast type => .choice "Cast" (.array [e.toJson, type.toJson])
    | .isNull => .choice "IsNull" e.toJson
    | .lookup key => .choice "MapLookup" (.record [("input", e.toJson), ("key", .ofString key)])
    | .not => .choice "Not" e.toJson
    | .select columns =>
      .choice "Dereference"
        (.record [("input", e.toJson), ("columns", .array (columns.map .ofNat))])
  | .binary op l r =>
    .choice "BinaryOp"
      (.record [("op", Coded.toJson op), ("left", l.toJson), ("right", r.toJson)])
  | .ifElse t e p =>
    .choice "IfElse"
      (.record [("if_true", t.toJson), ("if_false", e.toJson), ("predicate", p.toJson)])
  | .call f args =>
    .choice "Function" (.record [("func", Coded.toJson f), ("inputs", .array (toJsons args))])

def toJsons : List Expr → List Json
  | [] => []
  | e :: es => e.toJson :: toJsons es

end

/-- Positions in an array, which needs room. -/
def positions? (room : Nat) (j : Json) : Option (List Nat) := do
  if room = 0 then none
  (← j.items?).mapM Json.word?

def ofJson? (room : Nat) (j : Json) : Option Expr :=
  if Json.bareTag? room j = some "Star" then some .star
  else
    match room, j with
    | room + 1, .object [(some tag, body)] =>
      match tag with
      | "Column" => body.word?.map .column
      | "Literal" => (Literal.ofJson? room body).map .literal
      | "IsNull" => (Expr.ofJson? room body).map .isNull
      | "Not" => (Expr.ofJson? room body).map .not
      | "Alias" =>
        match room, body with
        | room + 1, .array [e, name] => do return .named (← Expr.ofJson? room e) (← name.text?)
        | _, _ => none
      | "Cast" =>
        match room, body with
        | room + 1, .array [e, type] => do
          return .cast (← Expr.ofJson? room e) (← DataType.ofJson? room type)
        | _, _ => none
      | "MapLookup" =>
        match room, body.fields? ["input", "key"] with
        | room + 1, some [some e, some key] => do
          return .lookup (← Expr.ofJson? room e) (← key.text?)
        | _, _ => none
      | "Dereference" =>
        match room, body.fields? ["input", "columns"] with
        | room + 1, some [some e, some columns] => do
          return .select (← Expr.ofJson? room e) (← positions? room columns)
        | _, _ => none
      | "BinaryOp" =>
        match room, body.fields? ["op", "left", "right"] with
        | room + 1, some [some op, some l, some r] => do
          return .binary (← Coded.ofJson? room op) (← Expr.ofJson? room l) (← Expr.ofJson? room r)
        | _, _ => none
      | "IfElse" =>
        match room, body.fields? ["if_true", "if_false", "predicate"] with
        | room + 1, some [some t, some e, some p] => do
          return .ifElse (← Expr.ofJson? room t) (← Expr.ofJson? room e) (← Expr.ofJson? room p)
        | _, _ => none
      | "Function" =>
        match room, body.fields? ["func", "inputs"] with
        | room + 2, some [some f, some (.array args)] => do
          return .call (← Coded.ofJson? (room + 1) f) (← args.mapM (Expr.ofJson? room))
        | _, _ => none
      | _ => none
    | _, _ => none

end Expr

instance : Coded Expr := ⟨Expr.toJson, Expr.ofJson?⟩

end Dataflow
