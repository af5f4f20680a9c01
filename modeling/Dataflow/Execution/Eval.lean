import Dataflow.Error.Basic

/-!
# Evaluating expressions

The value of an expression on a row. Null passes through most operations: an
operator with a null operand gives null, so does a key or column of null. `and`
and `or` need two truth values and give null otherwise. Integers are 64 bits
wide, and arithmetic that leaves that range ends the computation; doubles
follow their own rules.

Five functions are known, each by its name and the shape of its arguments.
-/

namespace Dataflow

def raise {α : Type} (e : Error) : Except Failure α := .error (.error e)

/-- The 64-bit integer with this value, if there is one. -/
def inRange (n : Int) : Except Failure Value :=
  if Int64.minValue.toInt ≤ n && n ≤ Int64.maxValue.toInt then .ok (.int (Int64.ofInt n))
  else .error .overflow

namespace Value

/-! ## Operators -/

/-- The truth of a comparison whose operands are ordered so. -/
def compared : BinaryOp → Ordering → Bool
  | .eq, o => o == .eq
  | .ne, o => o != .eq
  | .lt, o => o == .lt
  | .le, o => o != .gt
  | .gt, o => o == .gt
  | _, o => o != .lt

/-- Arithmetic on integers. Division truncates toward zero, and division by
zero gives null. -/
def arithmetic (op : BinaryOp) (a b : Int) : Except Failure Value :=
  match op with
  | .plus => inRange (a + b)
  | .minus => inRange (a - b)
  | .times => inRange (a * b)
  | .divide => if b = 0 then .ok .null else inRange (a.tdiv b)
  | .modulo =>
    if b = 0 then .ok .null
    else if a = Int64.minValue.toInt && b = -1 then .error .overflow
    else inRange (a.tmod b)
  | _ => .ok .null

def floatArithmetic (op : BinaryOp) (x y : Float) : Float :=
  match op with
  | .plus => x + y
  | .minus => x - y
  | .times => x * y
  | .divide => x / y
  | _ => Decimal.remainder x y

/-- Arithmetic on two values, neither of them null. -/
def calculate (op : BinaryOp) (a b : Value) : Except Failure Value :=
  match a, b with
  | .int m, .int n => arithmetic op m.toInt n.toInt
  | _, _ =>
    match a.number?, b.number? with
    | some x, some y => .ok (.float (floatArithmetic op x y))
    | _, _ => raise (.type (.valuesWithoutArithmetic op a b))

def connect (op : BinaryOp) (a b : Value) : Value :=
  match a, b with
  | .bool p, .bool q => .bool (if op = .and then p && q else p || q)
  | _, _ => .null

def binary (op : BinaryOp) (a b : Value) : Except Failure Value :=
  if op.isComparison then
    .ok (if a.isNull || b.isNull then .null else .bool (compared op (a.order b)))
  else if op.isLogical then .ok (connect op a b)
  else if a.isNull || b.isNull then .ok .null
  else calculate op a b

def lookup (key : String) : Value → Except Failure Value
  | .map entries => .ok ((entries.lookup key).getD .null)
  | .null => .ok .null
  | other => raise (.type (.valueWithoutKeys other))

/-- Some columns of an inner row. -/
def pick (columns : List Nat) (row : Row) : Except Failure Row :=
  columns.mapM fun c =>
    match row[c]? with
    | some v => .ok v
    | none => raise (.internal (.innerWidth c))

def select (columns : List Nat) : Value → Except Failure Value
  | .bag rows => return .bag (← rows.mapM (pick columns))
  | .tuple values => return .tuple (← pick columns values)
  | .null => .ok .null
  | other => raise (.type (.valueWithoutColumns other))

def negate : Value → Value
  | .bool b => .bool !b
  | _ => .null

/-- A value as another type. Only numbers change, and integers as text. -/
def cast (type : DataType) (v : Value) : Value :=
  match type, v with
  | .scalar .int, .float x => .int x.toInt64
  | .scalar .long, .float x => .int x.toInt64
  | .scalar .float, .int n => .float n.toFloat
  | .scalar .double, .int n => .float n.toFloat
  | .scalar .chararray, .int n => .str (toString n.toInt)
  | _, _ => v

def unary (op : Unary) (v : Value) : Except Failure Value :=
  match op with
  | .named _ => .ok v
  | .cast type => .ok (v.cast type)
  | .isNull => .ok (.bool v.isNull)
  | .lookup key => v.lookup key
  | .not => .ok v.negate
  | .select columns => v.select columns

def ofLiteral : Literal → Value
  | .null => .null
  | .boolean b => .bool b
  | .int n => .int n.toInt64
  | .long n => .int n
  | .double x => .float x
  | .chararray s => .str s

/-! ## Functions -/

/-- The first fields of the rows that are not null. -/
def firstColumn (rows : List Row) : List Value :=
  (rows.filterMap List.head?).filter fun v => !v.isNull

/-- The sum of doubles from left to right. The sum of none is `-0.0`, the
neutral element. -/
def sumFloats (xs : List Float) : Float := xs.foldl (· + ·) (-0.0)

def isInt : Value → Bool
  | .int _ => true
  | _ => false

/-- The sum of a bag's first column, as an integer if all its values are
integers. It is computed in doubles either way. -/
def sum (rows : List Row) : Value :=
  let vs := firstColumn rows
  let total := sumFloats (vs.filterMap number?)
  if vs.all isInt then .int total.toInt64 else .float total

/-- The mean of the numbers in a bag's first column. -/
def average (rows : List Row) : Value :=
  let xs := (firstColumn rows).filterMap number?
  if xs.isEmpty then .null else .float (sumFloats xs / xs.length.toUInt64.toFloat)

def ofCount (n : Nat) : Value := .int (Int64.ofNat n)

/-- How many parts a value has; a text counts its bytes. -/
def size : Value → Value
  | .tuple values => ofCount values.length
  | .bag rows => ofCount rows.length
  | .map entries => ofCount entries.length
  | .str s => ofCount s.utf8ByteSize
  | .null => .null
  | _ => .int 1

/-- The text that a value contributes to a concatenation. -/
def plainText : Value → String
  | .str s => s
  | .int n => toString n.toInt
  | v => v.text

/-- The texts of several values one after the other; null if one is null. -/
def concat (vs : List Value) : Value :=
  if vs.any isNull then .null else .str (String.join (vs.map plainText))

def call (name : String) (args : List Value) : Except Failure Value :=
  match name, args with
  | "COUNT", [.bag rows] => .ok (ofCount rows.length)
  | "SUM", [.bag rows] => .ok (sum rows)
  | "AVG", [.bag rows] => .ok (average rows)
  | "SIZE", [v] => .ok v.size
  | "CONCAT", vs => .ok (concat vs)
  | _, _ => raise (.value (.unknownFunction name args.length))

end Value

namespace Expr

mutual

/-- The value of an expression on a row. -/
def eval (row : Row) : Expr → Except Failure Value
  | .column p =>
    match row[p]? with
    | some v => .ok v
    | none => raise (.internal (.rowWidth row.length p))
  | .literal v => .ok (.ofLiteral v)
  | .star => .ok (.tuple row)
  | .unary op e => do (← e.eval row).unary op
  | .binary op l r => do
    let a ← l.eval row
    let b ← r.eval row
    a.binary op b
  | .ifElse t e p => do
    match ← p.eval row with
    | .bool true => t.eval row
    | .bool false => e.eval row
    | _ => .ok .null
  | .call f args => do Value.call f.name (← evalAll row args)

def evalAll (row : Row) : List Expr → Except Failure (List Value)
  | [] => .ok []
  | e :: es => do
    let v ← e.eval row
    let vs ← evalAll row es
    return v :: vs

end

end Expr

end Dataflow
