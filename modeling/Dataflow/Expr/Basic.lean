import Dataflow.Decimal.Notation
import Dataflow.Schema.Basic

/-!
# Expressions

An expression computes a value from one row, whose fields it addresses by
position. Operations on one operand share a constructor (`Expr.unary`), with
what distinguishes them in `Unary`; the names of the individual operations are
patterns as well (`Expr.named`, `Expr.lookup`, and so on), so that most
functions need seven cases and the others can still be written by name.

The direct operands of an expression are listed by `Expr.children`, a
conditional's predicate last, and `Expr.withChildren` puts others in their
place.
-/

namespace Dataflow

inductive BinaryOp
  | eq
  | ne
  | lt
  | le
  | gt
  | ge
  | plus
  | minus
  | times
  | divide
  | modulo
  | and
  | or
deriving Repr, DecidableEq, Inhabited

namespace BinaryOp

def isComparison : BinaryOp → Bool
  | .eq | .ne | .lt | .le | .gt | .ge => true
  | _ => false

def isLogical : BinaryOp → Bool
  | .and | .or => true
  | _ => false

def text : BinaryOp → String
  | .eq => "=="
  | .ne => "!="
  | .lt => "<"
  | .le => "<="
  | .gt => ">"
  | .ge => ">="
  | .plus => "+"
  | .minus => "-"
  | .times => "*"
  | .divide => "/"
  | .modulo => "%"
  | .and => "and"
  | .or => "or"

end BinaryOp

inductive Literal
  | null
  | boolean (b : Bool)
  | int (n : Int32)
  | long (n : Int64)
  | double (x : Float)
  | chararray (s : String)
deriving DecidableEq

namespace Literal

def type : Literal → DataType
  | .null => .scalar .null
  | .boolean _ => .scalar .boolean
  | .int _ => .scalar .int
  | .long _ => .scalar .long
  | .double _ => .scalar .double
  | .chararray _ => .scalar .chararray

def text : Literal → String
  | .null => "null"
  | .boolean b => if b then "true" else "false"
  | .int n => toString n.toInt
  | .long n => toString n.toInt ++ "L"
  | .double x => Decimal.shown.text x
  | .chararray s => "'" ++ s ++ "'"

end Literal

/-- A function known by its name and the type it declares to return. Nothing
else is known of it, so all its arguments count as read in full. -/
structure Function where
  name : String
  returns : DataType
deriving DecidableEq

inductive Unary
  /-- The same value under a name. -/
  | named (name : String)
  | cast (type : DataType)
  | isNull
  /-- The value of one key of a map. -/
  | lookup (key : String)
  | not
  /-- Some inner columns of a bag or tuple. -/
  | select (columns : List Nat)
deriving DecidableEq

/-- An expression over the fields of one row. -/
inductive Expr
  /-- The field at a position. -/
  | column (position : Nat)
  | literal (value : Literal)
  /-- The whole row, as one tuple. -/
  | star
  | unary (op : Unary) (operand : Expr)
  | binary (op : BinaryOp) (left right : Expr)
  | ifElse (ifTrue ifFalse predicate : Expr)
  | call (function : Function) (arguments : List Expr)

instance : Inhabited Expr := ⟨.star⟩

namespace Expr

@[match_pattern] abbrev named (e : Expr) (name : String) : Expr := .unary (.named name) e
@[match_pattern] abbrev cast (e : Expr) (type : DataType) : Expr := .unary (.cast type) e
@[match_pattern] abbrev isNull (e : Expr) : Expr := .unary .isNull e
@[match_pattern] abbrev lookup (e : Expr) (key : String) : Expr := .unary (.lookup key) e
@[match_pattern] abbrev not (e : Expr) : Expr := .unary .not e
@[match_pattern] abbrev select (e : Expr) (columns : List Nat) : Expr := .unary (.select columns) e

/-! ## Text -/

mutual

/-- The text of an expression by itself, and as an operand of a binary
operator: there a name it carries is left out, and a binary expression stands
in brackets. -/
def spelled : Expr → String × String
  | .column p => (positionText p, positionText p)
  | .literal v => (v.text, v.text)
  | .star => ("*", "*")
  | .unary op e =>
    let inner := (spelled e).1
    match op with
    | .named name => (inner ++ " AS " ++ name, inner)
    | .cast type =>
      let t := "(" ++ type.text ++ ")" ++ inner
      (t, t)
    | .isNull => (inner ++ " is null", inner ++ " is null")
    | .lookup key =>
      let t := inner ++ "#'" ++ key ++ "'"
      (t, t)
    | .not => ("not(" ++ inner ++ ")", "not(" ++ inner ++ ")")
    | .select columns =>
      let t := inner ++ ".(" ++ positionsText columns ++ ")"
      (t, t)
  | .binary op l r =>
    let t := (spelled l).2 ++ " " ++ op.text ++ " " ++ (spelled r).2
    (t, "[" ++ t ++ "]")
  | .ifElse t e p =>
    let t := "(" ++ (spelled p).1 ++ " ? " ++ (spelled t).1 ++ " : " ++ (spelled e).1 ++ ")"
    (t, t)
  | .call f args =>
    let t := f.name ++ "(" ++ ", ".intercalate (texts args) ++ ")"
    (t, t)

def texts : List Expr → List String
  | [] => []
  | e :: es => (spelled e).1 :: texts es

end

def text (e : Expr) : String := (spelled e).1

/-- The texts of several expressions, separated by commas. -/
def listText (es : List Expr) : String := ", ".intercalate (texts es)

/-! ## Structure -/

def children : Expr → List Expr
  | .column _ | .literal _ | .star => []
  | .unary _ e => [e]
  | .binary _ l r => [l, r]
  | .ifElse t e p => [t, e, p]
  | .call _ args => args

/-- The expression with other operands in place of its own; `none` when there
are too few. Operands beyond the last place are ignored, except by a call,
which takes all of them. -/
def withChildren? : Expr → List Expr → Option Expr
  | .unary op _, e :: _ => some (.unary op e)
  | .binary op _ _, l :: r :: _ => some (.binary op l r)
  | .ifElse _ _ _, t :: e :: p :: _ => some (.ifElse t e p)
  | .call f _, args => some (.call f args)
  | .column p, _ => some (.column p)
  | .literal v, _ => some (.literal v)
  | .star, _ => some .star
  | _, _ => none

/-- The position that the expression forwards unchanged, if it is a column
under any number of names. -/
def forwards? : Expr → Option Nat
  | .column p => some p
  | .named e _ => e.forwards?
  | _ => none

mutual

/-- The number of nodes on the longest path from the root. -/
def depth : Expr → Nat
  | .column _ | .literal _ | .star => 1
  | .unary _ e => e.depth + 1
  | .binary _ l r => max l.depth r.depth + 1
  | .ifElse t e p => max t.depth (max e.depth p.depth) + 1
  | .call _ args => depths args + 1

def depths : List Expr → Nat
  | [] => 0
  | e :: es => max e.depth (depths es)

end

end Expr

end Dataflow
