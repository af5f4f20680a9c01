import Dataflow.Decimal.Notation
import Dataflow.Text.Quoted

/-!
# Values

What a field of a row holds when a plan runs. Two relations between values
matter. `Value.same` is equality in the sense of the numbers inside: a value
that is not a number differs from itself, and the two zeros are equal.
`Value.order` is the comparison that predicates, sorting and joins use: numbers
of either kind compare by magnitude, everything else by kind first and then
part by part, and what cannot be compared counts as equal.

A map keeps its entries in ascending order of their keys, each key once.
-/

namespace Dataflow

inductive Value
  | null
  | bool (b : Bool)
  | int (n : Int64)
  | float (x : Float)
  | str (s : String)
  | map (entries : List (String × Value))
  | tuple (values : List Value)
  | bag (rows : List (List Value))

/-- The values of one row, in the order of its schema. -/
abbrev Row := List Value

instance : Inhabited Value := ⟨.null⟩

namespace Value

/-! ## Equality -/

mutual

def same : Value → Value → Bool
  | .null, .null => true
  | .bool a, .bool b => a == b
  | .int a, .int b => a == b
  | .float a, .float b => a == b
  | .str a, .str b => a == b
  | .map a, .map b => sameEntries a b
  | .tuple a, .tuple b => sameRow a b
  | .bag a, .bag b => sameRows a b
  | _, _ => false

def sameRow : List Value → List Value → Bool
  | [], [] => true
  | a :: as, b :: bs => a.same b && sameRow as bs
  | _, _ => false

def sameRows : List (List Value) → List (List Value) → Bool
  | [], [] => true
  | a :: as, b :: bs => sameRow a b && sameRows as bs
  | _, _ => false

def sameEntries : List (String × Value) → List (String × Value) → Bool
  | [], [] => true
  | (k, a) :: as, (l, b) :: bs => k == l && a.same b && sameEntries as bs
  | _, _ => false

end

def isNull : Value → Bool
  | .null => true
  | _ => false

/-! ## Order -/

/-- The comparison of two doubles, unless one is not a number. -/
def compareFloats (x y : Float) : Option Ordering :=
  if x < y then some .lt
  else if x == y then some .eq
  else if y < x then some .gt
  else none

/-- The place of a value's kind in the order of kinds. -/
def kindRank : Value → Nat
  | .null => 0
  | .bool _ => 1
  | .int _ => 2
  | .float _ => 3
  | .str _ => 4
  | .map _ => 5
  | .tuple _ => 6
  | .bag _ => 7

mutual

/-- Comparison by kind and then part by part; `none` as soon as two parts
cannot be compared. -/
def compare? : Value → Value → Option Ordering
  | .bool a, .bool b => some (compare a b)
  | .int a, .int b => some (compare a.toInt b.toInt)
  | .float a, .float b => compareFloats a b
  | .str a, .str b => some (compare a b)
  | .map a, .map b => compareEntries a b
  | .tuple a, .tuple b => compareRow a b
  | .bag a, .bag b => compareRows a b
  | a, b => some (compare a.kindRank b.kindRank)

/-- Comparison of rows: the first difference decides, then the length. -/
def compareRow : List Value → List Value → Option Ordering
  | [], [] => some .eq
  | [], _ :: _ => some .lt
  | _ :: _, [] => some .gt
  | a :: as, b :: bs =>
    match a.compare? b with
    | some .eq => compareRow as bs
    | other => other

def compareRows : List (List Value) → List (List Value) → Option Ordering
  | [], [] => some .eq
  | [], _ :: _ => some .lt
  | _ :: _, [] => some .gt
  | a :: as, b :: bs =>
    match compareRow a b with
    | some .eq => compareRows as bs
    | other => other

/-- Comparison of the entries of maps: an entry compares by key, then by
value. -/
def compareEntries : List (String × Value) → List (String × Value) → Option Ordering
  | [], [] => some .eq
  | [], _ :: _ => some .lt
  | _ :: _, [] => some .gt
  | (k, a) :: as, (l, b) :: bs =>
    match compare k l with
    | .eq =>
      match a.compare? b with
      | some .eq => compareEntries as bs
      | other => other
    | other => some other

end

def number? : Value → Option Float
  | .int n => some n.toFloat
  | .float x => some x
  | _ => none

/-- The comparison that predicates, sorting and joins use. -/
def order (a b : Value) : Ordering :=
  match a.number?, b.number? with
  | some x, some y => (compareFloats x y).getD .eq
  | _, _ => (a.compare? b).getD .eq

/-- The comparison of rows by which results are put into a canonical order:
the first field that differs decides, then the number of fields. -/
def orderRows : Row → Row → Ordering
  | [], [] => .eq
  | [], _ :: _ => .lt
  | _ :: _, [] => .gt
  | a :: as, b :: bs =>
    match a.order b with
    | .eq => orderRows as bs
    | other => other

/-! ## Text -/

mutual

def text : Value → String
  | .null => "Null"
  | .bool b => if b then "Bool(true)" else "Bool(false)"
  | .int n => "Int(" ++ toString n.toInt ++ ")"
  | .float x => "Float(" ++ Decimal.shown.text x ++ ")"
  | .str s => "Str(" ++ Text.quote s ++ ")"
  | .map entries => "Map(\x7b" ++ ", ".intercalate (entryTexts entries) ++ "\x7d)"
  | .tuple values => "Tuple([" ++ ", ".intercalate (texts values) ++ "])"
  | .bag rows => "Bag([" ++ ", ".intercalate (rowTexts rows) ++ "])"

def texts : List Value → List String
  | [] => []
  | v :: vs => v.text :: texts vs

def rowTexts : List (List Value) → List String
  | [] => []
  | r :: rs => ("[" ++ ", ".intercalate (texts r) ++ "]") :: rowTexts rs

def entryTexts : List (String × Value) → List String
  | [] => []
  | (k, v) :: es => (Text.quote k ++ ": " ++ v.text) :: entryTexts es

end

end Value

end Dataflow
