import Dataflow.Error.Report
import Dataflow.Expr.Basic

/-!
# Operators of a plan

The thirteen kinds of operators and what each of them carries, together with
the boundary to data sources: a `Source` names where rows come from and which
schema they have there, and may have a `Reader` that can be offered a
projection, so that it need not read fields the plan never looks at.

An operator's *natural* output is what it produces by itself; how much of it a
plan exposes is not the operator's affair.
-/

namespace Dataflow

/-! ## Sources -/

/-- A field the plan still reads from a source. -/
structure RequiredField where
  /-- Position in the source's schema. -/
  index : Nat
  /-- Name of the field as the source knows it. -/
  label : String
  /-- Keys of a map that are read, when fewer than all. -/
  mapKeys : Option (List String)
deriving Repr, DecidableEq

/-- The fields a source is asked for. -/
structure Projection where
  fields : List RequiredField
deriving Repr, DecidableEq

/-- A source's answer to a projection. -/
inductive Answer
  | accepted
  | declined
deriving Repr, DecidableEq

/-- How offering a projection to a source ended. -/
inductive PushdownStatus
  | accepted
  | declined
  /-- The source failed; it keeps reading every field. -/
  | failed (message : String)
  /-- The source cannot skip fields. -/
  | unsupported
deriving Repr, DecidableEq

structure Reader where
  /-- Two readers are the same reader exactly when these numbers agree. -/
  id : Nat
  name : String
  /-- The answer to a projection; `none` for a reader that cannot skip
  fields. -/
  answer? : Option (Projection → Except Report Answer)

/-- Where rows come from. -/
structure Source where
  location : String
  schema : Schema
  reader : Option Reader

/-- Whether two sources are the same: location, schema and reader. -/
def Source.same (a b : Source) : Bool :=
  a.location == b.location && decide (a.schema = b.schema) &&
    a.reader.map Reader.id == b.reader.map Reader.id

/-! ## Operators -/

/-- Keys that a source must still provide, by source position, in the order in
which they were first needed. -/
abbrev MapKeys := List (Nat × List String)

structure Load where
  source : Source
  /-- The map keys recorded by the last pruning run. -/
  mapKeys : Option MapKeys
  /-- How the last offer of a projection ended. -/
  pushdown : Option PushdownStatus

/-- One expression of a `forEach`. -/
structure Item where
  expr : Expr
  /-- Unnest a bag or tuple into its inner fields. -/
  flatten : Bool
  /-- Identity of the produced field when the item computes a new value. -/
  uid : Uid

/-- Whether the item forwards the whole row. -/
def Item.isStar (item : Item) : Bool :=
  match item.expr with
  | .star => true
  | _ => false

inductive JoinType
  | inner
  | leftOuter
  | rightOuter
  | fullOuter
deriving Repr, DecidableEq

/-- How a join is carried out; which fields it reads does not depend on it. -/
inductive JoinStrategy
  | hash
  | replicated
  | skewed
  | merge
deriving Repr, DecidableEq

/-- Matches rows of its inputs whose keys are equal. -/
structure Join where
  /-- The keys of each input. -/
  keys : List (List Expr)
  type : JoinType
  strategy : JoinStrategy

/-- Collects the rows of each input by key: the key's value, then one bag per
input. -/
structure CoGroup where
  /-- The keys of each input; without keys, all rows are one group. -/
  keys : List (List Expr)
  /-- Inputs that must have a row in a group for the group to be kept. -/
  inner : List Bool
  group : Field
  /-- Name and identity of each input's bag. -/
  bags : List (String × Uid)

/-- Concatenates the rows of its inputs. -/
structure Union where
  fields : List Field
  /-- For each input, the input position of each output position; `none` pads
  the output with null. -/
  mappings : List (List (Option Nat))
deriving DecidableEq

structure OrderBy where
  keys : List Expr
  descending : List Bool

inductive Operator
  | load (load : Load)
  | store (location : String)
  | forEach (items : List Item)
  | filter (predicate : Expr)
  | join (join : Join)
  | cogroup (group : CoGroup)
  | cross
  | union (union : Union)
  | distinct
  | orderBy (order : OrderBy)
  | limit (count : Nat)
  /-- Routes every row to each branch whose predicate it satisfies. -/
  | split (predicates : List Expr)
  /-- Pipes every row through an external command. -/
  | stream (command : String) (schema : Schema)

namespace Operator

def name : Operator → String
  | .load _ => "Load"
  | .store _ => "Store"
  | .forEach _ => "ForEach"
  | .filter _ => "Filter"
  | .join _ => "Join"
  | .cogroup _ => "CoGroup"
  | .cross => "Cross"
  | .union _ => "Union"
  | .distinct => "Distinct"
  | .orderBy _ => "OrderBy"
  | .limit _ => "Limit"
  | .split _ => "Split"
  | .stream _ _ => "Stream"

/-- The least and, if there is one, the greatest number of inputs. -/
def arity : Operator → Nat × Option Nat
  | .load _ => (0, some 0)
  | .join j => (j.keys.length, some j.keys.length)
  | .cogroup g => (g.keys.length, some g.keys.length)
  | .union u => (u.mappings.length, some u.mappings.length)
  | .cross => (2, none)
  | _ => (1, some 1)

/-- Whether a node may expose only a part of the natural output. A `forEach` and
a union drop items and columns instead, and a store exposes nothing. -/
def canProject : Operator → Bool
  | .forEach _ | .union _ | .store _ => false
  | _ => true

/-- Whether the natural output is the input, with fewer rows or in another
order. -/
def forwardsInput : Operator → Bool
  | .filter _ | .distinct | .orderBy _ | .limit _ | .split _ => true
  | _ => false

/-- Keys of each input, with the number of the input. -/
def keyed (keys : List (List Expr)) : List (Nat × Expr) :=
  keys.zipIdx.flatMap fun (side, i) => side.map fun e => (i, e)

/-- Every expression with the number of the input it is evaluated on. -/
def expressions : Operator → List (Nat × Expr)
  | .forEach items => items.map fun item => (0, item.expr)
  | .filter p => [(0, p)]
  | .orderBy o => o.keys.map fun e => (0, e)
  | .split ps => ps.map fun e => (0, e)
  | .join j => keyed j.keys
  | .cogroup g => keyed g.keys
  | _ => []

end Operator

/-! ## Text -/

def JoinType.text : JoinType → String
  | .inner => "inner"
  | .leftOuter => "left outer"
  | .rightOuter => "right outer"
  | .fullOuter => "full outer"

def JoinStrategy.text : JoinStrategy → String
  | .hash => "hash"
  | .replicated => "replicated"
  | .skewed => "skewed"
  | .merge => "merge"

/-- Map keys by position, as messages show them. -/
def MapKeys.text (keys : MapKeys) : String :=
  ", ".intercalate (keys.map fun (p, ks) =>
    positionText p ++ "->[" ++ ", ".intercalate ks ++ "]")

def keysText (keys : List Expr) : String := "(" ++ Expr.listText keys ++ ")"

/-- The description of an operator, one part per line. -/
def Operator.lines : Operator → List String
  | .load l =>
    ["Load: " ++ l.source.location] ++
      (l.source.reader.map fun r => "Using = " ++ r.name).toList ++
      (l.mapKeys.map fun ks => "Map keys = " ++ MapKeys.text ks).toList
  | .store location => ["Store: " ++ location]
  | .forEach items =>
    ["ForEach: " ++ ", ".intercalate (items.map fun item =>
      if item.flatten then "flatten(" ++ item.expr.text ++ ")" else item.expr.text)]
  | .filter p => ["Filter: " ++ p.text]
  | .join j =>
    ["Join: Type = " ++ j.type.text ++ ", Strategy = " ++ j.strategy.text,
     "On = " ++ ", ".intercalate (j.keys.map keysText)]
  | .cogroup g =>
    ["CoGroup: By = " ++ ", ".intercalate (List.zipWith (fun side inner =>
      (if side.isEmpty then "all" else keysText side) ++ (if inner then " inner" else ""))
      g.keys g.inner)]
  | .cross => ["Cross"]
  | .union u =>
    ["Union: " ++ ", ".intercalate (u.mappings.map fun m =>
      "[" ++ ", ".intercalate (m.map fun q => (q.map positionText).getD "null") ++ "]")]
  | .distinct => ["Distinct"]
  | .orderBy o =>
    ["OrderBy: Sort by = " ++ ", ".intercalate (List.zipWith (fun (e : Expr) down =>
      "(" ++ e.text ++ ", " ++ (if down then "descending" else "ascending") ++ ")")
      o.keys o.descending)]
  | .limit n => ["Limit: " ++ toString n]
  | .split ps =>
    ["Split: " ++ ", ".intercalate (ps.zipIdx.map fun (p, i) =>
      "[" ++ toString i ++ "] if " ++ p.text)]
  | .stream command _ => ["Stream: `" ++ command ++ "`"]

end Dataflow
