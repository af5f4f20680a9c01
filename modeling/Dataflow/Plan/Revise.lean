import Dataflow.Expr.Walk
import Dataflow.Plan.Operator

/-!
# Revising the expressions of an operator

An operator's expressions, one after the other, each replaced by what a
function makes of it. The first failure ends the walk: the expressions
before it are replaced, the others are not.
-/

namespace Dataflow

/-- Distributes a list over places shaped like a list of lists. -/
def regroup {α β : Type} : List (List α) → List β → List (List β)
  | [], _ => []
  | side :: sides, es => es.take side.length :: regroup sides (es.drop side.length)

/-- The operator with other expressions in place of its own, in the order of
`Operator.expressions`. -/
def Operator.withExpressions (op : Operator) (es : List Expr) : Operator :=
  match op with
  | .forEach items => .forEach (List.zipWith (fun item e => { item with expr := e }) items es)
  | .filter p => .filter (es.head?.getD p)
  | .orderBy o => .orderBy { o with keys := es }
  | .split _ => .split es
  | .join j => .join { j with keys := regroup j.keys es }
  | .cogroup g => .cogroup { g with keys := regroup g.keys es }
  | other => other

/-- An operator after some of its expressions were revised. -/
structure OperatorRevision (ε : Type) where
  op : Operator
  /-- How many expressions were given to the function. -/
  visited : Nat
  /-- Whether any expression changed, or why the walk ended early. -/
  result : Except ε Bool

/-- Revises expressions in turn: the expressions after the last step, how many
were visited, and the outcome. -/
def reviseEach {ε : Type} (f : Nat → Expr → Except ε (Revised Expr)) :
    List (Nat × Expr) → List Expr × Nat × Except ε Bool
  | [] => ([], 0, .ok false)
  | (i, e) :: rest =>
    match f i e with
    | .error cause => (e :: rest.map Prod.snd, 1, .error cause)
    | .ok r =>
      let (es, n, result) := reviseEach f rest
      (r.value :: es, n + 1, result.map fun changed => r.changed || changed)

/-- Revises every expression of an operator by `f`, which is given the number
of the input as well. -/
def Operator.revise {ε : Type} (op : Operator) (f : Nat → Expr → Except ε (Revised Expr)) :
    OperatorRevision ε :=
  let (es, n, result) := reviseEach f op.expressions
  ⟨op.withExpressions es, n, result⟩

end Dataflow
