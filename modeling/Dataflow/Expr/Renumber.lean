import Dataflow.Expr.Walk

/-!
# Renumbering columns

When fields are removed from a schema, the positions of the others change. A
`Renumbering` gives the new position of each column, and the new inner
positions of a bag or tuple whose own columns were narrowed; either may fail
for a column that is gone. `Expr.renumber` replaces every reference of an
expression once.
-/

namespace Dataflow

/-- New positions for old ones. -/
structure Renumbering (ε : Type) where
  column : Nat → Except ε Nat
  /-- New inner positions of the bag or tuple at an old position. -/
  inner : Nat → List Nat → Except ε (List Nat)

namespace Expr

variable {ε : Type}

mutual

def renumber (r : Renumbering ε) : Expr → Except ε (Revised Expr)
  | .column p => do
    let q ← r.column p
    return ⟨.column q, q ≠ p, .proceed⟩
  | .literal v => .ok (.unchanged (.literal v))
  | .star => .ok (.unchanged .star)
  | .select (.column p) columns => do
    let q ← r.column p
    let columns' ← r.inner p columns
    return ⟨.select (.column q) columns', q ≠ p || columns' ≠ columns, .proceed⟩
  | .unary op e => do
    let e' ← e.renumber r
    return ⟨.unary op e'.value, e'.changed, .proceed⟩
  | .binary op x y => do
    let x' ← x.renumber r
    let y' ← y.renumber r
    return ⟨.binary op x'.value y'.value, x'.changed || y'.changed, .proceed⟩
  | .ifElse t e p => do
    let t' ← t.renumber r
    let e' ← e.renumber r
    let p' ← p.renumber r
    return ⟨.ifElse t'.value e'.value p'.value, t'.changed || e'.changed || p'.changed, .proceed⟩
  | .call f args => do
    let args' ← renumberAll r args
    return ⟨.call f args'.value, args'.changed, .proceed⟩

def renumberAll (r : Renumbering ε) : List Expr → Except ε (Revised (List Expr))
  | [] => .ok (.unchanged [])
  | e :: es => do
    let e' ← e.renumber r
    let es' ← renumberAll r es
    return ⟨e'.value :: es'.value, e'.changed || es'.changed, .proceed⟩

end

end Expr

end Dataflow
