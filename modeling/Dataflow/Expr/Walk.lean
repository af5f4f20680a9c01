import Dataflow.Expr.Basic

/-!
# Walking and revising expressions

Three traversals. `visit` shows every node to a visitor before its operands;
the visitor's signal says whether to go on into the operands, to pass them
over, or to end the walk. `reviseUp` gives each node, with its operands
already revised, to a function that may replace it. `reviseDown` replaces a
node first and then goes on into the operands of what came out; since that may
be any expression, how deep it may go is an argument.

A visitor acts in a monad of the caller's choice: to fail, to collect, to
count. What was changed is reported, never guessed: an expression is
rebuilt only when one of its operands reported a change.
-/

namespace Dataflow

/-- How a walk goes on after a node. -/
inductive Signal
  | proceed
  /-- Pass over the operands of this node. -/
  | skip
  /-- End the walk. -/
  | stop
deriving Repr, DecidableEq

/-- A value after a revision: whether it changed, and how the walk goes on. -/
structure Revised (α : Type) where
  value : α
  changed : Bool
  signal : Signal

namespace Revised

variable {α β : Type}

def unchanged (a : α) : Revised α := ⟨a, false, .proceed⟩

def replaced (a : α) : Revised α := ⟨a, true, .proceed⟩

/-- Counts an earlier change as a change of the result. -/
def orChanged (r : Revised α) (changed : Bool) : Revised α :=
  { r with changed := r.changed || changed }

def map (f : α → β) (r : Revised α) : Revised β := ⟨f r.value, r.changed, r.signal⟩

/-- Revises a second value after a first, unless the walk has ended: then the
second stays `old`. -/
def followedBy {m : Type → Type} [Monad m] (a : Revised α) (next : m (Revised β)) (old : β) :
    m (Revised (α × β)) :=
  if a.signal = .stop then pure ⟨(a.value, old), a.changed, .stop⟩
  else do
    let b ← next
    pure ⟨(a.value, b.value), a.changed || b.changed, b.signal⟩

/-- The node with revised operands, or the node itself when they are
unchanged. -/
def rebuild (operands : Revised α) (node : Expr) (build : α → Expr) : Revised Expr :=
  ⟨if operands.changed then build operands.value else node, operands.changed, operands.signal⟩

end Revised

namespace Expr

variable {m : Type → Type} [Monad m]

/-! ## Visiting -/

/-- Goes on to a sibling unless the walk has ended. -/
def andThen (first : m Signal) (next : m Signal) : m Signal := do
  match ← first with
  | .stop => pure .stop
  | _ => next

mutual

/-- Shows the expression and then its operands to `f`, from left to right. The
result is `stop` if `f` ended the walk and `proceed` otherwise. -/
def visit (f : Expr → m Signal) (e : Expr) : m Signal := do
  match ← f e with
  | .skip => pure .proceed
  | .stop => pure .stop
  | .proceed =>
    match e with
    | .column _ | .literal _ | .star => pure .proceed
    | .unary _ x => visit f x
    | .binary _ l r => andThen (visit f l) (visit f r)
    | .ifElse t x p => andThen (andThen (visit f t) (visit f x)) (visit f p)
    | .call _ args => visitAll f args

def visitAll (f : Expr → m Signal) : List Expr → m Signal
  | [] => pure .proceed
  | e :: es => andThen (visit f e) (visitAll f es)

end

/-- Whether some node satisfies the test; the walk ends at the first that
does. -/
def existsNode (test : Expr → m Bool) (e : Expr) : m Bool := do
  let signal ← visit (fun n => do return if ← test n then .stop else .proceed) e
  return signal = .stop

/-- Whether the whole row is read somewhere in the expression. -/
def hasStar (e : Expr) : Bool :=
  Id.run (existsNode (fun n => pure (match n with | .star => true | _ => false)) e)

/-! ## Revising -/

/-- Gives a node whose operands have been revised to `f`, unless the walk has
ended. -/
def settle (f : Expr → m (Revised Expr)) (node : Revised Expr) : m (Revised Expr) :=
  if node.signal = .stop then pure node
  else do
    let r ← f node.value
    pure (r.orChanged node.changed)

mutual

/-- Revises operands before the node itself. -/
def reviseUp (f : Expr → m (Revised Expr)) (e : Expr) : m (Revised Expr) :=
  match e with
  | .column _ | .literal _ | .star => settle f (.unchanged e)
  | .unary op x => do
    let x' ← reviseUp f x
    settle f (x'.rebuild e (.unary op))
  | .binary op l r => do
    let l' ← reviseUp f l
    let lr ← l'.followedBy (reviseUp f r) r
    settle f (lr.rebuild e fun (l, r) => .binary op l r)
  | .ifElse t x p => do
    let t' ← reviseUp f t
    let tx ← t'.followedBy (reviseUp f x) x
    let txp ← tx.followedBy (reviseUp f p) p
    settle f (txp.rebuild e fun ((t, x), p) => .ifElse t x p)
  | .call g args => do
    let args' ← reviseUpAll f args
    settle f (args'.rebuild e (.call g))

/-- Revises several expressions in turn, until the walk ends. -/
def reviseUpAll (f : Expr → m (Revised Expr)) : List Expr → m (Revised (List Expr))
  | [] => pure (.unchanged [])
  | e :: es => do
    let e' ← reviseUp f e
    let all ← e'.followedBy (reviseUpAll f es) es
    pure (all.map fun (e, es) => e :: es)

end

def mapEach (f : Expr → m (Revised Expr)) : List Expr → m (Revised (List Expr))
  | [] => pure (.unchanged [])
  | e :: es => do
    let e' ← f e
    let all ← e'.followedBy (mapEach f es) es
    pure (all.map fun (e, es) => e :: es)

def mapChildren (f : Expr → m (Revised Expr)) (e : Expr) : m (Revised Expr) :=
  match e with
  | .column _ | .literal _ | .star => pure (.unchanged e)
  | .unary op x => do
    let x' ← f x
    pure (x'.rebuild e (.unary op))
  | .binary op l r => do
    let l' ← f l
    let lr ← l'.followedBy (f r) r
    pure (lr.rebuild e fun (l, r) => .binary op l r)
  | .ifElse t x p => do
    let t' ← f t
    let tx ← t'.followedBy (f x) x
    let txp ← tx.followedBy (f p) p
    pure (txp.rebuild e fun ((t, x), p) => .ifElse t x p)
  | .call g args => do
    let args' ← mapEach f args
    pure (args'.rebuild e (.call g))

/-- Revises the node before its operands, which are those of the node that
`f` returned. Nodes deeper than `depth` are left as they are. -/
def reviseDown (f : Expr → m (Revised Expr)) : (depth : Nat) → Expr → m (Revised Expr)
  | 0, e => pure (.unchanged e)
  | depth + 1, e => do
    let node ← f e
    match node.signal with
    | .proceed => do
      let operands ← mapChildren (reviseDown f depth) node.value
      pure (operands.orChanged node.changed)
    | .skip => pure { node with signal := .proceed }
    | .stop => pure node

end Expr

end Dataflow
