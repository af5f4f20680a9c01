import Dataflow.Proofs.Expr.Traversed

/-!
# Where an expression names its fields

Which reads an expression has can be told without a walk: every column in it is
read once, where it stands, and how much of it depends only on the node of which
it is an operand (`Access.under`). So the nodes are listed with the nodes above
them (`Expr.placed`), and the columns of this list are the reads, in order
(`Expr.reads_placed`).

Two walks must agree with that. The one that gathers the reads takes a column
together with the node above it and passes over the operand, the one that looks
for the whole row ends where it finds it (`Expr.visit_star`); neither misses or
repeats anything (`Expr.reads_occurrences`).
-/

namespace Dataflow

/-- How a column is read as an operand of a node, or by itself. -/
def Access.under : Option Expr → Access
  | some (.lookup _ k) => .key k
  | some (.select _ cs) => .columns cs
  | _ => .whole

namespace Expr

/-! ## The whole row in an expression -/

def starSignal : Expr → Id Signal
  | .star => .stop
  | _ => .proceed

theorem andThen_star (a b : Bool) :
    andThen (m := Id) (if a then Signal.stop else .proceed) (if b then Signal.stop else .proceed) =
      if a || b then Signal.stop else .proceed := by
  cases a <;> cases b <;> rfl

theorem visitAll_star {args : List Expr}
    (h : ∀ a ∈ args, visit starSignal a = if a.reads.star then Signal.stop else .proceed) :
    visitAll starSignal args = if (readsAll args).star then Signal.stop else .proceed := by
  induction args with
  | nil => rfl
  | cons a as ih =>
    rw [visitAll, h a (List.mem_cons_self ..), ih fun x hx => h x (List.mem_cons_of_mem _ hx)]
    exact andThen_star a.reads.star (readsAll as).star

theorem visit_star (e : Expr) :
    visit starSignal e = if e.reads.star then Signal.stop else .proceed := by
  induction e using readingInduction with
  | column p => rw [visit]; rfl
  | literal v => rw [visit]; rfl
  | star => rw [visit]; rfl
  | lookup p k => rw [visit, visit]; rfl
  | select p cs => rw [visit, visit]; rfl
  | unary op e hop ih => rw [reads_unary hop, ← ih, visit]; rfl
  | binary op l r ihl ihr =>
    rw [visit]
    show andThen (visit starSignal l) (visit starSignal r) = _
    rw [ihl, ihr]
    exact andThen_star l.reads.star r.reads.star
  | ifElse t e p iht ihe ihp =>
    rw [visit]
    show andThen (andThen (visit starSignal t) (visit starSignal e)) (visit starSignal p) = _
    rw [iht, ihe, ihp, andThen_star]
    exact andThen_star (t.reads.star || e.reads.star) p.reads.star
  | call f args ih => rw [visit]; exact visitAll_star ih

/-- The walk finds the whole row exactly where it is read. -/
theorem hasStar_eq (e : Expr) : e.hasStar = e.reads.star := by
  have h : e.hasStar = decide ((visit starSignal e).run = Signal.stop) := by
    refine congrArg (fun f => decide ((visit (m := Id) f e).run = Signal.stop))
      (show _ = starSignal from ?_)
    funext n
    cases n <;> rfl
  rw [h, visit_star]
  cases e.reads.star <;> rfl

theorem mem_nodesAll {es : List Expr} {n : Expr} : n ∈ nodesAll es ↔ ∃ e ∈ es, n ∈ e.nodes := by
  induction es with
  | nil => simp [nodesAll]
  | cons e es ih => simp [nodesAll, ih]

/-- The whole row is read where it stands among the nodes. -/
theorem star_reads_iff (e : Expr) : e.reads.star = true ↔ .star ∈ e.nodes := by
  induction e using readingInduction with
  | column p => simp [reads, nodes]
  | literal v => simp [reads, Reads.none, nodes]
  | star => simp [reads, nodes]
  | lookup p k => simp [reads, nodes]
  | select p cs => simp [reads, nodes]
  | unary op e hop ih => simp [reads_unary hop, nodes, ih]
  | binary op l r ihl ihr => simp [reads_binary, Reads.star_append, nodes, ihl, ihr]
  | ifElse t e p iht ihe ihp =>
    simp [reads_ifElse, Reads.star_append, nodes, iht, ihe, ihp, or_assoc]
  | call f args ih =>
    simp only [reads_call, star_readsAll, nodes, List.mem_cons, reduceCtorEq, false_or,
      mem_nodesAll]
    exact exists_congr fun a => and_congr_right (ih a)

/-! ## Nodes with the nodes above them -/

mutual

/-- The nodes of an expression, each before its operands and together with the
node of which it is an operand. The expression itself is an operand of
`parent`. -/
def placed (parent : Option Expr) : Expr → List (Option Expr × Expr)
  | .column p => [(parent, .column p)]
  | .literal v => [(parent, .literal v)]
  | .star => [(parent, .star)]
  | .unary op e => (parent, .unary op e) :: e.placed (some (.unary op e))
  | .binary op l r =>
    (parent, .binary op l r) ::
      (l.placed (some (.binary op l r)) ++ r.placed (some (.binary op l r)))
  | .ifElse t e p =>
    (parent, .ifElse t e p) ::
      (t.placed (some (.ifElse t e p)) ++ e.placed (some (.ifElse t e p)) ++
        p.placed (some (.ifElse t e p)))
  | .call f args => (parent, .call f args) :: placedAll (some (.call f args)) args

def placedAll (parent : Option Expr) : List Expr → List (Option Expr × Expr)
  | [] => []
  | e :: es => e.placed parent ++ placedAll parent es

end

theorem placed_eq (parent : Option Expr) (e : Expr) :
    e.placed parent = (parent, e) :: placedAll (some e) e.children := by
  cases e <;> simp [placed, placedAll, children]

/-- A column in its place is a read. -/
def readHere? : Option Expr × Expr → Option (Nat × Access)
  | (parent, .column p) => some (p, .under parent)
  | _ => none

def position? : Expr → Option Nat
  | .column p => some p
  | _ => none

theorem placed_nodes (parent : Option Expr) (e : Expr) :
    (e.placed parent).map Prod.snd = e.nodes := by
  induction e using childInduction generalizing parent with
  | node e ih =>
    have hall : ∀ es ⊆ e.children, (placedAll (some e) es).map Prod.snd = nodesAll es := by
      intro es hes
      induction es with
      | nil => rfl
      | cons c es ihes =>
        obtain ⟨hc, hes⟩ := List.cons_subset.mp hes
        rw [placedAll, List.map_append, ih c hc, ihes hes, nodesAll]
    rw [placed_eq, nodes_eq, List.map_cons, hall _ (List.Subset.refl _)]

theorem mem_placedAll {parent : Option Expr} {es : List Expr} {x : Option Expr × Expr} :
    x ∈ placedAll parent es ↔ ∃ e ∈ es, x ∈ e.placed parent := by
  induction es with
  | nil => simp [placedAll]
  | cons e es ih => simp [placedAll, ih]

/-- Every node but the expression itself has the node above it for a node of
which it is an operand. -/
theorem child_of_placed {parent : Option Expr} {e : Expr} {x : Option Expr × Expr}
    (h : x ∈ e.placed parent) :
    x = (parent, e) ∨ ∃ m ∈ e.nodes, x.1 = some m ∧ x.2 ∈ m.children := by
  induction e using childInduction generalizing parent with
  | node e ih =>
    rw [placed_eq, List.mem_cons, mem_placedAll] at h
    rcases h with rfl | ⟨c, hc, hx⟩
    · exact Or.inl rfl
    · refine Or.inr ?_
      rcases ih c hc hx with rfl | ⟨m, hm, hxm⟩
      · exact ⟨e, by rw [nodes_eq]; exact List.mem_cons_self .., rfl, hc⟩
      · refine ⟨m, ?_, hxm⟩
        rw [nodes_eq]
        exact List.mem_cons_of_mem _ (mem_nodesAll.mpr ⟨c, hc, hm⟩)

/-- The columns of an expression are its reads, in order. What stands above the
expression matters only if it is a column itself. -/
theorem reads_placed {e : Expr} {parent : Option Expr}
    (h : ∀ p, e = .column p → Access.under parent = .whole) :
    (e.placed parent).filterMap readHere? = e.reads.accesses := by
  induction e using readingInduction generalizing parent with
  | column p => simp [placed, readHere?, reads, h p rfl]
  | literal v => rfl
  | star => rfl
  | lookup p k => rfl
  | select p cs => rfl
  | unary op e hop ih =>
    have hunder : ∀ p, e = .column p → Access.under (some (.unary op e)) = .whole := by
      rintro p rfl
      cases op <;> first | rfl | exact absurd trivial hop
    rw [placed, List.filterMap_cons, reads_unary hop, ← ih hunder]
    rfl
  | binary op l r ihl ihr =>
    rw [placed, List.filterMap_cons, List.filterMap_append, ihl fun _ _ => rfl, ihr fun _ _ => rfl]
    rfl
  | ifElse t e p iht ihe ihp =>
    rw [placed, List.filterMap_cons, List.filterMap_append, List.filterMap_append,
      iht fun _ _ => rfl, ihe fun _ _ => rfl, ihp fun _ _ => rfl]
    rfl
  | call f args ih =>
    have hall : ∀ es ⊆ args,
        (placedAll (some (.call f args)) es).filterMap readHere? = (readsAll es).accesses := by
      intro es hes
      induction es with
      | nil => rfl
      | cons a as ihas =>
        obtain ⟨ha, has⟩ := List.cons_subset.mp hes
        rw [placedAll, List.filterMap_append, ih a ha fun _ _ => rfl, ihas has]
        rfl
    rw [placed, List.filterMap_cons, reads_call, ← hall args (List.Subset.refl _)]
    rfl

/-- The reads of an expression, which a walk gathers, are one for each column in
the order of the nodes: a key or some columns if the node above it takes just
that, and the whole field otherwise. The whole row is read, and found by a
search, where it stands among the nodes. -/
theorem reads_occurrences (e : Expr) :
    (visit gather e).run .none = (.proceed, e.reads) ∧
    (e.placed none).map Prod.snd = e.nodes ∧
    (∀ x ∈ e.placed none, x = (none, e) ∨ ∃ m ∈ e.nodes, x.1 = some m ∧ x.2 ∈ m.children) ∧
    e.reads.accesses = (e.placed none).filterMap readHere? ∧
    e.reads.accesses.map Prod.fst = e.nodes.filterMap position? ∧
    (e.reads.star = true ↔ .star ∈ e.nodes) ∧
    (e.hasStar = true ↔ .star ∈ e.nodes) := by
  have hreads : (e.placed none).filterMap readHere? = e.reads.accesses :=
    reads_placed fun _ _ => rfl
  refine ⟨?_, placed_nodes none e, fun x => child_of_placed, hreads.symm, ?_, star_reads_iff e,
    by rw [hasStar_eq]; exact star_reads_iff e⟩
  · rw [visit_gather]
    rfl
  · rw [← hreads, ← placed_nodes none e, List.filterMap_map, List.map_filterMap]
    refine List.filterMap_congr fun x _ => ?_
    obtain ⟨m, n⟩ := x
    cases n <;> rfl

end Expr

end Dataflow
