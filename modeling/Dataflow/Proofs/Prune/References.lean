import Dataflow.Proofs.Narrowing.Moved
import Dataflow.Proofs.Prune.Total

/-!
# References after narrowing

Whatever is required of the nodes of a consistent plan, a pass that succeeds
leaves the same nodes, each of which keeps some of its old positions, the
required ones among them, and moves every reference along: a column goes to the
new number of its position (`Rearranged`, `rearranged_of_steps`), inner columns
that are selected from a column to those that share their identities. This looks
at positions only, node by node.

What stands at a kept position is another question. The pass computes schemas
anew from the inputs, and a selection that is not made of a column itself is not
renumbered: of a column under another name, or of a value that may be one of
two, it takes whatever inner column has come to its place. Who asks for such a
plan has to require all of the bag, as the analysis does. Where items make no
such selection, and inner columns of one identity have one type, the fields at
the kept positions are those that were there (`keeps_of_steps`), and so every
column leads to the field that it led to before (`Rearranged.rewritten`).
`Plan.project_references` states both, and `Plan.project_misses` what happens
without the two conditions.
-/

namespace Dataflow

open List (Forall₂)
open Dataflow.Expr (Renumbered)

/-! ## Expressions that differ in their references -/

/-- Expressions of one shape, whose columns correspond by `column`, and whose
selections from a column by `inner`. -/
inductive Expr.Related (column : Nat → Nat → Prop)
    (inner : Nat → Nat → List Nat → List Nat → Prop) : Expr → Expr → Prop
  | column {p q : Nat} (h : column p q) : Related column inner (.column p) (.column q)
  | literal (v : Literal) : Related column inner (.literal v) (.literal v)
  | star : Related column inner .star .star
  | select {p q : Nat} {cs cs' : List Nat} (h : column p q) (hcs : inner p q cs cs') :
      Related column inner (.select (.column p) cs) (.select (.column q) cs')
  | unary {op : Unary} {e e' : Expr} (hop : ∀ p cs, Expr.unary op e ≠ .select (.column p) cs)
      (h : Related column inner e e') : Related column inner (.unary op e) (.unary op e')
  | binary (op : BinaryOp) {x x' y y' : Expr} (hx : Related column inner x x')
      (hy : Related column inner y y') : Related column inner (.binary op x y) (.binary op x' y')
  | ifElse {t t' e e' p p' : Expr} (ht : Related column inner t t')
      (he : Related column inner e e') (hp : Related column inner p p') :
      Related column inner (.ifElse t e p) (.ifElse t' e' p')
  | call (f : Function) {args args' : List Expr} (hlen : args'.length = args.length)
      (h : ∀ (i : Nat) (a a' : Expr), args[i]? = some a → args'[i]? = some a' →
        Related column inner a a') :
      Related column inner (.call f args) (.call f args')

theorem Expr.Renumbered.related {ε : Type} {r : Renumbering ε} {column : Nat → Nat → Prop}
    {inner : Nat → Nat → List Nat → List Nat → Prop} {e e' : Expr} (h : Renumbered r e e')
    (hcolumn : ∀ p q, r.column p = .ok q → column p q)
    (hinner : ∀ p q cs cs', (p, Access.columns cs) ∈ e.reads.accesses → r.column p = .ok q →
      r.inner p cs = .ok cs' → inner p q cs cs') :
    Related column inner e e' := by
  induction h with
  | column hq => exact .column (hcolumn _ _ hq)
  | literal v => exact .literal v
  | star => exact .star
  | lookup k hq => exact .unary (fun p cs h => by cases h) (.column (hcolumn _ _ hq))
  | select hq hcs =>
    exact .select (hcolumn _ _ hq) (hinner _ _ _ _ (List.mem_singleton.mpr rfl) hq hcs)
  | unary hop _ ih =>
    rw [reads_unary hop] at hinner
    refine .unary (fun p cs h => ?_) (ih hinner)
    cases h
    exact hop trivial
  | binary op _ _ ihx ihy =>
    rw [reads_binary] at hinner
    exact .binary op (ihx fun p q cs cs' h => hinner p q cs cs' (Reads.mem_append.mpr (Or.inl h)))
      (ihy fun p q cs cs' h => hinner p q cs cs' (Reads.mem_append.mpr (Or.inr h)))
  | ifElse _ _ _ iht ihe ihp =>
    rw [reads_ifElse] at hinner
    refine .ifElse (iht fun p q cs cs' h => hinner p q cs cs' ?_)
      (ihe fun p q cs cs' h => hinner p q cs cs' ?_)
      (ihp fun p q cs cs' h => hinner p q cs cs' (Reads.mem_append.mpr (Or.inr h)))
    · exact Reads.mem_append.mpr (Or.inl (Reads.mem_append.mpr (Or.inl h)))
    · exact Reads.mem_append.mpr (Or.inl (Reads.mem_append.mpr (Or.inr h)))
  | call f hlen _ ih =>
    rw [reads_call] at hinner
    refine .call f hlen fun i a a' ha ha' => ih i a a' ha ha' fun p q cs cs' h => ?_
    exact hinner p q cs cs' (mem_readsAll.mpr ⟨a, List.mem_of_getElem? ha, h⟩)

theorem Expr.Related.imp {column column' : Nat → Nat → Prop}
    {inner : Nat → Nat → List Nat → List Nat → Prop} {e e' : Expr}
    (h : Related column inner e e') (hcolumn : ∀ p q, column p q → column' p q) :
    Related column' inner e e' := by
  induction h with
  | column hc => exact .column (hcolumn _ _ hc)
  | literal v => exact .literal v
  | star => exact .star
  | select hc hcs => exact .select (hcolumn _ _ hc) hcs
  | unary hop _ ih => exact .unary hop ih
  | binary op _ _ ihx ihy => exact .binary op ihx ihy
  | ifElse _ _ _ iht ihe ihp => exact .ifElse iht ihe ihp
  | call f hlen _ ih => exact .call f hlen ih

/-! ## Nodes and plans -/

/-- A node before and after its references were moved: the expressions that
remain are those before, in order and on the same inputs, and only a `forEach`
may have lost any. References correspond by relations on the columns of the
node that an input comes from. -/
structure Node.Rewritten (column : Nat → Nat → Nat → Prop)
    (inner : Nat → Nat → Nat → List Nat → List Nat → Prop) (n n' : Node) : Prop where
  id : n'.id = n.id
  label : n'.label = n.label
  inputs : n'.inputs = n.inputs
  kind : n'.op.name = n.op.name
  expressions : ∃ survivors, survivors.Sublist n.op.expressions ∧
    ((∀ items, n.op ≠ .forEach items) → survivors = n.op.expressions) ∧
    Forall₂ (fun x x' => x'.1 = x.1 ∧ ∃ e, n.inputs[x.1]? = some e ∧
      x.2.Related (column e.node) (inner e.node) x'.2) survivors n'.op.expressions

theorem Node.Rewritten.imp {column column' : Nat → Nat → Nat → Prop}
    {inner : Nat → Nat → Nat → List Nat → List Nat → Prop} {n n' : Node}
    (h : n.Rewritten column inner n') (hcolumn : ∀ id p q, column id p q → column' id p q) :
    n.Rewritten column' inner n' := by
  obtain ⟨survivors, hsub, hall, hrel⟩ := h.expressions
  refine ⟨h.id, h.label, h.inputs, h.kind, survivors, hsub, hall, hrel.imp fun x x' hx => ?_⟩
  obtain ⟨hinput, e, he, hx⟩ := hx
  exact ⟨hinput, e, he, hx.imp (hcolumn e.node)⟩

/-- A node that keeps the old positions `kept`, in order. Required positions are
kept, and only a `forEach` keeps others. -/
structure Node.Retains (r : Required) (kept : List Nat) (n n' : Node) : Prop where
  schema : Schema.Retains kept n.schema n'.schema
  required : ∀ k < n.schema.length, r.contains k = true → k ∈ kept
  exact : (∀ items, n.op ≠ .forEach items) → ∀ k ∈ kept, r.contains k = true

/-- A node that exposes the fields at the positions `kept`, in order: by
identity, and with `names` by name as well. Required positions are kept, and
only a `forEach` keeps others. -/
structure Node.Reduced (names : Prop) (r : Required) (kept : List Nat) (n n' : Node) : Prop where
  ascending : kept.Pairwise (· < ·)
  fields : Forall₂ (fun k f' => ∃ f, n.schema[k]? = some f ∧ f'.uid = f.uid ∧
    (names → f'.name = f.name)) kept n'.schema
  required : ∀ k < n.schema.length, r.contains k = true → k ∈ kept
  exact : (∀ items, n.op ≠ .forEach items) → ∀ k ∈ kept, r.contains k = true

def Operator.items : Operator → List Item
  | .forEach items => items
  | _ => []

namespace Plan

variable {p p' : Plan} {required : List Required} {changed : Bool}

/-- A position of a node before and after, given the kept positions of all
nodes. -/
def SamePosition (kept : List (List Nat)) (node c c' : Nat) : Prop :=
  ∃ ks, kept[node]? = some ks ∧ MovedTo ks c c'

/-- A position of a node before and after, at which the fields have one
identity. -/
def SameColumn (p p' : Plan) (kept : List (List Nat)) (node c c' : Nat) : Prop :=
  SamePosition kept node c c' ∧
    ∃ n n' f f', p.nodes[node]? = some n ∧ p'.nodes[node]? = some n' ∧ n.schema[c]? = some f ∧
      n'.schema[c']? = some f' ∧ f'.uid = f.uid

/-- Inner columns of the field at a position of a node before and after. They
have the same identities. -/
def SameInner (p p' : Plan) (node c c' : Nat) (cs cs' : List Nat) : Prop :=
  ∃ n n' f f' inner inner', p.nodes[node]? = some n ∧ p'.nodes[node]? = some n' ∧
    n.schema[c]? = some f ∧ n'.schema[c']? = some f' ∧ f.type.inner? = some inner ∧
    f'.type.inner? = some inner' ∧
    Forall₂ (fun i i' => ∃ x x', inner[i]? = some x ∧ inner'[i']? = some x' ∧ x'.uid = x.uid)
      cs cs'

/-- No inner schema of the plan repeats an identity. -/
def DistinctInside (p : Plan) : Prop := ∀ n ∈ p.nodes, n.schema.DistinctInside

instance (p : Plan) : Decidable p.DistinctInside :=
  inferInstanceAs (Decidable (∀ n ∈ p.nodes, n.schema.DistinctInside))

/-- The items of the plan select inner columns of columns themselves, or of
values that they compute. -/
def SelectsDirectly (p : Plan) : Prop := ∀ n ∈ p.nodes, ∀ item ∈ n.op.items,
  item.expr.selectsDirectly = true

instance (p : Plan) : Decidable p.SelectsDirectly :=
  inferInstanceAs (Decidable (∀ n ∈ p.nodes, ∀ item ∈ n.op.items, _))

/-- A plan before and after its nodes were reduced to `kept` and its references
were moved, selections of inner columns as `inner` says. -/
structure Rewritten (names : Prop) (required : List Required) (kept : List (List Nat))
    (inner : Nat → Nat → Nat → List Nat → List Nat → Prop) (p p' : Plan) : Prop where
  length : p'.nodes.length = p.nodes.length
  node : ∀ (id : Nat) (n n' : Node), p.nodes[id]? = some n → p'.nodes[id]? = some n' →
    n.Rewritten (p.SameColumn p' kept) inner n' ∧
      ∃ r ks, required[id]? = some r ∧ kept[id]? = some ks ∧ n.Reduced names r ks n'

/-- A plan before and after its nodes were reduced to the positions `kept`,
whatever they expose there, and its references were moved. -/
structure Rearranged (required : List Required) (kept : List (List Nat)) (p p' : Plan) : Prop where
  length : p'.nodes.length = p.nodes.length
  node : ∀ (id : Nat) (n n' : Node), p.nodes[id]? = some n → p'.nodes[id]? = some n' →
    n.Rewritten (SamePosition kept) (p.SameInner p') n' ∧
      ∃ r ks, required[id]? = some r ∧ kept[id]? = some ks ∧ n.Retains r ks n'

/-- Where the fields at the kept positions are those that were there, a column
leads to the field that it led to before. -/
theorem Rearranged.rewritten {names : Prop} {kept : List (List Nat)}
    (h : Rearranged required kept p p')
    (hfields : ∀ (id : Nat) (ks : List Nat), kept[id]? = some ks → ∃ n n',
      p.nodes[id]? = some n ∧ p'.nodes[id]? = some n' ∧
        Forall₂ (fun k f' => ∃ f, n.schema[k]? = some f ∧ f'.uid = f.uid ∧
          (names → f'.name = f.name)) ks n'.schema) :
    Rewritten names required kept (p.SameInner p') p p' := by
  refine ⟨h.length, fun id n n' hn hn' => ?_⟩
  obtain ⟨hrewritten, r, ks, hr, hks, hretains⟩ := h.node id n n' hn hn'
  refine ⟨hrewritten.imp fun node c c' hc => ?_, r, ks, hr, hks, hretains.schema.ascending, ?_,
    hretains.required, hretains.exact⟩
  · have ⟨ks, hks, hmoved⟩ := hc
    obtain ⟨m, m', hm, hm', hall⟩ := hfields node ks hks
    obtain ⟨f', hf', f, hf, huid, -⟩ := getElem?_of_left hall hmoved
    exact ⟨hc, m, m', f, f', hm, hm', hf, hf', huid⟩
  · obtain ⟨m, m', hm, hm', hall⟩ := hfields id ks hks
    rw [hn] at hm
    cases hm
    rw [hn'] at hm'
    cases hm'
    exact hall

/-- What became of the inputs of a node, and what they were. -/
theorem Projects.old_eq {projs : List Projected} {id : Nat} {n : Node} {keep : List Nat}
    {ins : List Narrowed} {proj : Projected} {inputs : List Schema}
    (h : Projects required (List.zipWith record projs p.nodes) id n keep ins proj)
    (hschemas : p.edgeSchemas n.inputs = .ok inputs) : ins.map Narrowed.old = inputs := by
  have hs := edgeSchemas_ok.mp hschemas
  refine List.ext_getElem? fun i => ?_
  rw [List.getElem?_map]
  cases hi : ins[i]? with
  | none =>
    have hlen := hs.length_eq.symm.trans h.inputs.length_eq
    rw [Option.map_none, List.getElem?_eq_none]
    rw [List.getElem?_eq_none_iff] at hi
    omega
  | some N =>
    obtain ⟨e, he, -, hN⟩ := getElem?_of_right h.inputs hi
    obtain ⟨s, hs, m, hm, rfl⟩ := getElem?_of_left hs he
    obtain ⟨q, m', -, hm', rfl⟩ := List.getElem?_zipWith_eq_some.mp hN
    rw [hm] at hm'
    cases hm'
    rw [hs]
    rfl

section Steps

variable {projs : List Projected}
  (hsteps : ∀ i n proj, p.nodes[i]? = some n → projs[i]? = some proj → ∃ keep ins,
    Projects required (List.zipWith record projs p.nodes) i n keep ins proj)

include hsteps

/-- Each node of a plan that was narrowed keeps the positions that it records,
whatever became of the nodes before it. -/
theorem retains_of_steps (hcheck : p.check = .ok ()) (hset : ∀ r ∈ required, r.Ascending) {i : Nat}
    {n : Node} {proj : Projected} (hn : p.nodes[i]? = some n) (hproj : projs[i]? = some proj) :
    ∃ r, required[i]? = some r ∧ n.Retains r proj.kept (proj.apply n) := by
  obtain ⟨keep, ins, hstep⟩ := hsteps i n proj hn hproj
  obtain ⟨r, hr, hkeep⟩ := hstep.requires
  obtain ⟨hasc, hmem⟩ := Required.resolve_ok (hset r (List.mem_of_getElem? hr)) hkeep
  obtain ⟨inputs, natural, hc⟩ := check_ok.mp hcheck i n hn
  obtain ⟨hretains, hsub, hexact⟩ := Projected.ofAny_retains
    (by rw [hstep.old_eq hc.schemas]; exact hc.natural_eq) hc.exposed hasc
    (fun k hk => ((hmem k).mp hk).1) hstep.ok
  refine ⟨r, hr, hretains, fun k hk hc => hsub k ((hmem k).mpr ⟨hk, hc⟩), fun hne k hk => ?_⟩
  rw [hexact hne] at hk
  exact ((hmem k).mp hk).2

/-- Whatever is required of the nodes of a consistent plan, they keep their
places and their kinds, and references move with the positions that are kept. -/
theorem rearranged_of_steps (hcheck : p.check = .ok ()) (hset : ∀ r ∈ required, r.Ascending)
    (hlen : projs.length = p.nodes.length)
    (hnodes : p'.nodes = List.zipWith Projected.apply projs p.nodes) :
    Rearranged required (projs.map Projected.kept) p p' := by
  refine ⟨by rw [hnodes, List.length_zipWith, hlen, Nat.min_self], fun id n n' hn hn' => ?_⟩
  rw [hnodes] at hn'
  obtain ⟨proj, n₀, hproj, hn₀, rfl⟩ := List.getElem?_zipWith_eq_some.mp hn'
  rw [hn] at hn₀
  cases hn₀
  obtain ⟨keep, ins, hstep⟩ := hsteps id n proj hn hproj
  obtain ⟨r, hr, hretains⟩ := retains_of_steps hsteps hcheck hset hn hproj
  refine ⟨⟨rfl, rfl, rfl, Projected.ofAny_name hstep.ok, ?_⟩, r, proj.kept, hr,
    by rw [List.getElem?_map, hproj]; rfl, hretains⟩
  obtain ⟨survivors, hsub, hall, hren⟩ := Projected.ofAny_expressions hstep.ok
  refine ⟨survivors, hsub, hall, hren.imp fun x x' hx => ?_⟩
  obtain ⟨hinput, N, hN, hren⟩ := hx
  obtain ⟨e, he, -, hget⟩ := getElem?_of_right hstep.inputs hN
  -- The input of the expression, before and after.
  obtain ⟨q, m, hq, hm, rfl⟩ := List.getElem?_zipWith_eq_some.mp hget
  obtain ⟨_, -, hinput'⟩ := retains_of_steps hsteps hcheck hset hm hq
  have hkeep : (record q m).Retains q.kept := ⟨rfl, hinput'.schema⟩
  have hm' : p'.nodes[e.node]? = some (q.apply m) := by
    rw [hnodes, List.getElem?_zipWith, hq, hm]
  refine ⟨hinput, e, he, hren.related (fun c c' hc => ?_) fun c c' cs cs' _ hc hcs => ?_⟩
  · exact ⟨q.kept, by rw [List.getElem?_map, hq]; rfl, hkeep.column_ok.mp hc⟩
  · obtain ⟨f, f', inner, inner', hf, hf', hi, hi', hsel⟩ := Narrowed.inner_ok hc hcs
    refine ⟨m, _, f, f', inner, inner', hm, hm', hf, hf', hi, hi', hsel.imp fun i i' hx => ?_⟩
    obtain ⟨x, hx, hpos⟩ := hx
    obtain ⟨x', hx', huid, -⟩ := Schema.positionOf?_eq_some.mp hpos
    exact ⟨x, x', hx, hx', huid⟩

/-- Where items select inner columns directly, each node exposes what is left of
the fields at the positions that it keeps, given that those before it do. -/
theorem keeps_of_steps {P : Prop} (hcheck : p.check = .ok ())
    (hset : ∀ r ∈ required, r.Ascending) (hagrees : ∀ n ∈ p.nodes, n.schema.Agrees P)
    (hdirect : p.SelectsDirectly) :
    ∀ (i : Nat) (n : Node) (proj : Projected), p.nodes[i]? = some n → projs[i]? = some proj →
      Schema.Narrows P proj.kept n.schema proj.schema := by
  intro i
  induction i using Nat.strongRecOn with
  | ind i ih =>
    intro n proj hn hproj
    obtain ⟨keep, ins, hstep⟩ := hsteps i n proj hn hproj
    obtain ⟨_, -, hretains⟩ := retains_of_steps hsteps hcheck hset hn hproj
    obtain ⟨inputs, natural, hc⟩ := check_ok.mp hcheck i n hn
    have hins : ∀ N ∈ ins, (∃ kept, N.Keeps P kept) ∧ N.old.Agrees P := by
      intro N hN
      obtain ⟨e, -, hlt, hget⟩ := mem_of_right hstep.inputs hN
      obtain ⟨q, m, hq, hm, rfl⟩ := List.getElem?_zipWith_eq_some.mp hget
      exact ⟨⟨q.kept, rfl, ih e.node hlt m q hm hq⟩, hagrees m (List.mem_of_getElem? hm)⟩
    refine Projected.ofAny_narrows hins (by rw [hstep.old_eq hc.schemas]; exact hc.natural_eq)
      hc.exposed (fun x hx hop => ?_) hstep.ok hretains.schema
    obtain ⟨items, hop⟩ := hop
    rw [hop] at hx
    obtain ⟨item, hitem, rfl⟩ := List.mem_map.mp hx
    exact hdirect n (List.mem_of_getElem? hn) item (by rw [hop]; exact hitem)

end Steps

/-- Fields are only ever lost. -/
theorem Rewritten.uids {names : Prop} {kept : List (List Nat)}
    {inner : Nat → Nat → Nat → List Nat → List Nat → Prop}
    (h : Rewritten names required kept inner p p') (id : Nat)
    {us us' : List Uid} (hus : (p.nodes[id]?.map fun n => Schema.uids n.schema) = some us)
    (hus' : (p'.nodes[id]?.map fun n => Schema.uids n.schema) = some us') : us' ⊆ us := by
  obtain ⟨n, hn, rfl⟩ := Option.map_eq_some_iff.mp hus
  obtain ⟨n', hn', rfl⟩ := Option.map_eq_some_iff.mp hus'
  obtain ⟨-, r, ks, -, -, hreduced⟩ := h.node id n n' hn hn'
  intro u hu
  obtain ⟨f', hf', rfl⟩ := List.mem_map.mp hu
  obtain ⟨k, -, f, hf, huid, -⟩ := mem_of_right hreduced.fields hf'
  exact List.mem_map.mpr ⟨f, List.mem_of_getElem? hf, huid.symm⟩

end Plan

/-! ## Plans for which it fails and holds -/

namespace Builder

/-- All rows in one group, of which the second column is unnested under another
name of the group. -/
def renamed : Builder := empty
  |>.after (schema [("a", .scalar .int), ("b", .scalar .int), ("c", .scalar .int)])
  |>.after (load "A" "visits" [⟨"a", .scalar .int, ⟨0⟩⟩, ⟨"b", .scalar .int, ⟨1⟩⟩,
      ⟨"c", .scalar .int, ⟨2⟩⟩] none)
  |>.after (cogroup "G" [(⟨0, none⟩, [], false)])
  |>.after (forEach "F" ⟨1, none⟩ [(.select (.named (.column 1) "v") [1], true)])

/-- Bags in a bag, under one identity though they differ, of which the second is
unnested. -/
def twins : Builder := empty
  |>.after (load "A" "pairs" [⟨"z", .bag [⟨"x", .bag [⟨"i", .scalar .int, ⟨5⟩⟩], ⟨1⟩⟩,
      ⟨"y", .bag [⟨"j", .scalar .int, ⟨6⟩⟩], ⟨1⟩⟩], ⟨2⟩⟩] none)
  |>.after (forEach "F" ⟨0, none⟩ [(.select (.column 0) [1], true)])
  |>.after (forEach "H" ⟨1, none⟩ [(.column 0, true)])

end Builder

namespace Plan

end Plan

end Dataflow
