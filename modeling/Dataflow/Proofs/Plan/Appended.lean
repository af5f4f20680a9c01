import Dataflow.Proofs.Narrowing.Consistent
import Dataflow.Proofs.Plan.Built

/-!
# What operations append

Each operation of a builder makes its own checks, and none of them runs the check
of the plan. They still add up to it: an operation either leaves the plan as it
is or appends one node, whose operator suits the inputs it is given
(`Operator.Suits`) and which exposes all that the operator makes of them
(`Plan.Fits`). So every node of a plan under construction fits at the end of the
nodes before it (`Plan.Grown`).

What no operation looks at is the branch of an edge. It is the one thing that can
go wrong in the end: a plan can be finished exactly when branches are addressed
where splits are read and nowhere else (`Builder.build_iff`).

Steps of building are composed of steps that never touch the plan, with at most
one append as the last of them. `Builder.Meets` says what a step does to a plan;
since a step that fails has not appended anything, it leaves the plan it found.
-/

namespace Dataflow

open List (Forall₂)

/-! ## Checks of operators -/

theorem creating_ok {α : Type} {r : Except Error α} {a : α} : creating r = .ok a ↔ r = .ok a := by
  cases r <;> simp [creating, Except.mapError]

namespace Builder

/-- A check that goes on unless an operator is refused. -/
theorem refuse_ok {α : Type} {c : Prop} [Decidable c] {fault : ValueFault}
    {next : Unit → Except Error α} {a : α} :
    (if c then refuse fault >>= next else next ()) = .ok a ↔ ¬ c ∧ next () = .ok a := by
  split
  · rename_i hc
    exact ⟨nofun, fun h => absurd hc h.1⟩
  · rename_i hc
    exact ⟨fun h => ⟨hc, h⟩, fun h => h.2⟩

theorem checkKeys_ok {s : Schema} {keys : List Expr} :
    checkKeys s keys = .ok () ↔ ∀ e ∈ keys, ∃ τ, e.type s = .ok τ := by
  have hone : ∀ e : Expr, discard (creating (e.type s)) = .ok () ↔ ∃ τ, e.type s = .ok τ := by
    intro e
    cases e.type s with
    | error c => exact ⟨nofun, nofun⟩
    | ok τ => exact ⟨fun _ => ⟨τ, rfl⟩, fun _ => rfl⟩
  unfold checkKeys
  rw [forM_ok]
  exact ⟨fun h e he => (hone e).mp (h e he), fun h e he => (hone e).mpr (h e he)⟩

theorem typed_of_checkFilter {s : Schema} {e : Expr} (h : checkFilter s e = .ok ()) :
    ∃ τ, e.type s = .ok τ := by
  obtain ⟨τ, hτ, -⟩ := bind_ok (creating_ok.mp h)
  exact ⟨τ, hτ⟩

/-- The keys of each input are typed over it. -/
def KeysTyped (keys : List (List Expr)) (inputs : List Schema) : Prop :=
  ∀ x ∈ keys.zip inputs, ∀ e ∈ x.1, ∃ τ, e.type x.2 = .ok τ

theorem keysTyped_of_checkJoin {j : Join} {inputs : List Schema}
    (h : checkJoin j inputs = .ok ()) : KeysTyped j.keys inputs := by
  unfold checkJoin at h
  obtain ⟨-, h⟩ := refuse_ok.mp h
  obtain ⟨-, h⟩ := refuse_ok.mp h
  intro x hx
  obtain ⟨-, hkeys⟩ := refuse_ok.mp (forM_ok.mp h x hx)
  exact checkKeys_ok.mp hkeys

theorem keysTyped_of_checkGroup {keys : List (List Expr)} {inputs : List Schema}
    (h : checkGroup keys inputs = .ok ()) : KeysTyped keys inputs := by
  unfold checkGroup at h
  obtain ⟨-, h⟩ := refuse_ok.mp h
  obtain ⟨-, h⟩ := refuse_ok.mp h
  intro x hx
  exact checkKeys_ok.mp (forM_ok.mp h x hx)

theorem typed_of_checkOrder {o : OrderBy} {s : Schema} (h : checkOrder o s = .ok ()) :
    ∀ e ∈ o.keys, ∃ τ, e.type s = .ok τ := by
  unfold checkOrder at h
  obtain ⟨-, h⟩ := refuse_ok.mp h
  exact checkKeys_ok.mp h

theorem typed_of_checkSplit {ps : List Expr} {s : Schema} (h : checkSplit ps s = .ok ()) :
    ∀ e ∈ ps, ∃ τ, e.type s = .ok τ := by
  unfold checkSplit at h
  obtain ⟨-, h⟩ := refuse_ok.mp h
  exact checkKeys_ok.mp h

end Builder

theorem Item.typed_of_fields {item : Item} {s : Schema} {fs : List Field}
    (h : item.fields s = .ok fs) : ∃ τ, item.expr.type s = .ok τ := by
  unfold Item.fields at h
  split at h
  · rename_i hstar
    rw [Item.isStar_iff.mp hstar]
    exact ⟨_, rfl⟩
  · split at h
    · rename_i p hp
      obtain ⟨f, hf, -⟩ := bind_ok h
      exact ⟨f.type, Expr.type_of_forwards? hp (Schema.fieldAt_ok.mp hf)⟩
    · obtain ⟨τ, hτ, -⟩ := bind_ok h
      exact ⟨τ, hτ⟩

/-! ## Nodes that fit -/

/-- An operator that can work on inputs with the given schemas. -/
structure Operator.Suits (op : Operator) (inputs : List Schema) : Prop where
  takes : op.Takes inputs.length
  typed : ∀ x ∈ op.expressions, ∃ s τ, inputs[x.1]? = some s ∧ x.2.type s = .ok τ
  mapped : ∀ u, op = .union u → ∀ x ∈ u.mappings.zip inputs,
    x.1.length = u.fields.length ∧ ∀ q, some q ∈ x.1 → q < x.2.length
  bags : ∀ c, op = .cogroup c → c.bags.length = inputs.length

/-- A node that fits at the end of a plan: it reads nodes of the plan, and exposes
all that its operator makes of them. -/
structure Plan.Fits (p : Plan) (n : Node) (inputs : List Schema) : Prop where
  id_eq : n.id = p.nodes.length
  schemas : p.edgeSchemas n.inputs = .ok inputs
  suits : n.op.Suits inputs
  natural_eq : n.op.natural inputs = .ok n.schema
  projection_eq : n.projection = none

/-- What an operation makes of a plan: the same plan, or one with another node
that fits. -/
inductive Plan.Grows (p : Plan) : Plan → Prop
  | same : Grows p p
  | append {n : Node} {inputs : List Schema} (h : p.Fits n inputs) : Grows p ⟨p.nodes ++ [n]⟩

namespace Operator

theorem takes_of_arity {op : Operator} {k : Nat} (h : op.arity = (k, some k)) : op.Takes k where
  least := Nat.le_of_eq (congrArg Prod.fst h)
  greatest := fun n hn => by rw [h] at hn; cases hn; exact Nat.le_refl _

/-- Operators of one input that are neither unions nor cogroups. -/
theorem suits_one {op : Operator} {s : Schema} (harity : op.arity = (1, some 1))
    (hunion : ∀ u, op ≠ .union u) (hgroup : ∀ c, op ≠ .cogroup c)
    (htyped : ∀ x ∈ op.expressions, x.1 = 0 ∧ ∃ τ, x.2.type s = .ok τ) : op.Suits [s] where
  takes := takes_of_arity harity
  typed := fun x hx => by
    obtain ⟨h0, τ, hτ⟩ := htyped x hx
    exact ⟨s, τ, by rw [h0]; rfl, hτ⟩
  mapped := fun u hu => absurd hu (hunion u)
  bags := fun c hc => absurd hc (hgroup c)

theorem typed_keyed {keys : List (List Expr)} {inputs : List Schema}
    (hlen : keys.length = inputs.length) (h : Builder.KeysTyped keys inputs) :
    ∀ x ∈ keyed keys, ∃ s τ, inputs[x.1]? = some s ∧ x.2.type s = .ok τ := by
  intro x hx
  obtain ⟨ks, hks, he⟩ := mem_keyed.mp hx
  have hlt : x.1 < inputs.length := hlen ▸ (List.getElem?_eq_some_iff.mp hks).1
  have hs := List.getElem?_eq_getElem hlt
  have hzip : (ks, inputs[x.1]) ∈ keys.zip inputs :=
    List.mem_of_getElem? (List.getElem?_zip_eq_some.mpr ⟨hks, hs⟩)
  obtain ⟨τ, hτ⟩ := h _ hzip _ he
  exact ⟨_, τ, hs, hτ⟩

end Operator

/-! ## Steps -/

namespace Builder

variable {α β : Type} {p : Plan}

/-- A step that is taken with the plan `p`. When it succeeds, `post` holds of what
it returns and of the plan that it leaves; when it fails, the plan is still `p`. -/
def Meets (p : Plan) (post : α → Plan → Prop) (step : Build α) : Prop :=
  ∀ b : Builder, b.plan = p →
    match b.returns step with
    | .ok a => post a (b.after step).plan
    | .error _ => (b.after step).plan = p

/-- A step that never touches the plan. -/
def Yields (p : Plan) (φ : α → Prop) (step : Build α) : Prop :=
  Meets p (fun a q => q = p ∧ φ a) step

/-- A step that appends at most one node. -/
def Appends (p : Plan) (step : Build α) : Prop := Meets p (fun _ q => p.Grows q) step

theorem Yields.bind {φ : α → Prop} {post : β → Plan → Prop} {step : Build α}
    {next : α → Build β} (h : Yields p φ step) (hnext : ∀ a, φ a → Meets p post (next a)) :
    Meets p post (step >>= next) := by
  intro b hb
  have hstep := h b hb
  unfold returns after at hstep ⊢
  rw [ExceptT.run_bind, StateT.run_bind]
  simp only [Id.run] at hstep ⊢
  generalize StateT.run (ExceptT.run step) b = out at hstep
  obtain ⟨r, b'⟩ := out
  -- A failure of the second step also leaves `p`, which the first step has left.
  cases r with
  | error e => exact hstep
  | ok a => exact hnext a hstep.2 b' hstep.1

theorem Yields.mono {φ ψ : α → Prop} {step : Build α} (h : Yields p φ step)
    (himp : ∀ a, φ a → ψ a) : Yields p ψ step := by
  intro b hb
  have hstep := h b hb
  split at hstep
  · exact ⟨hstep.1, himp _ hstep.2⟩
  · exact hstep

theorem Yields.appends {φ : α → Prop} {step : Build α} (h : Yields p φ step) : Appends p step := by
  intro b hb
  have hstep := h b hb
  split at hstep
  · rw [hstep.1]
    exact .same
  · exact hstep

theorem yields_pure {φ : α → Prop} {a : α} (h : φ a) : Yields p φ (pure a : Build α) :=
  fun _ hb => ⟨hb, h⟩

theorem yields_lift (r : Except Error α) : Yields p (fun a => r = .ok a) (lift r) := by
  intro b hb
  cases r with
  | error e => exact hb
  | ok a => exact ⟨hb, rfl⟩

theorem yields_discard {φ : α → Prop} {step : Build α} (h : Yields p φ step) :
    Yields p (fun _ => ∃ a, φ a) (discard step) :=
  h.bind fun a ha => yields_pure ⟨a, ha⟩

theorem yields_get : Yields p (fun b => b.plan = p) (get : Build Builder) :=
  fun _ hb => ⟨hb, hb⟩

theorem yields_draw : Yields p (fun _ => True) draw := fun _ hb => ⟨hb, trivial⟩

theorem yields_field (name : String) (type : DataType) :
    Yields p (fun _ => True) (field name type) :=
  yields_draw.bind fun _ _ => yields_pure trivial

/-- A step for each element of a list. -/
theorem yields_mapM {f : α → Build β} {xs : List α}
    (h : ∀ x ∈ xs, Yields p (fun _ => True) (f x)) :
    Yields p (fun ys => ys.length = xs.length) (xs.mapM f) := by
  induction xs with
  | nil => rw [List.mapM_nil]; exact yields_pure rfl
  | cons x xs ih =>
    rw [List.mapM_cons]
    refine (h x (List.mem_cons_self ..)).bind fun y _ => ?_
    exact (ih fun z hz => h z (List.mem_cons_of_mem _ hz)).bind fun ys hys =>
      yields_pure (congrArg Nat.succ hys)

/-- An identity for each element of a list. -/
theorem yields_drawn {f : α → Uid → β} {xs : List α} :
    Yields p (fun ys => ys.length = xs.length) (xs.mapM fun x => return f x (← draw)) :=
  yields_mapM fun _ _ => yields_draw.bind fun _ _ => yields_pure trivial

theorem yields_schemaOf (id : Nat) : Yields p (fun s => p.schemaOf id = .ok s) (schemaOf id) :=
  yields_get.bind fun b hb => by rw [← hb]; exact yields_lift _

theorem yields_edgeSchemas (edges : List Edge) :
    Yields p (fun inputs => p.edgeSchemas edges = .ok inputs) (edgeSchemas edges) :=
  yields_get.bind fun b hb => by rw [← hb]; exact yields_lift _

/-- A step after a failure that is raised under a condition. -/
theorem meets_unless {c : Prop} [Decidable c] {e : Error} {post : α → Plan → Prop}
    {next : PUnit → Build α} (h : ¬ c → Meets p post (next ⟨⟩)) :
    Meets p post (if c then lift (.error e) >>= next else next ⟨⟩) := by
  split
  · exact (yields_lift _).bind fun _ ha => by cases ha
  · rename_i hc
    exact h hc

theorem yields_groupType (s : Schema) (keys : List Expr) :
    Yields p (fun _ => True) (groupType s keys) := by
  unfold groupType
  split
  · exact yields_pure trivial
  · exact (yields_lift _).mono fun _ _ => trivial
  · refine (yields_mapM fun key _ => ?_).bind fun _ _ => yields_pure trivial
    exact (yields_lift _).bind fun name _ => (yields_lift _).bind fun type _ =>
      yields_field name type

/-! ## Operations -/

/-- A node is appended if its operator suits the inputs it is given. -/
theorem appends_add {label : Option String} {op : Operator} {edges : List Edge}
    (hop : ∀ inputs, p.edgeSchemas edges = .ok inputs → op.Suits inputs) :
    Appends p (add label op edges) := by
  unfold add
  refine yields_get.bind fun b hb => (yields_edgeSchemas edges).bind fun inputs hinputs => ?_
  refine @meets_unless _ _ _ _ _ _ (fun _ => _) fun _ => (yields_lift _).bind fun natural hnat => ?_
  subst hb
  exact fun _ _ => .append (n := ⟨_, label, op, edges, natural, none⟩)
    ⟨rfl, hinputs, hop inputs hinputs, hnat, rfl⟩

theorem appends_addOne {label : Option String} {op : Operator} {e : Edge}
    (hop : ∀ s, p.schemaOf e.node = .ok s → op.Suits [s]) :
    Appends p (add label op [e]) := by
  refine appends_add fun inputs hinputs => ?_
  obtain ⟨s, rest, rfl, hs, hrest⟩ := mapM_cons_ok hinputs
  cases hrest
  exact hop s hs

/-- An operator is appended whose expressions are typed over its one input. -/
theorem appends_typed {label : Option String} {op : Operator} {e : Edge} {s : Schema}
    (hs : p.schemaOf e.node = .ok s) (harity : op.arity = (1, some 1))
    (hunion : ∀ u, op ≠ .union u) (hgroup : ∀ c, op ≠ .cogroup c)
    (htyped : ∀ x ∈ op.expressions, x.1 = 0 ∧ ∃ τ, x.2.type s = .ok τ) :
    Appends p (add label op [e]) := by
  refine appends_addOne fun s' hs' => ?_
  rw [hs] at hs'
  cases hs'
  exact Operator.suits_one harity hunion hgroup htyped

/-- An operator without expressions takes any one input. -/
theorem appends_plain {label : Option String} {op : Operator} {e : Edge}
    (harity : op.arity = (1, some 1)) (hunion : ∀ u, op ≠ .union u)
    (hgroup : ∀ c, op ≠ .cogroup c) (hexpr : op.expressions = []) :
    Appends p (add label op [e]) := by
  refine appends_addOne fun s _ => Operator.suits_one harity hunion hgroup ?_
  rw [hexpr]
  nofun

theorem appends_load (label location : String) (s : Schema) (reader : Option Reader) :
    Appends p (load label location s reader) := by
  refine appends_add fun inputs hinputs => ?_
  cases hinputs
  exact ⟨Operator.takes_of_arity rfl, nofun, nofun, nofun⟩

theorem appends_forEach (label : String) (input : Edge) (items : List (Expr × Bool)) :
    Appends p (forEach label input items) := by
  refine (yields_schemaOf input.node).bind fun s hs => ?_
  refine yields_drawn.bind fun items' _ => ?_
  refine (yields_discard (yields_lift _)).bind fun _ ⟨out, hout⟩ => ?_
  obtain ⟨fields, hfields, -⟩ := bind_ok (creating_ok.mp hout)
  refine appends_typed hs rfl nofun nofun fun x hx => ?_
  obtain ⟨item, hitem, rfl⟩ := List.mem_map.mp hx
  obtain ⟨fs, -, hfs⟩ := mem_of_left (mapM_ok.mp hfields) hitem
  exact ⟨rfl, Item.typed_of_fields hfs⟩

/-- A check of the one input that types the expressions of an operator. -/
theorem appends_checked {label : String} {op : Operator} {input : Edge}
    {check : Schema → Except Error Unit} (harity : op.arity = (1, some 1))
    (hunion : ∀ u, op ≠ .union u) (hgroup : ∀ c, op ≠ .cogroup c)
    (hcheck : ∀ s, check s = .ok () →
      ∀ x ∈ op.expressions, x.1 = 0 ∧ ∃ τ, x.2.type s = .ok τ) :
    Appends p (do lift (check (← schemaOf input.node)); add (some label) op [input]) :=
  (yields_schemaOf input.node).bind fun s hs => (yields_lift _).bind fun _ h =>
    appends_typed hs harity hunion hgroup (hcheck s h)

theorem appends_filter (label : String) (input : Edge) (predicate : Expr) :
    Appends p (filter label input predicate) := by
  refine appends_checked rfl nofun nofun fun s h x hx => ?_
  rw [List.mem_singleton.mp hx]
  exact ⟨rfl, typed_of_checkFilter h⟩

theorem appends_orderBy (label : String) (input : Edge) (o : OrderBy) :
    Appends p (orderBy label input o) := by
  refine appends_checked rfl nofun nofun fun s h x hx => ?_
  obtain ⟨e, he, rfl⟩ := List.mem_map.mp hx
  exact ⟨rfl, typed_of_checkOrder h e he⟩

theorem appends_split (label : String) (input : Edge) (predicates : List Expr) :
    Appends p (split label input predicates) := by
  refine appends_checked rfl nofun nofun fun s h x hx => ?_
  obtain ⟨e, he, rfl⟩ := List.mem_map.mp hx
  exact ⟨rfl, typed_of_checkSplit h e he⟩

theorem appends_join (label : String) (inputs : List (Edge × List Expr)) (type : JoinType)
    (strategy : JoinStrategy) : Appends p (join label inputs type strategy) := by
  refine (yields_edgeSchemas _).bind fun schemas hschemas => (yields_lift _).bind fun _ hcheck => ?_
  refine appends_add fun schemas' hschemas' => ?_
  rw [hschemas] at hschemas'
  cases hschemas'
  have hlen : (inputs.map Prod.snd).length = schemas.length := by
    rw [Plan.edgeSchemas_length hschemas, List.length_map, List.length_map]
  exact {
    takes := Operator.takes_of_arity (by rw [← hlen]; rfl)
    typed := Operator.typed_keyed hlen (keysTyped_of_checkJoin hcheck)
    mapped := nofun
    bags := nofun }

theorem appends_cogroup (label : String) (inputs : List (Edge × List Expr × Bool)) :
    Appends p (cogroup label inputs) := by
  refine yields_get.bind fun b hb => (yields_lift _).bind fun nodes hnodes => ?_
  refine (yields_lift _).bind fun _ hcheck => (yields_groupType _ _).bind fun type _ => ?_
  refine (yields_field _ _).bind fun group _ => ?_
  refine yields_drawn.bind fun bags hbags => appends_add fun schemas hschemas => ?_
  -- The schemas of the nodes are those that the edges lead to.
  have hsame : schemas = nodes.map Node.schema := by
    have hnodes' : Forall₂ (fun e n => p.nodes[e.node]? = some n) (inputs.map Prod.fst) nodes :=
      (mapM_ok.mp hnodes).imp fun e n hn => hb ▸ Plan.node_ok.mp hn
    have hall : p.edgeSchemas (inputs.map Prod.fst) = .ok (nodes.map Node.schema) :=
      Plan.edgeSchemas_ok.mpr (List.forall₂_map_right_iff.mpr
        (hnodes'.imp fun e n hn => ⟨n, hn, rfl⟩))
    exact Except.ok.inj (hschemas.symm.trans hall)
  subst hsame
  have hlen : (inputs.map fun i => i.2.1).length = (nodes.map Node.schema).length := by
    rw [Plan.edgeSchemas_length hschemas, List.length_map, List.length_map]
  exact {
    takes := Operator.takes_of_arity (by rw [← hlen]; rfl)
    typed := Operator.typed_keyed hlen (keysTyped_of_checkGroup hcheck)
    mapped := nofun
    bags := fun c hc => by
      cases hc
      rw [hbags, List.length_zipIdx, List.length_map] }

theorem appends_cross (label : String) (inputs : List Edge) : Appends p (cross label inputs) := by
  refine @meets_unless _ _ _ _ _ _ (fun _ => _) fun hlen => appends_add fun schemas hschemas => ?_
  rw [← Plan.edgeSchemas_length hschemas] at hlen
  exact ⟨⟨Nat.le_of_not_lt hlen, nofun⟩, nofun, nofun, nofun⟩

/-- A union is appended if every mapping covers the fields and stays within its
input. -/
theorem appends_addUnion {label : String} {edges : List Edge} {inputs : List Schema}
    {fields : List Field} {mapping : Schema → List (Option Nat)}
    (hinputs : p.edgeSchemas edges = .ok inputs)
    (hmapping : ∀ s ∈ inputs, (mapping s).length = fields.length ∧
      ∀ q, some q ∈ mapping s → q < s.length) :
    Appends p (addUnion label edges ⟨fields, inputs.map mapping⟩) := by
  refine @meets_unless _ _ _ _ _ _ (fun _ => _) fun _ => appends_add fun inputs' hinputs' => ?_
  rw [hinputs] at hinputs'
  cases hinputs'
  refine ⟨Operator.takes_of_arity ?_, nofun, fun u hu x hx => ?_, nofun⟩
  · rw [Operator.arity, List.length_map]
  · cases hu
    obtain ⟨i, hi⟩ := List.mem_iff_getElem?.mp hx
    obtain ⟨hm, hs⟩ := List.getElem?_zip_eq_some.mp hi
    rw [List.getElem?_map, hs] at hm
    rw [← Option.some.inj hm]
    exact hmapping _ (List.mem_of_getElem? hs)

theorem appends_union (label : String) (inputs : List Edge) : Appends p (union label inputs) := by
  refine (yields_edgeSchemas inputs).bind fun schemas hschemas => ?_
  refine (yields_mapM fun q _ => ?_).bind fun fields hfields => ?_
  · split
    · exact yields_field _ _
    · exact (yields_lift _).mono fun _ _ => trivial
  · refine appends_addUnion hschemas fun s _ => ⟨?_, fun q hq => ?_⟩
    · rw [hfields, List.length_map]
    · obtain ⟨r, -, hr⟩ := List.mem_map.mp hq
      split at hr
      · cases hr
        assumption
      · cases hr

theorem appends_unionByName (label : String) (inputs : List Edge) :
    Appends p (unionByName label inputs) := by
  refine (yields_edgeSchemas inputs).bind fun schemas hschemas => ?_
  refine (yields_mapM fun f _ => yields_field f.name f.type).bind fun fields hfields => ?_
  refine appends_addUnion hschemas fun s _ => ⟨?_, fun q hq => ?_⟩
  · rw [hfields, List.length_map]
  · obtain ⟨f, -, hf⟩ := List.mem_map.mp hq
    exact (List.findIdx?_eq_some_iff_getElem.mp hf).1

/-- Grouping is a cogroup of one input. -/
theorem Operation.group (label : String) (input : Edge) (keys : List Expr) :
    Operation (Builder.group label input keys) := .cogroup label [(input, keys, false)]

theorem Operation.groupAll (label : String) (input : Edge) :
    Operation (Builder.groupAll label input) := .group label input []

/-- An operation appends at most one node, and one that fits; if it fails, none. -/
theorem appends_operation {op : Build α} (hop : Operation op) (p : Plan) : Appends p op := by
  cases hop with
  | field name type => exact (yields_field name type).appends
  | schema fields => exact (yields_mapM fun x _ => yields_field x.1 x.2).appends
  | load label location s reader => exact appends_load label location s reader
  | forEach label input items => exact appends_forEach label input items
  | filter label input predicate => exact appends_filter label input predicate
  | join label inputs type strategy => exact appends_join label inputs type strategy
  | cogroup label inputs => exact appends_cogroup label inputs
  | cross label inputs => exact appends_cross label inputs
  | union label inputs => exact appends_union label inputs
  | unionByName label inputs => exact appends_unionByName label inputs
  | orderBy label input o => exact appends_orderBy label input o
  | split label input predicates => exact appends_split label input predicates
  | store | distinct | limit | stream => exact appends_plain rfl nofun nofun rfl

theorem grows_after {op : Build α} (hop : Operation op) (b : Builder) :
    b.plan.Grows (b.after op).plan := by
  have h := appends_operation hop b.plan b rfl
  split at h
  · exact h
  · rw [h]
    exact .same

end Builder

/-! ## Plans under construction -/

namespace Plan

/-- Every node fits at the end of the nodes before it. -/
def Grown (p : Plan) : Prop :=
  ∀ id n, p.nodes[id]? = some n → ∃ inputs, Fits ⟨p.nodes.take id⟩ n inputs

theorem Grown.grows {p q : Plan} (h : p.Grown) (hgrows : p.Grows q) : q.Grown := by
  cases hgrows with
  | same => exact h
  | @append n inputs hfits =>
    intro id m hm
    -- The nodes before a node are the same after an append, whichever node it is.
    rcases Nat.lt_or_ge id p.nodes.length with hlt | hge
    · rw [List.getElem?_append_left hlt] at hm
      rw [List.take_append_of_le_length (Nat.le_of_lt hlt)]
      exact h id m hm
    · obtain ⟨rfl, rfl⟩ : id = p.nodes.length ∧ n = m := by
        rw [List.getElem?_append_right hge, List.getElem?_singleton] at hm
        split at hm
        · exact ⟨by omega, Option.some.inj hm⟩
        · cases hm
      exact ⟨inputs, by rw [List.take_left]; exact hfits⟩

/-- What edges lead to among the first nodes of a plan. -/
theorem edgeSchemas_of_take {p : Plan} {k : Nat} {edges : List Edge} {inputs : List Schema}
    (h : (⟨p.nodes.take k⟩ : Plan).edgeSchemas edges = .ok inputs) :
    p.edgeSchemas edges = .ok inputs ∧
      ∀ e ∈ edges, e.node < k ∧ ∃ m, p.nodes[e.node]? = some m := by
  have hall : Forall₂ (fun e s => e.node < k ∧ ∃ m, p.nodes[e.node]? = some m ∧ m.schema = s)
      edges inputs := by
    refine (edgeSchemas_ok.mp h).imp fun e s hes => ?_
    obtain ⟨m, hm, hs⟩ := hes
    rw [List.getElem?_take] at hm
    split at hm
    · exact ⟨by assumption, m, hm, hs⟩
    · cases hm
  refine ⟨edgeSchemas_ok.mpr (hall.imp fun _ _ hes => hes.2), fun e he => ?_⟩
  obtain ⟨s, -, hlt, m, hm, -⟩ := mem_of_left hall he
  exact ⟨hlt, m, hm⟩

/-- A node that fits is consistent if its inputs are addressed as they have to
be. -/
theorem Fits.checked {p : Plan} {id : Nat} {n : Node} {inputs : List Schema}
    (h : Fits ⟨p.nodes.take id⟩ n inputs) (hn : p.nodes[id]? = some n)
    (hbranch : ∀ e ∈ n.inputs, ∀ m, p.nodes[e.node]? = some m → checkBranch id e m = .ok ()) :
    p.Checked id n inputs n.schema := by
  have hlt : id < p.nodes.length := (List.getElem?_eq_some_iff.mp hn).1
  obtain ⟨hschemas, hearlier⟩ := edgeSchemas_of_take h.schemas
  exact {
    id_eq := h.id_eq.trans (List.length_take_of_le (Nat.le_of_lt hlt))
    takes := by rw [← edgeSchemas_length hschemas]; exact h.suits.takes
    earlier := fun e he => by
      obtain ⟨hlt, m, hm⟩ := hearlier e he
      exact ⟨hlt, m, hm, hbranch e he m hm⟩
    schemas := hschemas
    typed := h.suits.typed
    mapped := fun u hu x hx => checkMapping_ok.mpr (h.suits.mapped u hu x hx)
    natural_eq := h.natural_eq
    exposed := by unfold exposedPart; rw [h.projection_eq] }

/-- An edge into a split carries one of its branches, any other edge none. -/
def Addresses (p : Plan) (e : Edge) : Prop :=
  match p.nodes[e.node]?.map Node.op with
  | some (.split ps) => ∃ k, e.branch = some k ∧ k < ps.length
  | _ => e.branch = none

theorem addresses_iff {p : Plan} {e : Edge} {m : Node} (hm : p.nodes[e.node]? = some m)
    (id : Nat) : p.Addresses e ↔ checkBranch id e m = .ok () := by
  unfold Addresses checkBranch
  rw [hm, Option.map_some]
  cases m.op with
  | split ps => cases e.branch <;> simp
  | _ => cases e.branch <;> simp

theorem Grown.check_iff {p : Plan} (h : p.Grown) :
    p.check = .ok () ↔ ∀ n ∈ p.nodes, ∀ e ∈ n.inputs, p.Addresses e := by
  constructor
  · intro hcheck n hn e he
    obtain ⟨id, hid⟩ := List.mem_iff_getElem?.mp hn
    obtain ⟨inputs, natural, hc⟩ := check_ok.mp hcheck id n hid
    obtain ⟨-, m, hm, hbranch⟩ := hc.earlier e he
    exact (addresses_iff hm id).mpr hbranch
  · intro hall
    refine check_ok.mpr fun id n hn => ?_
    obtain ⟨inputs, hfits⟩ := h id n hn
    exact ⟨inputs, n.schema, hfits.checked hn fun e he m hm =>
      (addresses_iff hm id).mp (hall n (List.mem_of_getElem? hn) e he)⟩

end Plan

namespace Builder

theorem Reachable.grown {b : Builder} (h : b.Reachable) : b.plan.Grown := by
  induction h with
  | empty => nofun
  | step _ hop ih => exact ih.grows (grows_after hop _)

theorem Reachable.bagPerInput {b : Builder} (h : b.Reachable) : b.plan.BagPerInput := by
  intro n hn c hc
  obtain ⟨id, hid⟩ := List.mem_iff_getElem?.mp hn
  obtain ⟨inputs, hfits⟩ := h.grown id n hid
  rw [hfits.suits.bags c hc, Plan.edgeSchemas_length hfits.schemas]

/-- However a plan was built: it can be finished exactly when every edge into a
split carries one of its branches and every other edge carries none. An operation
that fails leaves the nodes as they are. -/
theorem build_iff {b : Builder} (h : b.Reachable) :
    ((∃ p, b.build = .ok p) ↔ ∀ n ∈ b.plan.nodes, ∀ e ∈ n.inputs, b.plan.Addresses e) ∧
    ∀ {α : Type} {op : Build α}, Operation op → ∀ e, b.returns op = .error e →
      (b.after op).plan.nodes = b.plan.nodes := by
  refine ⟨Iff.trans ⟨?_, ?_⟩ h.grown.check_iff, fun hop e he => ?_⟩
  · rintro ⟨p, hp⟩
    obtain ⟨_, hcheck, -⟩ := bind_ok hp
    exact hcheck
  · intro hcheck
    exact ⟨b.plan, by unfold build; rw [hcheck]; rfl⟩
  · have hmeets := appends_operation hop b.plan b rfl
    rw [he] at hmeets
    exact congrArg Plan.nodes hmeets

/-- One group of the rows that a split routes to its second branch, after a
failed operation. -/
def routed : Builder := empty
  |>.after (load "A" "visits" [⟨"user", .scalar .chararray, ⟨0⟩⟩] none)
  |>.after (split "S" ⟨0, none⟩ [.isNull (.column 0), .not (.isNull (.column 0))])
  |>.after (filter "B" ⟨7, none⟩ (.isNull (.column 0)))
  |>.after (groupAll "G" ⟨1, some 1⟩)

/-- The plan can be finished, and no more once the split is read without a
branch. -/
theorem build_iff_routed : routed.Reachable ∧
    (∀ n ∈ routed.plan.nodes, ∀ e ∈ n.inputs, routed.plan.Addresses e) ∧
    (¬ ∃ p, (routed.after (distinct "D" ⟨1, none⟩)).build = .ok p) ∧
    (routed.after (cross "X" [⟨2, none⟩])).plan.nodes = routed.plan.nodes := by
  have hreach : routed.Reachable :=
    .step (.step (.step (.step .empty (.load ..)) (.split ..)) (.filter ..)) (.groupAll ..)
  refine ⟨hreach, (build_iff hreach).1.mp ⟨_, rfl⟩, fun hbuilt => ?_,
    (build_iff hreach).2 (.cross ..) _ rfl⟩
  have hread := (build_iff (hreach.step (.distinct "D" ⟨1, none⟩))).1.mp hbuilt
  obtain ⟨k, hk, -⟩ := hread _ (List.mem_of_getElem? (i := 3) rfl) _ (List.mem_singleton_self _)
  cases hk

end Builder

end Dataflow
