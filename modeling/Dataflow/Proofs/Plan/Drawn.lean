import Dataflow.Proofs.Plan.Appended
import Dataflow.Proofs.Plan.Identities

/-!
# What calls draw

Identities are drawn in order, also by steps that fail later on. `Builder.Draws`
says how many a step draws while it leaves the plan alone, so that things made one
after the other carry consecutive identities (`Builder.draws_mapM`).

A call that succeeds appends one node. What the node creates is part of what was
drawn in the call, and what else it exposes was in the plan before, or came in with
what the caller gave (`Builder.Gains`).
-/

namespace Dataflow

open List (Forall₂)

/-- The identities that are drawn next. -/
def UidSource.upcoming (s : UidSource) (count : Nat) : List Uid :=
  (List.range' s.next count).map Uid.mk

namespace UidSource

theorem upcoming_nodup (s : UidSource) (count : Nat) : (s.upcoming count).Nodup :=
  List.Nodup.map (fun _ _ h => congrArg Uid.number h) List.nodup_range'

theorem mem_upcoming {s : UidSource} {count : Nat} {u : Uid} :
    u ∈ s.upcoming count ↔ s.next ≤ u.number ∧ u.number < s.next + count := by
  unfold upcoming
  rw [List.mem_map]
  constructor
  · rintro ⟨i, hi, rfl⟩
    exact List.mem_range'_1.mp hi
  · exact fun h => ⟨u.number, List.mem_range'_1.mpr h, rfl⟩

theorem upcoming_add (s : UidSource) (k m : Nat) :
    s.upcoming (k + m) = s.upcoming k ++ UidSource.upcoming ⟨s.next + k⟩ m := by
  unfold upcoming
  rw [← List.map_append, List.range'_append_1]

end UidSource

/-! ## Steps -/

namespace Builder

variable {α β : Type} {b : Builder}

/-- The builder after that many identities were drawn. -/
def drawing (b : Builder) (count : Nat) : Builder := { b with uids := ⟨b.uids.next + count⟩ }

theorem drawing_drawing (b : Builder) (k m : Nat) :
    (b.drawing k).drawing m = b.drawing (k + m) := by
  unfold drawing
  rw [Nat.add_assoc]

/-- A step from `b`. When it succeeds, `post` holds of what it returns and of the
builder that it leaves; when it fails, it has done no more than draw identities. -/
def Ends (b : Builder) (post : α → Builder → Prop) (step : Build α) : Prop :=
  match b.returns step with
  | .ok a => post a (b.after step)
  | .error _ => ∃ k, b.after step = b.drawing k

/-- A step that draws `count` identities and does nothing else. -/
def Draws (b : Builder) (count : Nat) (φ : α → Prop) (step : Build α) : Prop :=
  Ends b (fun a b' => b' = b.drawing count ∧ φ a) step

theorem Draws.bind {count : Nat} {φ : α → Prop} {post : β → Builder → Prop} {step : Build α}
    {next : α → Build β} (h : Draws b count φ step)
    (hnext : ∀ a, φ a → Ends (b.drawing count) post (next a)) : Ends b post (step >>= next) := by
  unfold Draws Ends returns after at h
  unfold Ends returns after
  rw [ExceptT.run_bind, StateT.run_bind]
  simp only [Id.run] at h ⊢
  generalize StateT.run (ExceptT.run step) b = out at h
  obtain ⟨r, b'⟩ := out
  cases r with
  | error e => exact h
  | ok a =>
    obtain ⟨rfl, ha⟩ := h
    have hrest := hnext a ha
    unfold Ends returns after at hrest
    simp only [Id.run] at hrest
    show match (StateT.run (ExceptT.run (next a)) (b.drawing count)).1 with
      | .ok a' => post a' (StateT.run (ExceptT.run (next a)) (b.drawing count)).2
      | .error _ => ∃ k, (StateT.run (ExceptT.run (next a)) (b.drawing count)).2 = b.drawing k
    generalize StateT.run (ExceptT.run (next a)) (b.drawing count) = out at hrest
    obtain ⟨r, b''⟩ := out
    -- What a failing rest has drawn comes after what was drawn already.
    cases r with
    | error e =>
      obtain ⟨k, hk⟩ := hrest
      exact ⟨count + k, hk.trans (drawing_drawing b count k)⟩
    | ok a' => exact hrest

/-- A step that draws nothing leaves the builder as it is. -/
theorem Draws.next {φ : α → Prop} {post : β → Builder → Prop} {step : Build α}
    {next : α → Build β} (h : Draws b 0 φ step) (hnext : ∀ a, φ a → Ends b post (next a)) :
    Ends b post (step >>= next) := h.bind hnext

theorem Draws.seq {k m : Nat} {φ : α → Prop} {ψ : β → Prop} {step : Build α} {next : α → Build β}
    (h : Draws b k φ step) (hnext : ∀ a, φ a → Draws (b.drawing k) m ψ (next a)) :
    Draws b (k + m) ψ (step >>= next) := by
  refine h.bind fun a ha => ?_
  have := hnext a ha
  unfold Draws at this
  rwa [drawing_drawing] at this

theorem Draws.mono {count : Nat} {φ ψ : α → Prop} {step : Build α} (h : Draws b count φ step)
    (himp : ∀ a, φ a → ψ a) : Draws b count ψ step := by
  unfold Draws Ends at h ⊢
  split at h
  · exact ⟨h.1, himp _ h.2⟩
  · exact h

theorem draws_pure {φ : α → Prop} {a : α} (h : φ a) : Draws b 0 φ (pure a : Build α) := ⟨rfl, h⟩

theorem draws_lift (r : Except Error α) : Draws b 0 (fun a => r = .ok a) (lift r) := by
  cases r with
  | error e => exact ⟨0, rfl⟩
  | ok a => exact ⟨rfl, rfl⟩

theorem draws_discard {count : Nat} {φ : α → Prop} {step : Build α} (h : Draws b count φ step) :
    Draws b count (fun _ => ∃ a, φ a) (discard step) :=
  Draws.seq h fun a ha => draws_pure ⟨a, ha⟩

theorem draws_get : Draws b 0 (fun b' => b' = b) (get : Build Builder) := ⟨rfl, rfl⟩

theorem draws_draw : Draws b 1 (fun u => u = ⟨b.uids.next⟩) draw := ⟨rfl, rfl⟩

theorem draws_schemaOf (id : Nat) :
    Draws b 0 (fun s => b.plan.schemaOf id = .ok s) (schemaOf id) :=
  draws_get.next fun _ hb => by rw [hb]; exact draws_lift _

theorem draws_edgeSchemas (edges : List Edge) :
    Draws b 0 (fun inputs => b.plan.edgeSchemas edges = .ok inputs) (edgeSchemas edges) :=
  draws_get.next fun _ hb => by rw [hb]; exact draws_lift _

/-- A step that makes something with the next identity on it. -/
def Makes (identity : β → Uid) (φ : β → Prop) (step : Build β) : Prop :=
  ∀ b, Draws b 1 (fun y => identity y = ⟨b.uids.next⟩ ∧ φ y) step

theorem makes_draw {f : Uid → β} {identity : β → Uid} {φ : β → Prop}
    (hf : ∀ u, identity (f u) = u ∧ φ (f u)) : Makes identity φ (do return f (← draw)) :=
  fun _ => draws_draw.seq fun u hu => draws_pure ⟨(hf u).1.trans hu, (hf u).2⟩

theorem makes_field (name : String) (type : DataType) :
    Makes Field.uid (fun f => f.type = type) (field name type) :=
  makes_draw fun _ => ⟨rfl, rfl⟩

/-- Things made one after the other have the next identities on them. -/
theorem draws_mapM {f : α → Build β} {xs : List α} (identity : β → Uid) (R : α → β → Prop)
    (h : ∀ x ∈ xs, Makes identity (R x) (f x)) :
    Draws b xs.length
      (fun ys => ys.map identity = b.uids.upcoming xs.length ∧ Forall₂ R xs ys) (xs.mapM f) := by
  induction xs generalizing b with
  | nil => rw [List.mapM_nil]; exact draws_pure ⟨rfl, .nil⟩
  | cons x xs ih =>
    rw [List.mapM_cons, List.length_cons, Nat.add_comm xs.length 1, b.uids.upcoming_add 1]
    refine (h x (List.mem_cons_self ..) b).seq fun y hy => ?_
    refine Draws.seq (m := 0) (ih fun z hz => h z (List.mem_cons_of_mem _ hz)) fun ys hys => ?_
    refine draws_pure ⟨?_, .cons hy.2 hys.2⟩
    rw [List.map_cons, hy.1, hys.1]
    rfl

theorem ends_unless {c : Prop} [Decidable c] {e : Error} {post : α → Builder → Prop}
    {next : PUnit → Build α} (h : ¬ c → Ends b post (next ⟨⟩)) :
    Ends b post (if c then lift (.error e) >>= next else next ⟨⟩) := by
  split
  · exact (draws_lift _).next fun _ ha => by cases ha
  · rename_i hc
    exact h hc

/-! ## Calls -/

/-- An identity stands in the schema of a node. -/
def Holds (b : Builder) (u : Uid) : Prop := ∃ n ∈ b.plan.nodes, u ∈ Schema.identities n.schema

/-- What a call that succeeds makes of a builder: there is one more node. What the
node creates was drawn in the call, and what else it exposes was there before or
known to the caller. -/
structure Gains (b : Builder) (known : Uid → Prop) (n : Node) (count : Nat) (b' : Builder) :
    Prop where
  nodes : b'.plan.nodes = b.plan.nodes ++ [n]
  next : b'.uids.next = b.uids.next + count
  created : n.op.created.Sublist (b.uids.upcoming count)
  exposed : ∀ u ∈ Schema.identities n.schema, u ∈ n.op.created ∨ b.Holds u ∨ known u

def Adds (b : Builder) (known : Uid → Prop) (step : Build α) : Prop :=
  Ends b (fun _ b' => ∃ n count, b.Gains known n count b') step

theorem holds_of_edgeSchemas {edges : List Edge} {inputs : List Schema}
    (h : b.plan.edgeSchemas edges = .ok inputs) {s : Schema} (hs : s ∈ inputs) {u : Uid}
    (hu : u ∈ Schema.identities s) : b.Holds u := by
  obtain ⟨e, -, n, hn, rfl⟩ := mem_of_right (Plan.edgeSchemas_ok.mp h) hs
  exact ⟨n, List.mem_of_getElem? hn, hu⟩

theorem adds_add {known : Uid → Prop} {label : Option String} {op : Operator} {edges : List Edge}
    (count : Nat) (hcreated : op.created.Sublist (b.uids.upcoming count))
    (hgiven : ∀ u ∈ op.given, u ∈ op.created ∨ b.Holds u ∨ known u) :
    Ends (b.drawing count) (fun _ b' => ∃ n count, b.Gains known n count b')
      (add label op edges) := by
  unfold add
  refine draws_get.next fun _ hb => (draws_edgeSchemas edges).next fun inputs hinputs => ?_
  subst hb
  refine @ends_unless _ _ _ _ _ _ (fun _ => _) fun _ => (draws_lift _).next fun natural hnat => ?_
  refine ⟨⟨_, label, op, edges, natural, none⟩, count, rfl, rfl, hcreated, fun u hu => ?_⟩
  rcases Operator.natural_identities hnat hu with hu | hu | ⟨s, hs, hu⟩
  · exact Or.inl hu
  · exact hgiven u hu
  · exact Or.inr (Or.inl (holds_of_edgeSchemas (b := b) hinputs hs hu))

/-- An operator that originates nothing and was given nothing the caller does not
know. -/
theorem adds_plain {known : Uid → Prop} {label : Option String} {op : Operator} {edges : List Edge}
    (hcreated : op.created = []) (hgiven : ∀ u ∈ op.given, b.Holds u ∨ known u) :
    Adds b known (add label op edges) :=
  adds_add 0 (by rw [hcreated]; exact List.nil_sublist _)
    fun u hu => Or.inr (hgiven u hu)

/-- A check of the one input before such an operator. -/
theorem adds_checked {known : Uid → Prop} {label : String} {op : Operator} {input : Edge}
    {check : Schema → Except Error Unit} (hcreated : op.created = []) (hgiven : op.given = []) :
    Adds b known (do lift (check (← schemaOf input.node)); add (some label) op [input]) :=
  (draws_schemaOf input.node).next fun _ _ => (draws_lift _).next fun _ _ =>
    adds_plain hcreated fun u hu => by rw [hgiven] at hu; cases hu

theorem adds_join {known : Uid → Prop} (label : String) (inputs : List (Edge × List Expr))
    (type : JoinType) (strategy : JoinStrategy) :
    Adds b known (join label inputs type strategy) :=
  (draws_edgeSchemas _).next fun _ _ => (draws_lift _).next fun _ _ => adds_plain rfl nofun

theorem adds_cross {known : Uid → Prop} (label : String) (inputs : List Edge) :
    Adds b known (cross label inputs) :=
  @ends_unless _ _ _ _ _ _ (fun _ => _) fun _ => adds_plain rfl nofun

theorem adds_forEach (label : String) (input : Edge) (items : List (Expr × Bool)) :
    Adds b (· ∈ items.flatMap fun i => i.1.written) (forEach label input items) := by
  refine (draws_schemaOf input.node).next fun s hs => ?_
  refine (draws_mapM Item.uid (fun x item => item.expr = x.1)
    fun x _ => makes_draw fun u => ⟨rfl, rfl⟩).bind fun items' hitems => ?_
  refine (draws_discard (draws_lift _)).next fun _ _ =>
    adds_add _ ?_ fun u hu => Or.inr (Or.inr ?_)
  · rw [← hitems.1]
    exact (List.filter_sublist).map _
  · obtain ⟨item, hitem, hu⟩ := List.mem_flatMap.mp hu
    obtain ⟨x, hx, hexpr⟩ := mem_of_right hitems.2 hitem
    exact List.mem_flatMap.mpr ⟨x, hx, hexpr ▸ hu⟩

/-- The type of a group: where it has parts, they are the next identities. -/
theorem draws_groupType (s : Schema) (keys : List Expr) :
    ∃ count, Draws b count (fun t =>
      CoGroup.components keys t = b.uids.upcoming count ∧
      ∀ u ∈ t.identities, u ∈ b.uids.upcoming count ∨ u ∈ Schema.identities s ∨
        u ∈ keys.flatMap Expr.written) (groupType s keys) := by
  unfold groupType
  split
  · exact ⟨0, draws_pure ⟨rfl, fun u hu => by simp [DataType.identities] at hu⟩⟩
  · rename_i key
    refine ⟨0, (draws_lift _).mono fun t ht => ⟨rfl, fun u hu => Or.inr ?_⟩⟩
    simpa using key.type_identities (creating_ok.mp ht) hu
  · rename_i hnil hone
    obtain ⟨k₁, k₂, rest, rfl⟩ : ∃ k₁ k₂ rest, keys = k₁ :: k₂ :: rest := by
      cases keys with
      | nil => exact absurd rfl hnil
      | cons k₁ keys =>
        cases keys with
        | nil => exact absurd rfl (hone k₁)
        | cons k₂ rest => exact ⟨k₁, k₂, rest, rfl⟩
    refine ⟨_, Draws.seq (m := 0) (draws_mapM Field.uid
      (fun key f => key.type s = .ok f.type) fun key _ b' => ?_) fun fields hfields => ?_⟩
    · refine Draws.seq (k := 0) (m := 1) (draws_lift _) fun name _ => ?_
      refine Draws.seq (k := 0) (m := 1) (draws_lift _) fun type ht => ?_
      exact (makes_field name type _).mono fun f hf =>
        ⟨hf.1, (creating_ok.mp ht).trans (congrArg Except.ok hf.2.symm)⟩
    · refine draws_pure ⟨hfields.1, fun u hu => ?_⟩
      rw [DataType.identities] at hu
      obtain ⟨f, hf, hu⟩ := Schema.mem_identities.mp hu
      rcases Field.mem_identities.mp hu with rfl | hu
      · exact Or.inl (hfields.1 ▸ List.mem_map.mpr ⟨f, hf, rfl⟩)
      · obtain ⟨key, hkey, ht⟩ := mem_of_right hfields.2 hf
        exact Or.inr ((key.type_identities ht hu).imp_right fun hw =>
          List.mem_flatMap.mpr ⟨key, hkey, hw⟩)

theorem adds_cogroup (label : String) (inputs : List (Edge × List Expr × Bool)) :
    Adds b (· ∈ inputs.flatMap fun i => i.2.1.flatMap Expr.written) (cogroup label inputs) := by
  refine draws_get.next fun b' hb => ?_
  rw [hb]
  refine (draws_lift _).next fun nodes hnodes => (draws_lift _).next fun _ _ => ?_
  obtain ⟨k, hk⟩ := draws_groupType (b := b) ((nodes.map Node.schema).head?.getD [])
    ((inputs.map fun i => i.2.1).head?.getD [])
  refine hk.bind fun type ⟨hparts, htype⟩ => ?_
  refine (makes_field "group" type _).bind fun group ⟨hgroup, hgtype⟩ => ?_
  rw [drawing_drawing]
  refine (draws_mapM Prod.snd (fun _ _ => True)
    fun x _ => makes_draw fun u => ⟨rfl, trivial⟩).bind fun bags hbags => ?_
  rw [drawing_drawing]
  subst hgtype
  -- The parts of the group, the group and the bags are drawn in this order.
  have hcreated : (Operator.cogroup ⟨inputs.map fun i => i.2.1, inputs.map fun i => i.2.2, group,
      bags⟩).created = b.uids.upcoming (k + 1 + nodes.zipIdx.length) := by
    unfold Operator.created
    simp only
    rw [hparts, hgroup, hbags.1, UidSource.upcoming_add, UidSource.upcoming_add, List.append_assoc]
    rfl
  refine adds_add _ (by rw [hcreated]) fun u hu => ?_
  rcases htype u hu with hu | hu | hu
  · rw [hcreated, UidSource.upcoming_add, UidSource.upcoming_add]
    exact Or.inl (List.mem_append_left _ (List.mem_append_left _ hu))
  · refine Or.inr (Or.inl ?_)
    cases nodes with
    | nil => simp [Schema.identities] at hu
    | cons n rest =>
      obtain ⟨e, -, hn⟩ := mem_of_right (mapM_ok.mp hnodes) (List.mem_cons_self ..)
      exact ⟨n, List.mem_of_getElem? (Plan.node_ok.mp hn), hu⟩
  · refine Or.inr (Or.inr ?_)
    cases inputs with
    | nil => simp at hu
    | cons i rest => exact List.mem_flatMap.mpr ⟨i, List.mem_cons_self .., hu⟩

/-- A union whose fields have the types of input fields. -/
theorem adds_addUnion {label : String} {edges : List Edge} {schemas : List Schema}
    {fields : List Field} {mappings : List (List (Option Nat))} {count : Nat}
    (hschemas : b.plan.edgeSchemas edges = .ok schemas)
    (huids : fields.map Field.uid = b.uids.upcoming count)
    (htypes : ∀ f ∈ fields, ∃ g ∈ schemas.flatten, f.type = g.type) :
    Ends (b.drawing count) (fun _ b' => ∃ n count, b.Gains (fun _ => False) n count b')
      (addUnion label edges ⟨fields, mappings⟩) := by
  refine @ends_unless _ _ _ _ _ _ (fun _ => _) fun _ => adds_add _ (by rw [← huids]; rfl) ?_
  intro u hu
  obtain ⟨f, hf, hu⟩ := List.mem_flatMap.mp hu
  obtain ⟨g, hg, heq⟩ := htypes f hf
  obtain ⟨s, hs, hg⟩ := List.mem_flatten.mp hg
  rw [heq] at hu
  exact Or.inr (Or.inl (holds_of_edgeSchemas hschemas hs (Schema.identities_of_mem hg hu)))

theorem adds_union (label : String) (inputs : List Edge) :
    Adds b (fun _ => False) (union label inputs) := by
  refine (draws_edgeSchemas inputs).next fun schemas hschemas => ?_
  refine (draws_mapM Field.uid
    (fun _ f => ∃ g ∈ schemas.flatten, f.type = g.type) fun q _ b' => ?_).bind
    fun fields hfields => adds_addUnion hschemas hfields.1 fun f hf => ?_
  · split
    · rename_i g hg
      obtain ⟨s, hs, hg⟩ := List.exists_of_findSome?_eq_some hg
      exact (makes_field g.name g.type b').mono fun f hf =>
        ⟨hf.1, g, List.mem_flatten.mpr ⟨s, hs, List.mem_of_getElem? hg⟩, hf.2⟩
    · exact ⟨0, rfl⟩
  · obtain ⟨_, -, h⟩ := mem_of_right hfields.2 hf
    exact h

theorem mem_firstByName {fs : List Field} {f : Field} (h : f ∈ firstByName fs) : f ∈ fs := by
  induction fs with
  | nil => exact h
  | cons g fs ih =>
    rcases List.mem_cons.mp h with rfl | h
    · exact List.mem_cons_self ..
    · exact List.mem_cons_of_mem _ (ih (List.mem_filter.mp h).1)

theorem adds_unionByName (label : String) (inputs : List Edge) :
    Adds b (fun _ => False) (unionByName label inputs) := by
  refine (draws_edgeSchemas inputs).next fun schemas hschemas => ?_
  refine (draws_mapM Field.uid (fun f g => g.type = f.type)
    fun f _ => makes_field f.name f.type).bind
    fun fields hfields => adds_addUnion hschemas hfields.1 fun f hf => ?_
  obtain ⟨g, hg, heq⟩ := mem_of_right hfields.2 hf
  exact ⟨g, mem_firstByName hg, heq⟩

end Builder

end Dataflow
