import Dataflow.Requirement.Origin

/-!
# The scope of a plan

Whatever is demanded in a plan is named in the plan: a position is one of the
fields of the node it is demanded of, an identity stands in the schema of some
node, and a key is looked up by some expression, or was known before. A `Scope`
lists these identities and keys. The main statement,
`Plan.inputDemands_within`, is that the demands of a node stay within every
scope that covers the plan.
-/

namespace Dataflow

/-- Identities and keys that can be demanded. -/
structure Scope where
  uids : List Uid
  keys : List String

def Tracker.keys (t : Tracker String) : List String :=
  t.entries.flatMap fun e => e.2.keys?.getD []

/-- What can be demanded in a plan, starting from some trackers. -/
def Plan.scope (p : Plan) (t : Trackers) : Scope where
  uids := p.nodes.flatMap fun n => Schema.deepUids n.schema
  keys := (p.nodes.flatMap fun n => n.op.expressions.flatMap fun e => e.2.lookupKeys) ++
    t.mapKeys.keys

/-- Every identity of a schema is in scope. -/
def Schema.InScope (c : Scope) (s : Schema) : Prop := ∀ u ∈ Schema.deepUids s, u ∈ c.uids

/-- A finding about a field in scope, and about parts in scope. -/
def PartDemand.InScope (c : Scope) : PartDemand → Prop
  | .mapKey u k => u ∈ c.uids ∧ k ∈ c.keys
  | .allKeys u => u ∈ c.uids
  | .bagColumns u cs => u ∈ c.uids ∧ ∀ x ∈ cs, x ∈ c.uids
  | .allColumns u => u ∈ c.uids

/-- A scope that covers a plan has every identity in the schemas of its nodes,
and every key that an expression of its nodes looks up. -/
structure Scope.Covers (c : Scope) (p : Plan) : Prop where
  schemas : ∀ n ∈ p.nodes, Schema.InScope c n.schema
  lookups : ∀ n ∈ p.nodes, ∀ e ∈ n.op.expressions, ∀ k ∈ e.2.lookupKeys, k ∈ c.keys

theorem Plan.scope_covers (p : Plan) (t : Trackers) : (p.scope t).Covers p where
  schemas n hn _ hu := List.mem_flatMap.mpr ⟨n, hn, hu⟩
  lookups n hn e he _ hk :=
    List.mem_append_left _ (List.mem_flatMap.mpr ⟨n, hn, List.mem_flatMap.mpr ⟨e, he, hk⟩⟩)

theorem Tracker.mem_keys {t : Tracker String} {u : Uid} {s : KeySet String}
    (h : t.get? u = some s) : ∀ ks, s = .only ks → ∀ k ∈ ks, k ∈ t.keys := by
  intro ks hs k hk
  subst hs
  obtain ⟨es⟩ := t
  induction es with
  | nil => cases h
  | cons e es ih =>
    obtain ⟨v, r⟩ := e
    simp only [get?, lookup_cons_if] at h ih
    by_cases huv : u = v
    · rw [if_pos huv] at h
      cases h
      exact List.mem_flatMap.mpr ⟨_, List.mem_cons_self .., hk⟩
    · rw [if_neg huv] at h
      obtain ⟨e, he, hke⟩ := List.mem_flatMap.mp (ih h)
      exact List.mem_flatMap.mpr ⟨e, List.mem_cons_of_mem _ he, hke⟩

/-- The keys known at the start are in scope. -/
theorem Plan.among_scope (p : Plan) (t : Trackers) : t.mapKeys.Among (p.scope t).keys :=
  fun _ _ h ks hs k hk => List.mem_append_right _ (Tracker.mem_keys h ks hs k hk)

/-! ## Trackers in scope -/

namespace Trackers

/-- What can still be recorded, in a scope. -/
def room (t : Trackers) (c : Scope) : Nat :=
  t.mapKeys.room c.uids c.keys + t.bagColumns.room c.uids c.uids

/-- A finding leaves less room if it changes anything. -/
theorem apply_room {t : Trackers} {c : Scope} {d : PartDemand} (hd : d.InScope c) :
    (t.apply d).1.room c + (t.apply d).2.toNat ≤ t.room c := by
  cases d with
  | mapKey u k =>
    by_cases ht : t.trackKeys = true
    · have := t.mapKeys.update_room c.keys (fun s => s.insert k) (.only [k]) hd.1
        fun s => KeySet.insert_room hd.2
      simp only [apply, ht, if_true, withMapKeys, room, Tracker.require]
      omega
    · simp [apply, ht]
  | allKeys u =>
    by_cases ht : t.trackKeys = true
    · have := t.mapKeys.update_room c.keys KeySet.setAll .all hd fun s => KeySet.setAll_room
      simp only [apply, ht, if_true, withMapKeys, room, Tracker.requireAll]
      omega
    · simp [apply, ht]
  | bagColumns u cs =>
    have := t.bagColumns.update_room c.uids (fun s => s.merge (.ofList cs)) (.ofList cs) hd.1
      fun s => KeySet.merge_room (KeySet.ofList_among hd.2)
    simp only [apply, withBagColumns, room, Tracker.merge]
    omega
  | allColumns u =>
    have := t.bagColumns.update_room c.uids KeySet.setAll .all hd fun s => KeySet.setAll_room
    simp only [apply, withBagColumns, room, Tracker.requireAll]
    omega

/-- A finding in scope records keys in scope only. -/
theorem apply_among {t : Trackers} {c : Scope} {d : PartDemand} (hd : d.InScope c)
    (ht : t.mapKeys.Among c.keys) : (t.apply d).1.mapKeys.Among c.keys := by
  cases d with
  | mapKey u k =>
    by_cases hk : t.trackKeys = true
    · simp only [apply, hk, if_true, withMapKeys, Tracker.require]
      exact Tracker.update_among ht (fun s hs => KeySet.insert_among hs hd.2)
        (KeySet.among_only fun x hx => by rw [List.mem_singleton.mp hx]; exact hd.2)
    · simpa [apply, hk] using ht
  | allKeys u =>
    by_cases hk : t.trackKeys = true
    · simp only [apply, hk, if_true, withMapKeys, Tracker.requireAll]
      exact Tracker.update_among ht (fun s _ => by cases s <;> exact KeySet.among_all)
        KeySet.among_all
    · simpa [apply, hk] using ht
  | bagColumns u cs => exact ht
  | allColumns u => exact ht

end Trackers

/-! ## Demands in scope -/

/-- A demand on a schema that stays within it and within a scope. -/
structure Demand.Within (c : Scope) (s : Schema) (d : Demand) : Prop where
  fields : d.fields.Below s.length
  parts : ∀ x ∈ d.parts, x.InScope c

/-- What is about a schema in scope is in scope. -/
theorem PartDemand.About.inScope {c : Scope} {s : Schema} (hs : Schema.InScope c s) {d : PartDemand}
    (h : d.About (· ∈ c.keys) s) : d.InScope c := by
  cases d with
  | mapKey u k =>
    obtain ⟨⟨f, hf, rfl, -⟩, hk⟩ := h
    exact ⟨hs _ (Schema.uid_mem_deepUids hf), hk⟩
  | allKeys u => exact hs u h
  | bagColumns u cs => exact ⟨hs u h.1, fun x hx => hs x (h.2 x hx)⟩
  | allColumns u => exact hs u h

theorem Demand.About.within {c : Scope} {s : Schema} (hs : Schema.InScope c s) {d : Demand}
    (h : d.About (· ∈ c.keys) s) : d.Within c s :=
  ⟨h.fields, fun x hx => (h.parts x hx).inScope hs⟩

namespace Demand

def AllWithin (c : Scope) (inputs : List Schema) (ds : List Demand) : Prop :=
  ∀ (i : Nat) (d : Demand), ds[i]? = some d → ∃ s, inputs[i]? = some s ∧ d.Within c s

/-- The demands of an operator stay within its inputs and within scope. -/
theorem ofOperator_within {c : Scope} {name : String} {trackers : Trackers} {op : Operator}
    {inputs : List Schema} {required : List Nat} {ds : List Demand}
    (hs : ∀ s ∈ inputs, Schema.InScope c s)
    (hkeys : ∀ e ∈ op.expressions, ∀ k ∈ e.2.lookupKeys, k ∈ c.keys)
    (ht : trackers.mapKeys.Among c.keys)
    (hds : ofOperator name trackers op inputs required = .ok ds) : AllWithin c inputs ds := by
  intro i d hd
  have hlists : trackers.Lists (· ∈ c.keys) := fun u ks h => ht u _ h ks rfl
  obtain ⟨s, hi, habout⟩ := ofOperator_about hkeys hlists hds i d hd
  exact ⟨s, hi, habout.within (hs s (List.mem_of_getElem? hi))⟩

end Demand

/-! ## Plans -/

namespace Plan

/-- What a node demands along an edge is a demand on the node that the edge
leads to, and stays within every scope that covers the plan and what is known
already. -/
theorem inputDemands_within {p : Plan} {c : Scope} {trackers : Trackers} (hc : c.Covers p)
    (ht : trackers.mapKeys.Among c.keys) {id : Nat} {n : Node} (hn : p.node id = .ok n)
    {r : Required} {ds : List Demand} (hds : p.inputDemands id r trackers = .ok ds)
    {e : Edge} {d : Demand} (h : (e, d) ∈ n.inputs.zip ds) :
    ∃ m, p.nodes[e.node]? = some m ∧ d.Within c m.schema := by
  obtain ⟨n', hn', hds⟩ := bind_ok hds
  obtain rfl : n = n' := by rw [hn] at hn'; cases hn'; rfl
  obtain ⟨inputs, hinputs, hds⟩ := bind_ok hds
  obtain ⟨natural, _, hds⟩ := bind_ok hds
  obtain ⟨r', _, hds⟩ := bind_ok hds
  obtain ⟨required, _, hds⟩ := bind_ok hds
  obtain ⟨n', hn', hinputs⟩ := bind_ok hinputs
  obtain rfl : n = n' := by rw [hn] at hn'; cases hn'; rfl
  have hs : ∀ s ∈ inputs, Schema.InScope c s := fun s hs => by
    obtain ⟨x, _, hx⟩ := mem_of_mapM_ok hinputs hs
    obtain ⟨m, hm, rfl⟩ := schemaOf_ok.mp hx
    exact hc.schemas m (List.mem_of_getElem? hm)
  have hw := Demand.ofOperator_within hs
    (hc.lookups n (List.mem_of_getElem? (node_ok.mp hn))) ht hds
  obtain ⟨i, hi⟩ := List.mem_iff_getElem?.mp h
  obtain ⟨he, hd⟩ := List.getElem?_zip_eq_some.mp hi
  obtain ⟨s, hsi, hwithin⟩ := hw i d hd
  obtain ⟨x, hx, hschema⟩ := getElem?_of_mapM_ok hinputs hsi
  rw [he] at hx
  cases hx
  obtain ⟨m, hm, rfl⟩ := schemaOf_ok.mp hschema
  exact ⟨m, hm, hwithin⟩

end Plan

end Dataflow
