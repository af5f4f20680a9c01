import Dataflow.Proofs.Requirement.Closure

/-!
# Keys are asked of maps

A single key is demanded in two places: by an expression that looks the key up in
a map, and by a union that passes on what is known about its output to an input
field that is a map. Everything else reads fields whole or not at all. So the
fields of which an analysis lists keys are maps that some node exposes
(`Plan.keyed_of_solve`), though a field that is no map may share their identity.
-/

namespace Dataflow

variable {maps : Uid → Prop}

/-- A demand of a single key is about one of the given identities. -/
def PartDemand.Keyed (maps : Uid → Prop) : PartDemand → Prop
  | .mapKey u _ => maps u
  | _ => True

/-- The maps of a schema are among the given identities. -/
def Schema.MapsIn (maps : Uid → Prop) (s : Schema) : Prop :=
  ∀ f ∈ s, f.type.isMap = true → maps f.uid

/-- Keys are asked of the maps of a schema, whichever they are. -/
theorem PartDemand.About.keyed {keys : String → Prop} {s : Schema} (hs : s.MapsIn maps)
    {d : PartDemand} (h : d.About keys s) : d.Keyed maps := by
  cases d with
  | mapKey u k =>
    obtain ⟨⟨f, hf, rfl, hmap⟩, -⟩ := h
    exact hs f hf hmap
  | _ => trivial

theorem Schema.wholeDemands_keyed {s : Schema} (hs : s.MapsIn maps) :
    ∀ d ∈ Schema.wholeDemands s, d.Keyed maps := by
  intro d hd
  have h : d.About (fun _ => True) s := Schema.wholeDemands_about s (fun _ hu => hu) d hd
  exact h.keyed hs

/-- All demands of single keys are about the given identities. -/
def Demand.Keyed (maps : Uid → Prop) (d : Demand) : Prop := ∀ x ∈ d.parts, x.Keyed maps

theorem Demand.keyed_ofOperator {name : String} {trackers : Trackers} {op : Operator}
    {inputs : List Schema} {required : List Nat} {ds : List Demand}
    (hs : ∀ s ∈ inputs, Schema.MapsIn maps s)
    (hds : ofOperator name trackers op inputs required = .ok ds) : ∀ d ∈ ds, d.Keyed maps := by
  intro d hd x hx
  have hall : AllAbout (fun _ => True) inputs ds :=
    ofOperator_about (fun _ _ _ _ => trivial) (fun _ _ _ _ _ => trivial) hds
  obtain ⟨i, hi⟩ := List.mem_iff_getElem?.mp hd
  obtain ⟨s, hsi, habout⟩ := hall i d hi
  exact (habout.parts x hx).keyed (hs s (List.mem_of_getElem? hsi))

/-! ## Findings -/

/-- Keys are listed of the given identities only. -/
def Trackers.Keyed (maps : Uid → Prop) (t : Trackers) : Prop :=
  ∀ u ks, t.mapKeys.get? u = some (.only ks) → maps u

theorem Trackers.Keyed.apply {t : Trackers} (ht : t.Keyed maps) {d : PartDemand}
    (hd : d.Keyed maps) : (t.apply d).1.Keyed maps := by
  intro u ks hu
  cases d with
  | bagColumns | allColumns => exact ht u ks hu
  | mapKey v k =>
    simp only [Trackers.apply] at hu
    split at hu
    · rw [withMapKeys, Tracker.require, Tracker.get?_update] at hu
      split at hu
      · rename_i heq
        rw [heq]
        exact hd
      · exact ht u ks hu
    · exact ht u ks hu
  | allKeys v =>
    simp only [Trackers.apply] at hu
    split at hu
    · rw [withMapKeys, Tracker.requireAll, Tracker.get?_update] at hu
      split at hu
      · -- A field that is read whole has no list of keys.
        split at hu
        · rename_i s _
          cases s <;> cases hu
        · cases hu
      · exact ht u ks hu
    · exact ht u ks hu

namespace Solver

variable {p : Plan}

theorem absorbParts_keyed {ds : List PartDemand} (hds : ∀ d ∈ ds, d.Keyed maps) {s : State}
    (hs : s.trackers.Keyed maps) : (absorbParts p s ds).1.trackers.Keyed maps := by
  induction ds generalizing s with
  | nil => exact hs
  | cons d ds ih =>
    simp only [absorbParts]
    refine ih (fun x hx => hds x (List.mem_cons_of_mem _ hx)) ?_
    split
    · exact hs.apply (hds d (List.mem_cons_self ..))
    · exact hs

theorem absorb_keyed {s : State} (hs : s.trackers.Keyed maps) {d : Demand} (hd : d.Keyed maps)
    (input : Nat) : (absorb p s input d).trackers.Keyed maps := by
  have h : (mergeDemand p s input d).1.trackers.Keyed maps := absorbParts_keyed hd hs
  unfold absorb
  simp only
  split <;> exact h

theorem absorbAll_keyed {pairs : List (Edge × Demand)} (h : ∀ x ∈ pairs, x.2.Keyed maps) {s : State}
    (hs : s.trackers.Keyed maps) :
    (pairs.foldl (fun s (e, d) => absorb p s e.node d) s).trackers.Keyed maps := by
  induction pairs generalizing s with
  | nil => exact hs
  | cons x pairs ih =>
    exact ih (fun y hy => h y (List.mem_cons_of_mem _ hy))
      (absorb_keyed hs (h x (List.mem_cons_self ..)) _)

theorem visit_keyed (hp : ∀ n ∈ p.nodes, Schema.MapsIn maps n.schema) {retain : Bool} {id : Nat}
    {s s' : State} (hs : s.trackers.Keyed maps) (h : visit p retain s id = .ok s') :
    s'.trackers.Keyed maps := by
  obtain ⟨n, ds, -, hds, rfl⟩ := visit_ok.mp h
  obtain ⟨n', -, hds⟩ := bind_ok hds
  obtain ⟨inputs, hinputs, hds⟩ := bind_ok hds
  obtain ⟨natural, -, hds⟩ := bind_ok hds
  obtain ⟨r, -, hds⟩ := bind_ok hds
  obtain ⟨required, -, hds⟩ := bind_ok hds
  have hschemas : ∀ s ∈ inputs, Schema.MapsIn maps s := fun s hs => by
    obtain ⟨n'', -, hinputs⟩ := bind_ok hinputs
    obtain ⟨e, -, he⟩ := mem_of_mapM_ok hinputs hs
    obtain ⟨m, hm, rfl⟩ := Plan.schemaOf_ok.mp he
    exact hp m (List.mem_of_getElem? hm)
  refine absorbAll_keyed (fun x hx => ?_) ?_
  · exact Demand.keyed_ofOperator hschemas hds x.2 (List.of_mem_zip hx).2
  · rw [(retaining_pending retain n id s).2]
    exact hs

theorem reaches_keyed (hp : ∀ n ∈ p.nodes, Schema.MapsIn maps n.schema) {retain : Bool}
    {s s' : State} (h : Reaches p retain s s') (hs : s.trackers.Keyed maps) :
    s'.trackers.Keyed maps := by
  induction h with
  | done => exact hs
  | @visit s _ _ _ rest _ hvisit _ ih =>
    exact ih (visit_keyed hp (s := { s with pending := rest }) hs hvisit)

theorem start_keyed (hp : ∀ n ∈ p.nodes, Schema.MapsIn maps n.schema) {t : Trackers}
    (ht : t.Keyed maps) : (start p t).trackers.Keyed maps := by
  have happly : ∀ (ds : List PartDemand) (t : Trackers), (∀ d ∈ ds, d.Keyed maps) → t.Keyed maps →
      (t.applyAll ds).Keyed maps := by
    intro ds
    induction ds with
    | nil => exact fun t _ ht => ht
    | cons d ds ih =>
      exact fun t hds ht => ih _ (fun x hx => hds x (List.mem_cons_of_mem _ hx))
        (ht.apply (hds d (List.mem_cons_self ..)))
  have hmain : ∀ (ids : List Nat) (t : Trackers), t.Keyed maps →
      (ids.foldl (fun t id => t.applyAll
        (((p.nodes[id]?).map fun n => Schema.wholeDemands n.schema).getD [])) t).Keyed maps := by
    intro ids
    induction ids with
    | nil => exact fun t ht => ht
    | cons id ids ih =>
      refine fun t ht => ih _ (happly _ t (fun d hd => ?_) ht)
      cases hn : p.nodes[id]? with
      | none => rw [hn] at hd; cases hd
      | some n =>
        rw [hn] at hd
        exact Schema.wholeDemands_keyed (hp n (List.mem_of_getElem? hn)) d hd
  exact hmain p.sinks t ht

end Solver

/-- An analysis lists keys of maps that some node exposes. -/
theorem Plan.keyed_of_solve {p : Plan} {track retain : Bool} {r : Requirements}
    (h : p.solve (.empty track) retain = .ok r) :
    r.trackers.Keyed fun u => ∃ n ∈ p.nodes, ∃ f ∈ n.schema, f.uid = u ∧ f.type.isMap = true := by
  obtain ⟨s, hreach, rfl⟩ := reaches_of_solve h
  have hmaps : ∀ n ∈ p.nodes, Schema.MapsIn
      (fun u => ∃ n ∈ p.nodes, ∃ f ∈ n.schema, f.uid = u ∧ f.type.isMap = true) n.schema :=
    fun n hn f hf hmap => ⟨n, hn, f, hf, rfl, hmap⟩
  exact Solver.reaches_keyed hmaps hreach (Solver.start_keyed hmaps nofun)

end Dataflow
