import Dataflow.Execution.Reader
import Dataflow.Proofs.Prune.Exposures
import Dataflow.Proofs.Requirement.Keyed

/-!
# What sources are asked for

A run that succeeds has asked every source that can skip fields once, in the order
of the plan, for the positions that its load still exposes and with the keys that
are recorded on the load (`Plan.prune_requests`).

Positions and keys are computed twice, for the offer and for the report. The report
lists keys of maps only, while the offer goes by identities; the two agree as long as
no map that a node exposes shares its identity with an exposed field that is none.

Both can fail, but not after the second check. So a run that fails has asked nobody
and has recorded nothing.
-/

namespace Dataflow

open List (Forall₂)

/-! ## Requests -/

/-- Whether a node is a load whose source can be asked for a projection. -/
def Node.asks (n : Node) : Bool :=
  n.source?.any fun s => s.reader.any fun r => r.answer?.isSome

/-- The map keys of the fields in a projection, by position. -/
def Projection.keys (r : Projection) : MapKeys :=
  r.fields.filterMap fun f => f.mapKeys.map fun ks => (f.index, ks)

/-- A request for what a load exposes: its positions in ascending order, each by the
name that the source has for it, with the keys that are recorded on the load. -/
structure Node.Requests (n : Node) (o : Offer) : Prop where
  reader : ∃ s r, n.source? = some s ∧ s.reader = some r ∧ o.reader = r.id
  ascending : n.exposed.Pairwise (· < ·)
  positions : o.projection.fields.map RequiredField.index = n.exposed
  names : ∀ s, n.source? = some s → ∀ f ∈ o.projection.fields,
    (s.schema[f.index]?).map Field.name = some f.label
  keys : ∀ l, n.op = .load l → o.projection.keys = l.mapKeys.getD []

/-- No map that a node exposes shares its identity with an exposed field that is
none. -/
def Plan.ExposesMapsApart (p : Plan) : Prop :=
  ∀ n ∈ p.nodes, ∀ m ∈ p.nodes, ∀ f ∈ n.schema, ∀ g ∈ m.schema,
    f.uid = g.uid → f.type.isMap = g.type.isMap

instance (p : Plan) : Decidable p.ExposesMapsApart :=
  inferInstanceAs (Decidable (∀ n ∈ p.nodes, ∀ m ∈ p.nodes, ∀ f ∈ n.schema, ∀ g ∈ m.schema, _ → _))

/-! ## Offers -/

namespace Pushdown

variable {mapKeys : Option (Tracker String)} {n n' : Node} {o : Offers}

structure Offered (mapKeys : Option (Tracker String)) (n : Node) (o : Offer) : Prop where
  made : ∃ l reader, n.op = .load l ∧ l.source.reader = some reader ∧ o.reader = reader.id ∧
    projectionOf l n.exposed mapKeys = .ok o.projection

/-- A source is offered one projection if it can be asked, and none else. -/
theorem offerNode_offers {id : Nat} (h : offerNode id n mapKeys = .ok (n', o)) :
    Forall₂ (Offered mapKeys) ([n].filter Node.asks) o.offers := by
  unfold offerNode at h
  split at h
  on_goal 2 =>
    rename_i hother
    cases h
    rw [List.filter_cons_of_neg]
    · exact .nil
    · unfold Node.asks Node.source?
      split
      · rename_i l hl; exact absurd hl (hother l)
      · simp
  rename_i l hl
  have hasks : n.asks = l.source.reader.any fun r => r.answer?.isSome := by
    rw [Node.asks, Node.source?_load hl, Option.any_some]
  split at h
  · rename_i reader hr
    rw [hr, Option.any_some] at hasks
    unfold offerLoad at h
    simp only at h
    split at h
    · rename_i hnone
      cases h
      rw [List.filter_cons_of_neg (by rw [hasks, hnone]; decide)]
      exact .nil
    · rename_i answer hanswer
      obtain ⟨projection, hproj, h⟩ := bind_ok h
      cases h
      rw [List.filter_cons_of_pos (by rw [hasks, hanswer]; rfl)]
      exact .cons ⟨l, reader, hl, hr, rfl, hproj⟩ .nil
  · rename_i hr
    cases h
    rw [List.filter_cons_of_neg (by rw [hasks, hr]; decide)]
    exact .nil

theorem offerNodes_offers {id : Nat} {nodes nodes' : List Node} {os : Offers}
    (h : offerNodes mapKeys id nodes = (nodes', os, .ok ())) :
    Forall₂ (Offered mapKeys) (nodes.filter Node.asks) os.offers := by
  induction nodes generalizing id nodes' os with
  | nil => cases h; exact .nil
  | cons n rest ih =>
    obtain ⟨n', o, nodes₁, os₁, ho, hrest, rfl, rfl⟩ := offerNodes_cons h
    rw [← List.singleton_append, List.filter_append]
    exact List.rel_append (offerNode_offers ho) (ih hrest)

/-- The fields of a projection. -/
theorem projectionOf_ok {l : Load} {exposed : List Nat} {r : Projection} :
    projectionOf l exposed mapKeys = .ok r ↔
      Forall₂ (fun p f => ∃ g, l.source.schema[p]? = some g ∧
        f = ⟨p, g.name, mapKeys.bind fun t => t.narrowed? g.uid⟩) exposed r.fields := by
  have hstep : ∀ (p : Nat) (f : RequiredField), (do
      let g ← l.source.schema.fieldAt p
      return ⟨p, g.name, mapKeys.bind fun t => t.narrowed? g.uid⟩ : Except Error _) = .ok f ↔
      ∃ g, l.source.schema[p]? = some g ∧
        f = ⟨p, g.name, mapKeys.bind fun t => t.narrowed? g.uid⟩ := by
    intro p f
    constructor
    · intro h
      obtain ⟨g, hg, h⟩ := bind_ok h
      cases h
      exact ⟨g, Schema.fieldAt_ok.mp hg, rfl⟩
    · rintro ⟨g, hg, rfl⟩
      rw [Schema.fieldAt_ok.mpr hg]
      rfl
  constructor
  · intro h
    obtain ⟨fields, hfields, h⟩ := bind_ok h
    cases h
    exact (mapM_ok.mp hfields).imp fun p f => (hstep p f).mp
  · intro h
    unfold projectionOf
    rw [mapM_ok.mpr (h.imp fun p f => (hstep p f).mpr)]
    rfl

end Pushdown

/-- The keys that are offered are the ones that the report finds, if keys are known
of maps only. -/
theorem Diagnostics.keysOf_projection {l : Load} {exposed : List Nat}
    {mapKeys : Option (Tracker String)} {r : Projection} {keys : Option MapKeys}
    (hasc : exposed.Pairwise (· < ·))
    (hmaps : ∀ t, mapKeys = some t → ∀ p ∈ exposed, ∀ f, l.source.schema[p]? = some f →
      ∀ ks, t.narrowed? f.uid = some ks → f.type.isMap = true)
    (hoffer : Pushdown.projectionOf l exposed mapKeys = .ok r)
    (hkeys : keysOf l.source.schema exposed mapKeys = .ok keys) : r.keys = keys.getD [] := by
  have hfields := Pushdown.projectionOf_ok.mp hoffer
  cases mapKeys with
  | none =>
    cases hkeys
    refine List.filterMap_eq_nil_iff.mpr fun f hf => ?_
    obtain ⟨p, -, g, -, rfl⟩ := mem_of_right hfields hf
    rfl
  | some t =>
    obtain ⟨found, hfound, hkeys⟩ := bind_ok hkeys
    have hsame : narrowedKeys l.source.schema exposed t = .ok r.keys := by
      unfold narrowedKeys
      rw [ascending_eq hasc]
      have hall : Forall₂ (fun p x => (do
          let f ← l.source.schema.fieldAt p
          if f.type.isMap then return (t.narrowed? f.uid).map fun ks => (p, ks)
          else return none) = Except.ok x) exposed
          (r.fields.map fun f => f.mapKeys.map fun ks => (f.index, ks)) := by
        rw [List.forall₂_map_right_iff]
        refine ((List.forall₂_and_left _ _).mpr ⟨hmaps t rfl, hfields⟩).imp ?_
        rintro p f ⟨hp, g, hg, rfl⟩
        rw [Schema.fieldAt_ok.mpr hg]
        show (if g.type.isMap = true then pure _ else pure _ : Except Error _) = _
        split
        · rfl
        · rename_i hno
          -- Without a map there are no keys.
          cases hks : t.narrowed? g.uid with
          | none => rw [Option.bind_some, hks]; rfl
          | some ks => exact absurd (hp g hg ks hks) hno
      rw [mapM_ok.mpr hall]
      show Except.ok _ = _
      rw [List.filterMap_map]
      rfl
    rw [hfound] at hsame
    cases hsame
    cases hkeys
    split
    · rename_i hempty; exact List.isEmpty_iff.mp hempty
    · rfl

/-! ## Runs that fail -/

/-- A node that is the same load before and after, or none. -/
def Node.SameLoad (n n' : Node) : Prop := ∀ l, n'.op = .load l ↔ n.op = .load l

namespace Plan

variable {p p' : Plan} {config : Config}

theorem projectNodes_sameLoad (required : List Required) (done : List Narrowed)
    (nodes : List Node) :
    Forall₂ Node.SameLoad nodes (projectNodes required done nodes).1 := by
  induction nodes generalizing done with
  | nil => exact .nil
  | cons n rest ih =>
    rw [projectNodes]
    split
    · exact List.forall₂_same.mpr fun _ _ _ => Iff.rfl
    · rename_i proj hproj
      refine .cons (fun l => ?_) (ih _)
      obtain ⟨keep, ins, hstep⟩ := projectNode_ok hproj
      exact ⟨Projected.load_of_ofAny hstep.ok, fun hl => (Projected.exposed_of_load hl hstep.ok).1⟩

/-- A run that fails has asked no source and has recorded nothing on a load. -/
theorem failed_of_prune {failure : Failure} (h : (p.prune config).result = .error failure) :
    (p.prune config).offers = [] ∧ Forall₂ Node.SameLoad p.nodes (p.prune config).plan.nodes := by
  have hsame : Forall₂ Node.SameLoad p.nodes p.nodes := List.forall₂_same.mpr fun _ _ _ => Iff.rfl
  have hproject : ∀ {required : List Required} {p' : Plan} {result : Except Failure Bool},
      p.project required = (p', result) → Forall₂ Node.SameLoad p.nodes p'.nodes := by
    intro required p' result h
    have hnodes := projectNodes_sameLoad required [] p.nodes
    rw [show (projectNodes required [] p.nodes).1 = p'.nodes from
      congrArg (fun x => x.1.nodes) h] at hnodes
    exact hnodes
  unfold prune at h ⊢
  cases hcheck : p.check with
  | error e => exact ⟨rfl, hsame⟩
  | ok =>
    simp only [hcheck] at h ⊢
    cases hsolve : p.solve (.empty config.mapKeys) config.retainOne with
    | error e => exact ⟨rfl, hsame⟩
    | ok r =>
      simp only [hsolve] at h ⊢
      cases hproj : p.project r.required with
      | mk p' result =>
        cases result with
        | error e => exact ⟨rfl, hproject hproj⟩
        | ok changed =>
          simp only [hproj] at h ⊢
          cases hcheck' : p'.check with
          | error e => exact ⟨rfl, hproject hproj⟩
          | ok =>
            -- Nothing can fail any more.
            simp only [hcheck'] at h
            have hlt : ∀ x ∈ Diagnostics.exposures p, x.1 < p'.nodes.length := fun x hx => by
              rw [← (hproject hproj).length_eq]
              exact exposures_bounded (inPlace_of_check hcheck) hx
            obtain ⟨outcome, hok⟩ := exists_finishPrune hlt (exposesSource_of_check hcheck')
            rw [hok] at h
            cases h

/-! ## Runs that succeed -/

/-- Of the fields that a load of a pruned plan exposes, keys are known of maps only. -/
theorem isMap_of_narrowed {r : Requirements} (hcheck : p.check = .ok ())
    (hmaps : p.ExposesMapsApart) (hsolve : p.solve (.empty config.mapKeys) config.retainOne = .ok r)
    {n : Node} (hn : n ∈ p.nodes) {l : Load} (hl : n.op = .load l) {q : Nat} (hq : q ∈ n.exposed)
    {f : Field} (hf : l.source.schema[q]? = some f) {ks : List String}
    (hks : r.trackers.mapKeys.narrowed? f.uid = some ks) : f.type.isMap = true := by
  obtain ⟨f', hf', hsame⟩ := mem_of_left (exposes_of_load hcheck hn hl) hq
  rw [hf] at hsame
  cases hsame
  obtain ⟨m, hm, g, hg, huid, hmap⟩ := keyed_of_solve hsolve f.uid ks (Tracker.get?_of_narrowed hks)
  rw [hmaps n hn m hm f hf' g hg huid.symm]
  exact hmap

theorem asks_of_finished {t : Trackers} {n n' : Node} (h : n.Finished config t n') :
    n'.asks = n.asks := by
  rw [Node.asks, Node.asks, h.rerecorded.sheds.source]

/-- What a finished load asked for, in terms of what is recorded on it. -/
theorem requests_of_offered {t : Trackers} {n n' : Node} {o : Offer}
    (hoffer : Pushdown.Offered (config.tracked t) n o) (hfin : n.Finished config t n')
    (hasc : n'.exposed.Pairwise (· < ·))
    (hmaps : ∀ s, n'.source? = some s → ∀ q ∈ n'.exposed, ∀ f, s.schema[q]? = some f →
      ∀ ks, t.mapKeys.narrowed? f.uid = some ks → f.type.isMap = true) : n'.Requests o := by
  obtain ⟨l, reader, hl, hreader, hid, hproj⟩ := hoffer
  have hsource : n'.source? = some l.source :=
    hfin.rerecorded.sheds.source.trans (Node.source?_load hl)
  rw [← hfin.rerecorded.exposed_eq] at hproj
  have hfields := Pushdown.projectionOf_ok.mp hproj
  refine ⟨⟨l.source, reader, hsource, hreader, hid⟩, hasc, ?_, fun s hs f hf => ?_,
    fun l' hl' => ?_⟩
  · refine List.forall₂_eq_eq_eq ▸ List.forall₂_map_left_iff.mpr (hfields.flip.imp ?_)
    rintro f q ⟨g, -, rfl⟩
    rfl
  · cases hsource.symm.trans hs
    obtain ⟨q, -, g, hg, rfl⟩ := mem_of_right hfields hf
    rw [hg]
    rfl
  · have hsame : l'.source = l.source := by
      rw [Node.source?_load hl'] at hsource
      exact Option.some.inj hsource
    have hkeys := hfin.keys hl'
    rw [hsame] at hkeys
    refine Diagnostics.keysOf_projection hasc (fun tracker htracker => ?_) hproj hkeys
    unfold Config.tracked at htracker
    split at htracker
    · cases htracker
      exact hmaps l.source hsource
    · cases htracker

/-- With offers turned on, a run that succeeds has asked every source that can be
asked once, in the order of the plan, for what its load still exposes. A run that
fails has asked nobody and leaves every load as it was, whatever the plan is. -/
theorem prune_requests (hp : p.Made) (hmaps : p.ExposesMapsApart) (hpush : config.pushdown = true) :
    (∀ outcome, (p.prune config).result = .ok outcome →
      Forall₂ Node.Requests ((p.prune config).plan.nodes.filter Node.asks)
        (p.prune config).offers) ∧
    ∀ (p : Plan) (config : Config) (failure : Failure), (p.prune config).result = .error failure →
      (p.prune config).offers = [] ∧
        Forall₂ Node.SameLoad p.nodes (p.prune config).plan.nodes := by
  refine ⟨fun outcome h => ?_, fun p config failure h => failed_of_prune h⟩
  obtain ⟨r, p', changed, nodes, os, ds, hcheck, hsolve, hproject, -, hoffered, -, -, hoffers⟩ :=
    ended_of_prune h
  obtain ⟨r₀, p₀, changed₀, -, hsolve₀, hproject₀, -, -, hfin⟩ := finished_of_prune h
  cases hsolve.symm.trans hsolve₀
  cases hproject.symm.trans hproject₀
  have hsheds := sheds_of_prune h
  have hasc := hp.ascends.sheds hsheds
  unfold offered at hoffered
  rw [if_pos hpush] at hoffered
  have hoff := Pushdown.offerNodes_offers hoffered
  have hasks : Forall₂ (Node.Finished config r.trackers) (p'.nodes.filter Node.asks)
      ((p.prune config).plan.nodes.filter Node.asks) := by
    refine List.rel_filter (fun n n' hn => ?_) hfin
    show n.asks = true ↔ n'.asks = true
    rw [asks_of_finished hn]
  rw [hoffers]
  refine forall₂_of_getElem? (hasks.length_eq.symm.trans hoff.length_eq) fun i n'' o hn'' ho => ?_
  obtain ⟨n', hn', hf⟩ := getElem?_of_right hasks hn''
  obtain ⟨n₁, hn₁, hoffer⟩ := getElem?_of_right hoff ho
  cases hn'.symm.trans hn₁
  have hmem := (List.mem_filter.mp (List.mem_of_getElem? hn'')).1
  obtain ⟨n, hn, hs⟩ := mem_of_right hsheds hmem
  have hload : n.isLoad = true := by
    obtain ⟨l, -, hl, -⟩ := hoffer.made
    rw [← hs.isLoad, hf.rerecorded.sheds.isLoad]
    exact Node.isLoad_iff.mpr ⟨l, hl⟩
  refine requests_of_offered hoffer hf (hasc n'' hmem (hs.isLoad.trans hload))
    fun s hsource q hq f hfield ks hks => ?_
  obtain ⟨l, hl⟩ := Node.isLoad_iff.mp hload
  rw [hs.source, Node.source?_load hl] at hsource
  cases hsource
  exact isMap_of_narrowed hcheck hmaps hsolve hn hl ((hs.exposed hload).subset hq) hfield hks

end Plan

namespace Builder

/-- Visits from a source that skips fields, their users from one that cannot, and
pages from one that fails to. -/
def asked : Builder := empty
  |>.after (load "A" "visits" [⟨"user", .scalar .chararray, ⟨0⟩⟩, ⟨"page", .scalar .chararray, ⟨1⟩⟩,
      ⟨"facts", .map (.scalar .int), ⟨2⟩⟩] (some (.inMemory 0 .accepting)))
  |>.after (load "B" "users" [⟨"name", .scalar .chararray, ⟨3⟩⟩, ⟨"age", .scalar .int, ⟨4⟩⟩]
      (some (.inMemory 1 .unable)))
  |>.after (load "C" "pages" [⟨"rank", .scalar .int, ⟨5⟩⟩, ⟨"url", .scalar .chararray, ⟨6⟩⟩]
      (some (.inMemory 2 (.failing Reader.refusal))))
  |>.after (join "J" [(⟨0, none⟩, [.column 0]), (⟨1, none⟩, [.column 0]), (⟨2, none⟩, [.column 1])]
      .inner .hash)
  |>.after (forEach "F" ⟨3, none⟩ [(.lookup (.column 2) "lang", false)])

theorem asked_made : asked.plan.Made :=
  .built (b := asked) (.step (.step (.step (.step (.step .empty (.load ..)) (.load ..)) (.load ..))
    (.join ..)) (.forEach ..)) rfl

end Builder

/-- A load that is stored under a wrong number, with records of an earlier run. -/
def Plan.misplaced : Plan :=
  ⟨[⟨1, some "A", .load ⟨⟨"visits", [], some (.inMemory 0 .accepting)⟩, some [(0, ["lang"])],
    some .accepted⟩, [], [], none⟩]⟩

/-- Two of the three sources are asked, though one of them fails to answer; and a plan
that is not consistent is left alone. -/
theorem Plan.prune_requests_asked : Builder.asked.plan.ExposesMapsApart ∧
    (Builder.asked.plan.prune {}).offers =
      [⟨0, ⟨[⟨0, "user", none⟩, ⟨2, "facts", some ["lang"]⟩]⟩⟩, ⟨2, ⟨[⟨1, "url", none⟩]⟩⟩] ∧
    Forall₂ Node.Requests ((Builder.asked.plan.prune {}).plan.nodes.filter Node.asks)
      (Builder.asked.plan.prune {}).offers ∧
    (misplaced.prune {}).offers = [] ∧
    Forall₂ Node.SameLoad misplaced.nodes (misplaced.prune {}).plan.nodes := by
  have hapart : Builder.asked.plan.ExposesMapsApart := by decide
  have hruns : ((Builder.asked.plan.pruneWithin 5 {}).map fun run =>
      (run.result.toOption.isSome, run.offers)) = some (true,
      [⟨0, ⟨[⟨0, "user", none⟩, ⟨2, "facts", some ["lang"]⟩]⟩⟩, ⟨2, ⟨[⟨1, "url", none⟩]⟩⟩]) := by
    decide +kernel
  obtain ⟨run, hrun, hall⟩ := Option.map_eq_some_iff.mp hruns
  obtain ⟨hsome, hoffers⟩ := Prod.mk.inj hall
  obtain ⟨outcome, houtcome⟩ := Option.isSome_iff_exists.mp hsome
  rw [← prune_of_within hrun] at hoffers houtcome
  obtain ⟨hasked, hfailed⟩ := @prune_requests Builder.asked.plan {} Builder.asked_made hapart rfl
  exact ⟨hapart, hoffers, hasked outcome (toOption_some houtcome),
    hfailed misplaced {} (.error (.internal (.invalidNode 0 (.storedAs 1)))) rfl⟩

end Dataflow
