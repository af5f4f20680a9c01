import Dataflow.Proofs.Prune.Sound
import Mathlib.Data.List.Perm.Subperm

/-!
# The recorded keys suffice

What a pruning run records on a load is enough to run on: a source that drops
every map key which is not recorded leaves the result of the pruned plan as it
is (`Plan.run_restricted`).

The pruned plan is compared with itself. Narrowed once more it stays as it is, so
it stands in the relation `Plan.Narrowing` to itself with slices that remove
nothing (`Plan.Narrowing.exists_same`), and a run over restricted tables follows
a run over the full ones: the maps that the loads give have lost entries, but
none with a key that is known to be read.

Columns inside a bag are found again by their identity. Where two of them share it
but not a type, the pruned plan reads another bag than the one whose keys were
recorded, and what it reads is not safe (`Plan.run_restricted_misses`).
-/

namespace Dataflow

open List (Forall₂)

variable {g : String → String} {t : Trackers}

/-! ## Slices that remove nothing -/

/-- An ascending list of all positions is known by its length. -/
theorem eq_range_of_length {ps : List Nat} {n : Nat} (h : ps.Pairwise (· < ·))
    (hb : ∀ p ∈ ps, p < n) (hlen : ps.length = n) : ps = List.range n := by
  have hsub : ps.Subperm (List.range n) :=
    List.subperm_of_subset (h.imp Nat.ne_of_lt) fun p hp => List.mem_range.mpr (hb p hp)
  have hperm := hsub.perm_of_length_le (by simp [hlen])
  exact eq_range_of_ascending h hb fun i hi => hperm.mem_iff.mpr (List.mem_range.mpr hi)

namespace Slice

variable {w : Slice g t}

theorem kept_of_same (h : w.new = w.old) : w.kept = List.range w.old.length :=
  eq_range_of_length w.fits.ascending w.kept_bounded (by rw [w.kept_length, h])

theorem narrowed_of_same (h : w.new = w.old) : w.narrowed = Slice.unmoved w.old := by
  have hkept : w.columns.positions = List.range w.old.length := kept_of_same h
  rw [Slice.unmoved, Slice.narrowed, Slice.narrowed, hkept, h]
  simp only [Slice.refl, Columns.positions_all]

/-- A selection that names the first column with each identity stays as it is. -/
theorem selected_of_same (h : w.new = w.old) {e : Expr} (he : e.Unmoved w.old) {p q : Nat}
    {cs cs' : List Nat} (hx : (p, Access.columns cs) ∈ e.reads.accesses)
    (hq : w.narrowed.column p = .ok q) (hcs : w.narrowed.inner p cs = .ok cs') :
    q = p ∧ cs' = cs ∧ ∃ f inner, w.old[p]? = some f ∧ f.type.inner? = some inner ∧
      ∀ c ∈ cs, ∃ x, inner[c]? = some x ∧ Schema.positionOf? inner x.uid = some c := by
  obtain ⟨hcol, hinner⟩ := he _ hx
  replace hcol : w.narrowed.column p = .ok p := narrowed_of_same h ▸ hcol
  replace hinner : w.narrowed.inner p cs = .ok cs := narrowed_of_same h ▸ hinner cs rfl
  obtain rfl : q = p := Except.ok.inj (hq.symm.trans hcol)
  obtain rfl : cs' = cs := Except.ok.inj (hcs.symm.trans hinner)
  obtain ⟨f, f', hf, hf', -⟩ := field_at hq
  obtain ⟨inner, hi⟩ := nested_of_inner hq hcs hf
  rw [h, hf] at hf'
  cases hf'
  rw [inner_eq hq hf (h ▸ hf) hi hi, mapM_ok, List.forall₂_same] at hcs
  exact ⟨rfl, rfl, f, inner, hf, hi, fun c hc => innerPosition_ok.mp (hcs c hc)⟩

end Slice

/-- Selections that stay as they are can be made. -/
theorem Expr.Unmoved.selects {w : Slice g t} {e : Expr} (he : e.Unmoved w.old)
    (h : w.new = w.old) : e.reads.Selects w := by
  intro p cs hx q cs' hq hcs
  obtain ⟨rfl, rfl, f, inner, hf, hi, hall⟩ := Slice.selected_of_same h he hx hq hcs
  refine ⟨f, f, hf, h ▸ hf, rfl, inner, inner, hi, hi, List.forall₂_same.mpr fun c hc => ?_⟩
  obtain ⟨x, hx, hpos⟩ := hall c hc
  exact ⟨x, x, hx, hx, rfl, hpos⟩

/-- They name the columns they named before. -/
theorem Expr.Unmoved.exact {w : Slice g t} {e : Expr} (he : e.Unmoved w.old)
    (h : w.new = w.old) : e.reads.Exact w := by
  intro p cs hx q cs' hq hcs f inner hf hi
  obtain ⟨rfl, rfl, f₀, inner₀, hf₀, hi₀, hall⟩ := Slice.selected_of_same h he hx hq hcs
  rw [hf] at hf₀
  cases hf₀
  rw [hi] at hi₀
  cases hi₀
  obtain ⟨f', inner', hf', hi', hinner, hfit, -⟩ := Slice.inner_at hq hf hi
  rw [h, hf] at hf'
  cases hf'
  rw [hi] at hi'
  cases hi'
  have hwidth := (Slice.ofInner hinner hfit).kept_of_same rfl
  refine List.forall₂_same.mpr fun c hc => ?_
  obtain ⟨x, hx, -⟩ := hall c hc
  show (Slice.ofInner hinner hfit).kept[c]? = some c
  rw [hwidth]
  exact List.getElem?_range (List.getElem?_eq_some_iff.mp hx).1

/-- If all selections of an operator can be made, so can those that stay. -/
theorem Operator.Selects.node {n : Node} {ins : List (Slice g t)} (h : n.op.Selects ins)
    (keep : List Nat) : n.Selects keep ins := by
  unfold Node.Selects
  cases hn : n.op with
  | forEach items =>
    rintro w rfl ranges - x hx
    have hitem : x.1 ∈ items := (List.of_mem_zip (List.mem_filter.mp hx).1).1
    rw [hn] at h
    exact h (0, x.1.expr) (List.mem_map.mpr ⟨x.1, hitem, rfl⟩) w rfl
  | _ =>
    rw [hn] at h
    exact h

/-! ## A plan as its own narrowing -/

namespace Plan

variable {p p' : Plan} {required required' : List Required} {ws : List (Slice g t)}

/-- A narrowed plan, with the requirements that the narrowing left, stands in the
relation to itself. -/
theorem Narrowing.exists_same (h : Narrowing required ws p p') (hcheck' : p'.check = .ok ())
    (hproper : ∀ id, (required.getD id .none).Proper)
    (hmoved : ∀ id w, ws[id]? = some w →
      (required.getD id .none).Moved w.kept (required'.getD id .none))
    (hclosed' : p'.Closed required' t) :
    ∃ ws' : List (Slice g t), Narrowing required' ws' p' p' ∧
      ∀ (id : Nat) (w : Slice g t), ws'[id]? = some w → w.new = w.old := by
  have hself := h.project_self hcheck' hproper hmoved hclosed'.length
  have hanswers : p'.Answers required' fun w : Slice g t => w.new = w.old := by
    intro id n keep req natural ins ds hn hinputs _ _ _ _ hsame
    refine Operator.Selects.node (fun x hx w hw => ?_) keep
    obtain ⟨s, hs, hunmoved⟩ := h.unmoved hn hinputs x hx
    rw [List.getElem?_map, hw] at hs
    cases hs
    exact hunmoved.selects (hsame w (List.mem_of_getElem? hw))
  have hpasses : p'.Passes required' fun w : Slice g t => w.new = w.old := by
    intro id n keep ins proj w hn hkeep hold hsame hany hwold hwnew
    have hinputs : p'.edgeSchemas n.inputs = .ok (ins.map Slice.old) := edgeSchemas_ok.mpr
      (List.forall₂_map_right_iff.mpr (hold.imp fun e x hx => hx.imp fun m hm => ⟨hm.1, hm.2.symm⟩))
    have hins : ins.map Slice.narrowed = (ins.map Slice.old).map Slice.unmoved := by
      rw [List.map_map]
      exact List.map_congr_left fun x hx => Slice.narrowed_of_same (hsame x hx)
    rw [hins, h.ofAny_self hcheck' hproper hmoved hn hkeep hinputs] at hany
    cases hany
    exact hwnew.trans hwold.symm
  obtain ⟨p₀, changed, ws', hproject, hnar, hdone⟩ :=
    exists_narrowing hcheck' hclosed' hanswers hpasses (Or.inr ⟨false, by rw [hself]⟩)
  rw [hself] at hproject
  cases hproject
  exact ⟨ws', hnar, fun id w hw => (hdone id w hw).1⟩

/-- The selections of a narrowed plan name the columns that they name. -/
theorem Narrowing.exact_same (h : Narrowing required ws p p') {ws' : List (Slice g t)}
    (hself : Narrowing required' ws' p' p')
    (hsame : ∀ (id : Nat) (w : Slice g t), ws'[id]? = some w → w.new = w.old) :
    ∀ n ∈ p'.nodes, ∀ ins, InputSlices ws' n.inputs ins → n.op.Exact ins := by
  intro n hn ins hins x hx w hw
  obtain ⟨id, hn⟩ := List.mem_iff_getElem?.mp hn
  obtain ⟨s, hs, hunmoved⟩ := h.unmoved hn (hself.edgeSchemas hins).1 x hx
  rw [List.getElem?_map, hw] at hs
  cases hs
  obtain ⟨e, -, hwe⟩ := getElem?_of_right hins hw
  exact hunmoved.exact (hsame e.node w hwe)

end Plan

/-! ## Loads -/

/-- The keys of a map are found among those that are kept. -/
theorem lookup_filter_keys {keep : List String} {k : String} (hk : k ∈ keep)
    (entries : List (String × Value)) :
    (entries.filter fun e => keep.contains e.1).lookup k = entries.lookup k := by
  induction entries with
  | nil => rfl
  | cons e entries ih =>
    obtain ⟨k', v⟩ := e
    by_cases hk' : k' ∈ keep
    · rw [List.filter_cons_of_pos (by simpa using hk'), List.lookup_cons, List.lookup_cons, ih]
    · have hne : (k == k') = false := by
        rw [beq_eq_false_iff_ne]
        rintro rfl
        exact hk' hk
      rw [List.filter_cons_of_neg (by simpa using hk'), List.lookup_cons, hne, ih]

/-- A position of a source with the keys that are known to be read of its map. -/
def KeysKnown (t : Trackers) (source : Schema) (x : Nat × List String) : Prop :=
  ∃ f, source[x.1]? = some f ∧ f.type.isMap = true ∧ t.mapKeys.get? f.uid = some (.only x.2)

/-- A map that is restricted to the keys that are known to be read. -/
theorem Value.Kept.restrict {f : Field} {c : Cut} {v v' : Value} {keys : List String}
    (h : Value.Kept t true f c v v') (htrack : t.trackKeys = true) (hf : f.type.isMap = true)
    (hkeys : t.mapKeys.get? f.uid = some (.only keys)) :
    Value.Kept t true f c v (Run.restrictValue keys v') := by
  cases h with
  | same =>
    cases v with
    | map entries => exact .map rfl hf htrack hkeys fun k hk => lookup_filter_keys hk entries
    | _ => exact .same f _
  | null => exact .null f c
  | @map _ _ entries entries' keys' _ _ _ hkeys' hlookup =>
    rw [hkeys] at hkeys'
    cases hkeys'
    exact .map rfl hf htrack hkeys fun k hk => (lookup_filter_keys hk entries').trans (hlookup k hk)
  | bag hbag =>
    rw [hbag] at hf
    cases hf

/-- A row whose maps are restricted to keys that are known to be read. -/
theorem Row.Kept.restrict {source : Schema} {row row' : Row} (htrack : t.trackKeys = true)
    {keys : MapKeys} (hkeys : ∀ x ∈ keys, KeysKnown t source x)
    (h : Row.Kept t true source (.all source.length) row row') :
    Row.Kept t true source (.all source.length) row (Run.restrictRow keys row') := by
  induction keys generalizing row' with
  | nil => exact h
  | cons x keys ih =>
    refine ih (fun y hy => hkeys y (List.mem_cons_of_mem _ hy)) ?_
    obtain ⟨f, hf, hmap, hknown⟩ := hkeys x (List.mem_cons_self ..)
    refine ⟨h.width, by rw [List.length_modify, h.left], fun q p c f' v v' hq hf' hv hv' => ?_⟩
    rw [List.getElem?_modify] at hv'
    obtain ⟨u, hu, rfl⟩ := Option.map_eq_some_iff.mp hv'
    have hkept := h.value q p c f' v u hq hf' hv hu
    split
    · rename_i hx
      obtain ⟨rfl, -⟩ := Columns.eq_of_all hq
      rw [hx, hf'] at hf
      cases hf
      exact hkept.restrict htrack hmap hknown
    · exact hkept

namespace Diagnostics

theorem narrowedKeys_known {source : Schema} {exposed : List Nat} {keys : MapKeys}
    (h : narrowedKeys source exposed t.mapKeys = .ok keys) : ∀ x ∈ keys, KeysKnown t source x := by
  obtain ⟨found, hfound, heq⟩ := bind_ok h
  cases heq
  intro x hx
  obtain ⟨y, hy, rfl⟩ := List.mem_filterMap.mp hx
  obtain ⟨p, -, hp⟩ := mem_of_right (mapM_ok.mp hfound) hy
  obtain ⟨f, hf, hp⟩ := bind_ok hp
  split at hp
  · rename_i hmap
    obtain ⟨ks, hks, rfl⟩ := Option.map_eq_some_iff.mp (Except.ok.inj hp)
    refine ⟨f, Schema.fieldAt_ok.mp hf, hmap, ?_⟩
    exact Tracker.get?_of_narrowed hks
  · cases hp

end Diagnostics

/-- What a load gives when it is restricted to the keys that a run recorded. -/
theorem Node.Finished.loadRows {config : Config} {n n' : Node} (h : n.Finished config t n')
    (htrack : t.trackKeys = config.mapKeys) {l : Load} (hl : n'.op = .load l) {T : Tables}
    (hT : T.restrictKeys = false)
    (hwidth : ∀ row ∈ T.rows l.source.location, row.length = l.source.schema.length) :
    Forall₂ (Row.Kept t true l.source.schema (.all l.source.schema.length))
      (Run.loadRows T l) (Run.loadRows { T with restrictKeys := true } l) := by
  have hkeys := h.keys hl
  have hsame : Forall₂ (Row.Kept t true l.source.schema (.all l.source.schema.length))
      (T.rows l.source.location) (T.rows l.source.location) :=
    List.forall₂_same.mpr fun row hrow => Row.Kept.all (hwidth row hrow)
  rw [Run.loadRows_unrestricted hT]
  unfold Run.loadRows
  cases hrec : l.mapKeys with
  | none => exact hsame
  | some keys =>
    rw [hrec] at hkeys
    unfold Config.tracked at hkeys
    split at hkeys
    · rename_i hmapKeys
      obtain ⟨fields, hfields, heq⟩ := bind_ok hkeys
      have hknown := Diagnostics.narrowedKeys_known hfields
      split at heq
      · cases heq
      · cases heq
        exact List.forall₂_map_right_iff.mpr
          (hsame.imp fun _ _ hrow => hrow.restrict (htrack.trans hmapKeys) hknown)
    · cases hkeys

/-! ## Runs -/

namespace Plan

variable {p : Plan} {config : Config} {T : Tables}

/-- The keys that a run records are enough: loads that drop all others leave the
result of the pruned plan as it is. -/
theorem run_restricted (hp : p.Made) (htypes : p.SharesTypes) {outcome : PruneOutcome}
    (h : (p.prune config).result = .ok outcome) (hT : T.restrictKeys = false)
    (hconf : (p.prune config).plan.Conforms T) {results : List (Nat × List Row)}
    (hrun : (p.prune config).plan.run T = .ok results) :
    (p.prune config).plan.run { T with restrictKeys := true } = .ok results := by
  have hbags := (hp.pruned h).bagPerInput
  obtain ⟨r, r', ws, hcheck, hsolve, hcheck₂, hsolve', htrackers, hnar, hproper, hmoved, p',
    hfin⟩ := exists_solve_of_prune htypes h
  generalize (p.prune config).plan = p₂ at *
  have hclosed' := closed_of_solve (inPlace_of_check hcheck₂) hsolve'
  -- The keys that were recorded are the ones that the pruned plan is known to read.
  rw [htrackers] at hclosed'
  obtain ⟨ws', hself, hsame⟩ := hnar.exists_same hcheck₂ hproper hmoved hclosed'
  have htrack := trackKeys_of_solve (inPlace_of_check hcheck) hsolve
  obtain ⟨outs, houts, hall⟩ := hconf
  have hs : Supplied true ws' p₂ p₂ T { T with restrictKeys := true } outs := by
    refine ⟨hbags, hnar.exact_same hself hsame, fun id n n₀ l l₀ hn hn₀ hl hl₀ => ?_, hall⟩
    rw [hn] at hn₀
    cases hn₀
    rw [hl] at hl₀
    cases hl₀
    obtain ⟨m, -, hm⟩ := getElem?_of_right hfin hn
    exact hm.loadRows htrack hl hT fun row hrow =>
      Run.nodeConforms_load (hall n (List.mem_of_getElem? hn)) hl hrow
  exact (hself.run_eq hcheck₂ hclosed' hs houts).trans hrun

/-- All fields of a plan, those inside bags and tuples included. -/
def fields (p : Plan) : List Field :=
  p.nodes.flatMap fun n => n.schema ++ (Schema.inners n.schema).flatten

/-- No map shares its identity with a field that is none. -/
def MapsApart (p : Plan) : Prop :=
  ∀ f ∈ p.fields, ∀ h ∈ p.fields, f.uid = h.uid → f.type.isMap = h.type.isMap

instance (p : Plan) : Decidable p.MapsApart :=
  inferInstanceAs (Decidable (∀ f ∈ p.fields, ∀ h ∈ p.fields, _ → _))

/-- The result of a run as text. -/
def shown (p : Plan) (T : Tables) : Option (List (List (List String))) :=
  (p.run T).toOption.map (List.map fun x => x.2.map (List.map Value.text))

end Plan

namespace Builder

/-- Bags of maps under one identity though they hold different maps. The second
is selected, and one key is read of the maps in the first. -/
def masked : Builder := empty
  |>.after (schema [("m", .map (.scalar .int))])
  |>.after (load "A" "a" [⟨"m", .map (.scalar .int), ⟨0⟩⟩] none)
  |>.after (cogroup "G" [(⟨0, none⟩, [], false)])
  |>.after (load "B" "b" [⟨"z", .bag [⟨"n", .map (.scalar .int), ⟨100⟩⟩], ⟨2⟩⟩] none)
  |>.after (cross "X" [⟨1, none⟩, ⟨2, none⟩])
  |>.after (cogroup "H" [(⟨3, none⟩, [], false)])
  |>.after (forEach "F" ⟨4, none⟩ [(.select (.column 1) [2], false)])
  |>.after (forEach "K" ⟨0, none⟩ [(.lookup (.column 0) "k", false)])

theorem masked_made : masked.plan.Made :=
  .built (b := masked)
    (.step (.step (.step (.step (.step (.step (.step (.step .empty (.schema _)) (.load ..))
      (.cogroup ..)) (.load ..)) (.cross ..)) (.cogroup ..)) (.forEach ..)) (.forEach ..)) rfl

def maskedTables : Tables where
  tables := [("a", [[.map [("j", .int 2), ("k", .int 1)]]]),
    ("b", [[.bag [[.map [("x", .int 1)]]]]])]
  restrictKeys := false

theorem masked_pruned : (masked.plan.prune {}).result =
    .ok ⟨true, [.mapKeysRequired "A" [(0, ["k"])]], [], 7⟩ :=
  Plan.result_of_within 7 (by decide +kernel)

end Builder

namespace Plan

/-- Bags under one identity have to have one type for that. The second bag is
looked up by its identity, the first is found in its place, and of the maps in the
first only one key is known to be read. -/
theorem run_restricted_misses : Builder.masked.plan.Made ∧ Builder.masked.plan.MapsApart ∧
    (Builder.masked.plan.prune {}).result =
      .ok ⟨true, [.mapKeysRequired "A" [(0, ["k"])]], [], 7⟩ ∧
    (Builder.masked.plan.prune {}).plan.Conforms Builder.maskedTables ∧
    ∃ results, (Builder.masked.plan.prune {}).plan.run Builder.maskedTables = .ok results ∧
      (Builder.masked.plan.prune {}).plan.run { Builder.maskedTables with restrictKeys := true } ≠
        .ok results := by
  have hruns : (Builder.masked.plan.pruneWithin 7 {}).map (fun run =>
      ((Run.outputs Builder.maskedTables run.plan).toOption.any (fun outs =>
          run.plan.nodes.all (Run.nodeConforms Builder.maskedTables run.plan outs)),
        (shown run.plan Builder.maskedTables).isSome,
        shown run.plan { Builder.maskedTables with restrictKeys := true } ==
          shown run.plan Builder.maskedTables)) = some (true, true, false) := by
    decide +kernel
  obtain ⟨run, hwithin, hall⟩ := Option.map_eq_some_iff.mp hruns
  refine ⟨Builder.masked_made, by decide, Builder.masked_pruned, ?_⟩
  rw [prune_of_within hwithin]
  obtain ⟨hconf, hall⟩ := Prod.mk.inj hall
  obtain ⟨hsome, hdiffer⟩ := Prod.mk.inj hall
  obtain ⟨_, hshown⟩ := Option.isSome_iff_exists.mp hsome
  obtain ⟨results, hresults, -⟩ := Option.map_eq_some_iff.mp hshown
  refine ⟨conforms_of_all hconf, results, toOption_some hresults, fun h => ?_⟩
  refine absurd ?_ (beq_eq_false_iff_ne.mp hdiffer)
  simp only [shown, h, toOption_some hresults]

/-- Of the maps of the visits only one key is recorded, and the other one is
dropped without a difference. -/
theorem run_restricted_visits : Builder.visits.plan.SharesTypes ∧
    (Builder.visits.plan.prune {}).result =
      .ok ⟨true, [.mapKeysRequired "A" [(2, ["lang"])]], [], 6⟩ ∧
    (Builder.visits.plan.prune {}).plan.Conforms Builder.visitTables ∧
    ∃ results, (Builder.visits.plan.prune {}).plan.run Builder.visitTables = .ok results ∧
      results.map (fun x => (x.1, x.2.length)) = [(3, 1), (5, 5)] ∧
      (Builder.visits.plan.prune {}).plan.run { Builder.visitTables with restrictKeys := true } =
        .ok results := by
  have hruns : (Builder.visits.plan.pruneWithin 6 {}).map (fun run =>
      ((Run.outputs Builder.visitTables run.plan).toOption.any (fun outs =>
          run.plan.nodes.all (Run.nodeConforms Builder.visitTables run.plan outs)),
        (run.plan.run Builder.visitTables).toOption.map (List.map fun x => (x.1, x.2.length)))) =
      some (true, some [(3, 1), (5, 5)]) := by decide +kernel
  obtain ⟨run, hwithin, hall⟩ := Option.map_eq_some_iff.mp hruns
  obtain ⟨hconf, hrun⟩ := Prod.mk.inj hall
  obtain ⟨results, hresults, hcounts⟩ := Option.map_eq_some_iff.mp hrun
  have hplan : run.plan = (Builder.visits.plan.prune {}).plan := by rw [prune_of_within hwithin]
  rw [hplan] at hconf hresults
  have hconforms := conforms_of_all hconf
  exact ⟨by decide, Builder.visits_pruned, hconforms, results, toOption_some hresults, hcounts,
    run_restricted Builder.visits_made (by decide) Builder.visits_pruned rfl hconforms
      (toOption_some hresults)⟩

end Plan

end Dataflow
