import Dataflow.Proofs.Narrowing.Pass
import Dataflow.Proofs.Requirement.Lattice

/-!
# Narrowed nodes

A node exposes a part of the natural output of its operator, and what is
required of the node is said of the exposed positions. `Node.Narrowed` relates a
node to its narrowed form: the operators stand in `Operator.Narrowed`, and each
exposed position that stays leads to the natural position it led to before,
with the cut that this position has (`exposes`).

`Node.narrowed_of_held` shows that the pass makes such a node.
-/

namespace Dataflow

open List (Forall₂)

/-! ## Required positions -/

namespace Node

/-- A requirement on the exposed output names the natural positions that the
exposed ones lead to. -/
theorem naturalRequired_ok {n : Node} {r r' : Required} (hr : r.Proper)
    (h : n.naturalRequired r = .ok r') :
    r'.Proper ∧ ∀ ps, n.projection = some ps →
      ∀ m, r'.contains m = true ↔ ∃ e, r.contains e = true ∧ ps[e]? = some m := by
  unfold naturalRequired at h
  split at h
  · rename_i hp
    cases h
    exact ⟨hr, fun ps hps => by rw [hp] at hps; cases hps⟩
  · cases h
    exact ⟨trivial, fun ps _ m => by simp [Required.contains]⟩
  · rename_i ps hps
    cases h
    refine ⟨Required.ofPositions_proper ps, fun ps' hps' m => ?_⟩
    rw [hps] at hps'
    cases hps'
    rw [Required.contains_ofPositions, List.mem_iff_getElem?]
    simp [Required.contains]
  · rename_i ps qs hps
    obtain ⟨ms, hms, h⟩ := bind_ok h
    cases h
    refine ⟨Required.ofPositions_proper ms, fun ps' hps' m => ?_⟩
    rw [hps] at hps'
    cases hps'
    have hpoint : Forall₂ (fun q m => ps[q]? = some m) qs ms :=
      (mapM_ok.mp hms).imp fun q m hq => by
        split at hq
        · rename_i m' hm'; cases hq; exact hm'
        · cases hq
    rw [Required.contains_ofPositions]
    constructor
    · intro hm
      obtain ⟨q, hq, hqm⟩ := mem_of_right hpoint hm
      exact ⟨q, Required.mem_of_contains.mpr hq, hqm⟩
    · rintro ⟨q, hq, hqm⟩
      obtain ⟨m', hm', hqm'⟩ := mem_of_left hpoint (Required.mem_of_contains.mp hq)
      rw [hqm] at hqm'
      cases hqm'
      exact hm'

/-- What a node exposes of its natural output. -/
theorem exposes_of_part {id : Nat} {n : Node} {natural : Schema}
    (h : Plan.exposedPart id n natural = .ok n.schema) :
    Forall₂ (fun m f => natural[m]? = some f) n.exposed n.schema := by
  unfold Plan.exposedPart at h
  unfold exposed
  cases hp : n.projection with
  | none =>
    rw [hp] at h
    cases h
    refine forall₂_of_getElem? (by simp) fun i m f hm hf => ?_
    rw [Option.getD_none] at hm
    have hlt := (List.getElem?_eq_some_iff.mp hf).1
    rw [List.getElem?_range hlt] at hm
    cases hm
    exact hf
  | some ps =>
    rw [hp] at h
    simp only at h
    split at h
    · cases h
    · split at h
      · cases h
      · exact (mapM_ok.mp h).imp fun m f hm => Schema.fieldAt_ok.mp hm

theorem exposed_nodup {id : Nat} {n : Node} {natural : Schema}
    (h : Plan.exposedPart id n natural = .ok n.schema) : n.exposed.Nodup := by
  unfold Plan.exposedPart at h
  unfold exposed
  cases hp : n.projection with
  | none => exact List.nodup_range
  | some ps =>
    rw [hp] at h
    simp only at h
    split at h
    · cases h
    · split at h
      · cases h
      · rename_i hnodup
        exact Classical.not_not.mp hnodup

/-- A node that does not select positions exposes its natural output. -/
theorem natural_of_part {id : Nat} {n : Node} {natural : Schema}
    (h : Plan.exposedPart id n natural = .ok n.schema) (hp : n.projection = none) :
    natural = n.schema := by
  unfold Plan.exposedPart at h
  rw [hp] at h
  exact Except.ok.inj h

/-- A node that cannot hide anything selects no positions. -/
theorem projection_none {id : Nat} {n : Node} {natural : Schema}
    (h : Plan.exposedPart id n natural = .ok n.schema) (hcan : n.op.canProject = false) :
    n.projection = none := by
  unfold Plan.exposedPart at h
  cases hp : n.projection with
  | none => rfl
  | some ps =>
    rw [hp] at h
    simp only [hcan, Bool.not_false, if_true] at h
    cases h

/-- Where everything is exposed, a required position leads to itself. -/
theorem exists_range {r : Required} {width m : Nat} :
    (∃ e, r.contains e = true ∧ (List.range width)[e]? = some m) ↔
      m < width ∧ r.contains m = true := by
  constructor
  · rintro ⟨e, hc, he⟩
    obtain ⟨hlt, heq⟩ := List.getElem?_eq_some_iff.mp he
    rw [List.getElem_range] at heq
    subst heq
    exact ⟨by simpa using hlt, hc⟩
  · rintro ⟨hlt, hc⟩
    exact ⟨m, hc, List.getElem?_range hlt⟩

/-- The required natural positions are those that the required exposed ones
lead to. -/
theorem mem_required {id : Nat} {n : Node} {natural : Schema} {r r' : Required}
    {required : List Nat} (hr : r.Proper) (hr' : n.naturalRequired r = .ok r')
    (hreq : r'.resolve natural.length = .ok required)
    (hpart : Plan.exposedPart id n natural = .ok n.schema) :
    required.Pairwise (· < ·) ∧ (∀ m ∈ required, m < natural.length) ∧
      ∀ m, m ∈ required ↔ ∃ e, r.contains e = true ∧ n.exposed[e]? = some m := by
  obtain ⟨hproper, hcontains⟩ := naturalRequired_ok hr hr'
  obtain ⟨hasc, hmem⟩ := Required.resolve_ok hproper.ascending hreq
  refine ⟨hasc, fun m hm => ((hmem m).mp hm).1, fun m => ?_⟩
  rw [hmem]
  have hexposes := exposes_of_part hpart
  cases hp : n.projection with
  | none =>
    have hrr : r' = r := by
      unfold naturalRequired at hr'
      rw [hp] at hr'
      exact (Except.ok.inj hr').symm
    have hexp : n.exposed = List.range natural.length := by
      rw [exposed, hp, natural_of_part hpart hp]
      rfl
    rw [hrr, hexp]
    exact exists_range.symm
  | some ps =>
    have hexp : n.exposed = ps := by rw [exposed, hp]; rfl
    rw [hcontains ps hp m, hexp]
    refine ⟨And.right, fun ⟨e, hc, he⟩ => ⟨?_, e, hc, he⟩⟩
    obtain ⟨f, -, hf⟩ := getElem?_of_left hexposes (hexp ▸ he)
    exact (List.getElem?_eq_some_iff.mp hf).1

end Node

variable {g : String → String} {t : Trackers}

/-! ## The relation -/

/-- A node before and after, with what is required of it and what remains of its
natural output. -/
structure Node.Narrowed (r : Required) (required : List Nat) (natural : Schema) (cols : Columns)
    (n n' : Node) (ins : List (Slice g t)) (w : Slice g t) : Prop where
  id : n'.id = n.id
  label : n'.label = n.label
  inputs : n'.inputs = n.inputs
  old : w.old = n.schema
  new : w.new = n'.schema
  op : n.op.Narrowed required n'.op ins natural cols
  exposes : Forall₂ (fun x q => ∃ m, n.exposed[x.1]? = some m ∧ cols[q]? = some (m, x.2))
    w.columns n'.exposed
  required : ∀ m, m ∈ required ↔ ∃ e, r.contains e = true ∧ n.exposed[e]? = some m
  keeps : ∀ e < n.schema.length, r.contains e = true → e ∈ w.kept
  exact : (∀ items, n.op ≠ .forEach items) → ∀ e ∈ w.kept, r.contains e = true
  projection : ∀ natural', n'.op.natural (ins.map Slice.new) = .ok natural' →
    n'.projection ≠ some (List.range natural'.length)
  part : ∀ id natural', n'.op.natural (ins.map Slice.new) = .ok natural' →
    Plan.exposedPart id n' natural' = .ok n'.schema

/-- A node that exposes its natural output before and after. -/
theorem exposes_natural {n n' : Node} {cols : Columns} (hn : n.projection = none)
    (hn' : n'.projection = none) (hlen : n'.schema.length = cols.length)
    (hb : ∀ x ∈ cols, x.1 < n.schema.length) :
    Forall₂ (fun x q => ∃ m, n.exposed[x.1]? = some m ∧ cols[q]? = some (m, x.2)) cols
      n'.exposed := by
  refine forall₂_of_getElem? (by simp [Node.exposed, hn', hlen]) fun k x q hx hq => ?_
  have hq' : q = k := by
    rw [Node.exposed, hn', Option.getD_none] at hq
    obtain ⟨hlt, heq⟩ := List.getElem?_eq_some_iff.mp hq
    rw [← heq, List.getElem_range]
  subst hq'
  refine ⟨x.1, ?_, hx⟩
  rw [Node.exposed, hn, Option.getD_none, List.getElem?_range (hb x (List.mem_of_getElem? hx))]

/-! ## Nodes that select positions -/

/-- The exposed positions that stay, with the cuts of the natural positions they
lead to. -/
theorem exists_columns {exposed keep projection : List Nat} {cols : Columns}
    (h : Forall₂ (fun e q => ∃ m, exposed[e]? = some m ∧ cols.positions[q]? = some m) keep
      projection) :
    ∃ columns : Columns, columns.positions = keep ∧
      Forall₂ (fun x q => ∃ m, exposed[x.1]? = some m ∧ cols[q]? = some (m, x.2)) columns
        projection := by
  induction h with
  | nil => exact ⟨[], rfl, .nil⟩
  | @cons e q _ _ h _ ih =>
    obtain ⟨columns, hpos, hcols⟩ := ih
    obtain ⟨m, he, hq⟩ := h
    rw [Columns.positions_getElem?] at hq
    obtain ⟨⟨m', c⟩, hx, rfl⟩ := Option.map_eq_some_iff.mp hq
    exact ⟨(e, c) :: columns, by rw [← hpos]; rfl, .cons ⟨m', he, hx⟩ hcols⟩

/-- The schema that the selected positions lead to. -/
theorem exists_schema {exposed projection : List Nat} {cols columns : Columns}
    {natural natural' schema : Schema}
    (hexp : Forall₂ (fun m f => natural[m]? = some f) exposed schema)
    (hnat : Schema.mapNames g natural' = cols.schema (Schema.mapNames g natural))
    (h : Forall₂ (fun x q => ∃ m, exposed[x.1]? = some m ∧ cols[q]? = some (m, x.2)) columns
      projection) :
    ∃ schema', Schema.project natural' projection = .ok schema' ∧
      Schema.mapNames g schema' = columns.schema (Schema.mapNames g schema) := by
  induction h with
  | nil => exact ⟨[], rfl, rfl⟩
  | @cons x q columns projection h _ ih =>
    obtain ⟨schema', hproj, heq⟩ := ih
    obtain ⟨m, hm, hq⟩ := h
    obtain ⟨f, hf, hmf⟩ := getElem?_of_left hexp hm
    have hnew : (Schema.mapNames g natural')[q]? = some (x.2.field (f.mapNames g)) := by
      rw [hnat, Columns.schema_getElem? hq]
      rw [Schema.mapNames_getElem?, hmf]
      rfl
    rw [Schema.mapNames_getElem?] at hnew
    obtain ⟨f', hf', hff'⟩ := Option.map_eq_some_iff.mp hnew
    refine ⟨f' :: schema', mapM_ok.mpr (.cons (Schema.fieldAt_ok.mpr hf') (mapM_ok.mp hproj)), ?_⟩
    rw [Schema.mapNames, heq, hff', Columns.schema_eq_map, Columns.schema_eq_map, List.map_cons,
      List.getD_eq_getElem?_getD, Schema.mapNames_getElem?, hf]
    rfl

/-- Different exposed positions lead to different natural ones, before and
after. -/
theorem nodup_projection {exposed keep projection positions : List Nat} (hexp : exposed.Nodup)
    (hkeep : keep.Pairwise (· < ·))
    (h : Forall₂ (fun e q => ∃ m, exposed[e]? = some m ∧ positions[q]? = some m) keep
      projection) : projection.Nodup := by
  induction h with
  | nil => exact List.nodup_nil
  | @cons e q keep projection he hrest ih =>
    obtain ⟨hlt, hkeep⟩ := List.pairwise_cons.mp hkeep
    refine List.nodup_cons.mpr ⟨fun hq => ?_, ih hkeep⟩
    obtain ⟨m, hm, hqm⟩ := he
    obtain ⟨e', he', m', hm', hqm'⟩ := mem_of_right hrest hq
    rw [hqm] at hqm'
    cases hqm'
    have hsame : e = e' := (List.getElem?_inj (List.getElem?_eq_some_iff.mp hm).1 hexp).mp
      (hm.trans hm'.symm)
    exact absurd (hlt e' he') (by omega)

theorem Schema.project_range (s : Schema) : Schema.project s (List.range s.length) = .ok s :=
  mapM_ok.mpr (forall₂_of_getElem? (by simp) fun i p f hp hf => by
    obtain ⟨hlt, rfl⟩ := List.getElem?_eq_some_iff.mp hp
    rw [List.getElem_range]
    exact Schema.fieldAt_ok.mpr hf)

/-- What is left of the exposed fields fits. -/
theorem fits_columns {required exposed keep projection : List Nat} {cols columns : Columns}
    {natural schema : Schema} (hrem : Remains t required natural cols)
    (hexp : Forall₂ (fun m f => natural[m]? = some f) exposed schema)
    (hasc : keep.Pairwise (· < ·)) (hb : ∀ e ∈ keep, e < schema.length)
    (hreq : ∀ e ∈ keep, ∀ m, exposed[e]? = some m → m ∈ required)
    (hpos : columns.positions = keep)
    (h : Forall₂ (fun x q => ∃ m, exposed[x.1]? = some m ∧ cols[q]? = some (m, x.2)) columns
      projection) : columns.Fits t schema where
  ascending := hpos ▸ hasc
  bounded x hx := hb _ (hpos ▸ List.mem_map.mpr ⟨x, hx, rfl⟩)
  cuts x hx f hf := by
    obtain ⟨q, -, m, hm, hcq⟩ := mem_of_left h hx
    obtain ⟨f', hf', hmf⟩ := getElem?_of_left hexp hm
    rw [hf] at hf'
    cases hf'
    exact hrem.cuts _ (List.mem_of_getElem? hcq)
      (hreq _ (hpos ▸ List.mem_map.mpr ⟨x, hx, rfl⟩) m hm) f hmf

section Pass

variable {r : Required} {required keep : List Nat} {natural : Schema} {cols : Columns} {n : Node}
  {ins : List (Slice g t)} {rs : List (Revised Expr)}

/-- What the pass over a node knows: its natural output, what it exposes of it,
and what is required. -/
structure Node.Ready (r : Required) (keep required : List Nat) (natural : Schema) (n : Node)
    (ins : List (Slice g t)) : Prop where
  part : ∃ id, Plan.exposedPart id n natural = .ok n.schema
  ascending : keep.Pairwise (· < ·)
  mem_keep : ∀ e, e ∈ keep ↔ e < n.schema.length ∧ r.contains e = true
  required_ascending : required.Pairwise (· < ·)
  required_bounded : ∀ m ∈ required, m < natural.length
  mem_required : ∀ m, m ∈ required ↔ ∃ e, r.contains e = true ∧ n.exposed[e]? = some m

theorem map_narrowed_new (ins : List (Slice g t)) :
    (ins.map Slice.narrowed).map Narrowed.new = ins.map Slice.new := List.map_map ..

theorem map_narrowed_old (ins : List (Slice g t)) :
    (ins.map Slice.narrowed).map Narrowed.old = ins.map Slice.old := List.map_map ..

theorem revise_ok (hrs : n.op.Renumbers ins rs) (f : Nat → Expr → Except Error (Revised Expr))
    (hf : ∀ i e w, ins[i]? = some w → f i e = e.renumber w.narrowed.renumbering) :
    n.op.revise f = ⟨n.op.withExpressions (rs.map Revised.value), n.op.expressions.length,
      .ok (rs.any Revised.changed)⟩ := by
  unfold Operator.revise
  rw [reviseEach_ok (hrs.imp fun x r ⟨w, hw, hr⟩ => (hf x.1 x.2 w hw).trans hr)]

/-- The operator after the pass, whether or not the pass calls it a new one. -/
theorem getD_op (hrs : n.op.Renumbers ins rs) :
    (if rs.any Revised.changed then some (n.op.withExpressions (rs.map Revised.value))
      else none).getD n.op = n.op.withExpressions (rs.map Revised.value) := by
  cases hc : rs.any Revised.changed with
  | true => rfl
  | false => exact (hrs.eq_self hc).symm

/-- Every exposed position that stays leads to a natural position that remains. -/
theorem exists_exposing (hready : n.Ready r keep required natural ins) {op' : Operator}
    (hop : n.op.Narrowed required op' ins natural cols)
    (hcov : ∀ m ∈ required, m < natural.length → m ∈ cols.positions)
    (hcan : n.op.canProject = true) :
    ∃ projection, Projected.exposing n (Projected.naturalMap op' (ins.map Slice.narrowed)
        natural.length) keep = .ok projection ∧
      Forall₂ (fun e q => ∃ m, n.exposed[e]? = some m ∧ cols.positions[q]? = some m) keep
        projection := by
  obtain ⟨id, hpart⟩ := hready.part
  have hstep : ∀ e ∈ keep, ∃ q : Nat, ∃ m, n.exposed[e]? = some m ∧
      cols.positions[q]? = some m := by
    intro e he
    obtain ⟨hlt, hcontains⟩ := (hready.mem_keep e).mp he
    obtain ⟨m, hm, -⟩ := getElem?_of_right (Node.exposes_of_part hpart)
      (List.getElem?_eq_getElem hlt)
    have hmem := (hready.mem_required m).mpr ⟨e, hcontains, hm⟩
    obtain ⟨q, hq⟩ := List.mem_iff_getElem?.mp (hcov m hmem (hready.required_bounded m hmem))
    exact ⟨q, m, hm, hq⟩
  obtain ⟨projection, hall⟩ := exists_forall₂ hstep
  refine ⟨projection, mapM_ok.mpr (hall.imp fun e q ⟨m, hm, hq⟩ => ?_), hall⟩
  simp only [hm, (hop.naturalMap hcan m q).mpr hq]

theorem narrowed_select (hready : n.Ready r keep required natural ins)
    (hrs : n.op.Renumbers ins rs)
    (hop : n.op.Narrowed required (n.op.withExpressions (rs.map Revised.value)) ins natural cols)
    (hcov : ∀ m ∈ required, m < natural.length → m ∈ cols.positions)
    (hcan : n.op.canProject = true) :
    ∃ proj w, Projected.ofNode n keep (ins.map Slice.narrowed) = .ok proj ∧ proj.kept = w.kept ∧
      n.Narrowed r required natural cols (proj.apply n) ins w := by
  obtain ⟨id, hpart⟩ := hready.part
  have hexp := Node.exposes_of_part hpart
  have hrem := hop.remains hready.required_ascending hready.required_bounded
  obtain ⟨natural', hnat', hnames⟩ := hop.natural_new
  have hreq : ∀ e ∈ keep, ∀ m, n.exposed[e]? = some m → m ∈ required := fun e he m hm =>
    (hready.mem_required m).mpr ⟨e, ((hready.mem_keep e).mp he).2, hm⟩
  obtain ⟨projection, hproj, hpoint⟩ := exists_exposing hready hop hcov hcan
  obtain ⟨columns, hpos, hcols⟩ := exists_columns hpoint
  obtain ⟨schema', hschema', hnew⟩ := exists_schema hexp hnames hcols
  have hfits := fits_columns hrem hexp hready.ascending
    (fun e he => ((hready.mem_keep e).mp he).1) hreq hpos hcols
  have hcan' : (n.op.withExpressions (rs.map Revised.value)).canProject = true := by
    cases hn : n.op <;> rw [hn] at hcan <;> first | rfl | cases hcan
  have hlen : schema'.length = projection.length := (mapM_ok.mp hschema').length_eq.symm
  let w : Slice g t := ⟨n.schema, schema', columns, hfits, hnew⟩
  let proj : Projected := ⟨if rs.any Revised.changed then
      some (n.op.withExpressions (rs.map Revised.value)) else none, schema',
    if projection = List.range natural'.length then none else some projection, keep⟩
  have happly : (proj.apply n).op = n.op.withExpressions (rs.map Revised.value) := getD_op hrs
  have hexposed : (proj.apply n).exposed = projection := by
    show (if projection = List.range natural'.length then none else some projection).getD
      (List.range schema'.length) = projection
    split
    · rename_i hw
      rw [hw, List.length_range] at hlen
      rw [Option.getD_none, hlen, hw]
    · rfl
  refine ⟨proj, w, ?_, hpos.symm, rfl, rfl, rfl, rfl, rfl, by rw [happly]; exact hop, ?_,
    hready.mem_required, fun e he hc => ?_, fun _ e he => ?_, fun natural'' hnat'' => ?_,
    fun id' natural'' hnat'' => ?_⟩
  · unfold Projected.ofNode
    dsimp only
    rw [revise_ok hrs _ fun i e w hw => by simp only [List.getElem?_map, hw, Option.map_some],
      map_narrowed_new, map_narrowed_old]
    simp only [bind, Except.bind, hnat', hcan', Bool.not_true, Bool.false_eq_true, if_false,
      hop.natural_old, hproj, hschema', decide_eq_true_eq]
    rfl
  · rw [hexposed]; exact hcols
  · show e ∈ columns.positions
    rw [hpos]
    exact (hready.mem_keep e).mpr ⟨he, hc⟩
  · change e ∈ columns.positions at he
    rw [hpos] at he
    exact ((hready.mem_keep e).mp he).2
  · rw [happly, hnat'] at hnat''
    cases hnat''
    show (if projection = List.range natural'.length then none else some projection) ≠ _
    split
    · exact nofun
    · rename_i hne
      exact fun h => hne (Option.some.inj h)
  · rw [happly, hnat'] at hnat''
    cases hnat''
    by_cases hw : projection = List.range natural'.length
    · have hnone : (proj.apply n).projection = none := if_pos hw
      unfold Plan.exposedPart
      rw [hnone]
      rw [hw, Schema.project_range] at hschema'
      exact hschema'
    · have hsome : (proj.apply n).projection = some projection := if_neg hw
      unfold Plan.exposedPart
      rw [hsome, happly]
      simp only [hcan', Bool.not_true, Bool.false_eq_true, if_false,
        nodup_projection (Node.exposed_nodup hpart) hready.ascending hpoint, not_true]
      exact hschema'

/-! ## Nodes that expose everything -/

/-- A store, a `forEach` and a union expose their natural output. -/
theorem Node.Ready.projection_none (hready : n.Ready r keep required natural ins)
    (hcan : n.op.canProject = false) : n.projection = none := by
  obtain ⟨id, hpart⟩ := hready.part
  exact Node.projection_none hpart hcan

/-- Their natural positions are the exposed ones. -/
theorem Node.Ready.required_eq (hready : n.Ready r keep required natural ins)
    (hp : n.projection = none) : natural = n.schema ∧ required = keep := by
  obtain ⟨id, hpart⟩ := hready.part
  refine ⟨Node.natural_of_part hpart hp, Positions.ext_ascending hready.required_ascending
    hready.ascending fun m => ?_⟩
  rw [hready.mem_required, hready.mem_keep]
  have hexp : n.exposed = List.range n.schema.length := by rw [Node.exposed, hp]; rfl
  rw [hexp]
  exact Node.exists_range

/-- The node and the slice that a pass makes of an operator that exposes
everything. -/
theorem narrowed_whole (hready : n.Ready r keep required natural ins) {op' : Operator}
    (hop : n.op.Narrowed required op' ins natural cols) (hcan : n.op.canProject = false)
    {proj : Projected} (happly : proj.op.getD n.op = op') (hproj : proj.projection = none)
    (hkept : proj.kept = cols.positions)
    (hnatural : op'.natural (ins.map Slice.new) = .ok proj.schema)
    (hnew : Schema.mapNames g proj.schema = cols.schema (Schema.mapNames g n.schema))
    (hfits : cols.Fits t n.schema) (hcov : ∀ e ∈ keep, e ∈ cols.positions)
    (hexact : (∀ items, n.op ≠ .forEach items) → ∀ e ∈ cols.positions, e ∈ keep) :
    ∃ w : Slice g t, proj.kept = w.kept ∧
      n.Narrowed r required natural cols (proj.apply n) ins w := by
  have hlen : proj.schema.length = cols.length := by
    have := congrArg List.length hnew
    rwa [Schema.mapNames_length, Columns.schema_length] at this
  refine ⟨⟨n.schema, proj.schema, cols, hfits, hnew⟩, hkept, rfl, rfl, rfl, rfl, rfl, ?_, ?_,
    hready.mem_required, fun e he hc => ?_, fun hno e he => ?_, fun natural' _ => ?_,
    fun id natural' hnat' => ?_⟩
  · show n.op.Narrowed required (proj.op.getD n.op) ins natural cols
    rw [happly]
    exact hop
  · exact exposes_natural (hready.projection_none hcan) hproj hlen hfits.bounded
  · exact hcov e ((hready.mem_keep e).mpr ⟨he, hc⟩)
  · exact ((hready.mem_keep e).mp (hexact hno e he)).2
  · show proj.projection ≠ _
    rw [hproj]
    exact nofun
  · change (proj.op.getD n.op).natural _ = _ at hnat'
    rw [happly, hnatural] at hnat'
    cases hnat'
    unfold Plan.exposedPart
    rw [show (proj.apply n).projection = none from hproj]
    rfl

theorem narrowed_store {location : String} (hready : n.Ready r keep required natural ins)
    (hn : n.op = .store location)
    (hop : n.op.Narrowed required (n.op.withExpressions []) ins natural cols) :
    ∃ proj w, Projected.ofNode n keep (ins.map Slice.narrowed) = .ok proj ∧ proj.kept = w.kept ∧
      n.Narrowed r required natural cols (proj.apply n) ins w := by
  have hcan : n.op.canProject = false := by rw [hn]; rfl
  have hwith : n.op.withExpressions [] = n.op := by rw [hn]; rfl
  rw [hwith] at hop
  obtain ⟨hnat, hreq⟩ := hready.required_eq (hready.projection_none hcan)
  have hempty : natural = [] ∧ cols = [] := by
    rw [hn] at hop
    cases hop
    exact ⟨rfl, rfl⟩
  obtain ⟨rfl, rfl⟩ := hempty
  have hkeep : keep = [] := by
    refine List.eq_nil_iff_forall_not_mem.mpr fun e he => ?_
    have := ((hready.mem_keep e).mp he).1
    rw [← hnat] at this
    exact absurd this (Nat.not_lt_zero _)
  have hproj : Projected.ofNode n keep (ins.map Slice.narrowed) = .ok ⟨none, [], none, keep⟩ := by
    unfold Projected.ofNode Operator.revise
    rw [hn]
    rfl
  obtain ⟨w, hkept, hw⟩ := @narrowed_whole _ _ _ _ _ _ _ _ _ hready _ hop hcan
    ⟨none, [], none, keep⟩ rfl rfl
    (by rw [hkeep]; rfl) (by rw [hn]; rfl) (by rw [← hnat]; rfl) (hnat ▸ Columns.fits_all t [])
    (by rw [hkeep]; nofun) (fun _ => nofun)
  exact ⟨_, w, hproj, hkept, hw⟩

theorem narrowed_forEach {w : Slice g t} {items : List Item} {d : Demand}
    (hready : n.Ready r keep required natural [w]) (hn : n.op = .forEach items)
    (hnatural : n.op.natural [w.old] = .ok natural)
    (hd : (do
      let ranges ← Items.ranges items w.old
      Demand.collect (items.zip ranges) fun (item, range) =>
        Demand.ofItem w.old required item range) = .ok d)
    (hheld : d.Held t w.old.length w.kept)
    (hren : ∀ ranges, Items.ranges items w.old = .ok ranges →
      ∀ x ∈ Items.wanted required items ranges,
        x.1.expr.reads.Selects w ∧ ∃ out, x.1.expr.renumber w.narrowed.renumbering = .ok out) :
    ∃ cols proj w', Projected.ofItems items keep [w.narrowed] = .ok proj ∧ proj.kept = w'.kept ∧
      n.Narrowed r required natural cols (proj.apply n) [w] w' := by
  have hcan : n.op.canProject = false := by rw [hn]; rfl
  obtain ⟨hnat, hreq⟩ := hready.required_eq (hready.projection_none hcan)
  rw [hn] at hnatural
  obtain ⟨fss, hfss, hflat⟩ := bind_ok hnatural
  cases hflat
  have hranges : Items.ranges items w.old = .ok (Items.spans 0 (fss.map List.length)) := by
    rw [Items.ranges, hfss]; rfl
  obtain ⟨ranges, hranges', hd⟩ := bind_ok hd
  rw [hranges] at hranges'
  cases hranges'
  obtain ⟨items', cols, proj, hproj, hnar, hop, hnone, hkept, hschema, hnew⟩ :=
    Projected.ofItems_ok hfss [] fun x hx => by
      obtain ⟨hmem, hwant⟩ := List.mem_filter.mp hx
      refine ⟨?_, hren _ hranges x hx⟩
      obtain ⟨dx, hdx, hheldx⟩ := Demand.Held.collect hd hheld x hmem
      exact Demand.Held.ofItem hdx hheldx (Items.wanted_iff.mp hwant)
  have hop' : n.op.Narrowed required (.forEach items') [w] fss.flatten cols := by
    rw [hn]; exact .forEach hnar
  have hcov : ∀ e ∈ keep, e ∈ cols.positions := by
    intro e he
    have := hnar.covers e (hreq ▸ he) (Nat.zero_le _) (by
      rw [Nat.zero_add, hnat]
      exact ((hready.mem_keep e).mp he).1)
    simpa using this
  obtain ⟨w', hkept', hw'⟩ := narrowed_whole hready hop' hcan (by rw [hn]; exact hop) hnone hkept
    hschema (by rw [← hnat]; exact hnew) (by rw [← hnat]; exact hnar.fits) hcov
    (fun hno => absurd hn (hno items))
  exact ⟨cols, proj, w', by rw [← hreq]; exact hproj, hkept', hw'⟩

/-- The fields that a union keeps. -/
def Projected.unionField (u : Union) (p : Nat) : Except Error Field :=
  match u.fields[p]? with
  | some f => .ok f
  | none => .error (.internal (.noOutput "Union" p))

/-- The new position that a union takes a field from. -/
def Projected.unionSource (mapping : List (Option Nat)) (input : Narrowed) (p : Nat) :
    Except Error (Option Nat) :=
  match mapping[p]?.join with
  | some q => some <$> input.column q
  | none => .ok none

theorem Projected.ofUnion_eq (u : Union) (keep : List Nat) (inputs : List Narrowed) :
    Projected.ofUnion u keep inputs = (do
      let fields ← keep.mapM (unionField u)
      let mappings ← (u.mappings.zip inputs).mapM fun x => keep.mapM (unionSource x.1 x.2)
      return ⟨if (⟨fields, mappings⟩ : Union) = u then none else some (.union ⟨fields, mappings⟩),
        fields, none, keep⟩) := rfl

/-- One side of a union, when what is demanded of the input is held. -/
theorem Union.exists_side {u : Union} {name : String} {w : Slice g t} {m : List (Option Nat)}
    {d : Demand} (hd : Demand.ofMapping name t u required w.old m = .ok d)
    (hheld : d.Held t w.old.length w.kept) :
    ∃ m', Union.Side required u m m' w ∧
      required.mapM (Projected.unionSource m w.narrowed) = .ok m' := by
  have hknown := Demand.Held.ofMapping hd hheld
  have hstep : ∀ p ∈ required, ∃ q', (match m[p]?.join with
      | some q => ∃ r, w.narrowed.column q = .ok r ∧ q' = some r
      | none => q' = none) ∧ Projected.unionSource m w.narrowed p = .ok q' := by
    intro p hp
    obtain ⟨output, -, hsome, -⟩ := hknown p hp
    unfold Projected.unionSource
    cases hq : m[p]?.join with
    | none => exact ⟨none, rfl, rfl⟩
    | some q =>
      obtain ⟨f, -, hk, -⟩ := hsome q hq
      obtain ⟨q', hq'⟩ := Slice.exists_column hk
      exact ⟨some q', ⟨q', hq', rfl⟩, by simp only [hq']; rfl⟩
  obtain ⟨m', hm'⟩ := exists_forall₂ hstep
  refine ⟨m', ⟨hm'.imp fun _ _ h => h.1, fun p hp output ho => ?_⟩,
    mapM_ok.mpr (hm'.imp fun _ _ h => h.2)⟩
  obtain ⟨output', ho', hsome, hnone⟩ := hknown p hp
  rw [ho] at ho'
  cases ho'
  refine ⟨fun q hq => ?_, fun hq => ?_⟩
  · obtain ⟨f, hf, -, hparts⟩ := hsome q hq
    exact ⟨f, hf, hparts⟩
  · obtain ⟨hall, hw⟩ := hnone hq
    exact ⟨hall, hw⟩

theorem narrowed_union {u : Union} {name : String} {ds : List Demand}
    (hready : n.Ready r keep required natural ins) (hn : n.op = .union u)
    (hnatural : n.op.natural (ins.map Slice.old) = .ok natural)
    (htakes : n.op.Takes ins.length)
    (hd : Demand.ofOperator name t (.union u) (ins.map Slice.old) required = .ok ds)
    (hh : AllHeld ins ds) :
    ∃ cols proj w, Projected.ofUnion u keep (ins.map Slice.narrowed) = .ok proj ∧
      proj.kept = w.kept ∧ n.Narrowed r required natural cols (proj.apply n) ins w := by
  have hcan : n.op.canProject = false := by rw [hn]; rfl
  obtain ⟨hnat, hreq⟩ := hready.required_eq (hready.projection_none hcan)
  rw [hn] at hnatural htakes
  cases hnatural
  have hlen : u.mappings.length = ins.length :=
    Nat.le_antisymm htakes.least (htakes.greatest _ rfl)
  -- What is demanded of the input at a place, and that it is held.
  have hat : ∀ (i : Nat) (m : List (Option Nat)) (w : Slice g t), u.mappings[i]? = some m →
      ins[i]? = some w → ∃ d, Demand.ofMapping name t u required w.old m = .ok d ∧
        d.Held t w.old.length w.kept := by
    intro i m w hm hw
    obtain ⟨d, hdx, hheld⟩ := hh.numbered_at hd hw
    simp only [hm] at hdx
    exact ⟨d, hdx, hheld⟩
  have hfield : ∀ p ∈ required, ∃ f, u.fields[p]? = some f := fun p hp =>
    ⟨_, List.getElem?_eq_getElem (hready.required_bounded p hp)⟩
  obtain ⟨fields, hfields⟩ := exists_forall₂ hfield
  have hside : ∀ x ∈ u.mappings.zip ins, ∃ m', Union.Side required u x.1 m' x.2 ∧
      required.mapM (Projected.unionSource x.1 x.2.narrowed) = .ok m' := by
    rintro ⟨m, w⟩ hx
    obtain ⟨i, hi⟩ := List.mem_iff_getElem?.mp hx
    obtain ⟨hm, hw⟩ := List.getElem?_zip_eq_some.mp hi
    obtain ⟨d, hdx, hheld⟩ := hat i m w hm hw
    exact Union.exists_side hdx hheld
  obtain ⟨mappings, hmappings⟩ := exists_forall₂ hside
  have hnar : u.Narrowed required ⟨fields, mappings⟩ ins :=
    ⟨hfields, Along.of_zip hlen (hmappings.imp fun _ _ h => h.1)⟩
  let proj : Projected := ⟨if (⟨fields, mappings⟩ : Union) = u then none
    else some (.union ⟨fields, mappings⟩), fields, none, required⟩
  have hproj : Projected.ofUnion u keep (ins.map Slice.narrowed) = .ok proj := by
    have h₁ : required.mapM (Projected.unionField u) = .ok fields :=
      mapM_ok.mpr (hfields.imp fun p f hf => by simp only [Projected.unionField, hf])
    have h₂ : (u.mappings.zip (ins.map Slice.narrowed)).mapM
        (fun x => required.mapM (Projected.unionSource x.1 x.2)) = .ok mappings := by
      rw [List.zip_map_right, mapM_ok, List.forall₂_map_left_iff]
      exact hmappings.imp fun _ _ h => h.2
    rw [← hreq, Projected.ofUnion_eq, h₁]
    simp only [bind, Except.bind, h₂]
    rfl
  have hop : n.op.Narrowed required (.union ⟨fields, mappings⟩) ins u.fields
      (required.map fun p => (p, .whole)) := by
    rw [hn]; exact .union hnar
  have happly : proj.op.getD n.op = .union ⟨fields, mappings⟩ := by
    show (if (⟨fields, mappings⟩ : Union) = u then none
      else some (.union ⟨fields, mappings⟩)).getD n.op = _
    split
    · rename_i hsame
      rw [hn, hsame]
      rfl
    · rfl
  obtain ⟨natural', hnat', hnew⟩ := hop.natural_new
  cases hnat'
  have hrem := hop.remains hready.required_ascending hready.required_bounded
  have hpositions := Columns.positions_whole required
  obtain ⟨w, hkept, hw⟩ := narrowed_whole hready hop hcan happly rfl hpositions.symm
    rfl (by rw [← hnat]; exact hnew)
    (by
      rw [← hnat]
      refine ⟨hrem.ascending, hrem.bounded, fun x hx f hf => hrem.cuts x hx ?_ f hf⟩
      obtain ⟨p, hp, rfl⟩ := List.mem_map.mp hx
      exact hp)
    (by rw [hpositions, hreq]; exact fun _ h => h)
    (by rw [hpositions, hreq]; exact fun _ _ h => h)
  exact ⟨_, proj, w, hproj, hkept, hw⟩

/-! ## Any node -/

/-- The expressions that stay with a node can be renumbered for its inputs. -/
def Node.Renumbers (n : Node) (keep : List Nat) (ins : List (Slice g t)) : Prop :=
  match n.op with
  | .forEach items => ∀ w, ins = [w] → ∀ ranges, Items.ranges items w.old = .ok ranges →
      ∀ x ∈ Items.wanted keep items ranges,
        ∃ out, x.1.expr.renumber w.narrowed.renumbering = .ok out
  | op => ∃ rs, op.Renumbers ins rs

/-- The selections of inner columns in the expressions that stay with a node can
be made of its narrowed inputs. -/
def Node.Selects (n : Node) (keep : List Nat) (ins : List (Slice g t)) : Prop :=
  match n.op with
  | .forEach items => ∀ w, ins = [w] → ∀ ranges, Items.ranges items w.old = .ok ranges →
      ∀ x ∈ Items.wanted keep items ranges, x.1.expr.reads.Selects w
  | op => op.Selects ins

theorem Node.renumbers_iff (h : ∀ items, n.op ≠ .forEach items) :
    n.Renumbers keep ins ↔ ∃ rs, n.op.Renumbers ins rs := by
  unfold Node.Renumbers
  split
  · rename_i items hn; exact absurd hn (h items)
  · rfl

theorem Node.selects_iff (h : ∀ items, n.op ≠ .forEach items) :
    n.Selects keep ins ↔ n.op.Selects ins := by
  unfold Node.Selects
  split
  · rename_i items hn; exact absurd hn (h items)
  · rfl

/-- What is read by an item that stays is held by its input. -/
theorem AllHeld.item_met {name : String} {ds : List Demand} {w : Slice g t} {items : List Item}
    {ranges : List (Nat × Nat)}
    (hd : Demand.ofOperator name t (.forEach items) [w.old] required = .ok ds)
    (hh : AllHeld [w] ds) (hranges : Items.ranges items w.old = .ok ranges)
    {x : Item × Nat × Nat} (hx : x ∈ Items.wanted required items ranges) :
    x.1.Met t w.old w.kept := by
  simp only [Demand.ofOperator] at hd
  obtain ⟨d, hd, hheld⟩ := AllHeld.first hd hh
  rw [hranges] at hd
  obtain ⟨hmem, hwanted⟩ := List.mem_filter.mp hx
  obtain ⟨dx, hdx, hheldx⟩ := Demand.Held.collect hd hheld x hmem
  exact Demand.Held.ofItem hdx hheldx (Items.wanted_iff.mp hwanted)

/-- That is so when inner columns with one identity agree. -/
theorem Node.selects_of_coherent {name : String} {ds : List Demand}
    (hready : n.Ready r keep required natural ins) (htakes : n.op.Takes ins.length)
    (hd : Demand.ofOperator name t n.op (ins.map Slice.old) required = .ok ds)
    (hh : AllHeld ins ds) (hs : ∀ w ∈ ins, Schema.Coherent g w.old) : n.Selects keep ins := by
  by_cases hitems : ∃ items, n.op = .forEach items
  · obtain ⟨items, hn⟩ := hitems
    have hcan : n.op.canProject = false := by rw [hn]; rfl
    obtain ⟨-, rfl⟩ := hready.required_eq (hready.projection_none hcan)
    unfold Node.Selects
    rw [hn] at hd ⊢
    intro w hw ranges hranges x hx
    subst hw
    exact (AllHeld.item_met hd hh hranges hx).selects (hs w (List.mem_singleton.mpr rfl))
  · have hitems' : ∀ items, n.op ≠ .forEach items := fun items h => hitems ⟨items, h⟩
    refine (Node.selects_iff hitems').mpr fun x hx w hw => ?_
    exact Reads.selects_of_coherent (hs w (List.mem_of_getElem? hw))
      (Operator.met_of_held htakes hd hh hitems' hx hw)

theorem Node.renumbers_of_ofNode {proj : Projected}
    (h : Projected.ofNode n keep (ins.map Slice.narrowed) = .ok proj) :
    ∃ rs, n.op.Renumbers ins rs := by
  obtain ⟨changed, hchanged, -⟩ := bind_ok h
  obtain ⟨rs, hrs⟩ := forall₂_of_reviseEach hchanged
  refine ⟨rs, hrs.imp fun x r hr => ?_⟩
  rw [List.getElem?_map] at hr
  cases hw : ins[x.1]? with
  | none => rw [hw] at hr; cases hr
  | some w => rw [hw] at hr; exact ⟨w, rfl, hr⟩

/-- A pass that succeeded has renumbered the expressions that stay. -/
theorem Node.renumbers_of_ok {proj : Projected}
    (h : Projected.ofAny n keep (ins.map Slice.narrowed) = .ok proj) : n.Renumbers keep ins := by
  unfold Projected.ofAny at h
  unfold Node.Renumbers
  cases hn : n.op with
  | forEach items =>
    intro w hw ranges hranges x hx
    rw [hn, hw] at h
    change Projected.ofItems items keep [w.narrowed] = _ at h
    rw [Projected.ofItems_eq] at h
    obtain ⟨ranges', hranges', h⟩ := bind_ok h
    obtain rfl : ranges = ranges' := Except.ok.inj (hranges.symm.trans hranges')
    obtain ⟨revised, hrevised, -⟩ := bind_ok h
    obtain ⟨out, -, hout⟩ := mem_of_left (mapM_ok.mp hrevised) hx
    exact ⟨out, hout⟩
  | union u => exact ⟨[], .nil⟩
  | _ =>
    rw [hn] at h
    have hrs := Node.renumbers_of_ofNode h
    rw [hn] at hrs
    exact hrs

/-- The pass over a node whose demands are held. -/
theorem Node.narrowed_of_held {name : String} {ds : List Demand}
    (hready : n.Ready r keep required natural ins)
    (hnatural : n.op.natural (ins.map Slice.old) = .ok natural) (htakes : n.op.Takes ins.length)
    (hd : Demand.ofOperator name t n.op (ins.map Slice.old) required = .ok ds)
    (hh : AllHeld ins ds) (hsel : n.Selects keep ins) (hren : n.Renumbers keep ins) :
    ∃ cols proj w, Projected.ofAny n keep (ins.map Slice.narrowed) = .ok proj ∧
      proj.kept = w.kept ∧ n.Narrowed r required natural cols (proj.apply n) ins w := by
  unfold Projected.ofAny
  by_cases hitems : ∃ items, n.op = .forEach items
  · obtain ⟨items, hn⟩ := hitems
    unfold Node.Renumbers at hren
    unfold Node.Selects at hsel
    rw [hn] at htakes hd hren hsel ⊢
    obtain ⟨w, rfl⟩ := htakes.single rfl
    have hcan : n.op.canProject = false := by rw [hn]; rfl
    obtain ⟨-, hreq⟩ := hready.required_eq (hready.projection_none hcan)
    simp only [Demand.ofOperator] at hd
    obtain ⟨d, hd, hheld⟩ := AllHeld.first hd hh
    refine narrowed_forEach hready hn hnatural hd hheld fun ranges hranges x hx => ?_
    rw [hreq] at hx
    exact ⟨hsel w rfl ranges hranges x hx, hren w rfl ranges hranges x hx⟩
  by_cases hunion : ∃ u, n.op = .union u
  · obtain ⟨u, hn⟩ := hunion
    rw [hn] at hd ⊢
    exact narrowed_union hready hn hnatural htakes hd hh
  have hitems' : ∀ items, n.op ≠ .forEach items := fun items h => hitems ⟨items, h⟩
  have hunion' : ∀ u, n.op ≠ .union u := fun u h => hunion ⟨u, h⟩
  obtain ⟨rs, hrs⟩ := (Node.renumbers_iff hitems').mp hren
  obtain ⟨natural', cols, hop, hcov⟩ := Operator.narrows_of_held htakes hd hh
    ((Node.selects_iff hitems').mp hsel) hrs hitems' hunion'
  obtain rfl : natural' = natural := Except.ok.inj (hop.natural_old.symm.trans hnatural)
  obtain ⟨proj, w, hproj, hw⟩ : ∃ proj w,
      Projected.ofNode n keep (ins.map Slice.narrowed) = .ok proj ∧
      proj.kept = w.kept ∧ n.Narrowed r required natural' cols (proj.apply n) ins w := by
    by_cases hstore : ∃ location, n.op = .store location
    · obtain ⟨location, hn⟩ := hstore
      have hnil : rs = [] := by
        have hlen := hrs.length_eq
        rw [hn] at hlen
        exact List.length_eq_zero_iff.mp hlen.symm
      rw [hnil] at hop
      exact narrowed_store hready hn hop
    · have hcan : n.op.canProject = true := by
        cases hn : n.op with
        | forEach items => exact absurd hn (hitems' items)
        | union u => exact absurd hn (hunion' u)
        | store location => exact absurd ⟨location, hn⟩ hstore
        | _ => rfl
      exact narrowed_select hready hrs hop hcov hcan
  refine ⟨cols, proj, w, ?_, hw⟩
  split
  · rename_i items hn; exact absurd hn (hitems' items)
  · rename_i u hn; exact absurd hn (hunion' u)
  · exact hproj

end Pass

end Dataflow
