import Dataflow.Proofs.Narrowing.Rerun

/-!
# Narrowing what is narrow already

A plan that was narrowed to its requirements is not changed by narrowing it
again (`Plan.Narrowing.project_self`). Every expression that stayed reads its
columns where they are, a selection of inner columns names the first column with
each identity (`Slice.keeps_at`), no item and no column of a union is left that
is not wanted, and a node exposes what it is asked for.
-/

namespace Dataflow

open Dataflow.Expr (Renumbered)
open List (Forall₂)

variable {g : String → String} {t : Trackers}

/-! ## Expressions -/

/-- An input of which nothing was removed, as the pass keeps it. -/
def Slice.unmoved (s : Schema) : Narrowed := (Slice.refl (fun n => n) (.empty false) s).narrowed

theorem Slice.unmoved_column {s : Schema} {p q : Nat} :
    (Slice.unmoved s).column p = .ok q ↔ p = q ∧ p < s.length := by
  rw [Slice.unmoved, Slice.column_ok]
  show (Columns.all s.length).positions[q]? = some p ↔ _
  rw [Columns.positions_all]
  constructor
  · intro h
    obtain ⟨hlt, heq⟩ := List.getElem?_eq_some_iff.mp h
    rw [List.getElem_range] at heq
    rw [List.length_range] at hlt
    omega
  · rintro ⟨rfl, hlt⟩
    exact List.getElem?_range hlt

theorem Slice.unmoved_inner {s : Schema} {p : Nat} {f : Field} {inner : Schema} {cs : List Nat}
    (hf : s[p]? = some f) (hi : f.type.inner? = some inner)
    (h : ∀ c ∈ cs, ∃ x, inner[c]? = some x ∧ Schema.positionOf? inner x.uid = some c) :
    (Slice.unmoved s).inner p cs = .ok cs := by
  have hq : (Slice.unmoved s).column p = .ok p :=
    unmoved_column.mpr ⟨rfl, (List.getElem?_eq_some_iff.mp hf).1⟩
  rw [Slice.unmoved, Slice.inner_eq hq hf hf hi hi]
  refine mapM_ok.mpr (List.forall₂_same.mpr fun c hc => ?_)
  obtain ⟨x, hx, hpos⟩ := h c hc
  exact Slice.innerPosition_ok.mpr ⟨x, hx, hpos⟩

/-- An expression that reads its columns where they are. -/
def Expr.Unmoved (s : Schema) (e : Expr) : Prop :=
  ∀ x ∈ e.reads.accesses, Expr.Keeps (Slice.unmoved s).renumbering x

theorem Expr.Unmoved.renumber {s : Schema} {e : Expr} (h : e.Unmoved s) :
    e.renumber (Slice.unmoved s).renumbering = .ok (.unchanged e) := Expr.renumber_eq_self h

theorem Slice.keeps_at {w : Slice g t} {x x' : Nat × Access}
    (h : Access.Moved w.narrowed.renumbering x x')
    (hs : ∀ cs q cs', x.2 = .columns cs → w.narrowed.column x.1 = .ok q →
      w.narrowed.inner x.1 cs = .ok cs' →
      ∃ f f', w.old[x.1]? = some f ∧ w.new[q]? = some f' ∧ Slice.Selection g f f' cs cs') :
    Expr.Keeps (Slice.unmoved w.new).renumbering x' := by
  have hcolumn : ∀ {p q : Nat}, w.narrowed.renumbering.column p = .ok q →
      (Slice.unmoved w.new).column q = .ok q := fun hq => by
    obtain ⟨-, f', -, hf', -⟩ := Slice.field_at hq
    exact unmoved_column.mpr ⟨rfl, (List.getElem?_eq_some_iff.mp hf').1⟩
  cases h with
  | whole hq => exact ⟨hcolumn hq, nofun⟩
  | key k hq => exact ⟨hcolumn hq, nofun⟩
  | @columns p q cs cs' hq hcs =>
    refine ⟨hcolumn hq, fun cs₀ heq => ?_⟩
    cases heq
    obtain ⟨f, f', -, hf', -, inner, inner', -, hi', hall⟩ := hs cs q cs' rfl hq hcs
    refine unmoved_inner hf' hi' fun c' hc' => ?_
    obtain ⟨c, -, x, x', -, hx', hxx', hpos⟩ := mem_of_right hall hc'
    refine ⟨x', hx', ?_⟩
    rw [show x'.uid = x.uid by simpa using congrArg Field.uid hxx']
    exact hpos

theorem Expr.Renumbered.unmoved {w : Slice g t} {e e' : Expr}
    (h : Renumbered w.narrowed.renumbering e e') (hs : e.reads.Selects w) : e'.Unmoved w.new := by
  intro x' hx'
  obtain ⟨x, hx, hmoved⟩ := mem_of_right h.reads.accesses hx'
  exact Slice.keeps_at hmoved fun cs q cs' hcols => hs x.1 cs (by rw [← hcols]; exact hx) q cs'

/-- The expressions of narrowed items. -/
theorem Items.Narrowed.unmoved {w : Slice g t} {required : List Nat} {start : Nat}
    {items items' : List Item} {fields : List Field} {cols : Columns}
    (h : Items.Narrowed w required start items items' fields cols) :
    ∀ item' ∈ items', item'.expr.Unmoved w.new := by
  induction h with
  | nil => nofun
  | drop _ _ _ _ ih => exact ih
  | keep h _ _ ih =>
    intro item' hitem'
    rcases List.mem_cons.mp hitem' with rfl | hitem'
    · exact h.expr.unmoved h.selects
    · exact ih item' hitem'

theorem keyed_unmoved {keys keys' : List (List Expr)} {ws : List (Slice g t)}
    (h : Along (fun ks ks' w => Forall₂ (KeyReading w) ks ks') keys keys' ws) :
    ∀ x ∈ Operator.keyed keys', ∃ w, ws[x.1]? = some w ∧ x.2.Unmoved w.new := by
  intro x hx
  obtain ⟨ks', hks', hx⟩ := Operator.mem_keyed.mp hx
  obtain ⟨ks, hks⟩ : ∃ ks, keys[x.1]? = some ks :=
    ⟨_, List.getElem?_eq_getElem (h.length_eq.1 ▸ (List.getElem?_eq_some_iff.mp hks').1)⟩
  obtain ⟨ks₀, w, hks₀, hw, hall⟩ := h.getElem?_of_left hks
  rw [hks'] at hks₀
  cases hks₀
  obtain ⟨e, -, he⟩ := mem_of_right hall hx
  exact ⟨w, hw, he.expr.unmoved he.selects⟩

/-- The expressions of a narrowed operator. -/
theorem Operator.Narrowed.unmoved {required : List Nat} {op op' : Operator}
    {ws : List (Slice g t)} {natural : Schema} {cols : Columns}
    (h : op.Narrowed required op' ws natural cols) :
    ∀ x ∈ op'.expressions, ∃ w, ws[x.1]? = some w ∧ x.2.Unmoved w.new := by
  intro x hx
  cases h with
  | filter h =>
    rw [List.mem_singleton.mp hx]
    exact ⟨_, rfl, h.expr.unmoved h.selects⟩
  | orderBy keys =>
    obtain ⟨e', he', rfl⟩ := List.mem_map.mp hx
    obtain ⟨e, -, he⟩ := mem_of_right keys he'
    exact ⟨_, rfl, he.expr.unmoved he.selects⟩
  | split h =>
    obtain ⟨e', he', rfl⟩ := List.mem_map.mp hx
    obtain ⟨e, -, he⟩ := mem_of_right h he'
    exact ⟨_, rfl, he.expr.unmoved he.selects⟩
  | forEach h =>
    obtain ⟨item', hitem', rfl⟩ := List.mem_map.mp hx
    exact ⟨_, rfl, h.unmoved item' hitem'⟩
  | join keys => exact keyed_unmoved keys x hx
  | cogroup h => exact keyed_unmoved h.keys x hx
  | _ => cases hx

/-! ## Items -/

theorem Items.wanted_all {items : List Item} {widths : List Nat} {required : List Nat} {start : Nat}
    (h : ∀ x ∈ items.zip (spans start widths),
      x.1.flatten = true ∨ ∃ p ∈ required, x.2.1 ≤ p ∧ p < x.2.2) :
    wanted required items (spans start widths) = items.zip (spans start widths) := by
  unfold wanted
  refine List.filter_eq_self.mpr fun x hx => ?_
  exact wanted_iff.mpr (h x hx)

/-- Every item that stayed is wanted still. -/
theorem Items.Narrowed.wanted_again {w : Slice g t} {required req' : List Nat} {start start' : Nat}
    {items items' : List Item} {fields : List Field} {cols : Columns}
    (h : Items.Narrowed w required start items items' fields cols)
    (hreq : Forall₂ (MovedFrom start start' cols.positions) required req')
    {fss' : List (List Field)} (hfss' : items'.mapM (fun item => item.fields w.new) = .ok fss') :
    ∀ x ∈ items'.zip (spans start' (fss'.map List.length)),
      x.1.flatten = true ∨ ∃ p ∈ req', x.2.1 ≤ p ∧ p < x.2.2 := by
  induction h generalizing start' fss' with
  | nil =>
    intro x hx
    cases hx
  | @drop start item items items' fs fields cols hflat hfs hnone _ ih =>
    rw [Columns.positions_shift] at hreq
    refine ih (hreq.imp fun p q hpq => ?_) hfss'
    simpa using MovedFrom.rest (a := []) hpq fun x hx => absurd hx List.not_mem_nil
  | @keep start item item' items items' fs fields cols hitem hwant _ ih =>
    obtain ⟨fs', fss', rfl, hfs', hrest'⟩ := mapM_cons_ok hfss'
    have hp := hitem.produces
    have hlen := hp.width_eq hfs'
    rw [Columns.positions_beside, hp.positions] at hreq
    have hb : ∀ x ∈ List.range fs.length, x < fs.length := fun x => List.mem_range.mp
    rw [List.map_cons, spans, List.zip_cons_cons]
    intro x hx
    rcases List.mem_cons.mp hx with rfl | hx
    · refine hwant.imp (fun hf => hitem.flatten.trans hf) fun hex => ?_
      obtain ⟨p, hmem, h₁, h₂⟩ := hex
      obtain ⟨q, hq, hpq⟩ := mem_of_left hreq hmem
      have := (hpq.first hb).1.mp ⟨h₁, h₂⟩
      rw [List.length_range, ← hlen] at this
      exact ⟨q, hq, this⟩
    · refine ih (hreq.imp fun p q hpq => ?_) hrest' x hx
      have := hpq.rest hb
      rw [List.length_range] at this
      rw [hlen]
      exact this

/-- A `forEach` that is narrowed to what it was narrowed to before. -/
theorem Projected.ofItems_self {s : Schema} {items : List Item} {keep : List Nat}
    {fss : List (List Field)} (hfss : items.mapM (fun item => item.fields s) = .ok fss)
    (hwanted : ∀ x ∈ items.zip (Items.spans 0 (fss.map List.length)),
      x.1.flatten = true ∨ ∃ p ∈ keep, x.2.1 ≤ p ∧ p < x.2.2)
    (hexpr : ∀ item ∈ items, item.expr.Unmoved s) (rest : List Dataflow.Narrowed) :
    Projected.ofItems items keep (Slice.unmoved s :: rest) =
      .ok ⟨none, fss.flatten, none, List.range fss.flatten.length⟩ := by
  have hlen : (fss.map List.length).length = items.length := by
    rw [List.length_map, (mapM_ok.mp hfss).length_eq]
  have hranges : Items.ranges items (Slice.unmoved s).old =
      .ok (Items.spans 0 (fss.map List.length)) := by
    unfold Items.ranges
    rw [show (Slice.unmoved s).old = s from rfl, hfss]
    rfl
  have hwant := Items.wanted_all hwanted
  have hrev : (items.zip (Items.spans 0 (fss.map List.length))).mapM
      (fun x => x.1.expr.renumber (Slice.unmoved s).renumbering) =
      .ok ((items.zip (Items.spans 0 (fss.map List.length))).map fun x =>
        Revised.unchanged x.1.expr) := by
    refine mapM_ok.mpr (List.forall₂_map_right_iff.mpr (List.forall₂_same.mpr fun x hx => ?_))
    exact (hexpr x.1 (List.of_mem_zip hx).1).renumber
  have hzip : (items.zip (Items.spans 0 (fss.map List.length))).length = items.length := by
    rw [List.length_zip, Items.spans_length, hlen, Nat.min_self]
  have hsame : (((items.zip (Items.spans 0 (fss.map List.length))).map fun x =>
      Revised.unchanged x.1.expr).any Revised.changed) = false := by
    refine List.any_eq_false.mpr fun r hr => ?_
    obtain ⟨x, -, rfl⟩ := List.mem_map.mp hr
    exact Bool.false_ne_true
  have hself := Items.withExprs_eq_iff (by rw [hwant]; exact mapM_ok.mp hrev)
  rw [hwant] at hself
  replace hself := hself.mpr ⟨hzip, hsame⟩
  have hschema : Items.schema items (Slice.unmoved s).new = .ok fss.flatten := by
    unfold Items.schema
    rw [show (Slice.unmoved s).new = s from rfl, hfss]
    rfl
  have hpos : Items.positions (items.zip (Items.spans 0 (fss.map List.length))) =
      List.range fss.flatten.length := by
    rw [Items.positions_all (mapM_ok.mp hfss).length_eq.symm, List.range_eq_range']
  rw [Projected.ofItems_eq]
  simp only [hranges, hwant, hrev, bind, Except.bind, hself, hschema, hpos, List.length_range,
    hsame, hzip, ne_eq, not_true, decide_false, Bool.or_self, Bool.false_eq_true, if_false]
  rfl

/-! ## Unions -/

/-- A union that is narrowed to what it was narrowed to before. -/
theorem Projected.ofUnion_self {u : Union} {inputs : List Schema}
    (hlen : u.mappings.length = inputs.length)
    (hmapped : ∀ x ∈ u.mappings.zip inputs, x.1.length = u.fields.length ∧
      ∀ p q : Nat, x.1[p]?.join = some q → q < x.2.length) :
    Projected.ofUnion u (List.range u.fields.length) (inputs.map Slice.unmoved) =
      .ok ⟨none, u.fields, none, List.range u.fields.length⟩ := by
  have hfields : (List.range u.fields.length).mapM (Projected.unionField u) = .ok u.fields := by
    refine mapM_ok.mpr (forall₂_of_getElem? (by simp) fun i p f hp hf => ?_)
    obtain ⟨hlt, rfl⟩ := List.getElem?_eq_some_iff.mp hp
    rw [List.getElem_range]
    simp only [Projected.unionField, hf]
  have hsource : ∀ x ∈ u.mappings.zip inputs, (List.range u.fields.length).mapM
      (Projected.unionSource x.1 (Slice.unmoved x.2)) = .ok x.1 := by
    intro x hx
    obtain ⟨hwidth, hbound⟩ := hmapped x hx
    refine mapM_ok.mpr (forall₂_of_getElem? (by simp [hwidth]) fun i p q hp hq => ?_)
    obtain ⟨hlt, rfl⟩ := List.getElem?_eq_some_iff.mp hp
    rw [List.getElem_range]
    have hjoin : x.1[i]?.join = q := by rw [hq]; rfl
    simp only [Projected.unionSource, hjoin]
    cases q with
    | none => rfl
    | some q =>
      show some <$> (Slice.unmoved x.2).column q = _
      rw [Slice.unmoved_column.mpr ⟨rfl, hbound i q hjoin⟩]
      rfl
  have hmappings : (u.mappings.zip (inputs.map Slice.unmoved)).mapM (fun x =>
      (List.range u.fields.length).mapM (Projected.unionSource x.1 x.2)) = .ok u.mappings := by
    rw [List.zip_map_right, List.mapM_map, mapM_ok]
    have hzip : (u.mappings.zip inputs).map Prod.fst = u.mappings := by
      rw [List.map_fst_zip (Nat.le_of_eq hlen)]
    nth_rewrite 2 [← hzip]
    exact List.forall₂_map_right_iff.mpr (List.forall₂_same.mpr fun x hx => hsource x hx)
  rw [Projected.ofUnion_eq]
  simp only [hfields, hmappings, bind, Except.bind, if_true]
  rfl

/-! ## Other nodes -/

theorem Slice.unmoved_moved {s : Schema} {m : Nat} (hm : m < s.length) :
    (Slice.unmoved s).moved[m]?.join = some m := by
  have h := @PositionMap.ofKept_getElem? s.length (Columns.all s.length).positions
    (Columns.fits_all (.empty false) s).ascending
  rw [Columns.positions_all] at h
  show (PositionMap.ofKept s.length (Columns.all s.length).positions)[m]?.join = some m
  rw [Columns.positions_all]
  exact (h fun p hp => List.mem_range.mp hp).mpr (List.getElem?_range hm)

theorem joined_unmoved (inputs : List Schema) (offset m : Nat) (hm : m < inputs.flatten.length) :
    (Projected.joined offset (inputs.map Slice.unmoved))[m]?.join = some (m + offset) := by
  induction inputs generalizing offset m with
  | nil => cases hm
  | cons s inputs ih =>
    rw [List.flatten_cons, List.length_append] at hm
    have hlen : ((Slice.unmoved s).moved.map fun q => q.map (· + offset)).length = s.length := by
      simp [Slice.unmoved, Slice.narrowed, Slice.refl, PositionMap.ofKept]
    rw [List.map_cons, Projected.joined]
    by_cases hlt : m < s.length
    · rw [List.getElem?_append_left (hlen ▸ hlt), List.getElem?_map]
      have hmoved := Slice.unmoved_moved hlt
      cases hq : (Slice.unmoved s).moved[m]? with
      | none => rw [hq] at hmoved; cases hmoved
      | some q =>
        rw [hq] at hmoved
        obtain rfl : q = some m := hmoved
        rfl
    · rw [List.getElem?_append_right (by omega), hlen, ih _ _ (by omega)]
      show some (m - s.length + (offset + s.length)) = _
      congr 1
      omega

/-- The natural positions of an operator whose inputs lost nothing. -/
theorem naturalMap_unmoved {op : Operator} {inputs : List Schema} {natural : Schema}
    (h : op.natural inputs = .ok natural) {m : Nat} (hm : m < natural.length) :
    (Projected.naturalMap op (inputs.map Slice.unmoved) natural.length)[m]?.join = some m := by
  have hrange : ((List.range natural.length).map some)[m]?.join = some m := by
    rw [List.getElem?_map, List.getElem?_range hm]
    rfl
  cases op with
  | filter | distinct | orderBy | limit | split =>
    cases inputs with
    | nil => cases h
    | cons s inputs =>
      cases h
      exact Slice.unmoved_moved hm
  | join | cross =>
    cases h
    exact joined_unmoved inputs 0 m hm
  | load | store | forEach | cogroup | union | stream => exact hrange

/-- A node of any other kind that is narrowed to what it was narrowed to
before. -/
theorem Projected.ofNode_self {id : Nat} {n : Node} {inputs : List Schema} {natural : Schema}
    (hexpr : ∀ x ∈ n.op.expressions, ∃ s, inputs[x.1]? = some s ∧ x.2.Unmoved s)
    (hnat : n.op.natural inputs = .ok natural)
    (hpart : Plan.exposedPart id n natural = .ok n.schema)
    (hwhole : n.projection ≠ some (List.range natural.length)) :
    Projected.ofNode n (List.range n.schema.length) (inputs.map Slice.unmoved) =
      .ok ⟨none, n.schema, n.projection, List.range n.schema.length⟩ := by
  let ins := inputs.map (Slice.refl (fun n => n) (.empty false))
  have hmap : inputs.map Slice.unmoved = ins.map Slice.narrowed := by
    rw [List.map_map]; rfl
  have hrs : n.op.Renumbers ins (n.op.expressions.map fun x => .unchanged x.2) := by
    refine List.forall₂_map_right_iff.mpr (List.forall₂_same.mpr fun x hx => ?_)
    obtain ⟨s, hs, hx⟩ := hexpr x hx
    exact ⟨_, by rw [List.getElem?_map, hs]; rfl, hx.renumber⟩
  have hsame : ((n.op.expressions.map fun x => Revised.unchanged x.2).any Revised.changed) =
      false := by
    refine List.any_eq_false.mpr fun r hr => ?_
    obtain ⟨x, -, rfl⟩ := List.mem_map.mp hr
    exact Bool.false_ne_true
  have hop := hrs.eq_self hsame
  have hnew : (ins.map Slice.narrowed).map Narrowed.new = inputs := by
    rw [map_narrowed_new, List.map_map]
    exact List.map_id' inputs
  have hold : (ins.map Slice.narrowed).map Narrowed.old = inputs := by
    rw [map_narrowed_old, List.map_map]
    exact List.map_id' inputs
  have hexp := Node.exposes_of_part hpart
  have hexposing : Projected.exposing n (Projected.naturalMap n.op (ins.map Slice.narrowed)
      natural.length) (List.range n.schema.length) = .ok n.exposed := by
    refine mapM_ok.mpr (forall₂_of_getElem? (by simp [hexp.length_eq]) fun i p m hp hm => ?_)
    obtain ⟨hlt, rfl⟩ := List.getElem?_eq_some_iff.mp hp
    rw [List.getElem_range]
    obtain ⟨f, -, hf⟩ := getElem?_of_left hexp hm
    rw [← hmap]
    simp only [hm, naturalMap_unmoved hnat (List.getElem?_eq_some_iff.mp hf).1]
  have hschema : Schema.project natural n.exposed = .ok n.schema :=
    mapM_ok.mpr (hexp.imp fun _ _ => Schema.fieldAt_ok.mpr)
  unfold Projected.ofNode
  dsimp only
  rw [hmap, revise_ok hrs _ fun i e w hw => by simp only [List.getElem?_map, hw, Option.map_some],
    hnew, hold, hop, hsame]
  simp only [bind, Except.bind, hnat, hexposing, hschema, Bool.false_eq_true, if_false]
  cases hp : n.projection with
  | none =>
    obtain rfl := Node.natural_of_part hpart hp
    split
    · rfl
    · have hexposed : n.exposed = List.range n.schema.length := by rw [Node.exposed, hp]; rfl
      simp only [hexposed, decide_true, if_true]
      rfl
  | some ps =>
    have hexposed : n.exposed = ps := by rw [Node.exposed, hp]; rfl
    have hne : ps ≠ List.range natural.length := fun h => hwhole (by rw [hp, h])
    split
    · rename_i hcan
      unfold Plan.exposedPart at hpart
      simp only [hp, hcan, if_true] at hpart
      cases hpart
    · simp only [hexposed, hne, decide_false, Bool.false_eq_true, if_false]
      rfl

/-! ## The pass -/

/-- The positions that are required of a narrowed node, unless it is a
`forEach`: all of them. -/
theorem Node.Narrowed.keep_all {R r' : Required} {required keep' : List Nat} {natural : Schema}
    {cols : Columns} {n n' : Node} {ins : List (Slice g t)} {w : Slice g t}
    (h : n.Narrowed R required natural cols n' ins w) (hitems : ∀ items, n.op ≠ .forEach items)
    (hR : R.Proper) (hm : R.Moved w.kept r')
    (hkeep : r'.resolve n'.schema.length = .ok keep') : keep' = List.range n'.schema.length := by
  obtain ⟨hasc, hmem⟩ := Required.resolve_ok (hm.proper w.fits.ascending hR).ascending hkeep
  refine eq_range_of_ascending hasc (fun q hq => ((hmem q).mp hq).1) fun q hq => ?_
  rw [← h.new, ← w.kept_length] at hq
  have hmoved : MovedTo w.kept w.kept[q] q := List.getElem?_eq_getElem hq
  refine (hmem q).mpr ⟨by rw [← h.new, ← w.kept_length]; exact hq, ?_⟩
  rw [hm.contains w.fits.ascending hmoved]
  exact h.exact hitems _ (List.getElem_mem hq)

/-- A narrowed node is not narrowed any further. -/
theorem Node.Narrowed.ofAny_self {p' : Plan} {id : Nat} {R r' : Required}
    {required keep keep' : List Nat} {natural natural' : Schema} {cols : Columns} {n n' : Node}
    {ins : List (Slice g t)} {w : Slice g t}
    (h : n.Narrowed R required natural cols n' ins w)
    (hready : n.Ready R keep required natural ins)
    (hc' : p'.Checked id n' (ins.map Slice.new) natural') (hR : R.Proper)
    (hm : R.Moved w.kept r') (hkeep : r'.resolve n'.schema.length = .ok keep') :
    Projected.ofAny n' keep' ((ins.map Slice.new).map Slice.unmoved) =
      .ok ⟨none, n'.schema, n'.projection, List.range n'.schema.length⟩ := by
  have hpart' := hc'.exposed
  have hnat' := hc'.natural_eq
  by_cases hitems : ∃ items, n.op = .forEach items
  · obtain ⟨items, hn⟩ := hitems
    have hop := h.op
    rw [hn] at hop
    generalize hop' : n'.op = op' at hop
    cases hop with
    | @forEach w₁ _ items' _ _ hall =>
      rw [hop'] at hnat'
      obtain ⟨fss', hfss', heq⟩ := bind_ok hnat'
      obtain rfl : fss'.flatten = natural' := Except.ok.inj heq
      have hproj' := Node.projection_none hpart' (by rw [hop']; rfl)
      have hschema' := Node.natural_of_part hpart' hproj'
      obtain ⟨hasc', hmem'⟩ := Required.resolve_ok (hm.proper w.fits.ascending hR).ascending hkeep
      obtain ⟨id₀, hpart⟩ := hready.part
      obtain ⟨hmoved, -⟩ := h.required_moved hall.fits.ascending (Required.covers_refl R) hm
        (Node.exposes_of_part hpart).length_eq hready.required_ascending hready.mem_required hasc'
        fun q => by
          rw [hmem', Node.exposed, hproj', Option.getD_none]
          constructor
          · rintro ⟨hlt, hq⟩
            exact ⟨q, hq, List.getElem?_range hlt⟩
          · rintro ⟨e, he, heq⟩
            obtain ⟨hlt, rfl⟩ := List.getElem?_eq_some_iff.mp heq
            rw [List.getElem_range]
            exact ⟨by simpa using hlt, he⟩
      unfold Projected.ofAny
      rw [hop', hproj', ← hschema']
      exact Projected.ofItems_self hfss'
        (hall.wanted_again (hmoved.imp fun _ _ => movedFrom_zero) hfss') hall.unmoved []
  · have hkeep' := h.keep_all (fun items hn => hitems ⟨items, hn⟩) hR hm hkeep
    rw [hkeep']
    by_cases hunion : ∃ u', n'.op = .union u'
    · obtain ⟨u', hop'⟩ := hunion
      have hproj' := Node.projection_none hpart' (by rw [hop']; rfl)
      have hschema' := Node.natural_of_part hpart' hproj'
      have htakes := hc'.takes
      rw [hop'] at hnat' htakes
      obtain rfl : u'.fields = natural' := Except.ok.inj hnat'
      have hlen : u'.mappings.length = (ins.map Slice.new).length := by
        rw [Plan.edgeSchemas_length hc'.schemas]
        exact Nat.le_antisymm htakes.least (htakes.greatest _ rfl)
      unfold Projected.ofAny
      rw [hop', hproj', ← hschema']
      exact Projected.ofUnion_self hlen fun x hx =>
        ⟨(Plan.checkMapping_ok.mp (hc'.mapped u' hop' x hx)).1, fun _ _ =>
          Plan.mapped_lt (hc'.mapped u' hop' x hx)⟩
    · have hexpr : ∀ x ∈ n'.op.expressions, ∃ s, (ins.map Slice.new)[x.1]? = some s ∧
          x.2.Unmoved s := fun x hx => by
        obtain ⟨v, hv, hx⟩ := h.op.unmoved x hx
        exact ⟨v.new, by rw [List.getElem?_map, hv]; rfl, hx⟩
      have hself := Projected.ofNode_self hexpr hnat' hpart' (h.projection natural' hnat')
      unfold Projected.ofAny
      cases hop' : n'.op with
      | forEach items' =>
        refine absurd ?_ hitems
        have hop := h.op
        rw [hop'] at hop
        generalize hn : n.op = op at hop
        cases hop
        exact ⟨_, rfl⟩
      | union u' => exact absurd ⟨u', hop'⟩ hunion
      | _ => exact hself

namespace Plan

variable {p p' : Plan} {required required' : List Required} {ws : List (Slice g t)}

/-- A node of a narrowed plan, with the requirements that the narrowing left. -/
theorem Narrowing.ofAny_self (h : Narrowing required ws p p') (hcheck' : p'.check = .ok ())
    (hproper : ∀ id, (required.getD id .none).Proper)
    (hmoved : ∀ id w, ws[id]? = some w →
      (required.getD id .none).Moved w.kept (required'.getD id .none))
    {id : Nat} {n' : Node} (hn' : p'.nodes[id]? = some n') {keep' : List Nat}
    (hkeep' : (required'.getD id .none).resolve n'.schema.length = .ok keep')
    {inputs' : List Schema} (hinputs' : p'.edgeSchemas n'.inputs = .ok inputs') :
    Projected.ofAny n' keep' (inputs'.map Slice.unmoved) =
      .ok ⟨none, n'.schema, n'.projection, List.range n'.schema.length⟩ := by
  obtain ⟨n, hn⟩ := h.old_at hn'
  obtain ⟨w, ins, keep, req, natural, cols, hw, hins, hready, hnode⟩ := h.node id n n' hn hn'
  obtain ⟨inputs, natural', hc'⟩ := check_ok.mp hcheck' id n' hn'
  obtain rfl : inputs = inputs' := Except.ok.inj (hc'.schemas.symm.trans hinputs')
  obtain rfl : inputs = ins.map Slice.new := by
    have hschemas := (h.edgeSchemas hins).2
    rw [← hnode.inputs, hinputs'] at hschemas
    exact Except.ok.inj hschemas
  exact hnode.ofAny_self hready hc' (hproper id) (hmoved id w hw) hkeep'

theorem projectNode_self (h : Narrowing required ws p p') (hcheck' : p'.check = .ok ())
    (hproper : ∀ id, (required.getD id .none).Proper)
    (hmoved : ∀ id w, ws[id]? = some w →
      (required.getD id .none).Moved w.kept (required'.getD id .none))
    (hlen : required'.length = p'.nodes.length) {id : Nat} {n' : Node}
    (hn' : p'.nodes[id]? = some n') :
    projectNode required' ((p'.nodes.take id).map fun m => Slice.unmoved m.schema) n' =
      .ok ⟨none, n'.schema, n'.projection, List.range n'.schema.length⟩ := by
  have hlt' := (List.getElem?_eq_some_iff.mp hn').1
  obtain ⟨n, hn⟩ := h.old_at hn'
  obtain ⟨-, w, -, hw⟩ := h.node_at hn
  obtain ⟨-, n₀, -, hn₀, -, hnew, -⟩ := h.slice_at hw
  rw [hn'] at hn₀
  cases hn₀
  have hbelow : (required'.getD id .none).Below n'.schema.length := by
    rw [← hnew, ← w.kept_length]
    exact (hmoved id w hw).below
  obtain ⟨keep', hkeep'⟩ := Required.exists_resolve hbelow
  obtain ⟨inputs', natural', hc'⟩ := check_ok.mp hcheck' id n' hn'
  have hany := h.ofAny_self hcheck' hproper hmoved hn' hkeep' hc'.schemas
  have hdone : ((p'.nodes.take id).map fun m => Slice.unmoved m.schema).length = id := by
    rw [List.length_map, List.length_take, Nat.min_eq_left (Nat.le_of_lt hlt')]
  have hr : required'[id]? = some (required'.getD id .none) := by
    simp [show id < required'.length from hlen ▸ hlt']
  have hinputs : narrowedInputs ((p'.nodes.take id).map fun m => Slice.unmoved m.schema) n' =
      .ok (inputs'.map Slice.unmoved) := by
    unfold narrowedInputs
    rw [mapM_ok, List.forall₂_map_right_iff]
    refine forall₂_of_getElem? (edgeSchemas_length hc'.schemas).symm fun i e s he hs => ?_
    obtain ⟨s₀, hs₀, m, hm, rfl⟩ := getElem?_of_left (edgeSchemas_ok.mp hc'.schemas) he
    rw [hs] at hs₀
    cases hs₀
    obtain ⟨hearlier, -⟩ := hc'.earlier e (List.mem_of_getElem? he)
    rw [List.getElem?_map, List.getElem?_take, if_pos hearlier, hm]
    rfl
  unfold projectNode
  simp only [hdone, hr, hkeep', hinputs, bind, Except.bind, failing, Except.mapError, hany]

/-- Narrowing a narrowed plan to the same requirements changes nothing. -/
theorem Narrowing.project_self (h : Narrowing required ws p p') (hcheck' : p'.check = .ok ())
    (hproper : ∀ id, (required.getD id .none).Proper)
    (hmoved : ∀ id w, ws[id]? = some w →
      (required.getD id .none).Moved w.kept (required'.getD id .none))
    (hlen : required'.length = p'.nodes.length) : p'.project required' = (p', .ok false) := by
  have hrest : ∀ k rest, p'.nodes.drop k = rest → projectNodes required'
      ((p'.nodes.take k).map fun m => Slice.unmoved m.schema) rest = (rest, .ok false) := by
    intro k rest
    induction rest generalizing k with
    | nil => exact fun _ => rfl
    | cons n' rest ih =>
      intro hdrop
      obtain ⟨hn', hdrop'⟩ := drop_eq_cons.mp hdrop
      have hproj := projectNode_self h hcheck' hproper hmoved hlen hn'
      have hnext : ((p'.nodes.take k).map fun m => Slice.unmoved m.schema) ++
          [⟨n'.schema, n'.schema, .ofKept n'.schema.length (List.range n'.schema.length)⟩] =
          (p'.nodes.take (k + 1)).map fun m => Slice.unmoved m.schema := by
        rw [List.take_add_one, hn', List.map_append, Option.toList_some, List.map_singleton]
        simp only [Slice.unmoved, Slice.narrowed, Slice.refl, Columns.positions_all]
      simp only [projectNodes, hproj, hnext, ih (k + 1) hdrop']
      refine Prod.ext ?_ ?_
      · rfl
      · simp [Except.map, Projected.differs]
  unfold project
  have := hrest 0 p'.nodes rfl
  rw [List.take_zero, List.map_nil] at this
  rw [this]

/-- The expressions of a narrowed plan read their columns where they are. -/
theorem Narrowing.unmoved (h : Narrowing required ws p p') {id : Nat} {n' : Node}
    (hn' : p'.nodes[id]? = some n') {inputs' : List Schema}
    (hinputs' : p'.edgeSchemas n'.inputs = .ok inputs') :
    ∀ x ∈ n'.op.expressions, ∃ s, inputs'[x.1]? = some s ∧ x.2.Unmoved s := by
  intro x hx
  obtain ⟨n, hn⟩ := h.old_at hn'
  obtain ⟨_, ins, _, _, _, _, -, hins, -, hnode⟩ := h.node id n n' hn hn'
  obtain ⟨w, hw, hunmoved⟩ := hnode.op.unmoved x hx
  have hschemas := (h.edgeSchemas hins).2
  rw [← hnode.inputs, hinputs'] at hschemas
  cases hschemas
  exact ⟨w.new, by rw [List.getElem?_map, hw]; rfl, hunmoved⟩

end Plan

end Dataflow
