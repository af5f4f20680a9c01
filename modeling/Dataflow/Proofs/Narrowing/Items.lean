import Mathlib.Data.List.Flatten
import Dataflow.Proofs.Expr.Traversed
import Dataflow.Proofs.Narrowing.Demands

/-!
# Narrowed items

A `forEach` is narrowed by dropping the items of which nothing is required,
unless they unnest. Of an item that stays, every output position stays
(`Item.positions_columns`): a forwarded field keeps its own cut, the fields that
an item unnests keep theirs, and what is computed is not cut at all.

`Items.Narrowed` follows the list of items from left to right and puts the
columns of the items that stay side by side. That the pass computes a list in
this relation is `Projected.ofItems_ok`.
-/

namespace Dataflow

open Dataflow.Expr (Renumbered)

/-! ## Columns side by side -/

namespace Columns

/-- The columns of a row that stands behind `k` fields. -/
def shift (k : Nat) (cols : Columns) : Columns := cols.map fun x => (x.1 + k, x.2)

/-- The columns of two rows, the first of the given width. -/
def beside (width : Nat) (a b : Columns) : Columns := a ++ b.shift width

@[simp] theorem positions_shift (k : Nat) (cols : Columns) :
    (cols.shift k).positions = cols.positions.map (· + k) := by
  simp [positions, shift, Function.comp_def]

@[simp] theorem positions_beside (width : Nat) (a b : Columns) :
    (beside width a b).positions = a.positions ++ b.positions.map (· + width) := by
  simp [beside, positions, shift, Function.comp_def]

theorem schema_append (a b : Columns) (s : Schema) :
    (a ++ b).schema s = a.schema s ++ b.schema s := by
  simp [schema_eq_map]

theorem schema_shift (cols : Columns) (s s' : Schema) :
    (cols.shift s.length).schema (s ++ s') = cols.schema s' := by
  simp only [schema_eq_map, shift, List.map_map]
  refine List.map_congr_left fun x _ => ?_
  show x.2.field ((s ++ s').getD (x.1 + s.length) default) = _
  rw [List.getD_eq_getElem?_getD, List.getD_eq_getElem?_getD,
    List.getElem?_append_right (Nat.le_add_left ..), Nat.add_sub_cancel]

theorem schema_left {cols : Columns} {s : Schema} (h : ∀ x ∈ cols, x.1 < s.length) (s' : Schema) :
    cols.schema (s ++ s') = cols.schema s := by
  simp only [schema_eq_map]
  refine List.map_congr_left fun x hx => ?_
  rw [List.getD_eq_getElem?_getD, List.getD_eq_getElem?_getD, List.getElem?_append_left (h x hx)]

theorem schema_beside {a : Columns} {s : Schema} (h : ∀ x ∈ a, x.1 < s.length) (b : Columns)
    (s' : Schema) : (beside s.length a b).schema (s ++ s') = a.schema s ++ b.schema s' := by
  rw [beside, schema_append, schema_left h, schema_shift]

theorem mem_shift {k : Nat} {cols : Columns} {x : Nat × Cut} (h : x ∈ cols.shift k) :
    ∃ y ∈ cols, x = (y.1 + k, y.2) := by
  obtain ⟨y, hy, rfl⟩ := List.mem_map.mp h
  exact ⟨y, hy, rfl⟩

theorem Fits.shift {t : Trackers} {s s' : Schema} {b : Columns} (hb : b.Fits t s') :
    (b.shift s.length).Fits t (s ++ s') where
  ascending := by
    rw [positions_shift]
    exact hb.ascending.map _ fun _ _ h => Nat.add_lt_add_right h _
  bounded x hx := by
    obtain ⟨y, hy, rfl⟩ := mem_shift hx
    have := hb.bounded y hy
    rw [List.length_append]
    show y.1 + s.length < _
    omega
  cuts x hx f hf := by
    obtain ⟨y, hy, rfl⟩ := mem_shift hx
    refine hb.cuts y hy f ?_
    rw [← hf, List.getElem?_append_right (Nat.le_add_left ..), Nat.add_sub_cancel]

theorem Fits.beside {t : Trackers} {s s' : Schema} {a b : Columns} (ha : a.Fits t s)
    (hb : b.Fits t s') : (beside s.length a b).Fits t (s ++ s') where
  ascending := by
    rw [positions_beside]
    refine List.pairwise_append.mpr ⟨ha.ascending, ?_, fun p hp q hq => ?_⟩
    · exact hb.ascending.map _ fun _ _ h => Nat.add_lt_add_right h _
    · obtain ⟨x, hx, rfl⟩ := List.mem_map.mp hp
      obtain ⟨r, -, rfl⟩ := List.mem_map.mp hq
      have := ha.bounded x hx
      omega
  bounded x hx := by
    rcases List.mem_append.mp hx with hx | hx
    · have := ha.bounded x hx
      rw [List.length_append]
      omega
    · exact (hb.shift (s := s)).bounded x hx
  cuts x hx f hf := by
    rcases List.mem_append.mp hx with hx | hx
    · exact ha.cuts x hx f (by rwa [List.getElem?_append_left (ha.bounded x hx)] at hf)
    · exact hb.shift.cuts x hx f hf

end Columns

/-! ## One item -/

section Item

variable {g : String → String} {t : Trackers}

/-- What remains of the fields of an item that stays. -/
def Item.columns (w : Slice g t) (item : Item) (fields : List Field) : Columns :=
  if item.isStar then w.columns
  else
    match item.expr.forwards? with
    | none => .all fields.length
    | some p =>
      match if item.flatten then w.old[p]?.bind fun f => f.type.inner? else none with
      | some inner => (w.cutAt p).inside inner.length
      | none => [(0, w.cutAt p)]

/-- An item that stays, before and after. -/
structure Item.Narrowed (w : Slice g t) (item item' : Item) (fields : List Field) : Prop where
  expr : Renumbered w.narrowed.renumbering item.expr item'.expr
  flatten : item'.flatten = item.flatten
  uid : item'.uid = item.uid
  fields : item.fields w.old = .ok fields
  met : item.Met t w.old w.kept
  selects : item.expr.reads.Selects w

theorem Item.isStar_iff {item : Item} : item.isStar = true ↔ item.expr = .star := by
  unfold Item.isStar
  cases item.expr <;> simp

namespace Item.Narrowed

variable {w : Slice g t} {item item' : Item} {fields : List Field}

theorem isStar_eq (h : item.Narrowed w item' fields) : item'.isStar = item.isStar := by
  have hexpr := h.expr
  unfold Item.isStar
  generalize item.expr = e at hexpr ⊢
  generalize item'.expr = e' at hexpr ⊢
  cases hexpr <;> rfl

/-- What an item that stays produces, and what is left of it. -/
structure Produces (w : Slice g t) (item item' : Item) (fields : List Field) : Prop where
  ok : ∃ fields', item'.fields w.new = .ok fields' ∧
    Schema.mapNames g fields' = (item.columns w fields).schema (Schema.mapNames g fields)
  fits : (item.columns w fields).Fits t fields
  positions : (item.columns w fields).positions = List.range fields.length

theorem produces_star (h : item.Narrowed w item' fields) (hstar : item.isStar = true)
    (hall : ∀ i < w.old.length, i ∈ w.kept) : Produces w item item' fields := by
  have hfields := h.fields
  have hcols : item.columns w fields = w.columns := if_pos hstar
  rw [Item.fields, if_pos hstar] at hfields
  cases hfields
  refine ⟨⟨w.new, ?_, by rw [hcols]; exact w.new_eq⟩, by rw [hcols]; exact w.fits, ?_⟩
  · rw [Item.fields, if_pos (by rw [h.isStar_eq, hstar])]
  · rw [hcols]
    exact eq_range_of_ascending w.fits.ascending w.kept_bounded hall

theorem produces_forward (h : item.Narrowed w item' fields) {p : Nat} {f : Field}
    (hstar : item.isStar = false) (hp : item.expr.forwards? = some p) (hf : w.old[p]? = some f)
    (hflat : item.flatten = true → ∀ x ∈ f.forwardDemands, t.Records x) :
    Produces w item item' fields := by
  obtain ⟨q, hq, hp'⟩ := h.expr.forwards?.1 p hp
  obtain ⟨f₀, f', hf₀, hf', heq, hfits⟩ := Slice.field_at hq
  rw [hf] at hf₀
  cases hf₀
  have htype : f'.type.mapNames g = (w.cutAt p).type (f.type.mapNames g) := by
    simpa using congrArg Field.type heq
  have huid : f'.uid = f.uid := by simpa using congrArg Field.uid heq
  have hfields := h.fields
  have hstar' : item'.isStar = false := h.isStar_eq.trans hstar
  simp only [Item.fields, hstar, Bool.false_eq_true, if_false, hp, Schema.fieldAt_ok.mpr hf, bind,
    Except.bind] at hfields
  have hnew : item'.fields w.new =
      match if item'.flatten then f'.type.inner? else none with
      | some inner => .ok inner
      | none => do return [f'.rename (← item'.expr.name w.new)] := by
    simp only [Item.fields, hstar', Bool.false_eq_true, if_false, hp', Schema.fieldAt_ok.mpr hf',
      bind, Except.bind]
    rfl
  rw [h.flatten] at hnew
  cases hin : (if item.flatten then f.type.inner? else none) with
  | some inner =>
    -- The item unnests a bag or tuple, all of whose columns stay.
    rw [hin] at hfields
    cases hfields
    have hfl : item.flatten = true := by
      by_contra hno
      rw [if_neg hno] at hin
      cases hin
    rw [if_pos hfl] at hin
    obtain ⟨f₁, inner', hf₁, hi', hinner, hfit, hknown⟩ := Slice.inner_at hq hf hin
    rw [hf'] at hf₁
    cases hf₁
    have hcols : item.columns w fields = (w.cutAt p).inside fields.length := by
      simp only [Item.columns, hstar, Bool.false_eq_true, if_false, hp, hfl, if_true, hf,
        Option.bind_some, hin]
    have hall : t.bagColumns.get? f.uid = some .all := by
      refine Trackers.records_allColumns.mp (hflat hfl _ ?_)
      unfold Field.forwardDemands
      cases hty : f.type <;> rw [hty] at hin <;>
        first | exact List.mem_singleton.mpr rfl | cases hin
    refine ⟨⟨inner', by simp only [hnew, hfl, if_true, hi'], ?_⟩, by rw [hcols]; exact hfit, ?_⟩
    · rw [hcols]; exact hinner
    · rw [hcols]
      refine eq_range_of_ascending hfit.ascending (fun i hi => ?_) ?_
      · obtain ⟨x, hx, rfl⟩ := List.mem_map.mp hi
        exact hfit.bounded x hx
      · simpa only [Known, hall] using hknown
  | none =>
    rw [hin] at hfields
    obtain ⟨n, hn, hfields⟩ := bind_ok hfields
    cases hfields
    obtain ⟨n', hn', hgn⟩ := h.expr.name_ok hn
    have hin' : (if item.flatten then f'.type.inner? else none) = none := by
      by_cases hfl : item.flatten = true
      · rw [if_pos hfl] at hin ⊢
        have hc : w.cutAt p = .whole := hfits.type_eq_of_not_bag (by
          cases hty : f.type <;> rw [hty] at hin <;> first | rfl | cases hin)
        have := congrArg DataType.inner? htype
        rw [hc, Cut.type_whole, DataType.mapNames_inner?, DataType.mapNames_inner?, hin] at this
        simpa using this
      · rw [if_neg hfl]
    have hcols : item.columns w [f.rename n] = [(0, w.cutAt p)] := by
      simp only [Item.columns, hstar, Bool.false_eq_true, if_false, hp, hf, Option.bind_some, hin]
    refine ⟨⟨[f'.rename n'], by rw [hnew, hin', hn']; rfl, ?_⟩, ?_, by rw [hcols]; rfl⟩
    · rw [hcols]
      show [Field.mapNames g ⟨n', f'.type, f'.uid⟩] =
        [(w.cutAt p).field (Field.mapNames g ⟨n, f.type, f.uid⟩)]
      simp only [Field.mapNames, Cut.field, hgn, htype, huid]
    · rw [hcols]
      refine ⟨List.pairwise_singleton .., fun x hx => ?_, fun x hx y hy => ?_⟩
      · rw [List.mem_singleton.mp hx]; exact Nat.one_pos
      · rw [List.mem_singleton.mp hx] at hy ⊢
        cases hy
        exact hfits.congr rfl rfl

theorem produces_compute (h : item.Narrowed w item' fields)
    (hstar : item.isStar = false) (hp : item.expr.forwards? = none)
    (hm : item.expr.reads.Met t w.old w.kept) : Produces w item item' fields := by
  have hcols : item.columns w fields = .all fields.length := by
    simp only [Item.columns, hstar, Bool.false_eq_true, if_false, hp]
  have hstar' : item'.isStar = false := h.isStar_eq.trans hstar
  have hfields := h.fields
  simp only [Item.fields, hstar, Bool.false_eq_true, if_false, hp] at hfields
  obtain ⟨τ, hτ, hfields⟩ := bind_ok hfields
  obtain ⟨τ', hτ', heq⟩ := h.expr.type_ok hm h.selects hτ
  have hnew : item'.fields w.new =
      match if item.flatten then τ'.inner? else none with
      | some inner => .ok inner
      | none => do return [⟨← item'.expr.name w.new, τ', item.uid⟩] := by
    simp only [Item.fields, hstar', Bool.false_eq_true, if_false, h.expr.forwards?.2 hp, hτ', bind,
      Except.bind, h.flatten, h.uid]
    rfl
  have hinner : (if item.flatten then τ'.inner? else none).map (Schema.mapNames g) =
      (if item.flatten then τ.inner? else none).map (Schema.mapNames g) := by
    by_cases hfl : item.flatten = true
    · rw [if_pos hfl, if_pos hfl, ← DataType.mapNames_inner?, heq, DataType.mapNames_inner?]
    · rw [if_neg hfl, if_neg hfl]
  have hok : ∃ fields', item'.fields w.new = .ok fields' ∧
      Schema.mapNames g fields' = Schema.mapNames g fields := by
    cases hin : (if item.flatten then τ.inner? else none) with
    | some inner =>
      rw [hin] at hfields hinner
      cases hfields
      obtain ⟨inner', hi', hii⟩ := Option.map_eq_some_iff.mp hinner
      exact ⟨inner', by rw [hnew, hi'], hii⟩
    | none =>
      rw [hin] at hfields hinner
      obtain ⟨n, hn, hfields⟩ := bind_ok hfields
      cases hfields
      obtain ⟨n', hn', hgn⟩ := h.expr.name_ok hn
      have hi' : (if item.flatten then τ'.inner? else none) = none := by simpa using hinner
      refine ⟨[⟨n', τ', item.uid⟩], by rw [hnew, hi', hn']; rfl, ?_⟩
      simp only [Schema.mapNames, Field.mapNames, hgn, heq]
  obtain ⟨fields', hok, heqf⟩ := hok
  refine ⟨⟨fields', hok, ?_⟩, by rw [hcols]; exact Columns.fits_all t fields, by rw [hcols]; simp⟩
  rw [hcols, heqf, ← Schema.mapNames_length (g := g) fields, Columns.schema_all]

/-- An item that stays produces what is left of its fields, and all of them are
left. -/
theorem produces (h : item.Narrowed w item' fields) :
    Produces w item item' fields := by
  cases h.met with
  | star hstar hall => exact h.produces_star hstar hall
  | forward hstar hp hf hk hflat => exact h.produces_forward hstar hp hf hflat
  | compute hstar hp hm _ => exact h.produces_compute hstar hp hm

/-- An item that stays is as wide as it was. -/
theorem Produces.width_eq {fields' : List Field} (h : Produces w item item' fields)
    (h' : item'.fields w.new = .ok fields') :
    fields'.length = fields.length := by
  obtain ⟨fields₀, hok, hnames⟩ := h.ok
  obtain rfl : fields' = fields₀ := Except.ok.inj (h'.symm.trans hok)
  have hlen := congrArg List.length hnames
  have hpos := congrArg List.length h.positions
  rw [Schema.mapNames_length, Columns.schema_length] at hlen
  rw [Columns.positions, List.length_map, List.length_range] at hpos
  exact hlen.trans hpos

end Item.Narrowed

end Item

/-! ## All items -/

namespace Items

variable {g : String → String} {t : Trackers}

/-- Items before and after, from the output position `start` on: what they
produce and what is left of it. -/
inductive Narrowed (w : Slice g t) (required : List Nat) :
    Nat → List Item → List Item → List Field → Columns → Prop
  | nil (start : Nat) : Narrowed w required start [] [] [] []
  | drop {start : Nat} {item : Item} {items items' : List Item} {fs fields : List Field}
      {cols : Columns} (hflat : item.flatten = false) (hfs : item.fields w.old = .ok fs)
      (hnone : ∀ p ∈ required, start ≤ p → ¬ p < start + fs.length)
      (rest : Narrowed w required (start + fs.length) items items' fields cols) :
      Narrowed w required start (item :: items) items' (fs ++ fields) (cols.shift fs.length)
  | keep {start : Nat} {item item' : Item} {items items' : List Item} {fs fields : List Field}
      {cols : Columns} (h : item.Narrowed w item' fs)
      (hwant : item.flatten = true ∨ ∃ p ∈ required, start ≤ p ∧ p < start + fs.length)
      (rest : Narrowed w required (start + fs.length) items items' fields cols) :
      Narrowed w required start (item :: items) (item' :: items') (fs ++ fields)
        (Columns.beside fs.length (item.columns w fs) cols)

namespace Narrowed

variable {w : Slice g t} {required : List Nat} {start : Nat} {items items' : List Item}
  {fields : List Field} {cols : Columns}

theorem old_ok (h : Narrowed w required start items items' fields cols) :
    ∃ fss, items.mapM (fun item => item.fields w.old) = .ok fss ∧ fss.flatten = fields := by
  induction h with
  | nil => exact ⟨[], rfl, rfl⟩
  | @drop _ _ _ _ fs _ _ _ hfs _ _ ih =>
    obtain ⟨fss, hfss, rfl⟩ := ih
    exact ⟨fs :: fss, mapM_ok.mpr (.cons hfs (mapM_ok.mp hfss)), rfl⟩
  | @keep _ _ _ _ _ fs _ _ h _ _ ih =>
    obtain ⟨fss, hfss, rfl⟩ := ih
    exact ⟨fs :: fss, mapM_ok.mpr (.cons h.fields (mapM_ok.mp hfss)), rfl⟩

theorem new_ok (h : Narrowed w required start items items' fields cols) :
    ∃ fss, items'.mapM (fun item => item.fields w.new) = .ok fss ∧
      Schema.mapNames g fss.flatten = cols.schema (Schema.mapNames g fields) := by
  induction h with
  | nil => exact ⟨[], rfl, rfl⟩
  | @drop _ _ _ _ fs _ cols _ _ _ _ ih =>
    obtain ⟨fss, hfss, heq⟩ := ih
    refine ⟨fss, hfss, ?_⟩
    rw [heq, Schema.mapNames_append, ← Schema.mapNames_length (g := g) fs, Columns.schema_shift]
  | @keep _ _ _ _ _ fs _ _ h _ _ ih =>
    obtain ⟨fss, hfss, heq⟩ := ih
    have hp := h.produces
    obtain ⟨fs', hfs', heq'⟩ := hp.ok
    refine ⟨fs' :: fss, mapM_ok.mpr (.cons hfs' (mapM_ok.mp hfss)), ?_⟩
    rw [List.flatten_cons, Schema.mapNames_append, Schema.mapNames_append, heq, heq',
      ← Schema.mapNames_length (g := g) fs]
    exact (Columns.schema_beside (by rw [Schema.mapNames_length]; exact hp.fits.bounded) ..).symm

theorem fits (h : Narrowed w required start items items' fields cols) : cols.Fits t fields := by
  induction h with
  | nil => exact Columns.fits_all t []
  | drop _ _ _ _ ih => exact ih.shift
  | keep h _ _ ih => exact (h.produces).fits.beside ih

/-- Every required position stays. -/
theorem covers (h : Narrowed w required start items items' fields cols) :
    ∀ p ∈ required, start ≤ p → p < start + fields.length → p - start ∈ cols.positions := by
  induction h with
  | nil start =>
    intro p _ h₁ h₂
    rw [List.length_nil] at h₂
    omega
  | @drop start _ _ _ fs fields cols _ _ hnone _ ih =>
    intro p hp h₁ h₂
    rw [List.length_append] at h₂
    have hge := hnone p hp h₁
    rw [Columns.positions_shift]
    refine List.mem_map.mpr ⟨_, ih p hp (by omega) (by omega), by omega⟩
  | @keep start _ _ _ _ fs fields cols h _ _ ih =>
    intro p hp h₁ h₂
    rw [List.length_append] at h₂
    rw [Columns.positions_beside, (h.produces).positions]
    by_cases hlt : p < start + fs.length
    · exact List.mem_append_left _ (List.mem_range.mpr (by omega))
    · refine List.mem_append_right _ (List.mem_map.mpr ⟨_, ih p hp (by omega) (by omega), by omega⟩)

end Narrowed

/-! ## The pass over items -/

/-- The items that stay, with their output positions. -/
def wanted (required : List Nat) (items : List Item) (ranges : List (Nat × Nat)) :
    List (Item × Nat × Nat) :=
  (items.zip ranges).filter fun (item, start, stop) =>
    item.flatten || required.any fun p => start ≤ p && p < stop

def withExprs (kept : List (Item × Nat × Nat)) (revised : List (Revised Expr)) : List Item :=
  List.zipWith (fun x e => { x.1 with expr := e.value }) kept revised

def positions (kept : List (Item × Nat × Nat)) : List Nat :=
  kept.flatMap fun x => List.range' x.2.1 (x.2.2 - x.2.1)

theorem spans_length (start : Nat) (widths : List Nat) :
    (spans start widths).length = widths.length := by
  induction widths generalizing start with
  | nil => rfl
  | cons w widths ih => exact congrArg Nat.succ (ih _)

theorem wanted_cons {required : List Nat} {item : Item} {items : List Item} {start width : Nat}
    {widths : List Nat} :
    wanted required (item :: items) (spans start (width :: widths)) =
      if item.flatten || required.any fun p => start ≤ p && p < start + width then
        (item, start, start + width) :: wanted required items (spans (start + width) widths)
      else wanted required items (spans (start + width) widths) := by
  unfold wanted
  rw [spans, List.zip_cons_cons, List.filter_cons]

theorem wanted_iff {required : List Nat} {item : Item} {start stop : Nat} :
    (item.flatten || required.any fun p => start ≤ p && p < stop) = true ↔
      item.flatten = true ∨ ∃ p ∈ required, start ≤ p ∧ p < stop := by
  simp

/-- The positions of all items are all positions. -/
theorem positions_all {items : List Item} {fss : List (List Field)} {start : Nat}
    (hlen : fss.length = items.length) :
    positions (items.zip (spans start (fss.map List.length))) =
      List.range' start fss.flatten.length := by
  induction items generalizing fss start with
  | nil =>
    rw [List.length_eq_zero_iff.mp hlen]
    rfl
  | cons item items ih =>
    obtain ⟨fs, fss, rfl⟩ := List.exists_cons_of_length_eq_add_one hlen
    rw [List.map_cons, spans, List.zip_cons_cons, positions, List.flatMap_cons]
    show List.range' start (start + fs.length - start) ++ positions _ = _
    rw [ih (Nat.succ.inj hlen), Nat.add_sub_cancel_left, List.flatten_cons, List.length_append,
      List.range'_append_1]

/-- The output positions of the items that stay are some of all positions, in
order. -/
theorem positions_sublist {required : List Nat} {items : List Item} {fss : List (List Field)}
    {start : Nat} (hlen : fss.length = items.length) :
    (positions (wanted required items (spans start (fss.map List.length)))).Sublist
      (List.range' start fss.flatten.length) := by
  rw [← positions_all hlen]
  exact List.Sublist.flatMap List.filter_sublist _

/-- The pass over items, given that those that stay can be renumbered. -/
theorem narrowed_of_met {w : Slice g t} {required : List Nat}
    {items : List Item} {fss : List (List Field)}
    (hfss : List.Forall₂ (fun (item : Item) fs => item.fields w.old = .ok fs) items fss)
    {start : Nat}
    (hmet : ∀ x ∈ wanted required items (spans start (fss.map List.length)),
      x.1.Met t w.old w.kept ∧ x.1.expr.reads.Selects w ∧
        ∃ out, x.1.expr.renumber w.narrowed.renumbering = .ok out) :
    ∃ revised cols,
      (wanted required items (spans start (fss.map List.length))).mapM
        (fun x => x.1.expr.renumber w.narrowed.renumbering) = .ok revised ∧
      Narrowed w required start items
        (withExprs (wanted required items (spans start (fss.map List.length))) revised)
        fss.flatten cols ∧
      positions (wanted required items (spans start (fss.map List.length))) =
        cols.positions.map (· + start) := by
  induction hfss generalizing start with
  | nil => exact ⟨[], [], rfl, .nil start, rfl⟩
  | @cons item fs items fss hfs _ ih =>
    rw [List.map_cons, wanted_cons] at hmet ⊢
    by_cases hw : (item.flatten || required.any fun p => start ≤ p && p < start + fs.length) = true
    · rw [if_pos hw] at hmet ⊢
      obtain ⟨revised, cols, hrev, hnar, hpos⟩ := ih fun x hx => hmet x (List.mem_cons_of_mem _ hx)
      obtain ⟨hm, hsel, out, hout⟩ := hmet _ (List.mem_cons_self ..)
      have hitem : item.Narrowed w { item with expr := out.value } fs :=
        ⟨Expr.renumbered_of_ok hout, rfl, rfl, hfs, hm, hsel⟩
      refine ⟨out :: revised, Columns.beside fs.length (item.columns w fs) cols,
        mapM_ok.mpr (.cons hout (mapM_ok.mp hrev)), .keep hitem (wanted_iff.mp hw) hnar, ?_⟩
      rw [positions, List.flatMap_cons, Columns.positions_beside, (hitem.produces).positions,
        List.map_append]
      refine congrArg₂ (· ++ ·) ?_ ?_
      · rw [Nat.add_sub_cancel_left, List.range'_eq_map_range]
        exact List.map_congr_left fun i _ => Nat.add_comm ..
      · rw [List.map_map]
        refine hpos.trans (List.map_congr_left fun i _ => ?_)
        show i + (start + fs.length) = i + fs.length + start
        omega
    · rw [if_neg hw] at hmet ⊢
      obtain ⟨revised, cols, hrev, hnar, hpos⟩ := ih hmet
      have hno := fun h => hw (wanted_iff.mpr h)
      refine ⟨revised, cols.shift fs.length, hrev, .drop ?_ hfs (fun p hp h₁ h₂ => ?_) hnar, ?_⟩
      · rw [← Bool.not_eq_true]; exact fun h => hno (Or.inl h)
      · exact hno (Or.inr ⟨p, hp, h₁, h₂⟩)
      · rw [hpos, Columns.positions_shift, List.map_map]
        refine List.map_congr_left fun i _ => ?_
        show i + (start + fs.length) = i + fs.length + start
        omega

theorem wanted_sublist (required : List Nat) (items : List Item) (ranges : List (Nat × Nat)) :
    ((wanted required items ranges).map Prod.fst).Sublist items := by
  refine (List.filter_sublist.map Prod.fst).trans ?_
  induction items generalizing ranges with
  | nil => exact List.Sublist.refl _
  | cons item items ih =>
    cases ranges with
    | nil => exact List.nil_sublist _
    | cons range ranges => exact (ih ranges).cons_cons item

section Renumbered

variable {ε : Type} {r : Renumbering ε} {revised : List (Revised Expr)}

/-- Items are the same with their expressions renumbered exactly when none is
reported as changed. -/
theorem withExprs_eq_fst_iff {kept : List (Item × Nat × Nat)}
    (hrev : List.Forall₂ (fun (x : Item × Nat × Nat) out => x.1.expr.renumber r = .ok out)
      kept revised) :
    withExprs kept revised = kept.map Prod.fst ↔ revised.any Revised.changed = false := by
  induction hrev with
  | nil => exact ⟨fun _ => rfl, fun _ => rfl⟩
  | @cons x out kept revised hout _ ih =>
    have hitem : { x.1 with expr := out.value } = x.1 ↔ out.changed = false := by
      rw [Expr.unchanged_iff hout]
      exact ⟨congrArg Item.expr, fun h => by rw [h]⟩
    rw [List.any_cons, Bool.or_eq_false_iff, ← hitem, ← ih, List.map_cons, ← List.cons.injEq]
    rfl

/-- The items are the same after the pass exactly when every one stays and none
is reported as changed. -/
theorem withExprs_eq_iff {required : List Nat} {items : List Item} {ranges : List (Nat × Nat)}
    (hrev : List.Forall₂ (fun (x : Item × Nat × Nat) out => x.1.expr.renumber r = .ok out)
      (wanted required items ranges) revised) :
    withExprs (wanted required items ranges) revised = items ↔
      (wanted required items ranges).length = items.length ∧
        revised.any Revised.changed = false := by
  have hall : (wanted required items ranges).length = items.length →
      (wanted required items ranges).map Prod.fst = items := fun hlen =>
    (wanted_sublist required items ranges).eq_of_length (by rw [List.length_map, hlen])
  rw [← withExprs_eq_fst_iff hrev]
  constructor
  · intro hsame
    have hlen : (wanted required items ranges).length = items.length := by
      conv_rhs => rw [← hsame, withExprs, List.length_zipWith, ← hrev.length_eq, Nat.min_self]
    exact ⟨hlen, hsame.trans (hall hlen).symm⟩
  · rintro ⟨hlen, hsame⟩
    exact hsame.trans (hall hlen)

end Renumbered

end Items

/-- The pass over a `forEach`, in the terms used here. -/
theorem Projected.ofItems_eq (items : List Item) (required : List Nat) (input : Narrowed)
    (rest : List Narrowed) :
    Projected.ofItems items required (input :: rest) = (do
      let ranges ← Items.ranges items input.old
      let kept := Items.wanted required items ranges
      let revised ← kept.mapM fun x => x.1.expr.renumber input.renumbering
      let changed := decide (kept.length ≠ items.length) || revised.any Revised.changed
      let schema ← Items.schema (Items.withExprs kept revised) input.new
      if schema.length ≠ (Items.positions kept).length then
        .error (.internal (.itemWidth schema.length (Items.positions kept).length))
      else return ⟨if changed then some (.forEach (Items.withExprs kept revised)) else none, schema,
        none, Items.positions kept⟩) := rfl

/-- The pass over a `forEach` whose items that stay have been demanded and can
be renumbered. -/
theorem Projected.ofItems_ok {g : String → String} {t : Trackers} {w : Slice g t}
    {required : List Nat} {items : List Item}
    {fss : List (List Field)} (hfss : items.mapM (fun item => item.fields w.old) = .ok fss)
    (rest : List Narrowed)
    (hmet : ∀ x ∈ Items.wanted required items (Items.spans 0 (fss.map List.length)),
      x.1.Met t w.old w.kept ∧ x.1.expr.reads.Selects w ∧
        ∃ out, x.1.expr.renumber w.narrowed.renumbering = .ok out) :
    ∃ items' cols proj, Projected.ofItems items required (w.narrowed :: rest) = .ok proj ∧
      Items.Narrowed w required 0 items items' fss.flatten cols ∧
      proj.op.getD (.forEach items) = .forEach items' ∧ proj.projection = none ∧
      proj.kept = cols.positions ∧ Items.schema items' w.new = .ok proj.schema ∧
      Schema.mapNames g proj.schema = cols.schema (Schema.mapNames g fss.flatten) := by
  obtain ⟨revised, cols, hrev, hnar, hpos⟩ := Items.narrowed_of_met (mapM_ok.mp hfss) hmet
  obtain ⟨fss', hfss', heq⟩ := hnar.new_ok
  have hranges : Items.ranges items w.narrowed.old = .ok (Items.spans 0 (fss.map List.length)) := by
    unfold Items.ranges
    rw [show w.narrowed.old = w.old from rfl, hfss]
    rfl
  have hschema : Items.schema
      (Items.withExprs (Items.wanted required items (Items.spans 0 (fss.map List.length))) revised)
      w.narrowed.new = .ok fss'.flatten := by
    unfold Items.schema
    rw [show w.narrowed.new = w.new from rfl, hfss']
    rfl
  have hkept : Items.positions (Items.wanted required items (Items.spans 0 (fss.map List.length))) =
      cols.positions := by rw [hpos]; simp
  have hlen : fss'.flatten.length = cols.positions.length := by
    have := congrArg List.length heq
    rw [Schema.mapNames_length, Columns.schema_length] at this
    simpa [Columns.positions] using this
  have hself := Items.withExprs_eq_iff (mapM_ok.mp hrev)
  generalize hk : Items.wanted required items (Items.spans 0 (fss.map List.length)) = kept at *
  refine ⟨_, cols, ⟨if decide (kept.length ≠ items.length) || revised.any Revised.changed then
    some (.forEach (Items.withExprs kept revised)) else none, fss'.flatten, none, cols.positions⟩,
    ?_, hnar, ?_, rfl, rfl, hschema, heq⟩
  · simp only [Projected.ofItems_eq, hranges, hk, hrev, hschema, bind, Except.bind, hkept, hlen,
      ne_eq, not_true, if_false]
    rfl
  · dsimp only
    split
    · rfl
    · rename_i hch
      rw [Bool.not_eq_true, Bool.or_eq_false_iff] at hch
      rw [hself.mpr ⟨by simpa using hch.1, hch.2⟩]
      rfl

end Dataflow
