import Dataflow.Proofs.Execution.Rows

/-!
# Items on narrowed rows

A `forEach` combines what its items contribute to a row. An item that stays
contributes the rows it did, narrowed to what is left of its fields
(`Item.Narrowed.rows`). An item that is dropped does not unnest, so it
contributed a single row, and without it the combinations are as many as before
(`Items.Narrowed.product`).

Rows of the width that the item declares are needed here: a bag or tuple whose
rows are longer or shorter would move the columns of the items behind it.
-/

namespace Dataflow

open List (Forall₂)

variable {g : String → String} {t : Trackers} {restricted : Bool} {w : Slice g t}

namespace Run

/-- The rows that a value contributes, given the width of its item. -/
def contributed (flatten : Bool) (width : Nat) (v : Value) : List Row :=
  match flatten, v with
  | true, .bag rows => rows
  | true, .tuple values => [values]
  | true, .null => [List.replicate width .null]
  | _, v => [[v]]

theorem itemRows_star {s : Schema} {row : Row} {item : Item} (h : item.isStar = true) :
    itemRows s row item = .ok [row] := if_pos h

theorem itemRows_ok {s : Schema} {row : Row} {item : Item} (hstar : item.isStar = false)
    {fields : List Field} (hfields : item.fields s = .ok fields) {out : List Row} :
    itemRows s row item = .ok out ↔
      ∃ v, item.expr.eval row = .ok v ∧ out = contributed item.flatten fields.length v := by
  have heq : itemRows s row item =
      (do return contributed item.flatten fields.length (← item.expr.eval row)) := by
    simp only [itemRows, hstar, Bool.false_eq_true, if_false, hfields, failing, Except.mapError,
      bind, Except.bind]
    cases item.expr.eval row with
    | error e => rfl
    | ok v =>
      dsimp only
      unfold contributed
      cases item.flatten <;> cases v <;> rfl
  rw [heq]
  constructor
  · intro h
    obtain ⟨v, hv, h⟩ := bind_ok h
    cases h
    exact ⟨v, hv, rfl⟩
  · rintro ⟨v, hv, rfl⟩
    rw [hv]
    rfl

end Run

/-- A column under names has the value of the column. -/
theorem Expr.eval_of_forwards? {e : Expr} {p : Nat} (h : e.forwards? = some p) (row : Row) :
    e.eval row = (Expr.column p).eval row := by
  induction e using readingInduction with
  | column q => cases h; rfl
  | unary op e _ ih =>
    cases op with
    | named name =>
      show (e.eval row >>= fun v => v.unary (.named name)) = _
      rw [ih h]
      cases (Expr.column p).eval row <;> rfl
    | _ => cases h
  | _ => cases h

namespace Item.Narrowed

open Run (itemRows contributed)

variable {item item' : Item} {fields : List Field} {row row' : Row} {out : List Row}

/-- A value that is not cut contributes the same rows. -/
theorem contributed_all (hwidth : ∀ r ∈ out, r.length = fields.length) :
    Forall₂ (Row.Kept t restricted fields (.all fields.length)) out out :=
  List.forall₂_same.mpr fun r hr => Row.Kept.all (hwidth r hr)

/-- What a bag or tuple contributes when it is unnested. -/
theorem contributed_inner {f : Field} {c : Cut} {inner : Schema} {v v' : Value}
    (h : Value.Kept t restricted f c v v') (hi : f.type.inner? = some inner)
    (hcols : (c.inside inner.length).length = inner.length)
    (hwidth : ∀ r ∈ contributed true inner.length v, r.length = inner.length) :
    Forall₂ (Row.Kept t restricted inner (c.inside inner.length))
      (contributed true inner.length v) (contributed true inner.length v') := by
  cases h with
  | same => exact contributed_all hwidth
  | null =>
    have hnull := @Row.Kept.nulls t restricted inner (c.inside inner.length)
    rw [hcols] at hnull
    exact .cons hnull .nil
  | map hr hf => cases hty : f.type <;> rw [hty] at hi hf <;> first | cases hi; done | cases hf
  | @bag _ _ inner₀ rows rows' hf hlen hwid hrow =>
    rw [hf] at hi
    cases hi
    refine forall₂_of_getElem? hlen fun i r r' hr hr' => ?_
    obtain ⟨h₁, h₂⟩ := hwid i r r' hr hr'
    exact ⟨h₁, h₂, hrow i r r' hr hr'⟩

/-- What a field contributes that is passed on as it is. -/
theorem contributed_field {f : Field} {c : Cut} {v v' : Value} {flatten : Bool} (n : String)
    (h : Value.Kept t restricted f c v v') (hi : flatten = true → f.type.inner? = none)
    (hwidth : ∀ r ∈ contributed flatten 1 v, r.length = 1) :
    Forall₂ (Row.Kept t restricted [f.rename n] [(0, c)]) (contributed flatten 1 v)
      (contributed flatten 1 v') := by
  have hone : ∀ {u u' : Value}, Value.Kept t restricted f c u u' →
      Row.Kept t restricted [f.rename n] [(0, c)] [u] [u'] := fun hu =>
    ⟨rfl, rfl, fun q p c' f' x x' hq hf hx hx' => by
      cases q with
      | succ q => cases hq
      | zero =>
        cases hq
        cases hf
        cases hx
        cases hx'
        exact hu.congr rfl rfl⟩
  cases h with
  | same => exact @contributed_all _ _ [f.rename n] _ hwidth
  | null => cases flatten <;> exact .cons (hone (.null f c)) .nil
  | map hr hf htrack hkeys hl =>
    cases flatten <;> exact .cons (hone (.map hr hf htrack hkeys hl)) .nil
  | bag hf hlen hwid hrow =>
    cases flatten with
    | false => exact .cons (hone (.bag hf hlen hwid hrow)) .nil
    | true =>
      have := hi rfl
      rw [hf] at this
      cases this

/-- What an item that stays contributes to a row. -/
theorem rows (h : item.Narrowed w item' fields) (hx : item.expr.reads.Exact w)
    (hrow : Row.Kept t restricted w.old w.columns row row')
    (hout : itemRows w.old row item = .ok out) (hwidth : ∀ r ∈ out, r.length = fields.length) :
    ∃ out', itemRows w.new row' item' = .ok out' ∧
      Forall₂ (Row.Kept t restricted fields (item.columns w fields)) out out' := by
  have hp := h.produces
  have hcols : (item.columns w fields).length = fields.length := by
    have := congrArg List.length hp.positions
    simpa [Columns.positions] using this
  by_cases hstar : item.isStar = true
  · rw [Run.itemRows_star hstar] at hout
    cases hout
    refine ⟨[row'], Run.itemRows_star (h.isStar_eq.trans hstar), .cons ?_ .nil⟩
    have hfields := h.fields
    rw [Item.fields, if_pos hstar] at hfields
    cases hfields
    rwa [Item.columns, if_pos hstar]
  rw [Bool.not_eq_true] at hstar
  have hstar' := h.isStar_eq.trans hstar
  obtain ⟨fields', hfields', -⟩ := hp.ok
  have hlen := hp.width_eq hfields'
  obtain ⟨v, hv, rfl⟩ := (Run.itemRows_ok hstar h.fields).mp hout
  -- It remains to compare the values of the two expressions.
  suffices hval : ∃ v', item'.expr.eval row' = .ok v' ∧
      Forall₂ (Row.Kept t restricted fields (item.columns w fields))
        (contributed item.flatten fields.length v) (contributed item.flatten fields.length v') by
    obtain ⟨v', hv', hrel⟩ := hval
    refine ⟨_, (Run.itemRows_ok hstar' hfields').mpr ⟨v', hv', rfl⟩, ?_⟩
    rwa [h.flatten, hlen]
  cases h.met with
  | star hstar₀ => rw [hstar] at hstar₀; cases hstar₀
  | compute _ hfwd hm =>
    refine ⟨v, h.expr.eval_ok hm hx hrow hv, ?_⟩
    rw [Item.columns, hstar, hfwd]
    exact contributed_all hwidth
  | @forward p f _ hfwd hf hk hflat =>
    obtain ⟨q, hq, hfwd'⟩ := h.expr.forwards?.1 p hfwd
    rw [Expr.eval_of_forwards? hfwd, Expr.eval_column] at hv
    obtain ⟨f₀, v', hf₀, hv', hfits, hkept⟩ := Expr.kept_at hrow hq hv
    rw [hf] at hf₀
    cases hf₀
    refine ⟨v', by rw [Expr.eval_of_forwards? hfwd', Expr.eval_column, hv'], ?_⟩
    have hfields := h.fields
    simp only [Item.fields, hstar, Bool.false_eq_true, if_false, hfwd, Schema.fieldAt_ok.mpr hf,
      bind, Except.bind] at hfields
    simp only [Item.columns, hstar, Bool.false_eq_true, if_false, hfwd, hf, Option.bind_some]
      at hcols ⊢
    cases hin : (if item.flatten then f.type.inner? else none) with
    | some inner =>
      rw [hin] at hfields
      simp only [hin] at hcols ⊢
      cases hfields
      have hfl : item.flatten = true := by
        by_contra hno
        rw [if_neg hno] at hin
        cases hin
      rw [if_pos hfl] at hin
      rw [hfl] at hwidth ⊢
      exact contributed_inner hkept hin hcols hwidth
    | none =>
      rw [hin] at hfields
      obtain ⟨n, -, hfields⟩ := bind_ok hfields
      cases hfields
      refine contributed_field n hkept (fun hfl => ?_) hwidth
      rwa [if_pos hfl] at hin

end Item.Narrowed

/-! ## All items -/

/-- An item that does not unnest contributes a single row. -/
theorem Run.itemRows_single {s : Schema} {row : Row} {item : Item} (hflat : item.flatten = false)
    {fields : List Field} (hfields : item.fields s = .ok fields) {out : List Row}
    (hout : Run.itemRows s row item = .ok out) : ∃ r, out = [r] := by
  by_cases hstar : item.isStar = true
  · rw [Run.itemRows_star hstar] at hout
    exact ⟨row, (Except.ok.inj hout).symm⟩
  · rw [Bool.not_eq_true] at hstar
    obtain ⟨v, -, rfl⟩ := (Run.itemRows_ok hstar hfields).mp hout
    rw [hflat]
    exact ⟨[v], by cases v <;> rfl⟩

namespace Items.Narrowed

open Run (itemRows pairUp product)

variable {required : List Nat} {start : Nat} {items items' : List Item} {fields : List Field}
  {cols : Columns} {row row' : Row} {lists : List (List Row)}

/-- Combining what the items contribute with rows that are there already. -/
theorem foldl_pairUp (h : Items.Narrowed w required start items items' fields cols)
    (hx : ∀ item ∈ items, item.expr.reads.Exact w)
    (hrow : Row.Kept t restricted w.old w.columns row row')
    (hwidth : ∀ item ∈ items, ∀ fs out, item.fields w.old = .ok fs →
      itemRows w.old row item = .ok out → ∀ r ∈ out, r.length = fs.length)
    (hlists : items.mapM (itemRows w.old row) = .ok lists) :
    ∃ lists', items'.mapM (itemRows w.new row') = .ok lists' ∧ ∀ s a xs xs',
      (∀ z ∈ a, z.1 < List.length s) → Forall₂ (Row.Kept t restricted s a) xs xs' →
      Forall₂ (Row.Kept t restricted (s ++ fields) (Columns.beside s.length a cols))
        (lists.foldl pairUp xs) (lists'.foldl pairUp xs') := by
  induction h generalizing lists with
  | nil =>
    cases hlists
    refine ⟨[], rfl, fun s a xs xs' _ hxs => ?_⟩
    rwa [List.append_nil, Columns.beside_nil]
  | @drop start item items items' fs fields cols hflat hfs _ _ ih =>
    obtain ⟨list, lists, rfl, hlist, hrest⟩ := mapM_cons_ok hlists
    obtain ⟨lists', hlists', hall⟩ := ih (fun i hi => hx i (List.mem_cons_of_mem _ hi))
      (fun i hi => hwidth i (List.mem_cons_of_mem _ hi)) hrest
    refine ⟨lists', hlists', fun s a xs xs' ha hxs => ?_⟩
    obtain ⟨r, rfl⟩ := Run.itemRows_single hflat hfs hlist
    have hr := hwidth item (List.mem_cons_self ..) fs [r] hfs hlist r (List.mem_singleton.mpr rfl)
    have hbounded : ∀ z ∈ a, z.1 < (s ++ fs).length := fun z hz => by
      have := ha z hz
      rw [List.length_append]
      omega
    have hpaired : Forall₂ (Row.Kept t restricted (s ++ fs) a) (pairUp xs [r]) xs' := by
      have hmap : pairUp xs [r] = xs.map fun x => x ++ r := List.map_eq_flatMap.symm
      rw [hmap]
      exact List.forall₂_map_left_iff.mpr (hxs.imp fun x x' hx => hx.extend ha hr)
    have := hall (s ++ fs) a _ xs' hbounded hpaired
    rwa [List.append_assoc, List.length_append, Columns.beside, Nat.add_comm,
      ← Columns.shift_shift] at this
  | @keep start item item' items items' fs fields cols hitem _ _ ih =>
    obtain ⟨list, lists, rfl, hlist, hrest⟩ := mapM_cons_ok hlists
    obtain ⟨lists', hlists', hall⟩ := ih (fun i hi => hx i (List.mem_cons_of_mem _ hi))
      (fun i hi => hwidth i (List.mem_cons_of_mem _ hi)) hrest
    obtain ⟨list', hlist', hrel⟩ := hitem.rows (hx item (List.mem_cons_self ..)) hrow hlist
      (hwidth item (List.mem_cons_self ..) fs list hitem.fields hlist)
    refine ⟨list' :: lists', mapM_ok.mpr (.cons hlist' (mapM_ok.mp hlists')),
      fun s a xs xs' ha hxs => ?_⟩
    have hfits := hitem.produces.fits
    have := hall _ _ _ _ (Columns.beside_bounded ha hfits.bounded) (Run.pairUp_kept ha hxs hrel)
    rwa [List.append_assoc, List.length_append, Columns.beside_assoc] at this

/-- A `forEach` on narrowed rows. -/
theorem forEachRows (h : Items.Narrowed w required start items items' fields cols)
    (hx : ∀ item ∈ items, item.expr.reads.Exact w) {rows rows' out : List Row}
    (hrows : w.Rows restricted rows rows')
    (hwidth : ∀ row ∈ rows, ∀ item ∈ items, ∀ fs out, item.fields w.old = .ok fs →
      itemRows w.old row item = .ok out → ∀ r ∈ out, r.length = fs.length)
    (hout : Run.forEachRows w.old items rows = .ok out) :
    ∃ out', Run.forEachRows w.new items' rows' = .ok out' ∧
      Forall₂ (Row.Kept t restricted fields cols) out out' := by
  obtain ⟨perRow, hper, hout⟩ := bind_ok hout
  cases hout
  suffices hall : ∃ perRow', rows'.mapM (fun row => do
      return product (← items'.mapM (itemRows w.new row))) = .ok perRow' ∧
      Forall₂ (Forall₂ (Row.Kept t restricted fields cols)) perRow perRow' by
    obtain ⟨perRow', hper', hrel⟩ := hall
    exact ⟨perRow'.flatten, by rw [Run.forEachRows, hper']; rfl, List.rel_flatten hrel⟩
  clear hout
  induction hrows generalizing perRow with
  | nil =>
    cases hper
    exact ⟨[], rfl, .nil⟩
  | @cons row row' rows rows' hrow _ ih =>
    obtain ⟨combined, more, rfl, hcombined, hmore⟩ := mapM_cons_ok hper
    obtain ⟨lists, hlists, hcombined⟩ := bind_ok hcombined
    cases hcombined
    obtain ⟨more', hmore', hrel⟩ := ih (fun r hr => hwidth r (List.mem_cons_of_mem _ hr)) more hmore
    obtain ⟨lists', hlists', hfold⟩ := h.foldl_pairUp hx hrow
      (hwidth row (List.mem_cons_self ..)) hlists
    refine ⟨product lists' :: more', mapM_ok.mpr (.cons ?_ (mapM_ok.mp hmore')), .cons ?_ hrel⟩
    · rw [hlists']
      rfl
    · have := hfold [] [] [[]] [[]] nofun (.cons Run.empty_kept .nil)
      rwa [List.nil_append, List.length_nil, Columns.beside, List.nil_append,
        Columns.shift_zero] at this

end Items.Narrowed

end Dataflow
