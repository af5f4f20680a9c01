import Dataflow.Proofs.Execution.Kept
import Dataflow.Proofs.Execution.Observed

/-!
# Evaluating on narrowed rows

An expression whose reads have been recorded has the same value on a narrowed
row, once it is renumbered (`Renumbered.eval_ok`). Values that expressions
compute are therefore never cut; only fields that are passed on are.

A selection of inner columns is renumbered by identity. That it then names the
column it named before, and not another one with the same identity, is a
hypothesis here (`Reads.Exact`).
-/

namespace Dataflow

open Dataflow.Expr (Renumbered)
open List (Forall₂)

variable {g : String → String} {t : Trackers} {restricted : Bool}

/-! ## Exact selections -/

/-- Reads whose selections of inner columns name the columns they named
before. -/
def Reads.Exact (w : Slice g t) (r : Reads) : Prop :=
  ∀ p cs, (p, Access.columns cs) ∈ r.accesses → ∀ q cs', w.narrowed.column p = .ok q →
    w.narrowed.inner p cs = .ok cs' → ∀ f inner, w.old[p]? = some f → f.type.inner? = some inner →
    Forall₂ (fun c c' => ((w.cutAt p).inside inner.length).positions[c']? = some c) cs cs'

theorem Reads.Exact.mono {w : Slice g t} {r r' : Reads} (h : r.Exact w)
    (hsub : ∀ x ∈ r'.accesses, x ∈ r.accesses) : r'.Exact w :=
  fun p cs hx => h p cs (hsub _ hx)

/-- An operator whose selections are exact. -/
def Operator.Exact (op : Operator) (ws : List (Slice g t)) : Prop :=
  ∀ x ∈ op.expressions, ∀ w, ws[x.1]? = some w → x.2.reads.Exact w

/-- Inner columns are renumbered only inside a bag or tuple. -/
theorem Slice.nested_of_inner {w : Slice g t} {p q : Nat} {cs cs' : List Nat} {f : Field}
    (hq : w.narrowed.column p = .ok q) (hcs : w.narrowed.inner p cs = .ok cs')
    (hf : w.old[p]? = some f) : ∃ inner, f.type.inner? = some inner := by
  cases hi : f.type.inner? with
  | some inner => exact ⟨inner, rfl⟩
  | none =>
    obtain ⟨f₀, f', -, hf', -, -⟩ := field_at hq
    have h₁ : Schema.fieldAt w.narrowed.old p = .ok f := Schema.fieldAt_ok.mpr hf
    have h₂ : Schema.fieldAt w.narrowed.new q = .ok f' := Schema.fieldAt_ok.mpr hf'
    simp [Narrowed.inner, h₁, hq, h₂, Except.mapError, bind, Except.bind, hi] at hcs

/-- Where no two inner columns share an identity, every selection is exact. -/
theorem Reads.exact_of_distinct {w : Slice g t} (hs : w.old.DistinctInside) (r : Reads) :
    r.Exact w := by
  intro p cs _ q cs' hq hcs f inner hf hi
  obtain ⟨f', inner', hf', hi', hinner, hfit, -⟩ := Slice.inner_at hq hf hi
  rw [Slice.inner_eq hq hf hf' hi hi', mapM_ok] at hcs
  refine hcs.imp fun c c' hc => ?_
  obtain ⟨x, hx, hpos⟩ := Slice.innerPosition_ok.mp hc
  obtain ⟨i, y, hcol, hy, huid⟩ := Slice.positionOf?_old (w := Slice.ofInner hinner hfit) hpos
  have hnodup := hs inner (Schema.mem_inners.mpr
    ⟨f, List.mem_of_getElem? hf, (Field.mem_inners hi).mpr (Or.inl rfl)⟩)
  have hy : inner[i]? = some y := hy
  have hsame : i = c := by
    refine (List.getElem?_inj (by simpa using (List.getElem?_eq_some_iff.mp hy).1) hnodup).mp ?_
    rw [List.getElem?_map, List.getElem?_map, hx, hy, Option.map_some, Option.map_some, huid]
  rw [← hsame]
  exact Slice.column_ok.mp hcol

/-! ## Parts of a field -/

/-- The value of a key that is known to be read. -/
theorem Value.Kept.lookup {f : Field} {c : Cut} {v v' : Value} {k : String}
    (h : Value.Kept t restricted f c v v') (hfits : c.Fits t f) (hm : (Access.key k).Met t f) :
    v'.lookup k = v.lookup k := by
  rcases hm with hw | ⟨hmap, hrec⟩
  · rw [h.eq_of_whole hfits hw]
  · cases h with
    | same | null => rfl
    | map hr hf htrack hkeys hlookup =>
      obtain ⟨ks, hks, hhas⟩ := Trackers.records_mapKey.mp hrec htrack
      rw [hkeys] at hks
      cases hks
      simp only [Value.lookup, hlookup k hhas]
    | bag hf => rw [hf] at hmap; cases hmap

/-- Columns of an inner row that are known to be read whole. -/
theorem Row.Kept.pick {inner : Schema} {cols : Columns} {row row' out : Row} {cs cs' : List Nat}
    (h : Row.Kept t restricted inner cols row row') (hfits : cols.Fits t inner)
    (hcs : Forall₂ (fun c c' => cols.positions[c']? = some c) cs cs')
    (hw : ∀ c ∈ cs, ∀ x, inner[c]? = some x → t.ReadsWhole x) (hout : Value.pick cs row = .ok out) :
    Value.pick cs' row' = .ok out := by
  have hpick := mapM_ok.mp hout
  refine mapM_ok.mpr (forall₂_of_getElem? (hcs.length_eq.symm.trans hpick.length_eq) ?_)
  intro i c' v hc' hv
  obtain ⟨c, hc, hpos⟩ := getElem?_of_right hcs hc'
  obtain ⟨v₀, hv₀, hcv⟩ := getElem?_of_left hpick hc
  rw [hv] at hv₀
  cases hv₀
  rw [Columns.positions_getElem?] at hpos
  obtain ⟨⟨c₀, cut⟩, hcol, rfl⟩ := Option.map_eq_some_iff.mp hpos
  have hlt := hfits.bounded _ (List.mem_of_getElem? hcol)
  have hx : inner[c₀]? = some inner[c₀] := List.getElem?_eq_getElem hlt
  obtain ⟨u, u', hu, hu', hkept⟩ := h.at_position hcol hx
  simp only [hu] at hcv
  cases hcv
  simp only [hu', hkept.eq_of_whole (hfits.cuts _ (List.mem_of_getElem? hcol) _ hx)
    (hw c₀ (List.mem_of_getElem? hc) _ hx)]

/-- Inner columns that are known to be read whole. -/
theorem Value.Kept.select {f : Field} {c : Cut} {v v' out : Value} {inner : Schema}
    {cs cs' : List Nat} (h : Value.Kept t restricted f c v v') (hfits : c.Fits t f)
    (hi : f.type.inner? = some inner)
    (hcs : Forall₂ (fun p p' => (c.inside inner.length).positions[p']? = some p) cs cs')
    (hw : ∀ p ∈ cs, ∀ x, inner[p]? = some x → t.ReadsWhole x) (hout : v.select cs = .ok out) :
    v'.select cs' = .ok out := by
  cases h with
  | same =>
    -- Nothing was cut, so the columns have the numbers they had.
    have hsame : Forall₂ (· = ·) cs cs' := hcs.imp fun p p' hp => by
      rw [Cut.inside, Columns.positions_all] at hp
      obtain ⟨hlt, heq⟩ := List.getElem?_eq_some_iff.mp hp
      rw [← heq, List.getElem_range]
    rw [List.forall₂_eq_eq_eq] at hsame
    rw [← hsame, hout]
  | null => exact hout
  | map => cases hout
  | @bag _ _ inner₀ rows rows' hf hlen hwidth hrow =>
    rw [hf] at hi
    cases hi
    obtain ⟨-, hfit, -⟩ := hfits.inside (by rw [hf]; rfl)
    obtain ⟨outs, houts, hout⟩ := bind_ok hout
    cases hout
    have hpick : rows'.mapM (Value.pick cs') = .ok outs := by
      have hrows := mapM_ok.mp houts
      refine mapM_ok.mpr (forall₂_of_getElem? (hlen.symm.trans hrows.length_eq) ?_)
      intro i row' o hi' ho
      obtain ⟨row, hi, hpicked⟩ := getElem?_of_right hrows ho
      obtain ⟨h₁, h₂⟩ := hwidth i row row' hi hi'
      exact Row.Kept.pick ⟨h₁, h₂, hrow i row row' hi hi'⟩ hfit hcs hw hpicked
    simp only [Value.select, hpick]
    rfl

/-! ## Expressions -/

namespace Expr

variable {w : Slice g t} {row row' : Row}

theorem evalAll_ok {args : List Expr} {vs : List Value} :
    evalAll row args = .ok vs ↔ Forall₂ (fun e v => e.eval row = .ok v) args vs := by
  rw [evalAll_eq_mapM, mapM_ok]

theorem eval_column {p : Nat} {v : Value} :
    (Expr.column p).eval row = .ok v ↔ row[p]? = some v := by
  unfold eval
  cases row[p]? with
  | none => simp [raise]
  | some u => simp

/-- The value of a field that is read, before and after. -/
theorem kept_at (hrow : Row.Kept t restricted w.old w.columns row row') {p q : Nat} {v : Value}
    (hq : w.narrowed.column p = .ok q) (hv : row[p]? = some v) :
    ∃ f v', w.old[p]? = some f ∧ row'[q]? = some v' ∧ (w.cutAt p).Fits t f ∧
      Value.Kept t restricted f (w.cutAt p) v v' := by
  obtain ⟨f, f', hf, -, -, hfits⟩ := Slice.field_at hq
  obtain ⟨v₀, v', hv₀, hv', hkept⟩ := hrow.at_position (Slice.columns_at hq) hf
  rw [hv] at hv₀
  cases hv₀
  exact ⟨f, v', hf, hv', hfits, hkept⟩

/-- A renumbered expression has on the narrowed row the value it had. -/
theorem Renumbered.eval_ok {e e' : Expr} (h : Renumbered w.narrowed.renumbering e e')
    (hm : e.reads.Met t w.old w.kept) (hx : e.reads.Exact w)
    (hrow : Row.Kept t restricted w.old w.columns row row') {v : Value} (hv : e.eval row = .ok v) :
    e'.eval row' = .ok v := by
  induction h generalizing v with
  | @column p q hq =>
    obtain ⟨f, v', hf, hv', hfits, hkept⟩ := kept_at hrow hq (eval_column.mp hv)
    obtain ⟨-, hw⟩ := hm.access (p, .whole) (List.mem_singleton.mpr rfl) f hf
    rw [eval_column, hv', hkept.eq_of_whole hfits hw]
  | literal v => exact hv
  | star =>
    obtain ⟨hall, hw⟩ := hm.star rfl
    rw [hrow.eq_of_whole w.fits hall hw]
    exact hv
  | @lookup p q k hq =>
    obtain ⟨u, hu, hv⟩ := bind_ok hv
    obtain ⟨f, u', hf, hu', hfits, hkept⟩ := kept_at hrow hq (eval_column.mp hu)
    obtain ⟨-, hkey⟩ := hm.access (p, .key k) (List.mem_singleton.mpr rfl) f hf
    rw [eval, eval_column.mpr hu']
    exact (hkept.lookup hfits hkey).trans hv
  | @select p q cs cs' hq hcs =>
    obtain ⟨u, hu, hv⟩ := bind_ok hv
    obtain ⟨f, u', hf, hu', hfits, hkept⟩ := kept_at hrow hq (eval_column.mp hu)
    obtain ⟨-, hcols⟩ := hm.access (p, .columns cs) (List.mem_singleton.mpr rfl) f hf
    obtain ⟨inner, hi⟩ := Slice.nested_of_inner hq hcs hf
    have hexact := hx p cs (List.mem_singleton.mpr rfl) q cs' hq hcs f inner hf hi
    rw [eval, eval_column.mpr hu']
    refine hkept.select hfits hi hexact (fun c hc x hx => ?_) hv
    rcases hcols with hw | ⟨inner₀, hi₀, hall⟩
    · exact (hw.bag hi).2 x (List.mem_of_getElem? hx)
    · rw [hi] at hi₀
      cases hi₀
      obtain ⟨x₀, hx₀, hw, -⟩ := hall c hc
      rw [hx] at hx₀
      cases hx₀
      exact hw
  | @unary op e e' hop _ ih =>
    rw [reads_unary hop] at hm hx
    obtain ⟨u, hu, hv⟩ := bind_ok hv
    rw [eval, ih hm hx hu]
    exact hv
  | binary op _ _ ihx ihy =>
    rw [reads_binary, Reads.met_append] at hm
    obtain ⟨a, ha, hv⟩ := bind_ok hv
    obtain ⟨b, hb, hv⟩ := bind_ok hv
    rw [eval, ihx hm.1 (hx.mono fun x h => Reads.mem_append.mpr (Or.inl h)) ha,
      ihy hm.2 (hx.mono fun x h => Reads.mem_append.mpr (Or.inr h)) hb]
    exact hv
  | ifElse _ _ _ iht ihe ihp =>
    rw [reads_ifElse, Reads.met_append, Reads.met_append] at hm
    obtain ⟨⟨hmt, hme⟩, hmp⟩ := hm
    obtain ⟨b, hb, hv⟩ := bind_ok hv
    rw [eval, ihp hmp (hx.mono fun x h => Reads.mem_append.mpr (Or.inr h)) hb]
    cases b with
    | bool b =>
      cases b with
      | true => exact iht hmt (hx.mono fun x h =>
          Reads.mem_append.mpr (Or.inl (Reads.mem_append.mpr (Or.inl h)))) hv
      | false => exact ihe hme (hx.mono fun x h =>
          Reads.mem_append.mpr (Or.inl (Reads.mem_append.mpr (Or.inr h)))) hv
    | _ => exact hv
  | @call f args args' hlen _ ih =>
    obtain ⟨vs, hvs, hv⟩ := bind_ok hv
    have hvs := evalAll_ok.mp hvs
    have hall : evalAll row' args' = .ok vs := by
      refine evalAll_ok.mpr (forall₂_of_getElem? (hlen.trans hvs.length_eq) fun i a' v ha' hv => ?_)
      obtain ⟨a, ha, hav⟩ := getElem?_of_right hvs hv
      have hmem := List.mem_of_getElem? ha
      exact ih i a a' ha ha' (Reads.met_readsAll.mp hm a hmem)
        (hx.mono fun x hxa => mem_readsAll.mpr ⟨a, hmem, hxa⟩) hav
    rw [eval, hall]
    exact hv

end Expr

end Dataflow
