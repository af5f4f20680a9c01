import Dataflow.Proofs.Execution.Conforms
import Dataflow.Proofs.Execution.Evaluated

/-!
# Operators on narrowed rows

What an operator computes of narrowed rows is what is left of what it computes
of the rows before. Predicates and keys have the same values on both sides, so
rows are selected, sorted, matched and grouped alike, and the rows that come out
correspond one by one, in the same order.
-/

namespace Dataflow

open List (Forall₂)

variable {g : String → String} {t : Trackers} {restricted : Bool}

/-! ## Lists -/

section Lists

variable {ε α β : Type} {R : α → β → Prop} {xs : List α} {ys : List β}

/-- Tests that agree on related elements keep related elements. -/
theorem filterM_related {f : α → Except ε Bool} {f' : β → Except ε Bool} (h : Forall₂ R xs ys)
    (hf : ∀ x y b, R x y → f x = .ok b → f' y = .ok b) {out : List α}
    (hout : xs.filterM f = .ok out) : ∃ out', ys.filterM f' = .ok out' ∧ Forall₂ R out out' := by
  have hmain : ∀ acc acc' out, Forall₂ R acc acc' → xs.filterAuxM f acc = .ok out →
      ∃ out', ys.filterAuxM f' acc' = .ok out' ∧ Forall₂ R out out' := by
    clear hout
    induction h with
    | nil =>
      intro acc acc' out hacc hout
      cases hout
      exact ⟨acc', rfl, hacc⟩
    | cons hxy _ ih =>
      intro acc acc' out hacc hout
      obtain ⟨b, hb, hout⟩ := bind_ok hout
      obtain ⟨out', hout', hrel⟩ := ih (cond b (_ :: acc) acc) (cond b (_ :: acc') acc') out
        (by cases b with
          | true => exact .cons hxy hacc
          | false => exact hacc) hout
      refine ⟨out', ?_, hrel⟩
      rw [List.filterAuxM, hf _ _ b hxy hb]
      exact hout'
  obtain ⟨kept, hkept, hout⟩ := bind_ok hout
  cases hout
  obtain ⟨kept', hkept', hrel⟩ := hmain [] [] kept .nil hkept
  refine ⟨kept'.reverse, ?_, List.rel_reverse hrel⟩
  rw [List.filterM, hkept']
  rfl

theorem insertBack_related {before : α → α → Bool} {before' : β → β → Bool}
    (hb : ∀ x y x' y', R x x' → R y y' → before' x' y' = before x y) {x : α} {x' : β}
    (hx : R x x') (h : Forall₂ R xs ys) :
    Forall₂ R (insertBack before x xs) (insertBack before' x' ys) := by
  induction h with
  | nil => exact .cons hx .nil
  | @cons y y' ys ys' hy hrest ih =>
    rw [insertBack, insertBack, hb x y x' y' hx hy]
    split
    · exact .cons hy ih
    · exact .cons hx (.cons hy hrest)

/-- Sorting by comparisons that agree on related elements. -/
theorem stableSort_related {before : α → α → Bool} {before' : β → β → Bool}
    (hb : ∀ x y x' y', R x x' → R y y' → before' x' y' = before x y) (h : Forall₂ R xs ys) :
    Forall₂ R (stableSort before xs) (stableSort before' ys) := by
  refine List.rel_reverse (List.rel_foldl (P := Forall₂ R) ?_ .nil h)
  exact fun acc acc' hacc x x' hx => insertBack_related hb hx hacc

theorem any_related {test : α → Bool} {test' : β → Bool} (h : Forall₂ R xs ys)
    (ht : ∀ x y, R x y → test' y = test x) : ys.any test' = xs.any test := by
  induction h with
  | nil => rfl
  | cons hxy _ ih => rw [List.any_cons, List.any_cons, ht _ _ hxy, ih]

theorem map_related {γ δ : Type} {S : γ → δ → Prop} {f : α → γ} {f' : β → δ} (h : Forall₂ R xs ys)
    (hf : ∀ x y, R x y → S (f x) (f' y)) : Forall₂ S (xs.map f) (ys.map f') :=
  List.forall₂_map_left_iff.mpr (List.forall₂_map_right_iff.mpr (h.imp hf))

theorem filter_related {test : α → Bool} {test' : β → Bool} (h : Forall₂ R xs ys)
    (ht : ∀ x y, R x y → test' y = test x) : Forall₂ R (xs.filter test) (ys.filter test') :=
  List.rel_filter (fun x y hxy => by show test x = true ↔ test' y = true; rw [ht x y hxy]) h

end Lists

/-! ## Columns of several rows -/

namespace Columns

theorem shift_shift (k l : Nat) (cols : Columns) :
    (cols.shift k).shift l = cols.shift (k + l) := by
  simp [shift, Function.comp_def, Nat.add_assoc]

theorem shift_zero (cols : Columns) : cols.shift 0 = cols := by simp [shift]

theorem beside_nil (k : Nat) (a : Columns) : beside k a [] = a := List.append_nil a

theorem beside_assoc (k l : Nat) (a b c : Columns) :
    beside (k + l) (beside k a b) c = beside k a (beside l b c) := by
  have hshift : (beside l b c).shift k = b.shift k ++ c.shift (l + k) := by
    rw [beside, ← shift_shift]
    exact List.map_append
  rw [beside, beside, beside, hshift, Nat.add_comm k l, List.append_assoc]

theorem beside_bounded {s s' : Schema} {a b : Columns} (ha : ∀ x ∈ a, x.1 < s.length)
    (hb : ∀ x ∈ b, x.1 < s'.length) : ∀ x ∈ beside s.length a b, x.1 < (s ++ s').length := by
  intro x hx
  rw [List.length_append]
  rcases List.mem_append.mp hx with hx | hx
  · have := ha x hx
    omega
  · obtain ⟨y, hy, rfl⟩ := mem_shift hx
    have := hb y hy
    show y.1 + s.length < _
    omega

end Columns

/-- A row followed by one of which nothing is left. -/
theorem Row.Kept.extend {s s' : Schema} {a : Columns} {x x' y : Row}
    (h : Row.Kept t restricted s a x x') (ha : ∀ z ∈ a, z.1 < s.length)
    (hy : y.length = s'.length) : Row.Kept t restricted (s ++ s') a (x ++ y) x' := by
  refine ⟨by rw [List.length_append, List.length_append, h.width, hy], h.left,
    fun q p c f v v' hq hf hv hv' => ?_⟩
  have hp := ha _ (List.mem_of_getElem? hq)
  rw [List.getElem?_append_left hp] at hf
  rw [List.getElem?_append_left (h.width ▸ hp)] at hv
  exact h.value q p c f v v' hq hf hv hv'

def Slice.Rows (restricted : Bool) (w : Slice g t) (rows rows' : List Row) : Prop :=
  Forall₂ (Row.Kept t restricted w.old w.columns) rows rows'

/-- Combining inputs one after the other puts their columns side by side. -/
theorem foldl_joined {α β : Type} {X : Schema → Columns → α → α → Prop}
    {Y : Slice g t → β → β → Prop} {op : α → β → α}
    (hstep : ∀ s a x x' w y y', (∀ z ∈ a, z.1 < s.length) → X s a x x' → Y w y y' →
      X (s ++ w.old) (Columns.beside s.length a w.columns) (op x y) (op x' y'))
    {ws : List (Slice g t)} {ys ys' : List β} (h : Along Y ws ys ys') {s : Schema} {a : Columns}
    {x x' : α} (ha : ∀ z ∈ a, z.1 < s.length) (hx : X s a x x') :
    X (s ++ (ws.map Slice.old).flatten) (Columns.beside s.length a (Slice.joined ws))
      (ys.foldl op x) (ys'.foldl op x') := by
  induction h generalizing s a x x' with
  | nil =>
    rw [List.map_nil, List.flatten_nil, List.append_nil]
    show X s (Columns.beside s.length a []) x x'
    rwa [Columns.beside_nil]
  | @cons w y y' ws ys ys' hy _ ih =>
    have := ih (Columns.beside_bounded ha w.fits.bounded) (hstep s a x x' w y y' ha hx hy)
    rwa [List.append_assoc, List.length_append, Columns.beside_assoc] at this

/-! ## Rows side by side -/

namespace Run

theorem pairUp_kept {s s' : Schema} {a b : Columns} {xs xs' ys ys' : List Row}
    (ha : ∀ z ∈ a, z.1 < s.length) (hx : Forall₂ (Row.Kept t restricted s a) xs xs')
    (hy : Forall₂ (Row.Kept t restricted s' b) ys ys') :
    Forall₂ (Row.Kept t restricted (s ++ s') (Columns.beside s.length a b)) (pairUp xs ys)
      (pairUp xs' ys') := by
  refine List.rel_flatMap hx fun x x' hx => ?_
  exact map_related hy fun y y' hy => hx.beside hy ha

/-- The row without fields. -/
theorem empty_kept : Row.Kept t restricted [] [] [] [] := ⟨rfl, rfl, nofun⟩

theorem product_kept {ws : List (Slice g t)} {inputs inputs' : List (List Row)}
    (h : Along (Slice.Rows restricted) ws inputs inputs') :
    Forall₂ (Row.Kept t restricted (ws.map Slice.old).flatten (Slice.joined ws)) (product inputs)
      (product inputs') := by
  have := @foldl_joined _ _ _ _ (fun s a => Forall₂ (Row.Kept t restricted s a)) _ pairUp
    (fun s a x x' w y y' ha hx hy => pairUp_kept ha hx hy) _ _ _ h [] [] _ _ nofun
    (.cons empty_kept .nil)
  rwa [List.nil_append, List.length_nil, Columns.beside, List.nil_append, Columns.shift_zero]
    at this

/-! ## Rows with their keys -/

/-- A row with the values of its keys, and what is left of it. -/
def Keyed (t : Trackers) (restricted : Bool) (s : Schema) (cols : Columns) (a b : Row × Row) :
    Prop :=
  b.1 = a.1 ∧ Row.Kept t restricted s cols a.2 b.2

def Sided (restricted : Bool) (w : Slice g t) (side side' : List (Row × Row)) : Prop :=
  Forall₂ (Keyed t restricted w.old w.columns) side side'

theorem evalAll_kept {w : Slice g t} {keys keys' : List Expr}
    (h : Forall₂ (KeyReading w) keys keys')
    (hx : ∀ e ∈ keys, e.reads.Exact w) {row row' : Row}
    (hrow : Row.Kept t restricted w.old w.columns row row') {vs : List Value}
    (hvs : Expr.evalAll row keys = .ok vs) : Expr.evalAll row' keys' = .ok vs := by
  have hvs := Expr.evalAll_ok.mp hvs
  refine Expr.evalAll_ok.mpr (forall₂_of_getElem? (h.length_eq.symm.trans hvs.length_eq) ?_)
  intro i e' v he' hv
  obtain ⟨e, he, hread⟩ := getElem?_of_right h he'
  obtain ⟨v₀, hv₀, hev⟩ := getElem?_of_left hvs he
  rw [hv] at hv₀
  cases hv₀
  exact hread.expr.eval_ok hread.reading.met (hx e (List.mem_of_getElem? he)) hrow hev

theorem keyRows_kept {w : Slice g t} {keys keys' : List Expr}
    (h : Forall₂ (KeyReading w) keys keys') (hx : ∀ e ∈ keys, e.reads.Exact w)
    {rows rows' : List Row} (hrows : w.Rows restricted rows rows')
    {side : List (Row × Row)} (hside : keyRows keys rows = .ok side) :
    ∃ side', keyRows keys' rows' = .ok side' ∧ Sided restricted w side side' := by
  induction hrows generalizing side with
  | nil =>
    cases hside
    exact ⟨[], rfl, .nil⟩
  | @cons row row' rows rows' hrow _ ih =>
    obtain ⟨x, rest, rfl, hx', hrest⟩ := mapM_cons_ok hside
    obtain ⟨vs, hvs, hx'⟩ := bind_ok hx'
    cases hx'
    obtain ⟨rest', hrest', hrel⟩ := ih hrest
    refine ⟨(vs, row') :: rest', ?_, .cons ⟨rfl, hrow⟩ hrel⟩
    refine mapM_ok.mpr (.cons ?_ (mapM_ok.mp hrest'))
    rw [evalAll_kept h hx hrow hvs]
    rfl

theorem keyedSides_kept {ws : List (Slice g t)} {keys keys' : List (List Expr)}
    (h : Along (fun ks ks' w => Forall₂ (KeyReading w) ks ks') keys keys' ws)
    (hx : ∀ (i : Nat) ks w, keys[i]? = some ks → ws[i]? = some w → ∀ e ∈ ks, e.reads.Exact w)
    {inputs inputs' : List (List Row)} (hrows : Along (Slice.Rows restricted) ws inputs inputs')
    {sides : List (List (Row × Row))} (hsides : keyedSides keys inputs = .ok sides) :
    ∃ sides', keyedSides keys' inputs' = .ok sides' ∧
      Along (Sided restricted) ws sides sides' := by
  induction h generalizing inputs inputs' sides with
  | nil =>
    cases hrows
    cases hsides
    exact ⟨[], rfl, .nil⟩
  | @cons ks ks' w keys keys' ws hks _ ih =>
    cases hrows with
    | cons hw hrest =>
      obtain ⟨side, more, rfl, hside, hmore⟩ := mapM_cons_ok hsides
      obtain ⟨side', hside', hkeyed⟩ := keyRows_kept hks (hx 0 ks w rfl rfl) hw hside
      obtain ⟨more', hmore', hsided⟩ := ih (fun i => hx (i + 1)) hrest hmore
      exact ⟨side' :: more', mapM_ok.mpr (.cons hside' (mapM_ok.mp hmore')), .cons hkeyed hsided⟩

/-! ## Selecting and sorting -/

theorem filterRows_kept {w : Slice g t} {e e' : Expr} (h : Reading w e e') (hx : e.reads.Exact w)
    {rows rows' out : List Row} (hrows : w.Rows restricted rows rows')
    (hout : filterRows e rows = .ok out) :
    ∃ out', filterRows e' rows' = .ok out' ∧ w.Rows restricted out out' := by
  refine filterM_related hrows (fun row row' b hrow hb => ?_) hout
  obtain ⟨v, hv, hb⟩ := bind_ok hb
  rw [h.expr.eval_ok h.met hx hrow hv]
  exact hb

theorem sortRows_kept {w : Slice g t} {o o' : OrderBy}
    (keys : Forall₂ (KeyReading w) o.keys o'.keys) (same : o' = { o with keys := o'.keys })
    (hx : ∀ e ∈ o.keys, e.reads.Exact w) {rows rows' out : List Row}
    (hrows : w.Rows restricted rows rows') (hout : sortRows o rows = .ok out) :
    ∃ out', sortRows o' rows' = .ok out' ∧ w.Rows restricted out out' := by
  obtain ⟨side, hside, hout⟩ := bind_ok hout
  cases hout
  obtain ⟨side', hside', hkeyed⟩ := keyRows_kept keys hx hrows hside
  have hdown : o'.descending = o.descending := by rw [same]
  have hsorted : Sided restricted w
      (stableSort (fun a b => orderKeys o.descending a.1 b.1 == .lt) side)
      (stableSort (fun a b => orderKeys o'.descending a.1 b.1 == .lt) side') :=
    stableSort_related (fun a b a' b' ha hb => by rw [hdown, ha.1, hb.1]) hkeyed
  exact ⟨_, by rw [sortRows, hside']; rfl, map_related hsorted fun a b h => h.2⟩

/-- The rows of an input that is read whole. -/
theorem rows_eq_of_whole {w : Slice g t} (h : w.Whole) {rows rows' : List Row}
    (hrows : w.Rows restricted rows rows') : rows' = rows := by
  have heq : Forall₂ (· = ·) rows' rows :=
    (hrows.imp fun row row' hrow => (hrow.eq_of_whole w.fits h.all h.reads).symm).flip.imp
      fun _ _ h => h.symm
  rwa [List.forall₂_eq_eq_eq] at heq

/-! ## Joins -/

theorem joinSide_kept {s s' : Schema} {a b : Columns} {rows rows' side side' : List (Row × Row)}
    (ha : ∀ z ∈ a, z.1 < s.length) (hrows : Forall₂ (Keyed t restricted s a) rows rows')
    (hside : Forall₂ (Keyed t restricted s' b) side side') :
    Forall₂ (Keyed t restricted (s ++ s') (Columns.beside s.length a b)) (joinSide rows side)
      (joinSide rows' side') := by
  refine List.rel_flatMap hrows fun x x' hx => ?_
  refine map_related (filter_related hside fun y y' hy => ?_) fun y y' hy =>
    ⟨hx.1, hx.2.beside hy.2 ha⟩
  rw [hx.1, hy.1]

theorem unmatched_kept {s s' : Schema} {a b : Columns} {side side' other other' : List (Row × Row)}
    (hside : Forall₂ (Keyed t restricted s a) side side')
    (hother : Forall₂ (Keyed t restricted s' b) other other') :
    Forall₂ (Row.Kept t restricted s a) (unmatched side other) (unmatched side' other') := by
  refine map_related (filter_related hside fun x x' hx => ?_) fun x x' hx => hx.2
  rw [any_related hother fun y y' hy => by rw [hx.1, hy.1]]

theorem joinRows_kept {ws : List (Slice g t)} {sides sides' : List (List (Row × Row))}
    (h : Along (Sided restricted) ws sides sides') (type : JoinType) :
    Forall₂ (Row.Kept t restricted (ws.map Slice.old).flatten (Slice.joined ws))
      (joinRows sides type ((ws.map Slice.old).map List.length))
      (joinRows sides' type ((ws.map Slice.new).map List.length)) := by
  cases h with
  | nil => exact .nil
  | @cons w first first' ws rest rest' hfirst hrest =>
    have hmatches : Forall₂ (Row.Kept t restricted ((w :: ws).map Slice.old).flatten
        (Slice.joined (w :: ws))) ((rest.foldl joinSide first).map Prod.snd)
        ((rest'.foldl joinSide first').map Prod.snd) := by
      refine map_related ?_ fun x x' (hx : Keyed t restricted _ _ x x') => hx.2
      exact @foldl_joined _ _ _ _ (fun s a => Forall₂ (Keyed t restricted s a)) (Sided restricted)
        joinSide (fun s a x x' w y y' ha hx hy => joinSide_kept ha hx hy) _ _ _ hrest _ _ _ _
        w.fits.bounded hfirst
    cases hrest with
    | nil => exact hmatches
    | @cons w₂ second second' ws rest rest' hsecond hrest =>
      cases hrest with
      | cons => exact hmatches
      | nil =>
        have hjoined : Slice.joined [w, w₂] = Columns.beside w.old.length w.columns w₂.columns := by
          show Columns.beside _ _ (Columns.beside _ _ []) = _
          rw [Columns.beside_nil]
        have hold : ([w, w₂].map Slice.old).flatten = w.old ++ w₂.old := by simp
        rw [hjoined, hold] at hmatches ⊢
        refine List.rel_append (List.rel_append hmatches ?_) ?_
        · split
          · refine map_related (unmatched_kept hfirst hsecond) fun row row' hrow => ?_
            have hnull := @Row.Kept.nulls t restricted w₂.old w₂.columns
            rw [← w₂.new_length] at hnull
            exact hrow.beside hnull w.fits.bounded
          · exact .nil
        · split
          · refine map_related (unmatched_kept hsecond hfirst) fun row row' hrow => ?_
            have hnull := @Row.Kept.nulls t restricted w.old w.columns
            rw [← w.new_length] at hnull
            exact hnull.beside hrow w.fits.bounded
          · exact .nil

/-! ## Groups -/

theorem groupBag_kept {w : Slice g t} {side side' : List (Row × Row)}
    (h : Sided restricted w side side') (group : Value) :
    w.Rows restricted (groupBag group side) (groupBag group side') :=
  map_related (filter_related h fun x x' hx => by rw [hx.1]) fun x x' hx => hx.2

/-- Both sides have the same groups in the same order. -/
theorem groupValues_eq {ws : List (Slice g t)} {sides sides' : List (List (Row × Row))}
    (h : Along (Sided restricted) ws sides sides') :
    (sides'.flatten.map fun r => groupValue r.1) = sides.flatten.map fun r => groupValue r.1 := by
  induction h with
  | nil => rfl
  | cons hside _ ih =>
    rw [List.flatten_cons, List.flatten_cons, List.map_append, List.map_append, ih]
    refine congrArg (· ++ _) ?_
    have heq : Forall₂ (· = ·) _ _ := map_related hside fun x x' hx =>
      show groupValue x.1 = groupValue x'.1 by rw [hx.1]
    rw [List.forall₂_eq_eq_eq] at heq
    exact heq.symm

/-- The bags of a group and what is left of them. -/
theorem bags_kept {bags : List (String × Uid)} {ws : List (Slice g t)}
    {rows rows' : List (List Row)} (h : Along (Slice.Rows restricted) ws rows rows')
    (hlen : bags.length = ws.length) :
    Row.Kept t restricted (Slice.bagFields bags (ws.map Slice.old)) (Slice.bagged bags ws)
      (rows.map Value.bag) (rows'.map Value.bag) := by
  induction h generalizing bags with
  | nil =>
    rw [List.length_eq_zero_iff.mp hlen]
    exact empty_kept
  | @cons w row row' ws rows rows' hrow _ ih =>
    obtain ⟨b, bags, rfl⟩ := List.exists_cons_of_length_eq_add_one hlen
    have hbag : Row.Kept t restricted [⟨b.1, .bag w.old, b.2⟩] [(0, .bag w.columns)]
        [Value.bag row] [Value.bag row'] := by
      refine ⟨rfl, rfl, fun q p c f v v' hq hf hv hv' => ?_⟩
      cases q with
      | succ q => cases hq
      | zero =>
        cases hq
        cases hf
        cases hv
        cases hv'
        exact .ofRows rfl hrow
    exact hbag.beside (ih (Nat.succ.inj hlen)) fun x hx => by
      rw [List.mem_singleton.mp hx]
      exact Nat.one_pos

theorem groupBags_kept {ws : List (Slice g t)} {sides sides' : List (List (Row × Row))}
    (h : Along (Sided restricted) ws sides sides') (group : Value) :
    Along (Slice.Rows restricted) ws (sides.map (groupBag group))
      (sides'.map (groupBag group)) := by
  induction h with
  | nil => exact .nil
  | cons hside _ ih => exact .cons (groupBag_kept hside group) ih

/-- A group lacks a row of an input before and after. -/
theorem lacking_eq {ws : List (Slice g t)} {bags bags' : List (List Row)}
    (h : Along (Slice.Rows restricted) ws bags bags') (inner : List Bool) :
    ((bags'.zip inner).any fun x => x.2 && x.1.isEmpty) =
      (bags.zip inner).any fun x => x.2 && x.1.isEmpty := by
  induction h generalizing inner with
  | nil => rfl
  | @cons w rows rows' _ _ _ hrows _ ih =>
    cases inner with
    | nil => rfl
    | cons needed inner =>
      have hempty : rows'.isEmpty = rows.isEmpty := by cases hrows <;> rfl
      rw [List.zip_cons_cons, List.zip_cons_cons, List.any_cons, List.any_cons, ih, hempty]

theorem groupRows_kept {c : CoGroup} {ws : List (Slice g t)}
    {sides sides' : List (List (Row × Row))}
    (h : Along (Sided restricted) ws sides sides') (hlen : c.bags.length = ws.length)
    (inner : List Bool) :
    Forall₂ (Row.Kept t restricted (c.schema (ws.map Slice.old)) (c.columns ws))
      (groupRows sides inner) (groupRows sides' inner) := by
  unfold groupRows
  rw [groupValues_eq h]
  refine List.rel_filterMap (R := (· = ·)) ?_ (List.forall₂_same.mpr fun _ _ => rfl)
  rintro group _ rfl
  have hbags := groupBags_kept h group
  have hlack := lacking_eq hbags inner
  dsimp only
  rw [hlack]
  split
  · exact .none
  · refine .some ?_
    have hgroup := @Row.Kept.all t restricted [c.group] [group] rfl
    exact hgroup.beside (bags_kept hbags hlen) fun x hx => by
      rw [List.mem_singleton.mp hx]
      exact Nat.one_pos

end Run

/-! ## Unions -/

/-- What feeds a field of a union, and what is left of it. -/
theorem Value.Kept.fed {f output : Field} {c : Cut} {v v' : Value}
    (h : Value.Kept t restricted f c v v') (hfits : c.Fits t f)
    (hknown : ∀ x ∈ Demand.ofUnionField t output f, t.Records x)
    (hconf : v.conforms output.type = true) : Value.Kept t restricted output .whole v v' := by
  have hwhole : t.ReadsWhole f → Value.Kept t restricted output .whole v v' := fun hw => by
    rw [h.eq_of_whole hfits hw]
    exact .same output v
  unfold Demand.ofUnionField at hknown
  by_cases hmap : f.type.isMap = true
  · rw [if_pos hmap] at hknown
    split at hknown
    · -- Keys that are read of the output are known to be read of the input.
      rename_i keys hkeys
      cases h with
      | same => exact .same output v
      | null => exact .null output .whole
      | map hr hf htrack hkeys₀ hlookup =>
        refine .map hr (Value.isMap_of_conforms hconf) htrack hkeys fun k hk => hlookup k ?_
        obtain ⟨ks, hks, hhas⟩ := Trackers.records_mapKey.mp
          (hknown _ (List.mem_map.mpr ⟨k, hk, rfl⟩)) htrack
        rw [hkeys₀] at hks
        cases hks
        exact hhas
      | bag hf => rw [hf] at hmap; cases hmap
    · refine hwhole fun d hd => hknown d ?_
      obtain ⟨n, ty, u⟩ := f
      cases ty with
      | map value => exact hd
      | _ => cases hmap
  · rw [if_neg hmap] at hknown
    exact hwhole hknown

namespace Run

/-- The row that an input's row becomes in a union. -/
def mapRow (mapping : List (Option Nat)) (row : Row) : Row :=
  mapping.map fun q => (q.bind fun q => row[q]?).getD .null

theorem unionRows_eq (u : Union) (inputs : List (List Row)) :
    unionRows u inputs = (inputs.zip u.mappings).flatMap fun x => x.1.map (mapRow x.2) := rfl

theorem mapRow_kept {required : List Nat} {u : Union} {m m' : List (Option Nat)} {w : Slice g t}
    (h : Union.Side required u m m' w) (hm : m.length = u.fields.length) {row row' : Row}
    (hrow : Row.Kept t restricted w.old w.columns row row')
    (hconf : Value.rowConforms (mapRow m row) u.fields = true) :
    Row.Kept t restricted u.fields (required.map fun p => (p, .whole)) (mapRow m row)
      (mapRow m' row') := by
  refine ⟨by rw [mapRow, List.length_map, hm], ?_, fun k p c output v v' hk hf hv hv' => ?_⟩
  · rw [mapRow, List.length_map, List.length_map, h.moved.length_eq]
  rw [List.getElem?_map] at hk
  obtain ⟨p', hp, heq⟩ := Option.map_eq_some_iff.mp hk
  cases heq
  have hconf := Value.conforms_at hconf hv hf
  obtain ⟨hfed, -⟩ := h.known p (List.mem_of_getElem? hp) output hf
  obtain ⟨o, ho, hmoved⟩ := getElem?_of_left h.moved hp
  rw [mapRow, List.getElem?_map] at hv hv'
  rw [ho] at hv'
  cases hv'
  obtain ⟨q, hq, rfl⟩ := Option.map_eq_some_iff.mp hv
  have hjoin : m[p]?.join = q := by rw [hq]; rfl
  rw [hjoin] at hmoved hfed
  cases q with
  | none =>
    rw [show o = none from hmoved]
    exact .null output .whole
  | some q =>
    obtain ⟨r, hr, rfl⟩ := hmoved
    obtain ⟨f, hfq, hknown⟩ := hfed q rfl
    obtain ⟨f₀, -, hf₀, -, -, hfits⟩ := Slice.field_at hr
    rw [hfq] at hf₀
    cases hf₀
    obtain ⟨x, x', hx, hx', hkept⟩ := hrow.at_position (Slice.columns_at hr) hfq
    simp only [Option.bind_some, hx, hx', Option.getD_some] at hconf ⊢
    exact hkept.fed hfits hknown hconf

theorem unionRows_kept {required : List Nat} {u u' : Union} {ws : List (Slice g t)}
    (h : u.Narrowed required u' ws) (hm : ∀ m ∈ u.mappings, m.length = u.fields.length)
    {inputs inputs' : List (List Row)} (hrows : Along (Slice.Rows restricted) ws inputs inputs')
    (hconf : ∀ row ∈ unionRows u inputs, Value.rowConforms row u.fields = true) :
    Forall₂ (Row.Kept t restricted u.fields (required.map fun p => (p, .whole)))
      (unionRows u inputs) (unionRows u' inputs') := by
  rw [unionRows_eq] at hconf ⊢
  rw [unionRows_eq]
  obtain ⟨-, hsides⟩ := h
  generalize u.mappings = ms at *
  generalize u'.mappings = ms' at *
  induction hsides generalizing inputs inputs' with
  | nil => cases hrows; exact .nil
  | @cons m m' w ms ms' ws hside _ ih =>
    cases hrows with
    | @cons _ rows rows' _ inputs inputs' hw hrest =>
      rw [List.zip_cons_cons, List.flatMap_cons] at hconf ⊢
      rw [List.zip_cons_cons, List.flatMap_cons]
      refine List.rel_append ?_ (ih hrest (fun m hm' => hm m (List.mem_cons_of_mem _ hm'))
        fun row hrow => hconf row (List.mem_append_right _ hrow))
      have hshape : ∀ row ∈ rows, Value.rowConforms (mapRow m row) u.fields = true :=
        fun row hrow =>
        hconf _ (List.mem_append_left _ (List.mem_map.mpr ⟨row, hrow, rfl⟩))
      exact map_related ((List.forall₂_and_left _ _).mpr ⟨hshape, hw⟩) fun row row' hrow =>
        mapRow_kept hside (hm m (List.mem_cons_self ..)) hrow.2 hrow.1

end Run

end Dataflow
