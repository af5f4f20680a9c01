import Dataflow.Proofs.Narrowing.Cut
import Dataflow.Traverse
import Mathlib.Data.List.Nodup

/-!
# Slices

A `Slice` is a schema before and after narrowing, with the columns that lead
from one to the other. It carries the proofs that the columns fit what is known
about parts and that the new schema is what they leave of the old one, so that
the statements about renumbering need no further hypotheses about the two.

A selection of inner columns is renumbered by identity, which finds the first
inner column that has it. `Schema.Coherent` says that this makes no difference
for the schema: columns with one identity agree up to names.
-/

namespace Dataflow

/-! ## Inner schemas -/

mutual

/-- The inner schemas of a type, at every depth. The values of a map are opaque:
nothing in them is ever narrowed. -/
def DataType.inners : DataType → List Schema
  | .scalar _ => []
  | .map _ => []
  | .tuple inner => inner :: Schema.inners inner
  | .bag inner => inner :: Schema.inners inner

def Field.inners : Field → List Schema
  | ⟨_, t, _⟩ => t.inners

def Schema.inners : List Field → List Schema
  | [] => []
  | f :: fs => f.inners ++ Schema.inners fs

end

theorem Schema.mem_inners {s : Schema} {inner : Schema} :
    inner ∈ Schema.inners s ↔ ∃ f ∈ s, inner ∈ f.inners := by
  induction s with
  | nil => simp [Schema.inners]
  | cons f fs ih => simp [Schema.inners, ih]

theorem Field.mem_inners {f : Field} {inner x : Schema} (hf : f.type.inner? = some inner) :
    x ∈ f.inners ↔ x = inner ∨ x ∈ Schema.inners inner := by
  obtain ⟨n, ty, u⟩ := f
  cases ty <;> cases hf <;> simp [Field.inners, DataType.inners]

/-- Inner columns that share an identity agree up to names. -/
def Schema.Coherent (g : String → String) (s : Schema) : Prop :=
  ∀ inner ∈ Schema.inners s, ∀ f ∈ inner, ∀ h ∈ inner, f.uid = h.uid →
    f.mapNames g = h.mapNames g

theorem Schema.Coherent.inner {g : String → String} {s : Schema} (h : Schema.Coherent g s)
    {f : Field} (hf : f ∈ s) {inner : Schema} (hinner : f.type.inner? = some inner) :
    (∀ x ∈ inner, ∀ y ∈ inner, x.uid = y.uid → x.mapNames g = y.mapNames g) ∧
      Schema.Coherent g inner :=
  ⟨h inner (Schema.mem_inners.mpr ⟨f, hf, (Field.mem_inners hinner).mpr (Or.inl rfl)⟩),
    fun x hx => h x (Schema.mem_inners.mpr ⟨f, hf, (Field.mem_inners hinner).mpr (Or.inr hx)⟩)⟩

/-- Inner columns that share an identity have one type. -/
def Schema.SharesTypes (s : Schema) : Prop :=
  ∀ inner ∈ Schema.inners s, ∀ f ∈ inner, ∀ h ∈ inner, f.uid = h.uid → f.type = h.type

/-- No two inner columns share an identity. -/
def Schema.DistinctInside (s : Schema) : Prop :=
  ∀ inner ∈ Schema.inners s, (inner.map Field.uid).Nodup

instance (s : Schema) : Decidable s.SharesTypes :=
  inferInstanceAs (Decidable (∀ inner ∈ Schema.inners s, _))

instance (s : Schema) : Decidable s.DistinctInside :=
  inferInstanceAs (Decidable (∀ inner ∈ Schema.inners s, _))

theorem Schema.SharesTypes.coherent {s : Schema} (h : s.SharesTypes) (n : String) :
    Schema.Coherent (fun _ => n) s := by
  intro inner hinner f hf x hx hu
  have ht := h inner hinner f hf x hx hu
  obtain ⟨n₁, t₁, u₁⟩ := f
  obtain ⟨n₂, t₂, u₂⟩ := x
  cases hu
  cases ht
  rfl

theorem Schema.DistinctInside.coherent {s : Schema} (h : s.DistinctInside)
    (g : String → String) : Schema.Coherent g s := fun inner hinner f hf x hx hu => by
  rw [List.inj_on_of_nodup_map (h inner hinner) hf hx hu]

/-! ## Small facts about schemas -/

theorem Schema.fieldAt_ok {s : Schema} {p : Nat} {f : Field} :
    s.fieldAt p = .ok f ↔ s[p]? = some f := by
  unfold Schema.fieldAt
  cases s[p]? <;> simp

theorem Demand.field_eq_ok {s : Schema} {p : Nat} {f : Field} :
    Demand.field s p = .ok f ↔ s[p]? = some f := by
  unfold Demand.field Schema.fieldAt
  cases s[p]? <;> simp [Except.mapError]

theorem Schema.positionOf?_eq_some {s : Schema} {u : Uid} {i : Nat} :
    Schema.positionOf? s u = some i ↔
      ∃ f, s[i]? = some f ∧ f.uid = u ∧ ∀ j < i, ∀ h, s[j]? = some h → h.uid ≠ u := by
  unfold Schema.positionOf?
  rw [List.findIdx?_eq_some_iff_getElem]
  constructor
  · rintro ⟨hi, huid, hfirst⟩
    refine ⟨s[i], List.getElem?_eq_getElem hi, by simpa using huid, fun j hj h hh => ?_⟩
    obtain ⟨hlt, rfl⟩ := List.getElem?_eq_some_iff.mp hh
    simpa using hfirst j hj
  · rintro ⟨f, hf, huid, hfirst⟩
    obtain ⟨hi, rfl⟩ := List.getElem?_eq_some_iff.mp hf
    refine ⟨hi, by simpa using huid, fun j hj => ?_⟩
    simpa using hfirst j hj s[j] (List.getElem?_eq_getElem (Nat.lt_trans hj hi))

theorem Schema.positionOf?_isSome {s : Schema} {u : Uid} {f : Field} (hf : f ∈ s)
    (hu : f.uid = u) : ∃ i, Schema.positionOf? s u = some i := by
  cases h : Schema.positionOf? s u with
  | some i => exact ⟨i, rfl⟩
  | none =>
    have := List.findIdx?_eq_none_iff.mp h f hf
    simp [hu] at this

/-- In an ascending list every element stands at one place. -/
theorem findIdx?_ascending {kept : List Nat} (h : kept.Pairwise (· < ·)) {p q : Nat} :
    (kept.findIdx? fun x => x == p) = some q ↔ kept[q]? = some p := by
  rw [List.findIdx?_eq_some_iff_getElem]
  constructor
  · rintro ⟨hq, hp, -⟩
    rw [List.getElem?_eq_getElem hq]
    simpa using hp
  · intro hq
    obtain ⟨hlt, rfl⟩ := List.getElem?_eq_some_iff.mp hq
    refine ⟨hlt, by simp, fun j hj => ?_⟩
    have := List.pairwise_iff_getElem.mp h j q (Nat.lt_trans hj hlt) hlt hj
    simp; omega

theorem PositionMap.ofKept_getElem? {width : Nat} {kept : List Nat} (h : kept.Pairwise (· < ·))
    (hb : ∀ p ∈ kept, p < width) {p q : Nat} :
    (PositionMap.ofKept width kept)[p]?.join = some q ↔ kept[q]? = some p := by
  unfold PositionMap.ofKept
  rw [List.getElem?_map]
  by_cases hp : p < width
  · rw [List.getElem?_range hp]
    exact findIdx?_ascending h
  · rw [List.getElem?_eq_none (by simpa using hp)]
    simp only [Option.map_none, Option.join_none, reduceCtorEq, false_iff]
    exact fun hq => hp (hb p (List.mem_of_getElem? hq))

/-! ## Slices -/

/-- A schema before and after narrowing, and the columns that remain. -/
structure Slice (g : String → String) (t : Trackers) where
  old : Schema
  new : Schema
  columns : Columns
  fits : columns.Fits t old
  new_eq : Schema.mapNames g new = columns.schema (Schema.mapNames g old)

namespace Slice

variable {g : String → String} {t : Trackers}

/-- What became of the fields, as the pass keeps it. -/
def narrowed (w : Slice g t) : Narrowed :=
  ⟨w.old, w.new, .ofKept w.old.length w.columns.positions⟩

def kept (w : Slice g t) : List Nat := w.columns.positions

theorem new_length (w : Slice g t) : w.new.length = w.columns.length := by
  have := congrArg List.length w.new_eq
  rwa [Schema.mapNames_length, Columns.schema_length] at this

theorem kept_bounded (w : Slice g t) : ∀ p ∈ w.kept, p < w.old.length := by
  intro p hp
  obtain ⟨x, hx, rfl⟩ := List.mem_map.mp hp
  exact w.fits.bounded x hx

theorem column_ok {w : Slice g t} {p q : Nat} :
    w.narrowed.column p = .ok q ↔ w.kept[q]? = some p := by
  rw [Slice.kept, ← PositionMap.ofKept_getElem? w.fits.ascending w.kept_bounded]
  unfold Narrowed.column
  rw [show w.narrowed.moved = PositionMap.ofKept w.old.length w.columns.positions from rfl]
  cases (PositionMap.ofKept w.old.length w.columns.positions)[p]?.join <;> simp

theorem exists_column {w : Slice g t} {p : Nat} (hp : p ∈ w.kept) :
    ∃ q, w.narrowed.column p = .ok q := by
  obtain ⟨q, hq⟩ := List.mem_iff_getElem?.mp hp
  exact ⟨q, column_ok.mpr hq⟩

/-- What remains of the field at an old position. -/
def cutAt (w : Slice g t) (p : Nat) : Cut := (w.columns.lookup p).getD .whole

theorem columns_at {w : Slice g t} {p q : Nat} (h : w.narrowed.column p = .ok q) :
    w.columns[q]? = some (p, w.cutAt p) := by
  have hq := column_ok.mp h
  rw [Slice.kept, Columns.positions_getElem?] at hq
  obtain ⟨⟨p', c⟩, hx, rfl⟩ := Option.map_eq_some_iff.mp hq
  rw [hx, cutAt, w.fits.lookup hx]
  rfl

/-- The field at an old position and what is left of it at its new position. -/
theorem field_at {w : Slice g t} {p q : Nat} (h : w.narrowed.column p = .ok q) :
    ∃ f f', w.old[p]? = some f ∧ w.new[q]? = some f' ∧
      f'.mapNames g = (w.cutAt p).field (f.mapNames g) ∧ (w.cutAt p).Fits t f := by
  have hx := columns_at h
  have hlt := w.fits.bounded _ (List.mem_of_getElem? hx)
  have hf : w.old[p]? = some w.old[p] := List.getElem?_eq_getElem hlt
  have hnew : (Schema.mapNames g w.new)[q]? = some ((w.cutAt p).field (w.old[p].mapNames g)) := by
    rw [w.new_eq, Columns.schema_getElem? hx]
    rw [Schema.mapNames_getElem?, hf]
    rfl
  rw [Schema.mapNames_getElem?] at hnew
  obtain ⟨f', hf', heq⟩ := Option.map_eq_some_iff.mp hnew
  exact ⟨w.old[p], f', hf, hf', heq, w.fits.cuts _ (List.mem_of_getElem? hx) _ hf⟩

/-- A field that is read whole is the same before and after, up to names. -/
theorem field_eq_of_whole {w : Slice g t} {p q : Nat} (h : w.narrowed.column p = .ok q)
    {f : Field} (hf : w.old[p]? = some f) (hw : t.ReadsWhole f) :
    ∃ f', w.new[q]? = some f' ∧ f'.mapNames g = f.mapNames g := by
  obtain ⟨f₀, f', hf₀, hf', heq, hfits⟩ := field_at h
  rw [hf] at hf₀
  cases hf₀
  refine ⟨f', hf', ?_⟩
  rw [heq, hfits.mapNames.field_eq (Trackers.readsWhole_mapNames.mpr hw)]

/-- Nothing was removed. -/
def refl (g : String → String) (t : Trackers) (s : Schema) : Slice g t where
  old := s
  new := s
  columns := .all s.length
  fits := Columns.fits_all t s
  new_eq := by
    rw [show s.length = (Schema.mapNames g s).length from (Schema.mapNames_length s).symm,
      Columns.schema_all]

/-- When every field is kept and read whole, the schema stays the same up to
names. -/
theorem new_eq_of_whole {w : Slice g t} (hall : ∀ i < w.old.length, i ∈ w.kept)
    (hw : ∀ f ∈ w.old, t.ReadsWhole f) :
    w.kept = List.range w.old.length ∧ Schema.mapNames g w.new = Schema.mapNames g w.old := by
  have hpos : w.kept = List.range w.old.length :=
    eq_range_of_ascending w.fits.ascending w.kept_bounded hall
  refine ⟨hpos, ?_⟩
  rw [w.new_eq]
  refine Columns.schema_eq_self (by rw [Schema.mapNames_length]; exact hpos) fun x hx f hf => ?_
  rw [Schema.mapNames_getElem?] at hf
  obtain ⟨f₀, hf₀, rfl⟩ := Option.map_eq_some_iff.mp hf
  exact (w.fits.cuts x hx f₀ hf₀).mapNames.type_eq
    (Trackers.readsWhole_mapNames.mpr (hw f₀ (List.mem_of_getElem? hf₀)))

/-! ## Inner columns -/

/-- The new inner position of an inner column, found by identity. -/
def innerPosition (p : Nat) (inner inner' : Schema) (c : Nat) : Except Error Nat := do
  let h ← (Schema.fieldAt inner c).mapError Error.asDefect
  match Schema.positionOf? inner' h.uid with
  | some q => return q
  | none => .error (.internal (.prunedInner c p))

theorem innerPosition_ok {p : Nat} {inner inner' : Schema} {c q : Nat} :
    innerPosition p inner inner' c = .ok q ↔
      ∃ h, inner[c]? = some h ∧ Schema.positionOf? inner' h.uid = some q := by
  unfold innerPosition Schema.fieldAt
  cases hc : inner[c]? with
  | none => simp [Except.mapError, bind, Except.bind]
  | some h =>
    simp only [Except.mapError, bind, Except.bind, Option.some.injEq, exists_eq_left']
    cases Schema.positionOf? inner' h.uid <;> simp [pure, Except.pure]

/-- The renumbering of inner columns, once the two inner schemas are known. -/
theorem inner_eq {w : Slice g t} {p q : Nat} (hq : w.narrowed.column p = .ok q) {f f' : Field}
    (hf : w.old[p]? = some f) (hf' : w.new[q]? = some f') {inner inner' : Schema}
    (hi : f.type.inner? = some inner) (hi' : f'.type.inner? = some inner') (cs : List Nat) :
    w.narrowed.inner p cs = cs.mapM (innerPosition p inner inner') := by
  have h₁ : Schema.fieldAt w.narrowed.old p = .ok f := Schema.fieldAt_ok.mpr hf
  have h₂ : Schema.fieldAt w.narrowed.new q = .ok f' := Schema.fieldAt_ok.mpr hf'
  simp only [Narrowed.inner, h₁, hq, h₂, Except.mapError, bind, Except.bind, hi, hi']
  rfl

/-- What is left of the inner columns of a kept field. -/
theorem inner_at {w : Slice g t} {p q : Nat} (hq : w.narrowed.column p = .ok q) {f : Field}
    (hf : w.old[p]? = some f) {inner : Schema} (hi : f.type.inner? = some inner) :
    ∃ (f' : Field) (inner' : Schema), w.new[q]? = some f' ∧ f'.type.inner? = some inner' ∧
      Schema.mapNames g inner' =
        ((w.cutAt p).inside inner.length).schema (Schema.mapNames g inner) ∧
      ((w.cutAt p).inside inner.length).Fits t inner ∧
      Known t f.uid inner ((w.cutAt p).inside inner.length).positions := by
  obtain ⟨f₀, f', hf₀, hf', heq, hfits⟩ := field_at hq
  rw [hf] at hf₀
  cases hf₀
  obtain ⟨-, hfit, hknown⟩ := hfits.inside hi
  have hi₀ : (f.mapNames g).type.inner? = some (Schema.mapNames g inner) := by
    rw [Field.mapNames_type, DataType.mapNames_inner?, hi]; rfl
  obtain ⟨hinner, -, -⟩ := hfits.mapNames.inside hi₀
  have htype : (f'.type.mapNames g).inner? =
      some (((w.cutAt p).inside inner.length).schema (Schema.mapNames g inner)) := by
    have := congrArg Field.type heq
    rw [Field.mapNames_type] at this
    rw [this, Cut.field_type, hinner, Schema.mapNames_length]
  rw [DataType.mapNames_inner?] at htype
  obtain ⟨inner', hi', hinner'⟩ := Option.map_eq_some_iff.mp htype
  exact ⟨f', inner', hf', hi', hinner', hfit, hknown⟩

/-- The inner columns of a kept field as a slice of their own. -/
def ofInner {inner inner' : Schema} {cols : Columns}
    (h : Schema.mapNames g inner' = cols.schema (Schema.mapNames g inner))
    (hfit : cols.Fits t inner) : Slice g t := ⟨inner, inner', cols, hfit, h⟩

/-- A column with the identity of a kept one is found, and what is found has
that identity. -/
theorem positionOf?_kept {w : Slice g t} {u : Uid} {i : Nat} {f : Field}
    (hi : i ∈ w.kept) (hf : w.old[i]? = some f) (hu : f.uid = u) :
    ∃ j, Schema.positionOf? w.new u = some j := by
  obtain ⟨q, hq⟩ := exists_column hi
  obtain ⟨f₀, f', hf₀, hf', heq, -⟩ := field_at hq
  rw [hf] at hf₀
  cases hf₀
  refine Schema.positionOf?_isSome (List.mem_of_getElem? hf') ?_
  have := congrArg Field.uid heq
  simpa [hu] using this

theorem positionOf?_old {w : Slice g t} {u : Uid} {j : Nat}
    (hj : Schema.positionOf? w.new u = some j) :
    ∃ i f, w.narrowed.column i = .ok j ∧ w.old[i]? = some f ∧ f.uid = u := by
  obtain ⟨f', hf', hu, -⟩ := Schema.positionOf?_eq_some.mp hj
  have hlt : j < w.columns.length := by
    rw [← w.new_length]; exact (List.getElem?_eq_some_iff.mp hf').1
  obtain ⟨⟨i, c⟩, hx⟩ : ∃ x, w.columns[j]? = some x := ⟨_, List.getElem?_eq_getElem hlt⟩
  have hcol : w.narrowed.column i = .ok j :=
    column_ok.mpr (by rw [Slice.kept, Columns.positions_getElem?, hx]; rfl)
  obtain ⟨f, f₀, hf, hf₀, heq, -⟩ := field_at hcol
  rw [hf'] at hf₀
  cases hf₀
  refine ⟨i, f, hcol, hf, ?_⟩
  have := congrArg Field.uid heq
  simpa [hu] using this.symm

/-- The first column with an identity stays the first, if it is kept. -/
theorem positionOf?_first {w : Slice g t} {u : Uid} {i j : Nat}
    (hi : Schema.positionOf? w.old u = some i) (hij : w.narrowed.column i = .ok j) :
    Schema.positionOf? w.new u = some j := by
  obtain ⟨f, hf, hu, hfirst⟩ := Schema.positionOf?_eq_some.mp hi
  obtain ⟨f₀, f', hf₀, hf', heq, -⟩ := field_at hij
  rw [hf] at hf₀
  cases hf₀
  refine Schema.positionOf?_eq_some.mpr ⟨f', hf', ?_, fun k hk h hh hhu => ?_⟩
  · have := congrArg Field.uid heq
    simpa [hu] using this
  · have hlt : k < w.columns.length := by
      rw [← w.new_length]; exact (List.getElem?_eq_some_iff.mp hh).1
    obtain ⟨⟨m, c'⟩, hx⟩ : ∃ x, w.columns[k]? = some x := ⟨_, List.getElem?_eq_getElem hlt⟩
    have hkept : w.kept[k]? = some m := by rw [Slice.kept, Columns.positions_getElem?, hx]; rfl
    obtain ⟨fm, h', hfm, hh', heq', -⟩ := field_at (column_ok.mpr hkept)
    rw [hh] at hh'
    cases hh'
    -- The kept positions ascend, so an earlier new position is an earlier old one.
    have hlt' : m < i := by
      obtain ⟨hk₁, hk₂⟩ := List.getElem?_eq_some_iff.mp hkept
      obtain ⟨hj₁, hj₂⟩ := List.getElem?_eq_some_iff.mp (column_ok.mp hij)
      have := List.pairwise_iff_getElem.mp w.fits.ascending k j hk₁ hj₁ hk
      rw [← hk₂, ← hj₂]
      exact this
    refine hfirst m hlt' fm hfm ?_
    have := congrArg Field.uid heq'
    simpa [hhu] using this.symm

end Slice

end Dataflow
