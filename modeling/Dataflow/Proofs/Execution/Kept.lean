import Dataflow.Execution.Run
import Dataflow.Proofs.Narrowing.Operators

/-!
# What is left of rows

A narrowed plan computes narrowed rows. `Value.Kept` relates the value of a
field to what is left of it: a value that is not cut is the same, a bag has the
same rows, each of them narrowed to the columns of the cut. Where loads drop the
map keys that were not recorded as required, a map may also have lost entries,
but none with a key that is known to be read.

The relation needs no typing of values. Whatever is known to be read whole is
the same on both sides (`Value.Kept.eq_of_whole`), and that is how it is used.
-/

namespace Dataflow

open List (Forall₂)

/-! ## Values -/

/-- A value of a field and what is left of it under a cut. Maps lose entries only
where loads are restricted to recorded keys. -/
inductive Value.Kept (t : Trackers) (restricted : Bool) : Field → Cut → Value → Value → Prop
  | same (f : Field) (v : Value) : Kept t restricted f .whole v v
  | null (f : Field) (c : Cut) : Kept t restricted f c .null .null
  | map {f : Field} {c : Cut} {entries entries' : List (String × Value)} {keys : List String}
      (hr : restricted = true) (hf : f.type.isMap = true) (htrack : t.trackKeys = true)
      (hkeys : t.mapKeys.get? f.uid = some (.only keys))
      (h : ∀ k ∈ keys, entries'.lookup k = entries.lookup k) :
      Kept t restricted f c (.map entries) (.map entries')
  | bag {f : Field} {c : Cut} {inner : Schema} {rows rows' : List Row}
      (hf : f.type = .bag inner) (hlen : rows.length = rows'.length)
      (hwidth : ∀ (i : Nat) row row', rows[i]? = some row → rows'[i]? = some row' →
        row.length = inner.length ∧ row'.length = (c.inside inner.length).length)
      (h : ∀ (i : Nat) row row', rows[i]? = some row → rows'[i]? = some row' →
        ∀ (q p : Nat) c' x v v', (c.inside inner.length)[q]? = some (p, c') → inner[p]? = some x →
          row[p]? = some v → row'[q]? = some v' → Kept t restricted x c' v v') :
      Kept t restricted f c (.bag rows) (.bag rows')

structure Row.Kept (t : Trackers) (restricted : Bool) (s : Schema) (cols : Columns)
    (row row' : Row) : Prop where
  width : row.length = s.length
  left : row'.length = cols.length
  value : ∀ (q p : Nat) c f v v', cols[q]? = some (p, c) → s[p]? = some f → row[p]? = some v →
    row'[q]? = some v' → Value.Kept t restricted f c v v'

variable {g : String → String} {t : Trackers} {restricted : Bool}

namespace Value.Kept

variable {f : Field} {c : Cut} {v v' : Value}

theorem ofRows {inner : Schema} {rows rows' : List Row} (hf : f.type = .bag inner)
    (h : Forall₂ (Row.Kept t restricted inner (c.inside inner.length)) rows rows') :
    Value.Kept t restricted f c (.bag rows) (.bag rows') := by
  have hat : ∀ (i : Nat) row row', rows[i]? = some row → rows'[i]? = some row' →
      Row.Kept t restricted inner (c.inside inner.length) row row' := fun i row row' hi hi' => by
    obtain ⟨row₀, hi₀, hrow⟩ := getElem?_of_left h hi
    rw [hi'] at hi₀
    cases hi₀
    exact hrow
  exact .bag hf h.length_eq
    (fun i row row' hi hi' => ⟨(hat i row row' hi hi').width, (hat i row row' hi hi').left⟩)
    fun i row row' hi hi' => (hat i row row' hi hi').value

/-- The name of a field does not matter. -/
theorem congr {f' : Field} (h : Value.Kept t restricted f c v v') (htype : f'.type = f.type)
    (huid : f'.uid = f.uid) : Value.Kept t restricted f' c v v' := by
  cases h with
  | same => exact .same f' v
  | null => exact .null f' c
  | map hr hf htrack hkeys h => exact .map hr (htype ▸ hf) htrack (huid ▸ hkeys) h
  | bag hf hlen hwidth h => exact .bag (htype.trans hf) hlen hwidth h

end Value.Kept

/-- A row of which everything is left, unchanged. -/
theorem eq_of_positions {cols : Columns} {n : Nat} {row row' : Row}
    (hpos : cols.positions = List.range n) (hwidth : row.length = n)
    (hleft : row'.length = cols.length)
    (h : ∀ (q : Nat) c v v', cols[q]? = some (q, c) → row[q]? = some v → row'[q]? = some v' →
      v' = v) : row' = row := by
  have hlen : cols.length = n := by
    have := congrArg List.length hpos
    simpa [Columns.positions] using this
  refine List.ext_getElem? fun q => ?_
  by_cases hq : q < n
  · obtain ⟨⟨p, c⟩, hcol⟩ : ∃ x, cols[q]? = some x := ⟨_, List.getElem?_eq_getElem (hlen ▸ hq)⟩
    have hp : cols.positions[q]? = some q := by rw [hpos]; exact List.getElem?_range hq
    rw [Columns.positions_getElem?, hcol] at hp
    cases hp
    obtain ⟨v, hv⟩ : ∃ v, row[p]? = some v := ⟨_, List.getElem?_eq_getElem (by omega)⟩
    obtain ⟨v', hv'⟩ : ∃ v', row'[p]? = some v' := ⟨_, List.getElem?_eq_getElem (by omega)⟩
    rw [hv, hv', h p c v v' hcol hv hv']
  · rw [List.getElem?_eq_none (by omega), List.getElem?_eq_none (by omega)]

/-- What is known to be read whole is the same on both sides. -/
theorem Value.Kept.eq_of_whole {f : Field} {c : Cut} {v v' : Value}
    (h : Value.Kept t restricted f c v v') (hfits : c.Fits t f) (hw : t.ReadsWhole f) : v' = v := by
  induction h with
  | same => rfl
  | null => rfl
  | @map f c entries entries' keys hr hf htrack hkeys h =>
    -- A map that is read whole has all its keys recorded.
    exfalso
    obtain ⟨n, ty, u⟩ := f
    cases ty with
    | map value =>
      have := Trackers.records_allKeys.mp (hw _ (List.mem_singleton.mpr rfl)) htrack
      rw [show t.mapKeys.get? u = some (.only keys) from hkeys] at this
      cases this
    | _ => cases hf
  | @bag f c inner rows rows' hf hlen hwidth h ih =>
    have hi : f.type.inner? = some inner := by rw [hf]; rfl
    obtain ⟨-, hfit, hknown⟩ := hfits.inside hi
    obtain ⟨hall, hinner⟩ := hw.bag hi
    have hpos : (c.inside inner.length).positions = List.range inner.length := by
      refine eq_range_of_ascending hfit.ascending (fun p hp => ?_) ?_
      · obtain ⟨x, hx, rfl⟩ := List.mem_map.mp hp
        exact hfit.bounded x hx
      · simpa only [Known, hall] using hknown
    refine congrArg Value.bag (List.ext_getElem? fun i => ?_)
    by_cases hlt : i < rows.length
    · obtain ⟨row, hrow⟩ : ∃ row, rows[i]? = some row := ⟨_, List.getElem?_eq_getElem hlt⟩
      obtain ⟨row', hrow'⟩ : ∃ row', rows'[i]? = some row' :=
        ⟨_, List.getElem?_eq_getElem (hlen ▸ hlt)⟩
      obtain ⟨hwid, hleft⟩ := hwidth i row row' hrow hrow'
      rw [hrow, hrow']
      refine congrArg some (eq_of_positions hpos hwid hleft fun q c' v v' hq hv hv' => ?_)
      obtain ⟨x, hx⟩ : ∃ x, inner[q]? = some x :=
        ⟨_, List.getElem?_eq_getElem (hwid ▸ (List.getElem?_eq_some_iff.mp hv).1)⟩
      exact ih i row row' hrow hrow' q q c' x v v' hq hx hv hv'
        (hfit.cuts _ (List.mem_of_getElem? hq) x hx) (hinner x (List.mem_of_getElem? hx))
    · rw [List.getElem?_eq_none (by omega), List.getElem?_eq_none (by omega)]

/-! ## Rows -/

namespace Row.Kept

variable {s s' : Schema} {cols a b : Columns} {row row' x x' y y' : Row}

/-- The value at a kept position, before and after. -/
theorem at_position (h : Row.Kept t restricted s cols row row') {q p : Nat} {c : Cut} {f : Field}
    (hq : cols[q]? = some (p, c)) (hf : s[p]? = some f) :
    ∃ v v', row[p]? = some v ∧ row'[q]? = some v' ∧ Value.Kept t restricted f c v v' := by
  obtain ⟨v, hv⟩ : ∃ v, row[p]? = some v :=
    ⟨_, List.getElem?_eq_getElem (h.width ▸ (List.getElem?_eq_some_iff.mp hf).1)⟩
  obtain ⟨v', hv'⟩ : ∃ v', row'[q]? = some v' :=
    ⟨_, List.getElem?_eq_getElem (h.left ▸ (List.getElem?_eq_some_iff.mp hq).1)⟩
  exact ⟨v, v', hv, hv', h.value q p c f v v' hq hf hv hv'⟩

/-- A row that is read whole is the same on both sides. -/
theorem eq_of_whole (h : Row.Kept t restricted s cols row row') (hfits : cols.Fits t s)
    (hall : ∀ i < s.length, i ∈ cols.positions) (hw : ∀ f ∈ s, t.ReadsWhole f) : row' = row := by
  have hpos : cols.positions = List.range s.length := by
    refine eq_range_of_ascending hfits.ascending (fun p hp => ?_) hall
    obtain ⟨x, hx, rfl⟩ := List.mem_map.mp hp
    exact hfits.bounded x hx
  refine eq_of_positions hpos h.width h.left fun q c v v' hq hv hv' => ?_
  obtain ⟨f, hf⟩ : ∃ f, s[q]? = some f :=
    ⟨_, List.getElem?_eq_getElem (h.width ▸ (List.getElem?_eq_some_iff.mp hv).1)⟩
  exact (h.value q q c f v v' hq hf hv hv').eq_of_whole
    (hfits.cuts _ (List.mem_of_getElem? hq) f hf) (hw f (List.mem_of_getElem? hf))

theorem all (h : row.length = s.length) :
    Row.Kept t restricted s (.all s.length) row row := by
  refine ⟨h, by simp [Columns.all, h], fun q p c f v v' hq _ hv hv' => ?_⟩
  obtain ⟨rfl, rfl⟩ := Columns.eq_of_all hq
  rw [hv] at hv'
  cases hv'
  exact .same f v

/-- A row of nulls. -/
theorem nulls (s : Schema) (cols : Columns) : Row.Kept t restricted s cols
    (List.replicate s.length .null) (List.replicate cols.length .null) := by
  refine ⟨List.length_replicate, List.length_replicate, fun q p c f v v' _ _ hv hv' => ?_⟩
  rw [List.eq_of_mem_replicate (List.mem_of_getElem? hv),
    List.eq_of_mem_replicate (List.mem_of_getElem? hv')]
  exact .null f c

/-- A row behind another one of which nothing is left. -/
theorem shift (h : Row.Kept t restricted s' b y y') (hx : x.length = s.length) :
    Row.Kept t restricted (s ++ s') (b.shift s.length) (x ++ y) y' := by
  refine ⟨by rw [List.length_append, List.length_append, hx, h.width], ?_,
    fun q p c f v v' hq hf hv hv' => ?_⟩
  · rw [h.left, Columns.shift, List.length_map]
  · rw [Columns.shift, List.getElem?_map] at hq
    obtain ⟨⟨p', c'⟩, hq', heq⟩ := Option.map_eq_some_iff.mp hq
    cases heq
    rw [List.getElem?_append_right (by omega)] at hf hv
    rw [Nat.add_sub_cancel] at hf
    rw [hx, Nat.add_sub_cancel] at hv
    exact h.value q p' c' f v v' hq' hf hv hv'

/-- Two rows side by side. -/
theorem beside (hx : Row.Kept t restricted s a x x') (hy : Row.Kept t restricted s' b y y')
    (hb : ∀ z ∈ a, z.1 < s.length) :
    Row.Kept t restricted (s ++ s') (Columns.beside s.length a b) (x ++ y) (x' ++ y') := by
  have hback := hy.shift hx.width
  refine ⟨hback.width, ?_, fun q p c f v v' hq hf hv hv' => ?_⟩
  · rw [Columns.beside, List.length_append, List.length_append, hx.left, ← hback.left]
  · rw [Columns.beside] at hq
    by_cases hlt : q < a.length
    · rw [List.getElem?_append_left hlt] at hq
      have hp := hb _ (List.mem_of_getElem? hq)
      rw [List.getElem?_append_left hp] at hf
      rw [List.getElem?_append_left (hx.width ▸ hp)] at hv
      rw [List.getElem?_append_left (hx.left ▸ hlt)] at hv'
      exact hx.value q p c f v v' hq hf hv hv'
    · rw [List.getElem?_append_right (Nat.le_of_not_lt hlt)] at hq
      rw [List.getElem?_append_right (by rw [hx.left]; omega), hx.left] at hv'
      exact hback.value _ p c f v v' hq hf hv hv'

end Row.Kept

end Dataflow
