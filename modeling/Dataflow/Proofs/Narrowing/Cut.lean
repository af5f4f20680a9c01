import Dataflow.Proofs.Requirement.Absorption
import Dataflow.Prune.Project

/-!
# Cuts

Narrowing a plan removes columns, and where the rows of a node are collected in
a bag it removes them inside the bag too, at any depth. A `Cut` is a record of
what remains of one field, and `Columns` of what remains of a row: the kept
positions in ascending order, each with its own cut. Everything that is said
later about narrowed schemas, expressions and rows is said in terms of them.

A cut fits what is known about parts (`Cut.Fits`) when a bag keeps at least the
columns that were found to be read of it. Hence a field that is read whole is
not cut at all (`Cut.Fits.type_eq`).

When two columns of a bag share an identity, a narrowed selection may name the
other one. Their types agree but their names need not, so schemas are compared
after all names went through a function `g`: the identity where names matter,
a constant where they do not.
-/

namespace Dataflow

/-! ## Names -/

mutual

/-- The type with every name in it replaced. -/
def DataType.mapNames (g : String → String) : DataType → DataType
  | .scalar s => .scalar s
  | .map value => .map (value.mapNames g)
  | .tuple inner => .tuple (Schema.mapNames g inner)
  | .bag inner => .bag (Schema.mapNames g inner)

def Field.mapNames (g : String → String) : Field → Field
  | ⟨n, t, u⟩ => ⟨g n, t.mapNames g, u⟩

def Schema.mapNames (g : String → String) : List Field → List Field
  | [] => []
  | f :: fs => f.mapNames g :: Schema.mapNames g fs

end

section Names

variable {g : String → String}

theorem Schema.mapNames_eq_map (s : Schema) : Schema.mapNames g s = s.map (Field.mapNames g) := by
  induction s with
  | nil => rfl
  | cons f fs ih => rw [Schema.mapNames, ih, List.map_cons]

@[simp] theorem Field.mapNames_uid (f : Field) : (f.mapNames g).uid = f.uid := by cases f; rfl

@[simp] theorem Field.mapNames_name (f : Field) : (f.mapNames g).name = g f.name := by
  cases f; rfl

@[simp] theorem Field.mapNames_type (f : Field) : (f.mapNames g).type = f.type.mapNames g := by
  cases f; rfl

@[simp] theorem Schema.mapNames_length (s : Schema) :
    (Schema.mapNames g s).length = s.length := by
  rw [Schema.mapNames_eq_map]
  exact List.length_map _

theorem Schema.mapNames_getElem? (s : Schema) (i : Nat) :
    (Schema.mapNames g s)[i]? = s[i]?.map (Field.mapNames g) := by
  rw [Schema.mapNames_eq_map]
  exact List.getElem?_map ..

theorem Schema.mapNames_append (s s' : Schema) :
    Schema.mapNames g (s ++ s') = Schema.mapNames g s ++ Schema.mapNames g s' := by
  simp [Schema.mapNames_eq_map]

theorem DataType.mapNames_inner? (t : DataType) :
    (t.mapNames g).inner? = t.inner?.map (Schema.mapNames g) := by
  cases t <;> rfl

theorem DataType.mapNames_isMap (t : DataType) : (t.mapNames g).isMap = t.isMap := by
  cases t <;> rfl

theorem DataType.mapNames_isBag (t : DataType) : (t.mapNames g).isBag = t.isBag := by
  cases t <;> rfl

theorem DataType.mapNames_scalar {t : DataType} {s : Scalar} :
    t.mapNames g = .scalar s ↔ t = .scalar s := by
  cases t <;> simp [DataType.mapNames]

theorem Schema.mapNames_positionOf? (s : Schema) (u : Uid) :
    Schema.positionOf? (Schema.mapNames g s) u = Schema.positionOf? s u := by
  simp [Schema.positionOf?, Schema.mapNames_eq_map, List.findIdx?_map, Function.comp_def]

mutual

theorem DataType.mapNames_id : ∀ t : DataType, t.mapNames (fun n => n) = t
  | .scalar _ => rfl
  | .map value => by rw [DataType.mapNames, DataType.mapNames_id value]
  | .tuple inner => by rw [DataType.mapNames, Schema.mapNames_id inner]
  | .bag inner => by rw [DataType.mapNames, Schema.mapNames_id inner]

theorem Field.mapNames_id : ∀ f : Field, f.mapNames (fun n => n) = f
  | ⟨n, t, u⟩ => by rw [Field.mapNames, DataType.mapNames_id t]

theorem Schema.mapNames_id : ∀ s : List Field, Schema.mapNames (fun n => n) s = s
  | [] => rfl
  | f :: fs => by rw [Schema.mapNames, Field.mapNames_id f, Schema.mapNames_id fs]

end

mutual

theorem Field.wholeDemands_mapNames : ∀ f : Field, (f.mapNames g).wholeDemands = f.wholeDemands
  | ⟨_, .scalar _, _⟩ => rfl
  | ⟨_, .map _, _⟩ => rfl
  | ⟨_, .bag inner, _⟩ => by
    simp only [Field.mapNames, DataType.mapNames, Field.wholeDemands,
      Schema.wholeDemands_mapNames inner]
  | ⟨_, .tuple inner, _⟩ => by
    simp only [Field.mapNames, DataType.mapNames, Field.wholeDemands,
      Schema.wholeDemands_mapNames inner]

theorem Schema.wholeDemands_mapNames : ∀ s : List Field,
    Schema.wholeDemands (Schema.mapNames g s) = Schema.wholeDemands s
  | [] => rfl
  | f :: fs => by
    rw [Schema.mapNames, Schema.wholeDemands, Field.wholeDemands_mapNames f,
      Schema.wholeDemands_mapNames fs, Schema.wholeDemands]

end

end Names

theorem Schema.mem_wholeDemands {s : Schema} {d : PartDemand} :
    d ∈ Schema.wholeDemands s ↔ ∃ f ∈ s, d ∈ f.wholeDemands := by
  induction s with
  | nil => simp [Schema.wholeDemands]
  | cons f fs ih => simp [Schema.wholeDemands, ih]

/-! ## Cuts of types -/

/-- What remains of a field: all of it, or some columns of a bag. -/
inductive Cut
  | whole
  | bag (columns : List (Nat × Cut))

/-- What remains of a row: the kept positions, ascending, each with its cut. -/
abbrev Columns := List (Nat × Cut)

mutual

def Cut.type : Cut → DataType → DataType
  | .whole, t => t
  | .bag columns, .bag inner => .bag (Cut.schema columns inner)
  | .bag _, t => t

def Cut.schema : List (Nat × Cut) → Schema → Schema
  | [], _ => []
  | (p, c) :: rest, s =>
    { s.getD p default with type := c.type (s.getD p default).type } :: Cut.schema rest s

end

def Cut.field (c : Cut) (f : Field) : Field := { f with type := c.type f.type }

namespace Columns

def positions (cols : Columns) : List Nat := cols.map Prod.fst

def schema (cols : Columns) (s : Schema) : Schema := Cut.schema cols s

theorem schema_eq_map (cols : Columns) (s : Schema) :
    cols.schema s = cols.map fun x => x.2.field (s.getD x.1 default) := by
  unfold schema
  induction cols with
  | nil => rfl
  | cons x xs ih => rw [Cut.schema, ih]; rfl

/-- Everything remains of a row of `n` fields. -/
def all (n : Nat) : Columns := (List.range n).map fun p => (p, .whole)

@[simp] theorem positions_all (n : Nat) : (all n).positions = List.range n := by
  simp [positions, all, Function.comp_def]

theorem positions_whole (ps : List Nat) : positions (ps.map fun p => (p, .whole)) = ps := by
  simp [positions, Function.comp_def]

theorem eq_of_all {n q p : Nat} {c : Cut} (h : (all n)[q]? = some (p, c)) : p = q ∧ c = .whole := by
  rw [all, List.getElem?_map] at h
  obtain ⟨i, hi, heq⟩ := Option.map_eq_some_iff.mp h
  obtain ⟨_, rfl⟩ := List.getElem?_eq_some_iff.mp hi
  rw [List.getElem_range] at heq
  cases heq
  exact ⟨rfl, rfl⟩

theorem mem_positions {cols : Columns} {p : Nat} :
    p ∈ cols.positions ↔ ∃ (q : Nat) (c : Cut), cols[q]? = some (p, c) := by
  constructor
  · intro h
    obtain ⟨⟨p', c⟩, hmem, rfl⟩ := List.mem_map.mp h
    obtain ⟨q, hq⟩ := List.mem_iff_getElem?.mp hmem
    exact ⟨q, c, hq⟩
  · rintro ⟨q, c, h⟩
    exact List.mem_map.mpr ⟨(p, c), List.mem_of_getElem? h, rfl⟩

theorem positions_getElem? (cols : Columns) (q : Nat) :
    cols.positions[q]? = cols[q]?.map Prod.fst := List.getElem?_map ..

theorem schema_length (cols : Columns) (s : Schema) : (cols.schema s).length = cols.length := by
  rw [schema_eq_map]
  exact List.length_map _

theorem schema_getElem? {cols : Columns} {s : Schema} {q p : Nat} {c : Cut} {f : Field}
    (hq : cols[q]? = some (p, c)) (hf : s[p]? = some f) :
    (cols.schema s)[q]? = some (c.field f) := by
  rw [schema_eq_map, List.getElem?_map, hq]
  simp [List.getD_eq_getElem?_getD, hf]

end Columns

theorem Cut.type_whole (t : DataType) : Cut.whole.type t = t := by cases t <;> rfl

theorem Cut.field_eq_self {c : Cut} {f : Field} (h : c.type f.type = f.type) : c.field f = f := by
  cases f
  simp only [Cut.field, h]

theorem Cut.field_whole (f : Field) : Cut.whole.field f = f := Cut.field_eq_self (Cut.type_whole _)

@[simp] theorem Cut.field_uid (c : Cut) (f : Field) : (c.field f).uid = f.uid := rfl

@[simp] theorem Cut.field_name (c : Cut) (f : Field) : (c.field f).name = f.name := rfl

@[simp] theorem Cut.field_type (c : Cut) (f : Field) : (c.field f).type = c.type f.type := rfl

theorem Columns.schema_all (s : Schema) : (Columns.all s.length).schema s = s := by
  rw [Columns.schema_eq_map]
  refine List.ext_getElem? fun i => ?_
  simp only [Columns.all, List.map_map, List.getElem?_map]
  by_cases hi : i < s.length
  · simp [hi, Cut.field_whole]
  · simp [hi]

/-! ## Cuts that fit what is known -/

/-- The kept columns of a bag include those that are known to be read of it:
all of them unless some only are known. -/
def Known (t : Trackers) (u : Uid) (inner : Schema) (kept : List Nat) : Prop :=
  match t.bagColumns.get? u with
  | some (.only us) => ∀ v ∈ us, ∀ i, Schema.positionOf? inner v = some i → i ∈ kept
  | _ => ∀ i < inner.length, i ∈ kept

/-- A cut of a field that keeps what is known to be read of it. -/
inductive Cut.Fits (t : Trackers) : Field → Cut → Prop
  | whole (f : Field) : Fits t f .whole
  | bag {f : Field} {inner : Schema} {cols : Columns} (type : f.type = .bag inner)
      (ascending : cols.positions.Pairwise (· < ·))
      (bounded : ∀ x ∈ cols, x.1 < inner.length)
      (known : Known t f.uid inner cols.positions)
      (cuts : ∀ x ∈ cols, ∀ h, inner[x.1]? = some h → Fits t h x.2) : Fits t f (.bag cols)

/-- The name of a field does not matter. -/
theorem Cut.Fits.congr {t : Trackers} {f f' : Field} {c : Cut} (h : c.Fits t f)
    (htype : f'.type = f.type) (huid : f'.uid = f.uid) : c.Fits t f' := by
  cases h with
  | whole => exact .whole f'
  | bag type ascending bounded known cuts =>
    exact .bag (htype.trans type) ascending bounded (huid ▸ known) cuts

/-- Columns of a row whose cuts fit. -/
structure Columns.Fits (t : Trackers) (s : Schema) (cols : Columns) : Prop where
  ascending : cols.positions.Pairwise (· < ·)
  bounded : ∀ x ∈ cols, x.1 < s.length
  cuts : ∀ x ∈ cols, ∀ f, s[x.1]? = some f → Cut.Fits t f x.2

theorem Columns.fits_all (t : Trackers) (s : Schema) : (Columns.all s.length).Fits t s where
  ascending := by simpa using List.pairwise_lt_range
  bounded x hx := by
    obtain ⟨p, hp, rfl⟩ := List.mem_map.mp hx
    exact List.mem_range.mp hp
  cuts x hx f _ := by
    obtain ⟨p, hp, rfl⟩ := List.mem_map.mp hx
    exact .whole f

/-- Every kept position stands once. -/
theorem Columns.Fits.lookup {t : Trackers} {s : Schema} {cols : Columns} (h : cols.Fits t s)
    {q p : Nat} {c : Cut} (hq : cols[q]? = some (p, c)) : cols.lookup p = some c := by
  have hasc := h.ascending
  clear h
  induction cols generalizing q with
  | nil => cases hq
  | cons x xs ih =>
    obtain ⟨hx, hxs⟩ := List.pairwise_cons.mp hasc
    cases q with
    | zero => cases hq; rw [List.lookup_cons, beq_self_eq_true]
    | succ q =>
      have hlt := hx p (Columns.mem_positions.mpr ⟨q, c, hq⟩)
      rw [List.lookup_cons, show (p == x.1) = false by simp; omega]
      exact ih hq hxs

/-- A field that is known to be read whole. -/
def Trackers.ReadsWhole (t : Trackers) (f : Field) : Prop := ∀ d ∈ f.wholeDemands, t.Records d

namespace Trackers

variable {t : Trackers}

theorem readsWhole_mapNames {g : String → String} {f : Field} :
    t.ReadsWhole (f.mapNames g) ↔ t.ReadsWhole f := by
  unfold ReadsWhole
  rw [Field.wholeDemands_mapNames]

theorem ReadsWhole.bag {f : Field} {inner : Schema} (h : t.ReadsWhole f)
    (hf : f.type.inner? = some inner) :
    t.bagColumns.get? f.uid = some .all ∧ ∀ x ∈ inner, t.ReadsWhole x := by
  obtain ⟨n, ty, u⟩ := f
  cases ty <;> cases hf
  all_goals
    refine ⟨records_allColumns.mp (h _ (List.mem_cons_self ..)), fun x hx d hd => ?_⟩
    exact h d (List.mem_cons_of_mem _ (Schema.mem_wholeDemands.mpr ⟨x, hx, hd⟩))

end Trackers

theorem Cut.Fits.mapNames {t : Trackers} {g : String → String} {f : Field} {c : Cut}
    (h : c.Fits t f) : c.Fits t (f.mapNames g) := by
  induction h with
  | whole f => exact .whole _
  | @bag f inner cols type ascending bounded known cuts ih =>
    have htype : (f.mapNames g).type = .bag (Schema.mapNames g inner) := by
      simp [type, DataType.mapNames]
    refine .bag htype ascending (by simpa using bounded) ?_ fun x hx h hh => ?_
    · unfold Known at known ⊢
      simpa only [Field.mapNames_uid, Schema.mapNames_positionOf?, Schema.mapNames_length]
        using known
    · rw [Schema.mapNames_getElem?] at hh
      obtain ⟨h', hh', rfl⟩ := Option.map_eq_some_iff.mp hh
      exact ih x hx h' hh'

/-- Ascending positions that include all of `n` are all of `n`. -/
theorem eq_range_of_ascending {ps : List Nat} {n : Nat} (h : ps.Pairwise (· < ·))
    (hb : ∀ p ∈ ps, p < n) (hall : ∀ i < n, i ∈ ps) : ps = List.range n :=
  Positions.ext_ascending h List.pairwise_lt_range fun x =>
    ⟨fun hx => List.mem_range.mpr (hb x hx), fun hx => hall x (List.mem_range.mp hx)⟩

/-- Keeping every column with a cut that changes nothing keeps the schema. -/
theorem Columns.schema_eq_self {cols : Columns} {s : Schema}
    (hpos : cols.positions = List.range s.length)
    (h : ∀ x ∈ cols, ∀ f, s[x.1]? = some f → x.2.type f.type = f.type) : cols.schema s = s := by
  refine List.ext_getElem? fun i => ?_
  have hlen : cols.length = s.length := by
    have := congrArg List.length hpos
    simpa [Columns.positions] using this
  by_cases hi : i < s.length
  · obtain ⟨x, hx⟩ : ∃ x, cols[i]? = some x := ⟨_, List.getElem?_eq_getElem (hlen ▸ hi)⟩
    obtain ⟨p, c⟩ := x
    have hp : cols.positions[i]? = some p := by rw [Columns.positions_getElem?, hx]; rfl
    rw [hpos, List.getElem?_range hi] at hp
    cases hp
    have hf : s[i]? = some s[i] := List.getElem?_eq_getElem hi
    rw [Columns.schema_getElem? hx hf, hf]
    rw [Cut.field_eq_self (h (i, c) (List.mem_of_getElem? hx) s[i] hf)]
  · rw [List.getElem?_eq_none (by rw [Columns.schema_length]; omega),
      List.getElem?_eq_none (by omega)]

/-- A field that is read whole keeps its type. -/
theorem Cut.Fits.type_eq {t : Trackers} {f : Field} {c : Cut} (h : c.Fits t f)
    (hw : t.ReadsWhole f) : c.type f.type = f.type := by
  induction h with
  | whole f => exact Cut.type_whole _
  | @bag f inner cols type ascending bounded known cuts ih =>
    obtain ⟨hall, hinner⟩ := hw.bag (by rw [type]; rfl)
    have hpos : cols.positions = List.range inner.length := by
      refine eq_range_of_ascending ascending (fun p hp => ?_) ?_
      · obtain ⟨x, hx, rfl⟩ := List.mem_map.mp hp
        exact bounded x hx
      · simpa only [Known, hall] using known
    rw [type]
    show DataType.bag (Columns.schema cols inner) = _
    rw [Columns.schema_eq_self hpos fun x hx h hh =>
      ih x hx h hh (hinner h (List.mem_of_getElem? hh))]

theorem Cut.Fits.field_eq {t : Trackers} {f : Field} {c : Cut} (h : c.Fits t f)
    (hw : t.ReadsWhole f) : c.field f = f := Cut.field_eq_self (h.type_eq hw)

/-- Only bags are cut. -/
theorem Cut.Fits.whole_or_bag {t : Trackers} {f : Field} {c : Cut} (h : c.Fits t f) :
    c = .whole ∨ ∃ (inner : Schema) (cols : Columns), f.type = .bag inner ∧ c = .bag cols ∧
      cols.Fits t inner ∧ Known t f.uid inner cols.positions := by
  cases h with
  | whole => exact Or.inl rfl
  | bag type ascending bounded known cuts =>
    exact Or.inr ⟨_, _, type, rfl, ⟨ascending, bounded, cuts⟩, known⟩

/-- What remains of the rows inside a bag or tuple of `width` columns. -/
def Cut.inside (width : Nat) : Cut → Columns
  | .whole => .all width
  | .bag cols => cols

/-- What a cut leaves of a field's inner columns. -/
theorem Cut.Fits.inside {t : Trackers} {f : Field} {c : Cut} {inner : Schema} (h : c.Fits t f)
    (hf : f.type.inner? = some inner) :
    (c.type f.type).inner? = some ((c.inside inner.length).schema inner) ∧
      (c.inside inner.length).Fits t inner ∧
      Known t f.uid inner (c.inside inner.length).positions := by
  rcases h.whole_or_bag with rfl | ⟨inner', cols, htype, rfl, hfits, hknown⟩
  · rw [Cut.type_whole, hf]
    refine ⟨by rw [Cut.inside, Columns.schema_all], Columns.fits_all t inner, ?_⟩
    unfold Known Cut.inside
    rw [Columns.positions_all]
    split
    · rename_i us _
      intro v _ i hi
      exact List.mem_range.mpr (List.findIdx?_eq_some_iff_getElem.mp hi).1
    · exact fun i hi => List.mem_range.mpr hi
  · rw [htype] at hf
    cases hf
    exact ⟨by rw [htype]; rfl, hfits, hknown⟩

theorem Cut.type_isMap (c : Cut) (t : DataType) : (c.type t).isMap = t.isMap := by
  cases c <;> cases t <;> rfl

theorem Cut.type_isBag (c : Cut) (t : DataType) : (c.type t).isBag = t.isBag := by
  cases c <;> cases t <;> rfl

/-- Types other than bags are not cut. -/
theorem Cut.Fits.type_eq_of_not_bag {t : Trackers} {f : Field} {c : Cut} (h : c.Fits t f)
    (hf : f.type.isBag = false) : c = .whole := by
  rcases h.whole_or_bag with rfl | ⟨inner, cols, htype, -⟩
  · rfl
  · rw [htype] at hf; cases hf

end Dataflow
