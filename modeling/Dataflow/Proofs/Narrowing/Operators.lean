import Dataflow.Proofs.Narrowing.Items

/-!
# Narrowed operators

`Operator.Narrowed` relates an operator to the one that takes its place once its
inputs have been narrowed, kind by kind, together with its natural output and
what remains of that. Each case carries what the analysis recorded about the
expressions of the operator, so that the relation is all that later proofs need
to know about the pass.

Most natural outputs are those of the inputs, side by side. A cogroup puts the
rows of an input into a bag, and there the columns of the input become the cut
of the bag.
-/

namespace Dataflow

open Dataflow.Expr (Renumbered)
open List (Forall₂)

variable {g : String → String} {t : Trackers}

/-! ## Inputs -/

/-- An input of which everything is kept and read whole. -/
structure Slice.Whole (w : Slice g t) : Prop where
  all : ∀ i < w.old.length, i ∈ w.kept
  reads : ∀ f ∈ w.old, t.ReadsWhole f

/-- An expression over an input, before and after. -/
structure Reading (w : Slice g t) (e e' : Expr) : Prop where
  expr : Renumbered w.narrowed.renumbering e e'
  met : e.reads.Met t w.old w.kept
  selects : e.reads.Selects w

/-- A key over an input, whose value is compared with others. -/
structure KeyReading (w : Slice g t) (e e' : Expr) : Prop where
  expr : Renumbered w.narrowed.renumbering e e'
  whole : e.reads.toWhole.Met t w.old w.kept
  selects : e.reads.Selects w

theorem KeyReading.reading {w : Slice g t} {e e' : Expr} (h : KeyReading w e e') :
    Reading w e e' := ⟨h.expr, Reads.met_of_toWhole h.whole, h.selects⟩

namespace Slice

/-- The columns of several inputs, side by side. -/
def joined : List (Slice g t) → Columns
  | [] => []
  | w :: ws => Columns.beside w.old.length w.columns (joined ws)

/-- The columns of several inputs, each put into a bag. -/
def bagged : List (String × Uid) → List (Slice g t) → Columns
  | _ :: bags, w :: ws => Columns.beside 1 [(0, .bag w.columns)] (bagged bags ws)
  | _, _ => []

end Slice

structure Union.Side (required : List Nat) (u : Union) (m m' : List (Option Nat))
    (w : Slice g t) : Prop where
  moved : Forall₂ (fun p q' => match m[p]?.join with
    | some q => ∃ r, w.narrowed.column q = .ok r ∧ q' = some r
    | none => q' = none) required m'
  known : ∀ p ∈ required, ∀ output, u.fields[p]? = some output →
    (∀ q, m[p]?.join = some q → ∃ f, w.old[q]? = some f ∧
      ∀ x ∈ Demand.ofUnionField t output f, t.Records x) ∧
    (m[p]?.join = none → w.Whole)

structure Union.Narrowed (required : List Nat) (u u' : Union) (ws : List (Slice g t)) : Prop where
  fields : Forall₂ (fun p f => u.fields[p]? = some f) required u'.fields
  sides : Along (Union.Side required u) u.mappings u'.mappings ws

/-- A cogroup, before and after: the keys are renumbered, and a bag that is
required keeps what is known to be read of it. -/
structure CoGroup.Narrowed (required : List Nat) (c c' : CoGroup) (ws : List (Slice g t)) :
    Prop where
  keys : Along (fun ks ks' w => Forall₂ (KeyReading w) ks ks') c.keys c'.keys ws
  same : c' = { c with keys := c'.keys }
  bags : ∀ (i : Nat) (w : Slice g t) (b : String × Uid), ws[i]? = some w → c.bags[i]? = some b →
    CoGroup.bagPosition i ∈ required → Known t b.2 w.old w.kept

/-- What remains of the natural output of a cogroup. -/
def CoGroup.columns (c : CoGroup) (ws : List (Slice g t)) : Columns :=
  Columns.beside 1 [(0, .whole)] (Slice.bagged c.bags ws)

/-! ## The relation -/

/-- An operator before and after its inputs were narrowed, its natural output
before, and what remains of it. -/
inductive Operator.Narrowed (required : List Nat) :
    Operator → Operator → List (Slice g t) → Schema → Columns → Prop
  | load {l l' : Load} (h : l'.source = l.source) :
      Narrowed required (.load l) (.load l') [] l.source.schema (.all l.source.schema.length)
  | store {w : Slice g t} (location : String) (h : w.Whole) :
      Narrowed required (.store location) (.store location) [w] [] []
  | forEach {w : Slice g t} {items items' : List Item} {fields : List Field} {cols : Columns}
      (h : Items.Narrowed w required 0 items items' fields cols) :
      Narrowed required (.forEach items) (.forEach items') [w] fields cols
  | filter {w : Slice g t} {e e' : Expr} (h : Reading w e e') :
      Narrowed required (.filter e) (.filter e') [w] w.old w.columns
  | join {ws : List (Slice g t)} {j j' : Join}
      (keys : Along (fun ks ks' w => Forall₂ (KeyReading w) ks ks') j.keys j'.keys ws)
      (same : j' = { j with keys := j'.keys }) :
      Narrowed required (.join j) (.join j') ws (ws.map Slice.old).flatten (Slice.joined ws)
  | cogroup {ws : List (Slice g t)} {c c' : CoGroup} (h : c.Narrowed required c' ws) :
      Narrowed required (.cogroup c) (.cogroup c') ws (c.schema (ws.map Slice.old)) (c.columns ws)
  | cross (ws : List (Slice g t)) :
      Narrowed required .cross .cross ws (ws.map Slice.old).flatten (Slice.joined ws)
  | union {ws : List (Slice g t)} {u u' : Union} (h : u.Narrowed required u' ws) :
      Narrowed required (.union u) (.union u') ws u.fields (required.map fun p => (p, .whole))
  | distinct {w : Slice g t} (h : w.Whole) :
      Narrowed required .distinct .distinct [w] w.old w.columns
  | orderBy {w : Slice g t} {o o' : OrderBy} (keys : Forall₂ (KeyReading w) o.keys o'.keys)
      (same : o' = { o with keys := o'.keys }) :
      Narrowed required (.orderBy o) (.orderBy o') [w] w.old w.columns
  | limit {w : Slice g t} (count : Nat) :
      Narrowed required (.limit count) (.limit count) [w] w.old w.columns
  | split {w : Slice g t} {ps ps' : List Expr} (h : Forall₂ (Reading w) ps ps') :
      Narrowed required (.split ps) (.split ps') [w] w.old w.columns
  | stream {w : Slice g t} (command : String) (schema : Schema) (h : w.Whole) :
      Narrowed required (.stream command schema) (.stream command schema) [w] schema
        (.all schema.length)

/-! ## Inputs side by side -/

namespace Slice

theorem fits_joined (ws : List (Slice g t)) :
    (joined ws).Fits t (ws.map Slice.old).flatten := by
  induction ws with
  | nil => exact Columns.fits_all t []
  | cons w ws ih => exact w.fits.beside ih

theorem schema_joined (ws : List (Slice g t)) :
    Schema.mapNames g (ws.map Slice.new).flatten =
      (joined ws).schema (Schema.mapNames g (ws.map Slice.old).flatten) := by
  induction ws with
  | nil => rfl
  | cons w ws ih =>
    rw [List.map_cons, List.map_cons, List.flatten_cons, List.flatten_cons,
      Schema.mapNames_append, Schema.mapNames_append, ih, w.new_eq, joined,
      ← Schema.mapNames_length (g := g) w.old, Columns.schema_beside]
    rw [Schema.mapNames_length]
    exact w.fits.bounded

/-- The new natural positions of the sides of a join. -/
theorem joined_moved (ws : List (Slice g t)) (offset m q : Nat) :
    (Projected.joined offset (ws.map Slice.narrowed))[m]?.join = some q ↔
      ∃ r, q = r + offset ∧ (joined ws).positions[r]? = some m := by
  induction ws generalizing offset m q with
  | nil => simp [Projected.joined, joined, Columns.positions]
  | cons w ws ih =>
    have hmoved : w.narrowed.moved.length = w.old.length := by
      simp [narrowed, PositionMap.ofKept]
    have hkept : w.kept.length = w.new.length := by
      rw [kept, new_length, Columns.positions, List.length_map]
    rw [List.map_cons, Projected.joined, joined, Columns.positions_beside]
    by_cases hm : m < w.old.length
    · rw [List.getElem?_append_left (by simpa [hmoved] using hm), List.getElem?_map]
      have hiff : ∀ r, w.narrowed.moved[m]?.join = some r ↔ w.columns.positions[r]? = some m :=
        fun r => PositionMap.ofKept_getElem? w.fits.ascending w.kept_bounded
      constructor
      · intro h
        cases hx : w.narrowed.moved[m]? with
        | none => rw [hx] at h; cases h
        | some o =>
          rw [hx] at h
          cases o with
          | none => cases h
          | some r =>
            have hr := (hiff r).mp (by rw [hx]; rfl)
            refine ⟨r, by simpa using h.symm, ?_⟩
            rw [List.getElem?_append_left (List.getElem?_eq_some_iff.mp hr).1]
            exact hr
      · rintro ⟨r, rfl, hr⟩
        have hlt : r < w.columns.positions.length := by
          by_contra hge
          rw [List.getElem?_append_right (by omega), List.getElem?_map] at hr
          obtain ⟨x, -, hx⟩ := Option.map_eq_some_iff.mp hr
          omega
        rw [List.getElem?_append_left hlt] at hr
        have hjoin := (hiff r).mpr hr
        cases hx : w.narrowed.moved[m]? with
        | none => rw [hx] at hjoin; cases hjoin
        | some o =>
          rw [hx] at hjoin
          cases hjoin
          rfl
    · rw [List.getElem?_append_right (by simpa [hmoved] using Nat.le_of_not_lt hm),
        List.length_map, hmoved, ih]
      constructor
      · rintro ⟨r, rfl, hr⟩
        refine ⟨r + w.new.length, by show _ = _; simp only [narrowed]; omega, ?_⟩
        show (w.kept ++ _)[r + w.new.length]? = _
        rw [← hkept, List.getElem?_append_right (Nat.le_add_left ..), Nat.add_sub_cancel,
          List.getElem?_map, hr]
        simp only [Option.map_some, Option.some.injEq]
        omega
      · rintro ⟨r, rfl, hr⟩
        have hge : w.columns.positions.length ≤ r := by
          by_contra hlt
          rw [List.getElem?_append_left (by omega)] at hr
          exact hm (w.kept_bounded m (List.mem_of_getElem? hr))
        rw [List.getElem?_append_right hge, List.getElem?_map] at hr
        obtain ⟨x, hx, hxm⟩ := Option.map_eq_some_iff.mp hr
        refine ⟨r - w.kept.length, ?_, ?_⟩
        · show r + offset = r - w.kept.length + (offset + w.new.length)
          rw [← hkept]
          have : w.kept.length ≤ r := hge
          omega
        · rw [show m - w.old.length = x by omega]
          exact hx

/-! ## Inputs in bags -/

def bagFields (bags : List (String × Uid)) (inputs : List Schema) : List Field :=
  List.zipWith (fun b input => ⟨b.1, .bag input, b.2⟩) bags inputs

theorem positions_bagged (bags : List (String × Uid)) (ws : List (Slice g t)) :
    (bagged bags ws).positions = List.range (bagFields bags (ws.map Slice.old)).length := by
  induction bags generalizing ws with
  | nil => rfl
  | cons b bags ih =>
    cases ws with
    | nil => rfl
    | cons w ws =>
      have hlen : (bagFields (b :: bags) ((w :: ws).map Slice.old)).length =
          (bagFields bags (ws.map Slice.old)).length + 1 := rfl
      rw [bagged, Columns.positions_beside, ih, hlen, List.range_succ_eq_map]
      rfl

theorem bagged_getElem? {bags : List (String × Uid)} {ws : List (Slice g t)} {i p : Nat} {c : Cut}
    (h : (bagged bags ws)[i]? = some (p, c)) :
    p = i ∧ ∃ b w, bags[i]? = some b ∧ ws[i]? = some w ∧ c = .bag w.columns := by
  induction bags generalizing ws i p with
  | nil => cases h
  | cons b bags ih =>
    cases ws with
    | nil => cases h
    | cons w ws =>
      cases i with
      | zero => cases h; exact ⟨rfl, b, w, rfl, rfl, rfl⟩
      | succ i =>
        rw [bagged, Columns.beside, List.singleton_append, List.getElem?_cons_succ, Columns.shift,
          List.getElem?_map] at h
        obtain ⟨⟨p', c'⟩, hx, heq⟩ := Option.map_eq_some_iff.mp h
        cases heq
        obtain ⟨rfl, b', w', hb, hw, rfl⟩ := ih hx
        exact ⟨rfl, b', w', hb, hw, rfl⟩

theorem schema_bagged (bags : List (String × Uid)) (ws : List (Slice g t)) :
    Schema.mapNames g (bagFields bags (ws.map Slice.new)) =
      (bagged bags ws).schema (Schema.mapNames g (bagFields bags (ws.map Slice.old))) := by
  induction bags generalizing ws with
  | nil => rfl
  | cons b bags ih =>
    cases ws with
    | nil => rfl
    | cons w ws =>
      have hhead : Schema.mapNames g [⟨b.1, .bag w.new, b.2⟩] =
          Columns.schema [(0, .bag w.columns)] (Schema.mapNames g [⟨b.1, .bag w.old, b.2⟩]) := by
        simp only [Schema.mapNames, Field.mapNames, DataType.mapNames, w.new_eq]
        rfl
      have hsplit : ∀ input : Schema, ∀ inputs, Schema.mapNames g (bagFields (b :: bags)
          (input :: inputs)) = Schema.mapNames g [⟨b.1, .bag input, b.2⟩] ++
            Schema.mapNames g (bagFields bags inputs) := fun _ _ => rfl
      rw [List.map_cons, List.map_cons, hsplit, hsplit, ih, hhead, bagged]
      refine (Columns.schema_beside (s := Schema.mapNames g [⟨b.1, .bag w.old, b.2⟩])
        (fun x hx => ?_) ..).symm
      rw [List.mem_singleton.mp hx]
      exact Nat.one_pos

end Slice

theorem CoGroup.schema_eq (c : CoGroup) (inputs : List Schema) :
    c.schema inputs = [c.group] ++ Slice.bagFields c.bags inputs := rfl

theorem CoGroup.schema_columns (c : CoGroup) (ws : List (Slice g t)) :
    Schema.mapNames g (c.schema (ws.map Slice.new)) =
      (c.columns ws).schema (Schema.mapNames g (c.schema (ws.map Slice.old))) := by
  rw [CoGroup.schema_eq, CoGroup.schema_eq, Schema.mapNames_append, Schema.mapNames_append,
    Slice.schema_bagged, CoGroup.columns]
  have hgroup : Schema.mapNames g [c.group] =
      Columns.schema [(0, .whole)] (Schema.mapNames g [c.group]) :=
    (Columns.schema_all (Schema.mapNames g [c.group])).symm
  have := Columns.schema_beside (a := [(0, .whole)]) (s := Schema.mapNames g [c.group])
    (fun x hx => by rw [List.mem_singleton.mp hx]; exact Nat.one_pos) (Slice.bagged c.bags ws)
    (Schema.mapNames g (Slice.bagFields c.bags (ws.map Slice.old)))
  rw [← hgroup] at this
  exact this.symm

theorem CoGroup.positions_columns (c : CoGroup) (ws : List (Slice g t)) :
    (c.columns ws).positions = List.range (c.schema (ws.map Slice.old)).length := by
  rw [CoGroup.columns, Columns.positions_beside, Slice.positions_bagged, CoGroup.schema_eq,
    List.length_append, Nat.add_comm, List.length_singleton, List.range_succ_eq_map]
  rfl

/-! ## Natural output -/

/-- What remains of the natural output of an operator: some positions, which
include the required ones, and of those a cut that fits. -/
structure Remains (t : Trackers) (required : List Nat) (natural : Schema) (cols : Columns) :
    Prop where
  ascending : cols.positions.Pairwise (· < ·)
  bounded : ∀ x ∈ cols, x.1 < natural.length
  cuts : ∀ x ∈ cols, x.1 ∈ required → ∀ f, natural[x.1]? = some f → x.2.Fits t f

theorem Columns.Fits.remains {natural : Schema} {cols : Columns} (h : cols.Fits t natural)
    (required : List Nat) : Remains t required natural cols :=
  ⟨h.ascending, h.bounded, fun x hx _ => h.cuts x hx⟩

theorem CoGroup.Narrowed.remains {required : List Nat} {c c' : CoGroup} {ws : List (Slice g t)}
    (h : c.Narrowed required c' ws) :
    Remains t required (c.schema (ws.map Slice.old)) (c.columns ws) where
  ascending := by rw [CoGroup.positions_columns]; exact List.pairwise_lt_range
  bounded x hx := by
    have hmem : x.1 ∈ (c.columns ws).positions := List.mem_map.mpr ⟨x, hx, rfl⟩
    rw [CoGroup.positions_columns] at hmem
    exact List.mem_range.mp hmem
  cuts x hx hreq f hf := by
    rcases List.mem_append.mp hx with hx | hx
    · rw [List.mem_singleton.mp hx]
      exact .whole f
    · -- The bag of an input, which is required.
      obtain ⟨⟨p, cut⟩, hy, rfl⟩ := Columns.mem_shift hx
      obtain ⟨i, hi⟩ := List.mem_iff_getElem?.mp hy
      obtain ⟨rfl, b, w, hb, hw, rfl⟩ := Slice.bagged_getElem? hi
      change (c.group :: Slice.bagFields c.bags (ws.map Slice.old))[p + 1]? = some f at hf
      rw [List.getElem?_cons_succ, Slice.bagFields, List.getElem?_zipWith, hb, List.getElem?_map,
        hw] at hf
      cases hf
      exact .bag rfl w.fits.ascending w.fits.bounded (h.bags p w b hw hb hreq) w.fits.cuts

namespace Operator.Narrowed

variable {required : List Nat} {op op' : Operator} {ws : List (Slice g t)} {natural : Schema}
  {cols : Columns}

theorem natural_old (h : op.Narrowed required op' ws natural cols) :
    op.natural (ws.map Slice.old) = .ok natural := by
  cases h with
  | forEach h =>
    obtain ⟨fss, hfss, rfl⟩ := h.old_ok
    show Items.schema _ _ = _
    rw [Items.schema, hfss]
    rfl
  | _ => rfl

theorem natural_new (h : op.Narrowed required op' ws natural cols) :
    ∃ natural', op'.natural (ws.map Slice.new) = .ok natural' ∧
      Schema.mapNames g natural' = cols.schema (Schema.mapNames g natural) := by
  have hall : ∀ s : Schema, Schema.mapNames g s =
      (Columns.all s.length).schema (Schema.mapNames g s) := fun s => by
    rw [← Schema.mapNames_length (g := g) s, Columns.schema_all]
  cases h with
  | load h => exact ⟨_, rfl, by rw [h]; exact hall _⟩
  | store => exact ⟨_, rfl, rfl⟩
  | @forEach w _ _ _ _ h =>
    obtain ⟨fss, hfss, heq⟩ := h.new_ok
    refine ⟨fss.flatten, ?_, heq⟩
    show Items.schema _ _ = _
    rw [Items.schema, hfss]
    rfl
  | filter | distinct | orderBy | limit | split => exact ⟨_, rfl, Slice.new_eq _⟩
  | join | cross => exact ⟨_, rfl, Slice.schema_joined ws⟩
  | @cogroup _ c c' h =>
    refine ⟨_, rfl, ?_⟩
    rw [h.same]
    exact c.schema_columns ws
  | @union _ u u' h =>
    refine ⟨_, rfl, ?_⟩
    rw [Columns.schema_eq_map, List.map_map, Schema.mapNames_eq_map]
    refine List.ext_getElem? fun i => ?_
    rw [List.getElem?_map, List.getElem?_map]
    cases hp : required[i]? with
    | none =>
      rw [List.getElem?_eq_none (by rw [← h.fields.length_eq]; simpa using hp)]
      rfl
    | some p =>
      obtain ⟨f, hf, hfp⟩ := getElem?_of_left h.fields hp
      rw [hf]
      show some (f.mapNames g) =
        some (Cut.whole.field ((Schema.mapNames g u.fields).getD p default))
      rw [Cut.field_whole, List.getD_eq_getElem?_getD, Schema.mapNames_getElem?, hfp]
      rfl
  | stream => exact ⟨_, rfl, hall _⟩

theorem remains (hasc : required.Pairwise (· < ·))
    (hreq : ∀ p ∈ required, p < natural.length)
    (h : op.Narrowed required op' ws natural cols) : Remains t required natural cols := by
  cases h with
  | load | stream => exact (Columns.fits_all t _).remains required
  | store => exact (Columns.fits_all t []).remains required
  | @forEach w _ _ _ _ h => exact h.fits.remains required
  | filter | distinct | orderBy | limit | split => exact (Slice.fits _).remains required
  | join | cross => exact (Slice.fits_joined ws).remains required
  | cogroup h => exact h.remains
  | union h =>
    refine ⟨?_, fun x hx => ?_, fun x hx _ f _ => ?_⟩
    · simpa [Columns.positions, Function.comp_def] using hasc
    · obtain ⟨p, hp, rfl⟩ := List.mem_map.mp hx
      exact hreq p hp
    · obtain ⟨p, hp, rfl⟩ := List.mem_map.mp hx
      exact .whole f

/-- The new natural positions of an operator that keeps its natural output. -/
theorem naturalMap (h : op.Narrowed required op' ws natural cols) (hop : op.canProject = true)
    (m q : Nat) :
    (Projected.naturalMap op' (ws.map Slice.narrowed) natural.length)[m]?.join = some q ↔
      cols.positions[q]? = some m := by
  have hid : ∀ n : Nat, ((List.range n).map some)[m]?.join = some q ↔
      (List.range n)[q]? = some m := fun n => by
    rw [List.getElem?_map]
    by_cases hm : m < n
    · by_cases hq : q < n
      · simp [hm, hq, eq_comm]
      · simp only [List.getElem?_range hm, List.getElem?_eq_none (l := List.range n)
          (by simpa using hq), Option.map_some, Option.join_some, Option.some.injEq, reduceCtorEq,
          iff_false]
        omega
    · by_cases hq : q < n
      · simp only [List.getElem?_range hq, List.getElem?_eq_none (l := List.range n)
          (by simpa using hm), Option.map_none, Option.join_none, reduceCtorEq, false_iff,
          Option.some.injEq]
        omega
      · simp [hm, hq]
  cases h with
  | load | stream => rw [Columns.positions_all]; exact hid _
  | store | forEach | union => cases hop
  | filter | distinct | orderBy | limit | split =>
    exact PositionMap.ofKept_getElem? (Slice.fits _).ascending (Slice.kept_bounded _)
  | join | cross =>
    rw [← show _ = _ from (show Projected.joined 0 (ws.map Slice.narrowed) = Projected.naturalMap _
      (ws.map Slice.narrowed) _ from rfl), Slice.joined_moved]
    simp
  | cogroup h => rw [CoGroup.positions_columns]; exact hid _

end Operator.Narrowed

end Dataflow
