import Dataflow.Execution.Run
import Dataflow.Proofs.Traversal
import Mathlib.Data.List.Induction
import Mathlib.Data.List.Nodup

/-!
# Groups of rows

A cogroup puts every row of its inputs into the bag of one group. Groups are told
apart by `Value.same`, which is equality as long as no float is involved
(`Value.same_iff`); a float that is not a number equals nothing, and its row
would be lost.

* The groups are the values of the keys, in the order in which they first appear
  (`Run.distinctValues_first`).
* The bag of a group has the rows with that value, in their order
  (`Run.KeyedSide.groupBag_eq`).
* Distinct groups that cover a list cut it into disjoint parts
  (`Run.flatMap_filter_perm`), which makes the bags of a cogroup a partition
  (`Run.parted`).

From these `Run.cogroup_partitions` follows.
-/

namespace Dataflow

open List (Forall₂)

/-! ## Values without floats -/

namespace Value

mutual

/-- Whether no float occurs in a value, at any depth. -/
def Floatless : Value → Prop
  | .float _ => False
  | .map entries => FloatlessEntries entries
  | .tuple values => FloatlessRow values
  | .bag rows => FloatlessRows rows
  | .null | .bool _ | .int _ | .str _ => True

def FloatlessRow : List Value → Prop
  | [] => True
  | v :: vs => v.Floatless ∧ FloatlessRow vs

def FloatlessRows : List (List Value) → Prop
  | [] => True
  | row :: rows => FloatlessRow row ∧ FloatlessRows rows

def FloatlessEntries : List (String × Value) → Prop
  | [] => True
  | (_, v) :: entries => v.Floatless ∧ FloatlessEntries entries

end

theorem floatlessRow_iff {vs : List Value} : FloatlessRow vs ↔ ∀ v ∈ vs, v.Floatless := by
  induction vs with
  | nil => simp [FloatlessRow]
  | cons v vs ih => simp [FloatlessRow, ih]

mutual

/-- Values without floats are the same when they are equal. -/
theorem same_iff : ∀ {a : Value}, a.Floatless → ∀ b, a.same b = true ↔ a = b
  | .null, _, b => by cases b <;> simp [same]
  | .bool x, _, b => by cases b <;> simp [same]
  | .int n, _, b => by cases b <;> simp [same]
  | .str s, _, b => by cases b <;> simp [same]
  | .float x, h, _ => False.elim (by rwa [Floatless] at h)
  | .map entries, h, b => by
    rw [Floatless] at h
    cases b with
    | map others => simp [same, sameEntries_iff h others]
    | _ => simp [same]
  | .tuple values, h, b => by
    rw [Floatless] at h
    cases b with
    | tuple others => simp [same, sameRow_iff h others]
    | _ => simp [same]
  | .bag rows, h, b => by
    rw [Floatless] at h
    cases b with
    | bag others => simp [same, sameRows_iff h others]
    | _ => simp [same]

theorem sameRow_iff : ∀ {as : List Value}, FloatlessRow as → ∀ bs, sameRow as bs = true ↔ as = bs
  | [], _, bs => by cases bs <;> simp [sameRow]
  | a :: as, h, bs => by
    rw [FloatlessRow] at h
    cases bs with
    | nil => simp [sameRow]
    | cons b bs => simp [sameRow, same_iff h.1 b, sameRow_iff h.2 bs]

theorem sameRows_iff : ∀ {as : List (List Value)}, FloatlessRows as →
    ∀ bs, sameRows as bs = true ↔ as = bs
  | [], _, bs => by cases bs <;> simp [sameRows]
  | a :: as, h, bs => by
    rw [FloatlessRows] at h
    cases bs with
    | nil => simp [sameRows]
    | cons b bs => simp [sameRows, sameRow_iff h.1 b, sameRows_iff h.2 bs]

theorem sameEntries_iff : ∀ {as : List (String × Value)}, FloatlessEntries as →
    ∀ bs, sameEntries as bs = true ↔ as = bs
  | [], _, bs => by cases bs <;> simp [sameEntries]
  | (k, a) :: as, h, bs => by
    rw [FloatlessEntries] at h
    match bs with
    | [] => simp [sameEntries]
    | (l, b) :: bs => simp [sameEntries, same_iff h.1 b, sameEntries_iff h.2 bs, and_assoc]

end

end Value

namespace Run

/-- The value of a group is without floats if its keys are. -/
theorem groupValue_floatless {key : Row} (h : ∀ v ∈ key, v.Floatless) :
    (groupValue key).Floatless := by
  match key, h with
  | [], _ => trivial
  | [v], h => exact h v (List.mem_singleton_self v)
  | v :: w :: vs, h => exact Value.floatlessRow_iff.mpr h

/-! ## First appearances -/

/-- One value appears in a list before another one does. -/
def AppearsBefore (vs : List Value) (v w : Value) : Prop :=
  ∃ us, us <+: vs ∧ v ∈ us ∧ w ∉ us

/-- The values of a list, each listed once, in the order in which they first
appear. -/
structure FirstAppearances (vs groups : List Value) : Prop where
  mem : ∀ v, v ∈ groups ↔ v ∈ vs
  order : groups.Pairwise (AppearsBefore vs)

theorem AppearsBefore.ne {vs : List Value} {v w : Value} (h : AppearsBefore vs v w) : v ≠ w := by
  rintro rfl
  obtain ⟨us, -, hv, hw⟩ := h
  exact hw hv

theorem AppearsBefore.append {vs : List Value} {v w : Value} (h : AppearsBefore vs v w)
    (ws : List Value) : AppearsBefore (vs ++ ws) v w := by
  obtain ⟨us, hus, hvw⟩ := h
  exact ⟨us, hus.trans (List.prefix_append ..), hvw⟩

theorem FirstAppearances.nodup {vs groups : List Value} (h : FirstAppearances vs groups) :
    groups.Nodup :=
  h.order.imp AppearsBefore.ne

/-- A further value is listed at the end unless it appeared earlier. -/
theorem FirstAppearances.snoc {vs groups : List Value} (h : FirstAppearances vs groups) {v : Value}
    {seen : Bool} (hseen : seen = true ↔ v ∈ groups) :
    FirstAppearances (vs ++ [v]) (if seen then groups else groups ++ [v]) := by
  have horder : groups.Pairwise (AppearsBefore (vs ++ [v])) := h.order.imp fun hvw => hvw.append [v]
  cases seen with
  | true =>
    refine ⟨fun w => ?_, horder⟩
    have hv : v ∈ vs := (h.mem v).mp (hseen.mp rfl)
    rw [if_pos rfl, h.mem, List.mem_append, List.mem_singleton]
    exact ⟨Or.inl, fun hw => hw.elim id fun heq => heq ▸ hv⟩
  | false =>
    have hv : v ∉ vs := fun hv => Bool.noConfusion (hseen.mpr ((h.mem v).mpr hv))
    refine ⟨fun w => ?_, List.pairwise_append.mpr ⟨horder, List.pairwise_singleton .., ?_⟩⟩
    · rw [if_neg Bool.false_ne_true, List.mem_append, List.mem_append, h.mem]
    · intro w hw u hu
      rw [List.mem_singleton.mp hu]
      exact ⟨vs, List.prefix_append .., (h.mem w).mp hw, hv⟩

theorem distinctValues_snoc (vs : List Value) (v : Value) :
    distinctValues (vs ++ [v]) =
      if (distinctValues vs).any fun w => w.same v then distinctValues vs
      else distinctValues vs ++ [v] :=
  List.foldl_concat ..

theorem distinctValues_first {vs : List Value} (h : ∀ v ∈ vs, v.Floatless) :
    FirstAppearances vs (distinctValues vs) := by
  induction vs using List.reverseRecOn with
  | nil => exact ⟨fun v => Iff.rfl, .nil⟩
  | append_singleton vs v ih =>
    have ih := ih fun w hw => h w (List.mem_append_left _ hw)
    rw [distinctValues_snoc]
    refine ih.snoc ?_
    rw [List.any_eq_true]
    constructor
    · rintro ⟨w, hw, hsame⟩
      rwa [← (Value.same_iff (h w (List.mem_append_left _ ((ih.mem w).mp hw))) v).mp hsame]
    · intro hv
      have hfloatless := h v (List.mem_append_right _ (List.mem_singleton_self v))
      exact ⟨v, hv, (Value.same_iff hfloatless v).mpr rfl⟩

/-! ## Parts -/

open Classical in
/-- Distinct values that cover a list cut it into parts. -/
theorem flatMap_filter_perm {α β : Type} {f : α → Option β} {bs : List β} (hbs : bs.Nodup)
    {xs : List α} (h : ∀ x ∈ xs, ∃ b ∈ bs, f x = some b) :
    (bs.flatMap fun b => xs.filter fun x => f x = some b).Perm xs := by
  induction bs generalizing xs with
  | nil =>
    cases xs with
    | nil => exact .nil
    | cons x xs => obtain ⟨b, hb, -⟩ := h x (List.mem_cons_self ..); cases hb
  | cons b bs ih =>
    obtain ⟨hb, hbs⟩ := List.nodup_cons.mp hbs
    let rest := xs.filter fun x => !decide (f x = some b)
    have hrest : ∀ x ∈ rest, ∃ c ∈ bs, f x = some c := by
      intro x hx
      obtain ⟨hx, hne⟩ := List.mem_filter.mp hx
      obtain ⟨c, hc, hfx⟩ := h x hx
      rcases List.mem_cons.mp hc with rfl | hc
      · simp [hfx] at hne
      · exact ⟨c, hc, hfx⟩
    -- The parts of the later values lack nothing when the first part is taken away.
    have hparts : (bs.flatMap fun c => xs.filter fun x => f x = some c) =
        bs.flatMap fun c => rest.filter fun x => f x = some c := by
      refine List.flatMap_congr fun c hc => ?_
      rw [List.filter_filter]
      refine List.filter_congr fun x _ => ?_
      have hne : c ≠ b := fun heq => hb (heq ▸ hc)
      by_cases hfx : f x = some c <;> simp [hfx, hne]
    rw [List.flatMap_cons, hparts]
    exact ((ih hbs hrest).append_left _).trans (List.filter_append_perm _ xs)

/-! ## Keyed rows -/

/-- The value of the group that a row belongs to, if its keys have values. -/
def groupOf (keys : List Expr) (row : Row) : Option Value :=
  (Expr.evalAll row keys).toOption.map groupValue

open Classical in
noncomputable def members (keys : List Expr) (group : Value) (rows : List Row) : List Row :=
  rows.filter fun row => groupOf keys row = some group

/-- The values of the groups of all rows, in the order of the rows. -/
def appearing (inputs : List (List Row)) (keys : List (List Expr)) : List Value :=
  (inputs.zip keys).flatMap fun (rows, keys) => rows.filterMap (groupOf keys)

/-- The keys of a row have values, and no float occurs in them. -/
def ExactKeys (keys : List Expr) (row : Row) : Prop :=
  ∃ key, Expr.evalAll row keys = .ok key ∧ ∀ v ∈ key, v.Floatless

/-- A row with the values of its keys. -/
structure KeyedRow (keys : List Expr) (row : Row) (r : Row × Row) : Prop where
  same : r.2 = row
  key : Expr.evalAll row keys = .ok r.1
  floatless : ∀ v ∈ r.1, v.Floatless

/-- Rows with the values of their keys. -/
def KeyedSide (keys : List Expr) (rows : List Row) (side : List (Row × Row)) : Prop :=
  Forall₂ (KeyedRow keys) rows side

theorem groupOf_eq {keys : List Expr} {row key : Row} (h : Expr.evalAll row keys = .ok key) :
    groupOf keys row = some (groupValue key) := by
  rw [groupOf, h]
  rfl

theorem exists_keyRows {keys : List Expr} {rows : List Row}
    (h : ∀ row ∈ rows, ExactKeys keys row) :
    ∃ side, keyRows keys rows = .ok side ∧ KeyedSide keys rows side := by
  have hall : ∀ row ∈ rows, ∃ r, KeyedRow keys row r := fun row hrow => by
    obtain ⟨key, hkey, hfloatless⟩ := h row hrow
    exact ⟨(key, row), rfl, hkey, hfloatless⟩
  obtain ⟨side, hside⟩ := exists_forall₂ hall
  refine ⟨side, mapM_ok.mpr (hside.imp ?_), hside⟩
  rintro row ⟨key, _⟩ ⟨rfl, hkey, -⟩
  rw [hkey]
  rfl

open Classical in
/-- The bag of a group has the rows with its value. -/
theorem KeyedSide.groupBag_eq {keys : List Expr} {rows : List Row} {side : List (Row × Row)}
    (h : KeyedSide keys rows side) (group : Value) :
    groupBag group side = members keys group rows := by
  induction h with
  | nil => rfl
  | @cons row r rows side hr _ ih =>
    obtain ⟨rfl, hkey, hfloatless⟩ := hr
    have hsame : (groupValue r.1).same group = decide (groupOf keys r.2 = some group) := by
      rw [Bool.eq_iff_iff, Value.same_iff (groupValue_floatless hfloatless), groupOf_eq hkey,
        decide_eq_true_iff, Option.some.injEq]
    unfold groupBag members at ih ⊢
    rw [List.filter_cons, List.filter_cons, hsame]
    split
    · rw [List.map_cons, ih]
    · exact ih

theorem KeyedSide.groupValues_eq {keys : List Expr} {rows : List Row} {side : List (Row × Row)}
    (h : KeyedSide keys rows side) :
    (side.map fun r => groupValue r.1) = rows.filterMap (groupOf keys) := by
  induction h with
  | nil => rfl
  | cons hr _ ih =>
    rw [List.map_cons, ih, List.filterMap_cons_some (groupOf_eq hr.key)]

theorem KeyedSide.floatless {keys : List Expr} {rows : List Row} {side : List (Row × Row)}
    (h : KeyedSide keys rows side) {r : Row × Row} (hr : r ∈ side) :
    (groupValue r.1).Floatless := by
  obtain ⟨row, -, hkeyed⟩ := mem_of_right h hr
  exact groupValue_floatless hkeyed.floatless

/-! ## Cogroups -/

/-- The row that a cogroup gives for a group. -/
noncomputable def groupRow (inputs : List (List Row)) (keys : List (List Expr)) (group : Value) :
    Row :=
  group :: (inputs.zip keys).map fun (rows, keys) => .bag (members keys group rows)

/-- The bags of several groups are a partition of rows. -/
structure Parted (groups : List Value) (keys : List Expr) (rows : List Row) : Prop where
  /-- A row is in one bag, that of its value. -/
  one : ∀ row ∈ rows, ∃ (j : Nat) (v : Value), groups[j]? = some v ∧ groupOf keys row = some v ∧
    ∀ (k : Nat) w, groups[k]? = some w → (row ∈ members keys w rows ↔ k = j)
  /-- No row is lost, and none is added. -/
  perm : (groups.flatMap fun v => members keys v rows).Perm rows
  /-- A bag keeps the order of its rows. -/
  order : ∀ v, (members keys v rows).Sublist rows

theorem mem_members {keys : List Expr} {v : Value} {rows : List Row} {row : Row} :
    row ∈ members keys v rows ↔ row ∈ rows ∧ groupOf keys row = some v := by
  simp [members]

theorem mem_appearing {inputs : List (List Row)} {keys : List (List Expr)} {v : Value} :
    v ∈ appearing inputs keys ↔ ∃ x ∈ inputs.zip keys, ∃ row ∈ x.1, groupOf x.2 row = some v := by
  simp [appearing]

theorem parted {groups : List Value} {keys : List Expr} {rows : List Row} (hnodup : groups.Nodup)
    (hcover : ∀ row ∈ rows, ∃ v ∈ groups, groupOf keys row = some v) :
    Parted groups keys rows where
  one row hrow := by
    obtain ⟨v, hv, hgroup⟩ := hcover row hrow
    obtain ⟨j, hj⟩ := List.mem_iff_getElem?.mp hv
    refine ⟨j, v, hj, hgroup, fun k w hk => ?_⟩
    rw [mem_members, hgroup, Option.some.injEq]
    constructor
    · rintro ⟨-, rfl⟩
      obtain ⟨hlt, -⟩ := List.getElem?_eq_some_iff.mp hk
      exact (List.getElem?_inj hlt hnodup).mp (hk.trans hj.symm)
    · rintro rfl
      exact ⟨hrow, Option.some.inj (hj.symm.trans hk)⟩
  perm := flatMap_filter_perm hnodup hcover
  order v := List.filter_sublist

section Sides

variable {inputs : List (List Row)} {keys : List (List Expr)} {sides : List (List (Row × Row))}

theorem exists_keyedSides
    (h : Forall₂ (fun rows keys => ∀ row ∈ rows, ExactKeys keys row) inputs keys) :
    ∃ sides, keyedSides keys inputs = .ok sides ∧
      Forall₂ (fun x side => KeyedSide x.2 x.1 side) (inputs.zip keys) sides := by
  have hall : ∀ x ∈ inputs.zip keys, ∃ side, keyRows x.2 x.1 = .ok side ∧ KeyedSide x.2 x.1 side :=
    fun x hx => exists_keyRows (List.forall₂_zip h hx)
  obtain ⟨sides, hsides⟩ := exists_forall₂ hall
  exact ⟨sides, mapM_ok.mpr (hsides.imp fun _ _ => And.left), hsides.imp fun _ _ => And.right⟩

theorem sideValues_eq (h : Forall₂ (fun x side => KeyedSide x.2 x.1 side) (inputs.zip keys) sides) :
    (sides.flatten.map fun r => groupValue r.1) = appearing inputs keys := by
  unfold appearing
  generalize inputs.zip keys = xs at h ⊢
  induction h with
  | nil => rfl
  | cons hside _ ih =>
    rw [List.flatten_cons, List.map_append, ih, hside.groupValues_eq, List.flatMap_cons]

theorem sideBags_eq (h : Forall₂ (fun x side => KeyedSide x.2 x.1 side) (inputs.zip keys) sides)
    (v : Value) :
    v :: (sides.map (groupBag v)).map Value.bag = groupRow inputs keys v := by
  unfold groupRow
  refine congrArg (v :: ·) ?_
  generalize inputs.zip keys = xs at h ⊢
  induction h with
  | nil => rfl
  | cons hside _ ih => rw [List.map_cons, List.map_cons, List.map_cons, ih, hside.groupBag_eq]

theorem appearing_floatless
    (h : Forall₂ (fun x side => KeyedSide x.2 x.1 side) (inputs.zip keys) sides) :
    ∀ v ∈ appearing inputs keys, v.Floatless := by
  intro v hv
  rw [← sideValues_eq h] at hv
  obtain ⟨r, hr, rfl⟩ := List.mem_map.mp hv
  obtain ⟨side, hside, hr⟩ := List.mem_flatten.mp hr
  obtain ⟨x, -, hkeyed⟩ := mem_of_right h hside
  exact hkeyed.floatless hr

end Sides

/-- If no input needs a row in a group, every group stays. -/
theorem groupRows_eq {inner : List Bool} (h : ∀ needed ∈ inner, needed = false)
    (sides : List (List (Row × Row))) :
    groupRows sides inner = (distinctValues (sides.flatten.map fun r => groupValue r.1)).map
      fun v => v :: (sides.map (groupBag v)).map Value.bag := by
  unfold groupRows
  refine (List.filterMap_congr fun v _ => if_neg ?_).trans (congrFun List.filterMap_eq_map _)
  rw [List.any_eq_true]
  rintro ⟨⟨bag, needed⟩, hx, hlacks⟩
  rw [h needed (List.of_mem_zip hx).2] at hlacks
  cases hlacks

/-- A cogroup that needs no rows has one row for each value of the keys, in the
order in which these first appear, and its bags part every input: a row is in the
bag of its own value only. -/
theorem cogroup_partitions {g : CoGroup} {inputs : List (List Row)}
    (hinner : ∀ needed ∈ g.inner, needed = false)
    (hkeys : Forall₂ (fun rows keys => ∀ row ∈ rows, ExactKeys keys row) inputs g.keys)
    (t : Tables) (id : Nat) (schemas : List Schema) :
    ∃ groups : List Value,
      naturalRows t id (.cogroup g) schemas inputs = .ok (groups.map (groupRow inputs g.keys)) ∧
      FirstAppearances (appearing inputs g.keys) groups ∧
      ∀ i rows keys, inputs[i]? = some rows → g.keys[i]? = some keys →
        (∀ v, (groupRow inputs g.keys v)[CoGroup.bagPosition i]? =
          some (.bag (members keys v rows))) ∧
        Parted groups keys rows := by
  obtain ⟨sides, hsides, hkeyed⟩ := exists_keyedSides hkeys
  have hfirst := distinctValues_first (appearing_floatless hkeyed)
  refine ⟨_, ?_, hfirst, fun i rows keys hi hk => ?_⟩
  · have hrows : naturalRows t id (.cogroup g) schemas inputs = .ok (groupRows sides g.inner) := by
      show (keyedSides g.keys inputs >>= fun sides => _) = _
      rw [hsides]
      rfl
    rw [hrows, groupRows_eq hinner, sideValues_eq hkeyed]
    exact congrArg Except.ok (List.map_congr_left fun v _ => sideBags_eq hkeyed v)
  · have hzip : (inputs.zip g.keys)[i]? = some (rows, keys) :=
      List.getElem?_zip_eq_some.mpr ⟨hi, hk⟩
    have hmem := List.mem_of_getElem? hzip
    refine ⟨fun v => ?_, parted hfirst.nodup fun row hrow => ?_⟩
    · rw [groupRow, CoGroup.bagPosition, List.getElem?_cons_succ, List.getElem?_map, hzip]
      rfl
    · obtain ⟨key, hkey, -⟩ := List.forall₂_zip hkeys hmem row hrow
      have hgroup := groupOf_eq hkey
      exact ⟨_, (hfirst.mem _).mpr (mem_appearing.mpr ⟨_, hmem, row, hrow, hgroup⟩), hgroup⟩

/-- Two inputs grouped by two keys each. -/
def pairedGroups : CoGroup where
  keys := [[.column 0, .column 1], [.column 1, .column 0]]
  inner := [false, false]
  group := ⟨"group", .tuple [], ⟨4⟩⟩
  bags := [("A", ⟨5⟩), ("B", ⟨6⟩)]

/-- Rows for them, with a null and a bag among the keys. -/
def pairedRows : List (List Row) :=
  [[[.str "a", .null], [.str "b", .int 1], [.str "a", .null]],
    [[.int 1, .str "b"], [.bag [[.null]], .str "c"], [.int 1, .str "b"]]]

theorem cogroup_partitions_paired :
    (∀ needed ∈ pairedGroups.inner, needed = false) ∧
    Forall₂ (fun rows keys => ∀ row ∈ rows, ExactKeys keys row) pairedRows pairedGroups.keys ∧
    ∃ groups, naturalRows ⟨[], false⟩ 2 (.cogroup pairedGroups) [] pairedRows =
        .ok (groups.map (groupRow pairedRows pairedGroups.keys)) ∧
      groups.length = 3 ∧
      ∀ (i : Nat) rows keys, pairedRows[i]? = some rows → pairedGroups.keys[i]? = some keys →
        Parted groups keys rows := by
  have hinner : ∀ needed ∈ pairedGroups.inner, needed = false := by decide
  have hkeys : Forall₂ (fun rows keys => ∀ row ∈ rows, ExactKeys keys row) pairedRows
      pairedGroups.keys := by
    simp [pairedRows, pairedGroups, ExactKeys, Expr.evalAll, Expr.eval, Value.Floatless,
      Value.FloatlessRow, Value.FloatlessRows, bind, Except.bind, pure, Except.pure]
  obtain ⟨groups, hrows, -, hparts⟩ := cogroup_partitions hinner hkeys ⟨[], false⟩ 2 []
  have hcount : (naturalRows ⟨[], false⟩ 2 (.cogroup pairedGroups) [] pairedRows).toOption.map
      List.length = some 3 := by decide +kernel
  rw [hrows] at hcount
  refine ⟨hinner, hkeys, groups, hrows, ?_, fun i rows keys hi hk => (hparts i rows keys hi hk).2⟩
  simpa [Except.toOption] using hcount

end Run

end Dataflow
