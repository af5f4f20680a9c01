import Dataflow.Proofs.Narrowing.Operators
import Dataflow.Proofs.Plan.Checked

/-!
# The pass over one operator

From demands that are held to narrowed operators. The expressions of an operator
are renumbered one after the other (`reviseEach_ok`) and put back in their
places; `Operator.narrowed_of_held` shows, kind by kind, that the result stands
in the relation `Operator.Narrowed` to the operator before, and that every
required position of the natural output remains.
-/

namespace Dataflow

open List (Forall₂)

/-! ## Revising expressions -/

section Revise

variable {ε : Type} {f : Nat → Expr → Except ε (Revised Expr)} {xs : List (Nat × Expr)}
  {rs : List (Revised Expr)}

theorem reviseEach_ok (h : Forall₂ (fun x r => f x.1 x.2 = .ok r) xs rs) :
    reviseEach f xs = (rs.map Revised.value, xs.length, .ok (rs.any Revised.changed)) := by
  induction h with
  | nil => rfl
  | cons hx _ ih => simp only [reviseEach, hx, ih]; rfl

theorem forall₂_of_reviseEach {changed : Bool} (h : (reviseEach f xs).2.2 = .ok changed) :
    ∃ rs, Forall₂ (fun x r => f x.1 x.2 = .ok r) xs rs := by
  induction xs generalizing changed with
  | nil => exact ⟨[], .nil⟩
  | cons x xs ih =>
    simp only [reviseEach] at h
    split at h
    · cases h
    · rename_i r hr
      cases hrest : (reviseEach f xs).2.2 with
      | error e =>
        change ((reviseEach f xs).2.2.map fun changed => r.changed || changed) = _ at h
        rw [hrest] at h
        cases h
      | ok c =>
        obtain ⟨rs, hrs⟩ := ih hrest
        exact ⟨r :: rs, .cons hr hrs⟩

end Revise

section Regroup

variable {α β : Type}

theorem regroup_length (sides : List (List α)) (es : List β) :
    (regroup sides es).length = sides.length := by
  induction sides generalizing es with
  | nil => rfl
  | cons side sides ih => exact congrArg Nat.succ (ih _)

theorem regroup_flatten (sides : List (List α)) : regroup sides sides.flatten = sides := by
  induction sides with
  | nil => rfl
  | cons side sides ih => rw [regroup, List.flatten_cons, List.take_left, List.drop_left, ih]

/-- The places of a side are filled from the expressions of that side. -/
theorem regroup_getElem? {R : Nat × α → β → Prop} {sides : List (List α)} {es : List β} {k : Nat}
    (h : Forall₂ R ((sides.zipIdx k).flatMap fun x => x.1.map fun e => (x.2, e)) es) {i : Nat}
    {side : List α} {side' : List β} (hi : sides[i]? = some side)
    (hi' : (regroup sides es)[i]? = some side') :
    Forall₂ (fun e e' => R (i + k, e) e') side side' := by
  induction sides generalizing es k i with
  | nil => cases hi
  | cons s sides ih =>
    rw [List.zipIdx_cons, List.flatMap_cons] at h
    obtain ⟨hhead, htail⟩ : Forall₂ R (s.map fun e => (k, e)) (es.take s.length) ∧
        Forall₂ R ((sides.zipIdx (k + 1)).flatMap fun x => x.1.map fun e => (x.2, e))
          (es.drop s.length) := by
      have htake := List.forall₂_take s.length h
      have hdrop := List.forall₂_drop s.length h
      rw [List.take_left' (by simp)] at htake
      rw [List.drop_left' (by simp)] at hdrop
      exact ⟨htake, hdrop⟩
    cases i with
    | zero =>
      cases hi
      cases hi'
      rw [Nat.zero_add]
      exact List.forall₂_map_left_iff.mp hhead
    | succ i =>
      rw [show i + 1 + k = i + (k + 1) by omega]
      exact ih htail hi hi'

end Regroup

theorem Operator.keyed_snd (keys : List (List Expr)) :
    (Operator.keyed keys).map Prod.snd = keys.flatten := by
  have hfrom : ∀ k, ((keys.zipIdx k).flatMap fun x => x.1.map fun e => (x.2, e)).map Prod.snd =
      keys.flatten := by
    induction keys with
    | nil => exact fun _ => rfl
    | cons side keys ih =>
      intro k
      rw [List.zipIdx_cons, List.flatMap_cons, List.map_append, ih, List.flatten_cons]
      simp [Function.comp_def]
  exact hfrom 0

theorem Operator.mem_keyed {keys : List (List Expr)} {x : Nat × Expr} :
    x ∈ Operator.keyed keys ↔ ∃ ks, keys[x.1]? = some ks ∧ x.2 ∈ ks := by
  constructor
  · intro h
    obtain ⟨⟨ks, i⟩, hks, hx⟩ := List.mem_flatMap.mp h
    obtain ⟨e, he, rfl⟩ := List.mem_map.mp hx
    exact ⟨ks, List.mem_zipIdx_iff_getElem?.mp hks, he⟩
  · rintro ⟨ks, hks, he⟩
    exact List.mem_flatMap.mpr ⟨(ks, x.1), List.mem_zipIdx_iff_getElem?.mpr hks,
      List.mem_map.mpr ⟨x.2, he, rfl⟩⟩

/-- An operator keeps its expressions when they are put back. -/
theorem Operator.withExpressions_self (op : Operator) :
    op.withExpressions (op.expressions.map Prod.snd) = op := by
  cases op with
  | forEach items =>
    have hzip : List.zipWith (fun item e => { item with expr := e })
        items (items.map Item.expr) = items := by
      induction items with
      | nil => rfl
      | cons item items ih => rw [List.map_cons, List.zipWith_cons_cons, ih]
    simpa [withExpressions, expressions, Function.comp_def] using hzip
  | join j => simp only [withExpressions, expressions, keyed_snd, regroup_flatten]
  | cogroup c => simp only [withExpressions, expressions, keyed_snd, regroup_flatten]
  | orderBy o => simp [withExpressions, expressions, Function.comp_def]
  | split ps => simp [withExpressions, expressions, Function.comp_def]
  | _ => rfl

theorem regroup_keyed {xs : List (List Expr)} {es : List Expr} (k : Nat)
    (h : es.length = xs.flatten.length) :
    ((regroup xs es).zipIdx k).flatMap (fun x => x.1.map fun e => (x.2, e)) =
      List.zipWith (fun x e => (x.1, e))
        ((xs.zipIdx k).flatMap fun x => x.1.map fun e => (x.2, e)) es := by
  induction xs generalizing es k with
  | nil => rfl
  | cons x xs ih =>
    rw [List.flatten_cons, List.length_append] at h
    have htake : (es.take x.length).length = x.length := by rw [List.length_take]; omega
    rw [regroup, List.zipIdx_cons, List.zipIdx_cons, List.flatMap_cons, List.flatMap_cons,
      ih (k + 1) (by rw [List.length_drop]; omega)]
    conv_rhs => rw [← List.take_append_drop x.length es]
    rw [List.zipWith_append (by rw [List.length_map, htake])]
    refine congrArg (· ++ _) (List.ext_getElem? fun i => ?_)
    dsimp only
    rw [List.getElem?_zipWith, List.getElem?_map, List.getElem?_map]
    by_cases hi : i < x.length
    · rw [List.getElem?_eq_getElem hi, List.getElem?_eq_getElem (by omega)]
      rfl
    · rw [List.getElem?_eq_none (l := x) (by omega),
        List.getElem?_eq_none (l := es.take x.length) (by omega)]
      rfl

/-- The expressions of an operator that was given others. -/
theorem Operator.expressions_withExpressions {op : Operator} {es : List Expr}
    (h : es.length = op.expressions.length) :
    (op.withExpressions es).expressions =
      List.zipWith (fun x e => (x.1, e)) op.expressions es := by
  have hkeyed : ∀ {keys : List (List Expr)}, es.length = (Operator.keyed keys).length →
      Operator.keyed (regroup keys es) =
        List.zipWith (fun x e => (x.1, e)) (Operator.keyed keys) es := by
    intro keys hlen
    refine regroup_keyed 0 ?_
    rw [hlen, ← Operator.keyed_snd, List.length_map]
  have hmap : ∀ {xs : List Expr}, es.length = (xs.map fun e => ((0 : Nat), e)).length →
      (es.map fun e => ((0 : Nat), e)) =
        List.zipWith (fun x e => (x.1, e)) (xs.map fun e => ((0 : Nat), e)) es := by
    intro xs hlen
    rw [List.length_map] at hlen
    clear h hkeyed
    induction es generalizing xs with
    | nil => simp
    | cons e es ih =>
      cases xs with
      | nil => cases hlen
      | cons x xs =>
        rw [List.map_cons, List.map_cons, List.zipWith_cons_cons, ih (Nat.succ.inj hlen)]
  cases op with
  | forEach items =>
    clear hkeyed hmap
    simp only [withExpressions, expressions, List.length_map] at h ⊢
    induction items generalizing es with
    | nil => simp
    | cons item items ih =>
      cases es with
      | nil => cases h
      | cons e es =>
        rw [List.zipWith_cons_cons, List.map_cons, List.map_cons, List.zipWith_cons_cons,
          ih (Nat.succ.inj h)]
  | filter p =>
    obtain ⟨e, rfl⟩ := List.length_eq_one_iff.mp h
    rfl
  | orderBy o => exact hmap h
  | split ps => exact hmap h
  | join j => exact hkeyed h
  | cogroup c => exact hkeyed h
  | _ => simp [withExpressions, expressions]

theorem zipWith_right {α β : Type} {xs : List α} {ys : List β} (h : ys.length = xs.length) :
    List.zipWith (fun _ y => y) xs ys = ys := by
  calc List.zipWith (fun _ y => y) xs ys
      = (xs.zip ys).map Prod.snd := by rw [List.zip, List.map_zipWith]
    _ = ys := List.map_snd_zip (Nat.le_of_eq h)

/-- An operator stays the same when its expressions are put back renumbered
exactly when none is reported as changed. -/
theorem Operator.withExpressions_eq_iff {op : Operator} {rs : List (Revised Expr)}
    (h : Forall₂ (fun x r => ∃ ρ : Renumbering Error, x.2.renumber ρ = .ok r) op.expressions rs) :
    op.withExpressions (rs.map Revised.value) = op ↔ rs.any Revised.changed = false := by
  rw [Expr.all_unchanged_iff (List.forall₂_map_left_iff.mpr h)]
  constructor
  · intro hsame
    have hlen : (rs.map Revised.value).length = op.expressions.length := by
      rw [List.length_map, h.length_eq]
    have hback := expressions_withExpressions hlen
    rw [hsame] at hback
    rw [hback, List.map_zipWith]
    exact (zipWith_right hlen).symm
  · intro hvalues
    rw [hvalues, withExpressions_self]

variable {g : String → String} {t : Trackers}

/-- The expressions of an operator, each with the outcome of renumbering it for
its input. -/
def Operator.Renumbers (op : Operator) (ws : List (Slice g t)) (rs : List (Revised Expr)) : Prop :=
  Forall₂ (fun x r => ∃ w, ws[x.1]? = some w ∧
    x.2.renumber w.narrowed.renumbering = .ok r) op.expressions rs

theorem Operator.Renumbers.eq_self {ws : List (Slice g t)} {op : Operator}
    {rs : List (Revised Expr)} (h : op.Renumbers ws rs) (hc : rs.any Revised.changed = false) :
    op.withExpressions (rs.map Revised.value) = op :=
  (Operator.withExpressions_eq_iff (h.imp fun _ _ hx => hx.elim fun _ hw => ⟨_, hw.2⟩)).mpr hc

/-! ## Held demands -/

theorem Demand.offsets_at {inputs : List Schema} {start i : Nat} {s : Schema}
    (h : inputs[i]? = some s) : ∃ x, (Demand.offsets start inputs)[i]? = some (s, x) := by
  induction inputs generalizing start i with
  | nil => cases h
  | cons s' inputs ih =>
    cases i with
    | zero => cases h; exact ⟨start, rfl⟩
    | succ i => exact ih h

/-- The required positions of inputs that stand side by side. -/
theorem Slice.covers_joined {required : List Nat} {ws : List (Slice g t)} {start : Nat}
    (h : ∀ (i : Nat) (x : Schema × Nat) (w : Slice g t),
      (Demand.offsets start (ws.map Slice.old))[i]? = some x → ws[i]? = some w →
      ∃ d, Demand.ofRange x.1 required x.2 = .ok d ∧ d.Held t w.old.length w.kept) :
    ∀ m ∈ required, start ≤ m → m < start + (ws.map Slice.old).flatten.length →
      m - start ∈ (joined ws).positions := by
  induction ws generalizing start with
  | nil =>
    intro m _ h₁ h₂
    simp only [List.map_nil, List.flatten_nil, List.length_nil] at h₂
    omega
  | cons w ws ih =>
    intro m hm h₁ h₂
    rw [List.map_cons, List.flatten_cons, List.length_append] at h₂
    rw [joined, Columns.positions_beside]
    by_cases hlt : m < start + w.old.length
    · obtain ⟨d, hd, hheld⟩ := h 0 (w.old, start) w rfl rfl
      exact List.mem_append_left _ (Demand.Held.ofRange hd hheld m hm h₁ hlt)
    · refine List.mem_append_right _ (List.mem_map.mpr ⟨m - (start + w.old.length), ?_, by omega⟩)
      exact ih (fun i x w' hx hw => h (i + 1) x w' hx hw) m hm (by omega) (by omega)

/-- Keys whose demands are held and which were renumbered. -/
theorem keyReadings {w : Slice g t} {ks : List Expr} {rs : List Expr}
    (hm : ∀ e ∈ ks, e.reads.toWhole.Met t w.old w.kept) (hs : ∀ e ∈ ks, e.reads.Selects w)
    (hr : Forall₂ (fun e e' =>
      ∃ r, e.renumber w.narrowed.renumbering = .ok r ∧ r.value = e') ks rs) :
    Forall₂ (KeyReading w) ks rs := by
  refine forall₂_of_getElem? hr.length_eq fun i e e' he he' => ?_
  obtain ⟨e'', he'', r, hr, rfl⟩ := getElem?_of_left hr he
  rw [he'] at he''
  cases he''
  have he := List.mem_of_getElem? he
  exact ⟨Expr.renumbered_of_ok hr, hm e he, hs e he⟩

theorem forall₂_revised {xs : List Expr} {rs : List (Revised Expr)} {ws : List (Slice g t)}
    {w : Slice g t} {i : Nat} (hw : ws[i]? = some w)
    (h : Forall₂ (fun x r => ∃ w, ws[x.1]? = some w ∧ x.2.renumber w.narrowed.renumbering = .ok r)
      (xs.map fun e => (i, e)) rs) :
    Forall₂ (fun e e' => ∃ r, e.renumber w.narrowed.renumbering = .ok r ∧ r.value = e') xs
      (rs.map Revised.value) := by
  rw [List.forall₂_map_right_iff]
  refine (List.forall₂_map_left_iff.mp h).imp fun e r hr => ?_
  obtain ⟨w', hw', hr⟩ := hr
  rw [hw] at hw'
  cases hw'
  exact ⟨r, hr, rfl⟩

/-- The keys of every side, with their demands held. -/
theorem sides_of_held {keys : List (List Expr)} {ws : List (Slice g t)} {rs : List (Revised Expr)}
    (hlen : keys.length = ws.length)
    (hrs : Forall₂ (fun x r => ∃ w, ws[x.1]? = some w ∧
      x.2.renumber w.narrowed.renumbering = .ok r) (Operator.keyed keys) rs)
    (hm : ∀ (i : Nat) (ks : List Expr) (w : Slice g t), keys[i]? = some ks → ws[i]? = some w →
      ∀ e ∈ ks, e.reads.toWhole.Met t w.old w.kept)
    (hs : ∀ x ∈ Operator.keyed keys, ∀ w, ws[x.1]? = some w → x.2.reads.Selects w) :
    Along (fun ks ks' w => Forall₂ (KeyReading w) ks ks') keys
      (regroup keys (rs.map Revised.value)) ws := by
  refine Along.of_getElem? (regroup_length ..) hlen.symm fun i ks ks' w hks hks' hw => ?_
  have hrs' : Forall₂ (fun x e' => ∃ w, ws[x.1]? = some w ∧
      ∃ r, x.2.renumber w.narrowed.renumbering = .ok r ∧ r.value = e') (Operator.keyed keys)
      (rs.map Revised.value) := by
    rw [List.forall₂_map_right_iff]
    exact hrs.imp fun x r ⟨w, hw, hr⟩ => ⟨w, hw, r, hr, rfl⟩
  refine keyReadings (hm i ks w hks hw)
    (fun e he => hs (i, e) (Operator.mem_keyed.mpr ⟨ks, hks, he⟩) w hw)
    ((regroup_getElem? hrs' hks hks').imp fun e e' he => ?_)
  obtain ⟨w', hw', hr⟩ := he
  rw [Nat.add_zero, hw] at hw'
  cases hw'
  exact hr

/-! ## Operators -/

theorem Operator.Takes.single {op : Operator} {ws : List (Slice g t)} (h : op.Takes ws.length)
    (hop : op.arity = (1, some 1)) : ∃ w, ws = [w] := by
  have h₁ := h.least
  have h₂ := h.greatest 1 (by rw [hop])
  rw [hop] at h₁
  exact List.length_eq_one_iff.mp (Nat.le_antisymm h₂ h₁)

section Held

variable {name : String} {required : List Nat} {ws : List (Slice g t)} {ds : List Demand}

def AllHeld (ws : List (Slice g t)) (ds : List Demand) : Prop :=
  Forall₂ (fun d (w : Slice g t) => d.Held t w.old.length w.kept) ds ws

theorem AllHeld.first {w : Slice g t} {demand : Schema → Except Error Demand}
    (hd : Demand.onFirst name [w.old] demand = .ok ds) (hh : AllHeld [w] ds) :
    ∃ d, demand w.old = .ok d ∧ d.Held t w.old.length w.kept := by
  obtain ⟨d, hd', hds⟩ := bind_ok hd
  cases hds
  cases hh with
  | cons h _ => exact ⟨d, hd', h⟩

/-- What is demanded at a place is held by the input at that place. -/
theorem AllHeld.demand_at {β : Type} {xs : List β} {demand : β → Except Error Demand}
    (hd : xs.mapM demand = .ok ds) (hh : AllHeld ws ds) {i : Nat} {x : β} {w : Slice g t}
    (hx : xs[i]? = some x) (hw : ws[i]? = some w) :
    ∃ d, demand x = .ok d ∧ d.Held t w.old.length w.kept := by
  obtain ⟨d, hdi, hdx⟩ := getElem?_of_left (mapM_ok.mp hd) hx
  obtain ⟨w', hw', hheld⟩ := getElem?_of_left hh hdi
  rw [hw] at hw'
  cases hw'
  exact ⟨d, hdx, hheld⟩

/-- The same where every input is asked under its number. -/
theorem AllHeld.numbered_at {demand : Schema × Nat → Except Error Demand}
    (hd : (ws.map Slice.old).zipIdx.mapM demand = .ok ds) (hh : AllHeld ws ds) {i : Nat}
    {w : Slice g t} (hw : ws[i]? = some w) :
    ∃ d, demand (w.old, i) = .ok d ∧ d.Held t w.old.length w.kept :=
  AllHeld.demand_at hd hh (by rw [List.getElem?_zipIdx, List.getElem?_map, hw]; simp) hw

/-- The demand of a range and of something else besides. -/
theorem held_both {w : Slice g t} {a b : Except Error Demand} {d : Demand}
    (hd : (do return (← a) ++ (← b)) = Except.ok d) (h : d.Held t w.old.length w.kept) :
    ∃ da db, a = .ok da ∧ b = .ok db ∧ da.Held t w.old.length w.kept ∧
      db.Held t w.old.length w.kept := by
  obtain ⟨da, ha, hd⟩ := bind_ok hd
  obtain ⟨db, hb, hd⟩ := bind_ok hd
  cases hd
  obtain ⟨h₁, h₂⟩ := Demand.held_append.mp h
  exact ⟨da, db, ha, hb, h₁, h₂⟩

theorem covers_of_range {w : Slice g t} {d : Demand}
    (hd : Demand.ofRange w.old required 0 = .ok d) (h : d.Held t w.old.length w.kept) :
    ∀ m ∈ required, m < w.old.length → m ∈ w.columns.positions := by
  intro m hm hlt
  exact Demand.Held.ofRange hd h m hm (Nat.zero_le _) (by omega)

theorem Slice.Whole.of_readAll {w : Slice g t} (hh : AllHeld [w] [Demand.readAll w.old]) :
    w.Whole := by
  cases hh with
  | cons h _ =>
    obtain ⟨hall, hw⟩ := Demand.Held.readAll h
    exact ⟨hall, hw⟩

/-- The operator after the pass stands in the relation, and every required
natural position remains. -/
def Operator.Narrows (required : List Nat) (op op' : Operator) (ws : List (Slice g t)) : Prop :=
  ∃ natural cols, op.Narrowed required op' ws natural cols ∧
    ∀ m ∈ required, m < natural.length → m ∈ cols.positions

/-- Every selection of inner columns in an operator's expressions can be made of
the narrowed inputs. -/
def Operator.Selects (op : Operator) (ws : List (Slice g t)) : Prop :=
  ∀ x ∈ op.expressions, ∀ w, ws[x.1]? = some w → x.2.reads.Selects w

variable {rs : List (Revised Expr)}

theorem narrows_filter {w : Slice g t} {e : Expr}
    (hd : Demand.ofOperator name t (.filter e) [w.old] required = .ok ds) (hh : AllHeld [w] ds)
    (hsel : (Operator.filter e).Selects [w]) (hrs : (Operator.filter e).Renumbers [w] rs) :
    Operator.Narrows required (.filter e)
      ((Operator.filter e).withExpressions (rs.map Revised.value)) [w] := by
  simp only [Demand.ofOperator] at hd
  obtain ⟨d, hd, hheld⟩ := AllHeld.first hd hh
  obtain ⟨da, db, ha, hb, hha, hhb⟩ := held_both hd hheld
  cases hrs with
  | cons hr hnil =>
    cases hnil
    obtain ⟨w', hw', hr⟩ := hr
    cases hw'
    exact ⟨_, _, .filter ⟨Expr.renumbered_of_ok hr, Demand.Held.ofReads hb hhb,
      hsel _ (List.mem_singleton.mpr rfl) w rfl⟩,
      covers_of_range ha hha⟩

theorem narrows_orderBy {w : Slice g t} {o : OrderBy}
    (hd : Demand.ofOperator name t (.orderBy o) [w.old] required = .ok ds) (hh : AllHeld [w] ds)
    (hsel : (Operator.orderBy o).Selects [w]) (hrs : (Operator.orderBy o).Renumbers [w] rs) :
    Operator.Narrows required (.orderBy o)
      ((Operator.orderBy o).withExpressions (rs.map Revised.value)) [w] := by
  simp only [Demand.ofOperator] at hd
  obtain ⟨d, hd, hheld⟩ := AllHeld.first hd hh
  obtain ⟨da, db, ha, hb, hha, hhb⟩ := held_both hd hheld
  exact ⟨_, _, .orderBy (keyReadings (Demand.Held.ofKeys hb hhb)
    (fun e he => hsel _ (List.mem_map.mpr ⟨e, he, rfl⟩) w rfl) (forall₂_revised rfl hrs)) rfl,
    covers_of_range ha hha⟩

theorem narrows_split {w : Slice g t} {ps : List Expr}
    (hd : Demand.ofOperator name t (.split ps) [w.old] required = .ok ds) (hh : AllHeld [w] ds)
    (hsel : (Operator.split ps).Selects [w]) (hrs : (Operator.split ps).Renumbers [w] rs) :
    Operator.Narrows required (.split ps)
      ((Operator.split ps).withExpressions (rs.map Revised.value)) [w] := by
  simp only [Demand.ofOperator] at hd
  obtain ⟨d, hd, hheld⟩ := AllHeld.first hd hh
  obtain ⟨da, db, ha, hb, hha, hhb⟩ := held_both hd hheld
  have hrev := forall₂_revised (i := 0) (w := w) rfl hrs
  refine ⟨_, _, .split (forall₂_of_getElem? hrev.length_eq fun i e e' he he' => ?_),
    covers_of_range ha hha⟩
  obtain ⟨e'', he'', r, hr, rfl⟩ := getElem?_of_left hrev he
  rw [he'] at he''
  cases he''
  have he := List.mem_of_getElem? he
  obtain ⟨de, hde, hheld⟩ := Demand.Held.collect hb hhb e he
  exact ⟨Expr.renumbered_of_ok hr, Demand.Held.ofReads hde hheld,
    hsel _ (List.mem_map.mpr ⟨e, he, rfl⟩) w rfl⟩

theorem narrows_cross
    (hd : Demand.ofOperator name t .cross (ws.map Slice.old) required = .ok ds)
    (hh : AllHeld ws ds) : Operator.Narrows required .cross .cross ws := by
  refine ⟨_, _, .cross ws, fun m hm hlt => ?_⟩
  exact @Slice.covers_joined g t required ws 0 (fun i x w hx hw => hh.demand_at hd hx hw) m hm
    (Nat.zero_le _) (by omega)

/-- What is demanded of a side of a join, and that it is held. -/
theorem held_side {j : Join}
    (hd : Demand.ofOperator name t (.join j) (ws.map Slice.old) required = .ok ds)
    (hh : AllHeld ws ds) {i : Nat} {x : Schema × Nat} {w : Slice g t}
    (hx : (Demand.offsets 0 (ws.map Slice.old))[i]? = some x) (hw : ws[i]? = some w) :
    ∃ da db, Demand.ofRange x.1 required x.2 = .ok da ∧
      Demand.ofKeys x.1 (j.keys[i]?.getD []) = .ok db ∧ da.Held t w.old.length w.kept ∧
      db.Held t w.old.length w.kept := by
  have hnumbered : (Demand.offsets 0 (ws.map Slice.old)).zipIdx[i]? = some (x, i) := by
    rw [List.getElem?_zipIdx, hx]; simp
  obtain ⟨d, hdx, hheld⟩ := hh.demand_at hd hnumbered hw
  exact held_both hdx hheld

theorem met_side {j : Join}
    (hd : Demand.ofOperator name t (.join j) (ws.map Slice.old) required = .ok ds)
    (hh : AllHeld ws ds) {i : Nat} {ks : List Expr} {w : Slice g t} (hks : j.keys[i]? = some ks)
    (hw : ws[i]? = some w) : ∀ e ∈ ks, e.reads.toWhole.Met t w.old w.kept := by
  obtain ⟨start, hstart⟩ : ∃ start,
      (Demand.offsets 0 (ws.map Slice.old))[i]? = some (w.old, start) :=
    Demand.offsets_at (by rw [List.getElem?_map, hw]; rfl)
  obtain ⟨da, db, -, hb, -, hhb⟩ := held_side hd hh hstart hw
  rw [hks] at hb
  exact Demand.Held.ofKeys hb hhb

theorem narrows_join {j : Join} (htakes : (Operator.join j).Takes ws.length)
    (hd : Demand.ofOperator name t (.join j) (ws.map Slice.old) required = .ok ds)
    (hh : AllHeld ws ds) (hsel : (Operator.join j).Selects ws)
    (hrs : (Operator.join j).Renumbers ws rs) :
    Operator.Narrows required (.join j)
      ((Operator.join j).withExpressions (rs.map Revised.value)) ws := by
  have hlen : j.keys.length = ws.length := Nat.le_antisymm htakes.least (htakes.greatest _ rfl)
  refine ⟨_, _, .join (sides_of_held hlen hrs (fun i ks w => met_side hd hh) hsel) rfl,
    fun m hm hlt => ?_⟩
  refine Slice.covers_joined (fun i x w hx hw => ?_) m hm (Nat.zero_le _) (by omega)
  obtain ⟨da, db, ha, -, hha, -⟩ := held_side hd hh hx hw
  exact ⟨da, ha, hha⟩

/-- What is demanded of an input of a cogroup, and that it is held. -/
theorem held_group {c : CoGroup}
    (hd : Demand.ofOperator name t (.cogroup c) (ws.map Slice.old) required = .ok ds)
    (hh : AllHeld ws ds) {i : Nat} {ks : List Expr} {w : Slice g t} (hks : c.keys[i]? = some ks)
    (hw : ws[i]? = some w) :
    ∃ d, Demand.ofGroup name t c required w.old ks i = .ok d ∧ d.Held t w.old.length w.kept := by
  obtain ⟨d, hdx, hheld⟩ := hh.numbered_at hd hw
  simp only [hks] at hdx
  exact ⟨d, hdx, hheld⟩

theorem met_group {c : CoGroup}
    (hd : Demand.ofOperator name t (.cogroup c) (ws.map Slice.old) required = .ok ds)
    (hh : AllHeld ws ds) {i : Nat} {ks : List Expr} {w : Slice g t} (hks : c.keys[i]? = some ks)
    (hw : ws[i]? = some w) : ∀ e ∈ ks, e.reads.toWhole.Met t w.old w.kept := by
  obtain ⟨d, hd, hheld⟩ := held_group hd hh hks hw
  exact (Demand.Held.ofGroup hd hheld).1

theorem narrows_cogroup {c : CoGroup} (htakes : (Operator.cogroup c).Takes ws.length)
    (hd : Demand.ofOperator name t (.cogroup c) (ws.map Slice.old) required = .ok ds)
    (hh : AllHeld ws ds) (hsel : (Operator.cogroup c).Selects ws)
    (hrs : (Operator.cogroup c).Renumbers ws rs) :
    Operator.Narrows required (.cogroup c)
      ((Operator.cogroup c).withExpressions (rs.map Revised.value)) ws := by
  have hlen : c.keys.length = ws.length := Nat.le_antisymm htakes.least (htakes.greatest _ rfl)
  refine ⟨_, _, .cogroup ⟨sides_of_held hlen hrs (fun i ks w => met_group hd hh) hsel, rfl,
    fun i w b hw hb hreq => ?_⟩, fun m _ hlt => ?_⟩
  · obtain ⟨ks, hks⟩ : ∃ ks, c.keys[i]? = some ks :=
      ⟨_, List.getElem?_eq_getElem (by rw [hlen]; exact (List.getElem?_eq_some_iff.mp hw).1)⟩
    obtain ⟨d, hd, hheld⟩ := held_group hd hh hks hw
    obtain ⟨b', hb', hknown⟩ := (Demand.Held.ofGroup hd hheld).2 hreq
    rw [hb] at hb'
    cases hb'
    exact hknown
  · rw [CoGroup.positions_columns]
    exact List.mem_range.mpr hlt

/-- The expressions of an operator other than a `forEach` are read as recorded. -/
theorem Operator.met_of_held {op : Operator} (htakes : op.Takes ws.length)
    (hd : Demand.ofOperator name t op (ws.map Slice.old) required = .ok ds) (hh : AllHeld ws ds)
    (hitems : ∀ items, op ≠ .forEach items) {x : Nat × Expr} (hx : x ∈ op.expressions)
    {w : Slice g t} (hw : ws[x.1]? = some w) : x.2.reads.Met t w.old w.kept := by
  cases op with
  | filter e =>
    obtain ⟨w', rfl⟩ := htakes.single rfl
    rw [List.mem_singleton.mp hx] at hw ⊢
    cases hw
    simp only [Demand.ofOperator] at hd
    obtain ⟨d, hd, hheld⟩ := AllHeld.first hd hh
    obtain ⟨da, db, -, hb, -, hhb⟩ := held_both hd hheld
    exact Demand.Held.ofReads hb hhb
  | orderBy o =>
    obtain ⟨w', rfl⟩ := htakes.single rfl
    obtain ⟨e, he, rfl⟩ := List.mem_map.mp hx
    cases hw
    simp only [Demand.ofOperator] at hd
    obtain ⟨d, hd, hheld⟩ := AllHeld.first hd hh
    obtain ⟨da, db, -, hb, -, hhb⟩ := held_both hd hheld
    exact Reads.met_of_toWhole (Demand.Held.ofKeys hb hhb e he)
  | split ps =>
    obtain ⟨w', rfl⟩ := htakes.single rfl
    obtain ⟨e, he, rfl⟩ := List.mem_map.mp hx
    cases hw
    simp only [Demand.ofOperator] at hd
    obtain ⟨d, hd, hheld⟩ := AllHeld.first hd hh
    obtain ⟨da, db, -, hb, -, hhb⟩ := held_both hd hheld
    obtain ⟨de, hde, hheld⟩ := Demand.Held.collect hb hhb e he
    exact Demand.Held.ofReads hde hheld
  | join j =>
    obtain ⟨ks, hks, he⟩ := Operator.mem_keyed.mp hx
    exact Reads.met_of_toWhole (met_side hd hh hks hw x.2 he)
  | cogroup c =>
    obtain ⟨ks, hks, he⟩ := Operator.mem_keyed.mp hx
    exact Reads.met_of_toWhole (met_group hd hh hks hw x.2 he)
  | forEach items => exact absurd rfl (hitems items)
  | _ => cases hx

/-- The operators that keep their natural output, from demands that are held
and expressions that were renumbered. -/
theorem Operator.narrows_of_held {op : Operator} (htakes : op.Takes ws.length)
    (hd : Demand.ofOperator name t op (ws.map Slice.old) required = .ok ds) (hh : AllHeld ws ds)
    (hsel : op.Selects ws) (hrs : op.Renumbers ws rs) (hitems : ∀ items, op ≠ .forEach items)
    (hunion : ∀ u, op ≠ .union u) :
    Operator.Narrows required op (op.withExpressions (rs.map Revised.value)) ws := by
  have hall : ∀ n : Nat, ∀ m < n, m ∈ (Columns.all n).positions := fun n m hm => by
    rw [Columns.positions_all]
    exact List.mem_range.mpr hm
  cases op with
  | load l =>
    rw [List.length_eq_zero_iff.mp (Nat.le_zero.mp (htakes.greatest 0 rfl))]
    exact ⟨_, _, .load rfl, fun m _ hm => hall _ m hm⟩
  | store location =>
    obtain ⟨w, rfl⟩ := htakes.single rfl
    cases hd
    exact ⟨_, _, .store location (.of_readAll hh), fun m _ hm => absurd hm (Nat.not_lt_zero m)⟩
  | distinct =>
    obtain ⟨w, rfl⟩ := htakes.single rfl
    cases hd
    have hw := Slice.Whole.of_readAll hh
    exact ⟨_, _, .distinct hw, fun m _ hm => hw.all m hm⟩
  | stream command schema =>
    obtain ⟨w, rfl⟩ := htakes.single rfl
    cases hd
    exact ⟨_, _, .stream command schema (.of_readAll hh), fun m _ hm => hall _ m hm⟩
  | limit count =>
    obtain ⟨w, rfl⟩ := htakes.single rfl
    simp only [Demand.ofOperator] at hd
    obtain ⟨d, hd, hheld⟩ := AllHeld.first hd hh
    exact ⟨_, _, .limit count, covers_of_range hd hheld⟩
  | filter e =>
    obtain ⟨w, rfl⟩ := htakes.single rfl
    exact narrows_filter hd hh hsel hrs
  | orderBy o =>
    obtain ⟨w, rfl⟩ := htakes.single rfl
    exact narrows_orderBy hd hh hsel hrs
  | split ps =>
    obtain ⟨w, rfl⟩ := htakes.single rfl
    exact narrows_split hd hh hsel hrs
  | cross => exact narrows_cross hd hh
  | join j => exact narrows_join htakes hd hh hsel hrs
  | cogroup c => exact narrows_cogroup htakes hd hh hsel hrs
  | forEach items => exact absurd rfl (hitems items)
  | union u => exact absurd rfl (hunion u)

end Held

end Dataflow
