import Dataflow.Proofs.Narrowing.Rerun

/-!
# Requirements do not depend on keys

An analysis that tracks the keys of maps puts nodes back when it learns of a new
key, so it makes other visits than one that does not. The extra visits change
keys only: whatever such a node asks of its inputs otherwise has been absorbed
before, by the invariant of the solver. Hence both analyses fail together, and
else require the same fields (`Plan.solve_required`).

The two runs are related by `State.Tracks`: the one that does not track keys has
the same requirements and the same knowledge of columns, and waits for no more
nodes. The other makes a visit that both make, or one that the first need not
make.
-/

namespace Dataflow

open List (Forall₂)

/-! ## Findings about columns -/

namespace PartDemand

def isKey : PartDemand → Bool
  | .mapKey .. | .allKeys _ => true
  | .bagColumns .. | .allColumns _ => false

/-- The findings that are not about keys. -/
def columns (ds : List PartDemand) : List PartDemand := ds.filter fun d => !d.isKey

theorem columns_append (ds es : List PartDemand) : columns (ds ++ es) = columns ds ++ columns es :=
  List.filter_append ..

theorem columns_of_key {d : PartDemand} (h : d.isKey = true) (ds : List PartDemand) :
    columns (d :: ds) = columns ds :=
  List.filter_cons_of_neg (by simp [h])

theorem columns_of_column {d : PartDemand} (h : d.isKey = false) (ds : List PartDemand) :
    columns (d :: ds) = d :: columns ds :=
  List.filter_cons_of_pos (by simp [h])

end PartDemand

namespace Trackers

variable {t t' : Trackers} {d : PartDemand}

/-- A finding about keys says nothing about columns. -/
theorem apply_key (h : d.isKey = true) : (t.apply d).1.bagColumns = t.bagColumns := by
  cases d with
  | mapKey | allKeys =>
    simp only [apply]
    split <;> rfl
  | bagColumns | allColumns => cases h

theorem apply_key_untracked (h : d.isKey = true) (ht : t.trackKeys = false) :
    t.apply d = (t, false) := by
  cases d with
  | mapKey | allKeys => simp [apply, ht]
  | bagColumns | allColumns => cases h

/-- What a finding about columns changes depends on the columns only. -/
theorem apply_column (h : d.isKey = false) (hcols : t'.bagColumns = t.bagColumns) :
    (t'.apply d).1.bagColumns = (t.apply d).1.bagColumns ∧ (t'.apply d).2 = (t.apply d).2 := by
  cases d with
  | mapKey | allKeys => cases h
  | bagColumns | allColumns => simp [apply, withBagColumns, hcols]

theorem applyAll_columns (ds : List PartDemand) (hcols : t'.bagColumns = t.bagColumns) :
    (t'.applyAll ds).bagColumns = (t.applyAll ds).bagColumns := by
  unfold applyAll
  induction ds generalizing t t' with
  | nil => exact hcols
  | cons d ds ih =>
    refine ih ?_
    cases h : d.isKey with
    | true => rw [apply_key h, apply_key h, hcols]
    | false => exact (apply_column h hcols).1

end Trackers

/-! ## Demands -/

/-- Results that are related one by one. -/
theorem mapM_related {ε α β : Type} {R : β → β → Prop} {f f' : α → Except ε β} {xs : List α}
    (h : ∀ x ∈ xs, ∀ y, f x = .ok y → ∃ y', f' x = .ok y' ∧ R y y') {ys : List β}
    (hys : xs.mapM f = .ok ys) : ∃ ys', xs.mapM f' = .ok ys' ∧ Forall₂ R ys ys' := by
  induction xs generalizing ys with
  | nil => cases hys; exact ⟨[], rfl, .nil⟩
  | cons x xs ih =>
    obtain ⟨y, ys, rfl, hy, hys⟩ := mapM_cons_ok hys
    obtain ⟨y', hy', hR⟩ := h x (List.mem_cons_self ..) y hy
    obtain ⟨ys', hys', hrest⟩ := ih (fun x hx => h x (List.mem_cons_of_mem _ hx)) hys
    exact ⟨y' :: ys', mapM_ok.mpr (.cons hy' (mapM_ok.mp hys')), .cons hR hrest⟩

namespace Demand

/-- Two demands that differ in keys at most. -/
structure SameColumns (d d' : Demand) : Prop where
  fields : d'.fields = d.fields
  parts : PartDemand.columns d'.parts = PartDemand.columns d.parts

theorem sameColumns_refl (d : Demand) : d.SameColumns d := ⟨rfl, rfl⟩

theorem SameColumns.symm {d d' : Demand} (h : d.SameColumns d') : d'.SameColumns d :=
  ⟨h.fields.symm, h.parts.symm⟩

theorem SameColumns.append {a a' b b' : Demand} (ha : a.SameColumns a') (hb : b.SameColumns b') :
    (a.append b).SameColumns (a'.append b') where
  fields := by simp only [Demand.append, ha.fields, hb.fields]
  parts := by simp only [Demand.append, PartDemand.columns_append, ha.parts, hb.parts]

theorem sameColumns_collect {α : Type} {causes : List α} {demand demand' : α → Except Error Demand}
    (h : ∀ c ∈ causes, ∀ d, demand c = .ok d → ∃ d', demand' c = .ok d' ∧ d.SameColumns d')
    {d : Demand} (hd : collect causes demand = .ok d) :
    ∃ d', collect causes demand' = .ok d' ∧ d.SameColumns d' := by
  obtain ⟨ds, hds, hd⟩ := bind_ok hd
  cases hd
  obtain ⟨ds', hds', hsame⟩ := mapM_related h hds
  refine ⟨ds'.foldl append empty, by simp only [collect, hds', bind, Except.bind]; rfl, ?_⟩
  have hfold : ∀ a a' : Demand, a.SameColumns a' →
      (ds.foldl append a).SameColumns (ds'.foldl append a') := by
    clear hds hds' hd
    induction hsame with
    | nil => exact fun a a' ha => ha
    | cons hone _ ih => exact fun a a' ha => ih _ _ (ha.append hone)
  exact hfold _ _ (sameColumns_refl empty)

theorem sameColumns_onField {s : Schema} {p : Nat} {parts parts' : Field → List PartDemand}
    (h : ∀ f, PartDemand.columns (parts' f) = PartDemand.columns (parts f)) {d : Demand}
    (hd : onField s p parts = .ok d) : ∃ d', onField s p parts' = .ok d' ∧ d.SameColumns d' := by
  obtain ⟨f, hf, hd⟩ := bind_ok hd
  cases hd
  exact ⟨⟨.positions [p], parts' f⟩, by simp only [onField, hf, bind, Except.bind]; rfl, rfl, h f⟩

theorem columns_ofUnionField (t t' : Trackers) (output input : Field) :
    PartDemand.columns (ofUnionField t' output input) =
      PartDemand.columns (ofUnionField t output input) := by
  have hkeys : ∀ t : Trackers, input.type.isMap = true →
      PartDemand.columns (ofUnionField t output input) = [] := by
    intro t hmap
    simp only [ofUnionField, hmap, if_true]
    split
    · exact List.filter_eq_nil_iff.mpr fun x hx => by
        obtain ⟨k, -, rfl⟩ := List.mem_map.mp hx
        exact Bool.false_ne_true
    · rfl
  by_cases hmap : input.type.isMap = true
  · rw [hkeys t hmap, hkeys t' hmap]
  · simp only [ofUnionField, hmap, Bool.false_eq_true, if_false]

theorem sameColumns_ofMapping {name : String} (t t' : Trackers) {u : Union} {required : List Nat}
    {s : Schema} {mapping : List (Option Nat)} {d : Demand}
    (hd : ofMapping name t u required s mapping = .ok d) :
    ∃ d', ofMapping name t' u required s mapping = .ok d' ∧ d.SameColumns d' := by
  refine sameColumns_collect (fun p _ d hd => ?_) hd
  cases hf : u.fields[p]? with
  | none => simp [hf] at hd
  | some output =>
    simp only [hf] at hd ⊢
    cases hq : mapping[p]?.join with
    | none =>
      simp only [hq] at hd ⊢
      exact ⟨d, hd, sameColumns_refl d⟩
    | some q =>
      simp only [hq] at hd ⊢
      exact sameColumns_onField (columns_ofUnionField t t' output) hd

/-- What an operator asks does not depend on what is known about keys, except
in what it says about keys. -/
theorem sameColumns_ofOperator {name : String} {t t' : Trackers}
    (hcols : t'.bagColumns = t.bagColumns) {op : Operator} {inputs : List Schema}
    {required : List Nat} {ds : List Demand} (hds : ofOperator name t op inputs required = .ok ds) :
    ∃ ds', ofOperator name t' op inputs required = .ok ds' ∧ Forall₂ SameColumns ds ds' := by
  have hrefl : Forall₂ SameColumns ds ds := List.forall₂_same.mpr fun d _ => sameColumns_refl d
  cases op with
  | cogroup g =>
    refine ⟨ds, ?_, hrefl⟩
    simpa only [ofOperator, ofGroup, hcols] using hds
  | union u =>
    refine mapM_related (fun x _ d hd => ?_) hds
    obtain ⟨s, i⟩ := x
    simp only at hd ⊢
    cases hm : u.mappings[i]? with
    | none =>
      simp only [hm] at hd ⊢
      exact ⟨d, hd, sameColumns_refl d⟩
    | some mapping =>
      simp only [hm] at hd ⊢
      exact sameColumns_ofMapping t t' hd
  | _ => exact ⟨ds, hds, hrefl⟩

end Demand

theorem Plan.sameColumns_inputDemands {p : Plan} {id : Nat} {r : Required} {t t' : Trackers}
    (hcols : t'.bagColumns = t.bagColumns) {ds : List Demand}
    (hds : p.inputDemands id r t = .ok ds) :
    ∃ ds', p.inputDemands id r t' = .ok ds' ∧ Forall₂ Demand.SameColumns ds ds' := by
  obtain ⟨n, hn, hds⟩ := bind_ok hds
  obtain ⟨inputs, hinputs, hds⟩ := bind_ok hds
  obtain ⟨natural, hnatural, hds⟩ := bind_ok hds
  obtain ⟨r', hr', hds⟩ := bind_ok hds
  obtain ⟨required, hreq, hds⟩ := bind_ok hds
  obtain ⟨ds', hds', hsame⟩ := Demand.sameColumns_ofOperator hcols hds
  refine ⟨ds', ?_, hsame⟩
  unfold inputDemands
  simp only [hn, hinputs, hnatural, hr', hreq, bind, Except.bind, hds']

/-! ## Two runs -/

namespace Solver

variable {p : Plan} {retain : Bool} {s s' : State}

/-- A state of a run that does not track keys, and a state of one that may. -/
structure State.Tracks (s s' : State) : Prop where
  required : s'.required = s.required
  columns : s'.trackers.bagColumns = s.trackers.bagColumns
  untracked : s.trackers.trackKeys = false
  pending : ∀ id ∈ s.pending, id ∈ s'.pending
  descending : s.pending.Pairwise (· > ·) ∧ s'.pending.Pairwise (· > ·)

theorem State.Tracks.requiredOf (h : s.Tracks s') (id : Nat) :
    s'.requiredOf id = s.requiredOf id := by
  unfold State.requiredOf
  rw [h.required]

theorem absorbParts_columns (hs : s.trackers.trackKeys = false) (ds : List PartDemand) :
    absorbParts p s ds = absorbParts p s (PartDemand.columns ds) := by
  induction ds generalizing s with
  | nil => rfl
  | cons d ds ih =>
    cases h : d.isKey with
    | true =>
      rw [PartDemand.columns_of_key h, ← ih hs]
      simp [absorbParts, Trackers.apply_key_untracked h hs]
    | false =>
      rw [PartDemand.columns_of_column h]
      simp only [absorbParts]
      cases hc : (s.trackers.apply d).2 with
      | false => simp only [Bool.false_eq_true, if_false, ih hs]
      | true =>
        simp only [if_true]
        rw [ih ((s.trackers.le_apply d).trackKeys.trans hs)]

theorem tracks_absorbParts (ds : List PartDemand) (h : s.Tracks s') :
    (absorbParts p s (PartDemand.columns ds)).1.Tracks (absorbParts p s' ds).1 ∧
      ((absorbParts p s (PartDemand.columns ds)).2 = true → (absorbParts p s' ds).2 = true) := by
  induction ds generalizing s s' with
  | nil => exact ⟨h, id⟩
  | cons d ds ih =>
    cases hkey : d.isKey with
    | true =>
      rw [PartDemand.columns_of_key hkey]
      simp only [absorbParts]
      cases hc : (s'.trackers.apply d).2 with
      | false =>
        obtain ⟨h₁, h₂⟩ := ih h
        exact ⟨h₁, fun hs => by rw [if_neg Bool.false_ne_true, h₂ hs]; rfl⟩
      | true =>
        obtain ⟨h₁, -⟩ := @ih s { s' with
            trackers := (s'.trackers.apply d).1
            pending := Worklist.insertAll s'.pending (originators p d.uid) }
          ⟨h.required, (Trackers.apply_key hkey).trans h.columns, h.untracked,
            fun id hid => Worklist.mem_insertAll.mpr (Or.inr (h.pending id hid)),
            h.descending.1, Worklist.insertAll_descending h.descending.2⟩
        exact ⟨h₁, fun _ => rfl⟩
    | false =>
      obtain ⟨hcols, hchange⟩ := Trackers.apply_column hkey h.columns
      rw [PartDemand.columns_of_column hkey]
      simp only [absorbParts, hchange]
      cases hc : (s.trackers.apply d).2 with
      | false => exact ih h
      | true =>
        obtain ⟨h₁, -⟩ := @ih { s with
            trackers := (s.trackers.apply d).1
            pending := Worklist.insertAll s.pending (originators p d.uid) } { s' with
            trackers := (s'.trackers.apply d).1
            pending := Worklist.insertAll s'.pending (originators p d.uid) }
          ⟨h.required, hcols, (s.trackers.le_apply d).trackKeys.trans h.untracked,
            fun id hid => Worklist.mem_insertAll.mpr
              ((Worklist.mem_insertAll.mp hid).imp (fun hid => hid) (h.pending id)),
            Worklist.insertAll_descending h.descending.1,
            Worklist.insertAll_descending h.descending.2⟩
        exact ⟨h₁, fun _ => rfl⟩

theorem tracks_putBack (h : s.Tracks s') {changed changed' : Bool}
    (hflag : changed = true → changed' = true) (input : Nat) :
    State.Tracks (if changed then { s with pending := Worklist.insert input s.pending } else s)
      (if changed' then { s' with pending := Worklist.insert input s'.pending } else s') := by
  cases changed with
  | true =>
    rw [hflag rfl]
    exact ⟨h.required, h.columns, h.untracked, fun x hx =>
      Worklist.mem_insert.mpr ((Worklist.mem_insert.mp hx).imp id (h.pending x)),
      Worklist.insert_descending h.descending.1, Worklist.insert_descending h.descending.2⟩
  | false =>
    cases changed' with
    | false => exact h
    | true =>
      exact ⟨h.required, h.columns, h.untracked, fun x hx =>
        Worklist.mem_insert.mpr (Or.inr (h.pending x hx)), h.descending.1,
        Worklist.insert_descending h.descending.2⟩

theorem tracks_absorb (h : s.Tracks s') (input : Nat) {d d' : Demand} (hd : d.SameColumns d') :
    (absorb p s input d).Tracks (absorb p s' input d') := by
  have hset : State.Tracks
      { s with required := s.required.set input ((s.requiredOf input).merge d.fields).1 }
      { s' with required := s'.required.set input ((s'.requiredOf input).merge d'.fields).1 } :=
    ⟨by simp only [h.required, h.requiredOf, hd.fields], h.columns, h.untracked, h.pending,
      h.descending⟩
  obtain ⟨hparts, hflag⟩ := tracks_absorbParts (p := p) d'.parts hset
  rw [hd.parts, ← absorbParts_columns (by exact h.untracked)] at hparts hflag
  refine tracks_putBack hparts (fun hchange => ?_) input
  rw [h.requiredOf, hd.fields]
  exact Bool.or_eq_true_iff.mpr ((Bool.or_eq_true_iff.mp hchange).imp id hflag)

theorem tracks_absorbAll {ds ds' : List Demand} (hds : Forall₂ Demand.SameColumns ds ds')
    (edges : List Edge) (h : s.Tracks s') :
    ((edges.zip ds).foldl (fun s (e, d) => absorb p s e.node d) s).Tracks
      ((edges.zip ds').foldl (fun s (e, d) => absorb p s e.node d) s') := by
  induction hds generalizing edges s s' with
  | nil => simpa using h
  | cons hd _ ih =>
    cases edges with
    | nil => exact h
    | cons e edges => exact ih edges (tracks_absorb h e.node hd)

theorem tracks_retaining (retain : Bool) (h : s.Tracks s') (n : Node) (id : Nat) :
    (retaining retain n id s).Tracks (retaining retain n id s') := by
  unfold retaining
  split
  · unfold retainOne
    rw [h.requiredOf]
    split
    · exact ⟨by simp only [h.required], h.columns, h.untracked, h.pending, h.descending⟩
    · exact h
  · exact h

/-- A visit that both runs make. -/
theorem tracks_visit (h : s.Tracks s') (id : Nat) :
    (∀ s₁, visit p retain s id = .ok s₁ → ∃ s₁', visit p retain s' id = .ok s₁' ∧ s₁.Tracks s₁') ∧
      ∀ s₁', visit p retain s' id = .ok s₁' →
        ∃ s₁, visit p retain s id = .ok s₁ ∧ s₁.Tracks s₁' := by
  have hreq := fun n => (tracks_retaining retain h n id).requiredOf id
  have hvisited : ∀ n, State.Tracks { retaining retain n id s with visits := s.visits + 1 }
      { retaining retain n id s' with visits := s'.visits + 1 } := fun n =>
    let hr := tracks_retaining retain h n id
    ⟨hr.required, hr.columns, hr.untracked, hr.pending, hr.descending⟩
  constructor
  · intro s₁ hv
    obtain ⟨n, ds, hn, hds, rfl⟩ := visit_ok.mp hv
    obtain ⟨ds', hds', hsame⟩ := Plan.sameColumns_inputDemands h.columns hds
    exact ⟨_, visit_ok.mpr ⟨n, ds', hn, (hreq n).symm ▸ hds', rfl⟩,
      tracks_absorbAll hsame n.inputs (hvisited n)⟩
  · intro s₁' hv
    obtain ⟨n, ds', hn, hds', rfl⟩ := visit_ok.mp hv
    obtain ⟨ds, hds, hsame⟩ := Plan.sameColumns_inputDemands h.columns.symm hds'
    refine ⟨_, visit_ok.mpr ⟨n, ds, hn, hreq n ▸ hds, rfl⟩,
      tracks_absorbAll (hsame.flip.imp fun _ _ => Demand.SameColumns.symm) n.inputs (hvisited n)⟩

/-- A visit that a run which does not track keys need not make. -/
theorem tracks_extra (h : s.Tracks s') (hs : s.Invariant p retain) {id : Nat} {n : Node}
    (hn : p.nodes[id]? = some n) (hid : id ∉ s.pending) :
    ∃ s₁', visit p retain s' id = .ok s₁' ∧ s.Tracks s₁' := by
  obtain ⟨ds, hds, habsorbed⟩ := hs.settled id n hn hid
  -- The node has kept a field already, if it was to keep one.
  have hkept : retaining retain n id s = s := by
    unfold retaining retainOne
    split
    · rename_i hr
      split
      · rename_i hc
        simp only [Bool.and_eq_true, Bool.not_eq_true', List.isEmpty_eq_false_iff] at hc
        refine absurd ?_ (hs.retained hr id n hn hid hc.2)
        cases hnone : s.requiredOf id <;> simp_all [Required.isEmpty]
      · rfl
    · rfl
  have hretained := hkept ▸ tracks_retaining retain h n id
  obtain ⟨ds', hds', hsame⟩ := Plan.sameColumns_inputDemands h.columns hds
  have hself := @absorbAll_self p s (n.inputs.zip ds) hs.sound.proper habsorbed
  refine ⟨_, visit_ok.mpr ⟨n, ds', hn, ?_, rfl⟩, ?_⟩
  · rw [hretained.requiredOf]
    exact hds'
  · rw [← hself]
    exact tracks_absorbAll hsame n.inputs
      ⟨hretained.required, hretained.columns, hretained.untracked, hretained.pending,
        hretained.descending⟩

/-- The node that a run visits next is the one that the other visits next, if it
waits there. -/
theorem State.Tracks.head (h : s.Tracks s') {id : Nat} {rest' : List Nat}
    (hp' : s'.pending = id :: rest') (hid : id ∈ s.pending) :
    ∃ rest, s.pending = id :: rest ∧ ∀ x ∈ rest, x ∈ rest' := by
  have hdown := h.descending
  rw [hp'] at hdown
  obtain ⟨hhead, -⟩ := List.pairwise_cons.mp hdown.2
  have hsub : ∀ x ∈ s.pending, x = id ∨ x ∈ rest' := fun x hx =>
    List.mem_cons.mp (hp' ▸ h.pending x hx)
  cases hp : s.pending with
  | nil => rw [hp] at hid; cases hid
  | cons m rest =>
    rw [hp] at hid hsub hdown
    obtain ⟨hm, -⟩ := List.pairwise_cons.mp hdown.1
    have hmid : m = id := by
      rcases hsub m (List.mem_cons_self ..) with rfl | hrest
      · rfl
      · rcases List.mem_cons.mp hid with rfl | hid
        · rfl
        · have h₁ := hhead m hrest
          have h₂ := hm id hid
          omega
    subst hmid
    refine ⟨rest, rfl, fun x hx => ?_⟩
    rcases hsub x (List.mem_cons_of_mem _ hx) with rfl | hrest
    · exact absurd (hm x hx) (Nat.lt_irrefl x)
    · exact hrest

theorem State.Tracks.pop (h : s.Tracks s') {rest rest' : List Nat} {id : Nat}
    (hp : s.pending = id :: rest) (hp' : s'.pending = id :: rest') (hsub : ∀ x ∈ rest, x ∈ rest') :
    State.Tracks { s with pending := rest } { s' with pending := rest' } := by
  have hdown := h.descending
  rw [hp, hp'] at hdown
  exact ⟨h.required, h.columns, h.untracked, hsub, (List.pairwise_cons.mp hdown.1).2,
    (List.pairwise_cons.mp hdown.2).2⟩

theorem State.Tracks.skip (h : s.Tracks s') {rest' : List Nat} {id : Nat}
    (hp' : s'.pending = id :: rest') (hid : id ∉ s.pending) :
    State.Tracks s { s' with pending := rest' } := by
  have hdown := h.descending
  rw [hp'] at hdown
  refine ⟨h.required, h.columns, h.untracked, fun x hx => ?_, hdown.1,
    (List.pairwise_cons.mp hdown.2).2⟩
  rcases List.mem_cons.mp (hp' ▸ h.pending x hx) with rfl | hx
  · exact absurd hx hid
  · exact hx

theorem reaches_unique {s₁ s₂ : State} (h₁ : Reaches p retain s s₁) (h₂ : Reaches p retain s s₂) :
    s₁ = s₂ := by
  induction h₁ with
  | done hp =>
    cases h₂ with
    | done => rfl
    | visit hp' => rw [hp] at hp'; cases hp'
  | visit hp hv _ ih =>
    cases h₂ with
    | done hp' => rw [hp] at hp'; cases hp'
    | visit hp' hv' hnext =>
      rw [hp] at hp'
      cases hp'
      rw [hv] at hv'
      cases hv'
      exact ih hnext

/-- A run that has a node to visit visits it. -/
theorem reaches_cons {id : Nat} {rest : List Nat} {s₂ : State} (hp : s.pending = id :: rest) :
    Reaches p retain s s₂ ↔
      ∃ s₁, visit p retain { s with pending := rest } id = .ok s₁ ∧ Reaches p retain s₁ s₂ := by
  constructor
  · intro h
    cases h with
    | done hp' => rw [hp] at hp'; cases hp'
    | visit hp' hv hnext =>
      rw [hp] at hp'
      cases hp'
      exact ⟨_, hv, hnext⟩
  · rintro ⟨s₁, hv, hnext⟩
    exact .visit hp hv hnext

/-- Both runs end, with the same requirements, or neither does. The induction is
on the run that may track keys, which makes more visits. -/
theorem tracks_reaches (hcheck : p.check = .ok ()) {c : Scope} (hc : c.Covers p)
    (hfits : s'.Fits p c) (hwaits : s'.Waits p) (h : s.Tracks s') (hs : s.Invariant p retain) :
    (∀ s₂', Reaches p retain s' s₂' →
        ∃ s₂, Reaches p retain s s₂ ∧ s₂.required = s₂'.required) ∧
      ∀ s₂, Reaches p retain s s₂ → ∃ s₂', Reaches p retain s' s₂' := by
  have hplace := Plan.inPlace_of_check hcheck
  induction s', hfits using run.induct p retain c hc generalizing s with
  | case1 s' _ hp' =>
    refine ⟨fun s₂' h₂ => ?_, fun _ _ => ⟨s', .done hp'⟩⟩
    have hp : s.pending = [] := List.eq_nil_iff_forall_not_mem.mpr fun x hx => by
      have := h.pending x hx
      rw [hp'] at this
      cases this
    rw [← reaches_unique (.done hp') h₂]
    exact ⟨s, .done hp, h.required.symm⟩
  | case2 s' _ id rest' hp' e hv' =>
    have hlt : id < p.nodes.length := hwaits id (by rw [hp']; exact List.mem_cons_self ..)
    -- A visit that fails in one run fails in the other.
    have hfails : ∀ s₁', visit p retain { s' with pending := rest' } id ≠ .ok s₁' := by
      intro s₁' hv
      rw [hv'] at hv
      cases hv
    refine ⟨fun s₂' h₂ => ?_, fun s₂ h₂ => ?_⟩
    · obtain ⟨s₁', hv, -⟩ := (reaches_cons hp').mp h₂
      exact absurd hv (hfails s₁')
    · by_cases hid : id ∈ s.pending
      · obtain ⟨rest, hp, hsub⟩ := h.head hp' hid
        obtain ⟨s₁, hv, -⟩ := (reaches_cons hp).mp h₂
        obtain ⟨s₁', hv, -⟩ := (tracks_visit (h.pop hp hp' hsub) id).1 s₁ hv
        exact absurd hv (hfails s₁')
      · obtain ⟨s₁', hv, -⟩ := tracks_extra (h.skip hp' hid) hs (List.getElem?_eq_getElem hlt) hid
        exact absurd hv (hfails s₁')
  | case3 s' _ id rest' hp' s₁' hv' ih =>
    have hlt : id < p.nodes.length := hwaits id (by rw [hp']; exact List.mem_cons_self ..)
    have hwaits₁ : s₁'.Waits p := waits_visit hcheck
      (fun x hx => hwaits x (by rw [hp']; exact List.mem_cons_of_mem _ hx)) hv'
    have hnext : ∀ s₂', Reaches p retain s' s₂' ↔ Reaches p retain s₁' s₂' := by
      intro s₂'
      rw [reaches_cons hp', hv']
      simp
    simp only [hnext]
    by_cases hid : id ∈ s.pending
    · obtain ⟨rest, hp, hsub⟩ := h.head hp' hid
      obtain ⟨s₁, hv, htracks⟩ := (tracks_visit (h.pop hp hp' hsub) id).2 s₁' hv'
      obtain ⟨hs₁, -, -⟩ := invariant_visit hplace hs hp hv
      have hnext : ∀ s₂, Reaches p retain s s₂ ↔ Reaches p retain s₁ s₂ := by
        intro s₂
        rw [reaches_cons hp, hv]
        simp
      simp only [hnext]
      exact ih hwaits₁ htracks hs₁
    · obtain ⟨s₂', hv, htracks⟩ :=
        tracks_extra (h.skip hp' hid) hs (List.getElem?_eq_getElem hlt) hid
      rw [hv'] at hv
      cases hv
      exact ih hwaits₁ htracks hs

theorem tracks_start (p : Plan) (track : Bool) :
    (start p (.empty false)).Tracks (start p (.empty track)) where
  required := rfl
  columns := by
    have hfold : ∀ (ids : List Nat) (t t' : Trackers), t'.bagColumns = t.bagColumns →
        (ids.foldl (fun t id => t.applyAll
          (((p.nodes[id]?).map fun n => Schema.wholeDemands n.schema).getD [])) t').bagColumns =
        (ids.foldl (fun t id => t.applyAll
          (((p.nodes[id]?).map fun n => Schema.wholeDemands n.schema).getD [])) t).bagColumns := by
      intro ids
      induction ids with
      | nil => exact fun t t' h => h
      | cons id ids ih => exact fun t t' h => ih _ _ (Trackers.applyAll_columns _ h)
    exact hfold p.sinks _ _ rfl
  untracked := (le_start p _).trackKeys
  pending _ hid := hid
  descending := ⟨range_descending _, range_descending _⟩

end Solver

/-- Whether keys are tracked decides neither if the analysis succeeds nor what it
requires. -/
theorem Plan.solve_required {p : Plan} (hcheck : p.check = .ok ()) {track retain : Bool}
    {r : Requirements} (h : p.solve (.empty track) retain = .ok r) (track' : Bool) :
    ∃ r', p.solve (.empty track') retain = .ok r' ∧ r'.required = r.required := by
  -- Both runs are compared with the one that does not track keys.
  have hruns := fun track => Solver.tracks_reaches hcheck (p.scope_covers _)
    (p.start_fits (.empty track)) (fun id hid => by simpa [Solver.start] using hid)
    (Solver.tracks_start p track) (Solver.invariant_start p (.empty false) retain)
  obtain ⟨s, hs, rfl⟩ := reaches_of_solve h
  obtain ⟨s₀, hs₀, hreq⟩ := (hruns track).1 s hs
  obtain ⟨s', hs'⟩ := (hruns track').2 s₀ hs₀
  obtain ⟨s₀', hs₀', hreq'⟩ := (hruns track').1 s' hs'
  rw [Solver.reaches_unique hs₀' hs₀] at hreq'
  exact ⟨_, solve_of_reaches hs', hreq'.symm.trans hreq⟩

end Dataflow
