import Dataflow.Proofs.Narrowing.Again
import Dataflow.Proofs.Narrowing.Consistent
import Dataflow.Proofs.Requirement.Progress

/-!
# The analysis of a narrowed plan

The analysis of a narrowed plan mirrors the analysis of the plan it was narrowed
from, visit by visit (`Solver.State.Mirrors`): the same is known about parts, in
the same order, and what is required of a node is what was required of it, at
the new positions. It ends with the same findings (`Plan.Narrowing.solve`).

The two do not make the same visits. A union that lost a column no longer looks
up what is known about it, so it is not put back when more becomes known. In the
plan before it is put back, but has nothing new to demand.
-/

namespace Dataflow

open List (Forall₂)

variable {g : String → String} {t : Trackers}

/-! ## Demands of a node -/

/-- The required natural positions of a node and of the narrowed node. -/
theorem Node.Narrowed.required_moved {R r r' : Required} {required req req' : List Nat}
    {natural : Schema} {cols : Columns} {n n' : Node} {ins : List (Slice g t)} {w : Slice g t}
    (h : n.Narrowed R required natural cols n' ins w)
    (hcols : cols.positions.Pairwise (· < ·)) (hcov : R.Covers r) (hm : r.Moved w.kept r')
    (hlen : n.exposed.length = n.schema.length) (hasc : req.Pairwise (· < ·))
    (hmem : ∀ m, m ∈ req ↔ ∃ e, r.contains e = true ∧ n.exposed[e]? = some m)
    (hasc' : req'.Pairwise (· < ·))
    (hmem' : ∀ q, q ∈ req' ↔ ∃ e, r'.contains e = true ∧ n'.exposed[e]? = some q) :
    Forall₂ (MovedTo cols.positions) req req' ∧ ∀ m ∈ req, m ∈ required := by
  have hk := w.fits.ascending
  refine ⟨MovedTo.forall₂ hcols hasc hasc' (fun m hmr => ?_) fun q hq => ?_, fun m hmr => ?_⟩
  · obtain ⟨e, hc, he⟩ := (hmem m).mp hmr
    have hlt : e < n.schema.length := hlen ▸ (List.getElem?_eq_some_iff.mp he).1
    obtain ⟨e', he'⟩ := List.mem_iff_getElem?.mp (h.keeps e hlt (hcov.contains e hc))
    have hcol : w.columns[e']?.map Prod.fst = some e := by
      rw [← Columns.positions_getElem?]; exact he'
    obtain ⟨x, hx, rfl⟩ := Option.map_eq_some_iff.mp hcol
    obtain ⟨q, hq, m', hm', hcq⟩ := getElem?_of_left h.exposes hx
    rw [he] at hm'
    cases hm'
    refine ⟨q, (hmem' q).mpr ⟨e', ?_, hq⟩, by rw [MovedTo, Columns.positions_getElem?, hcq]; rfl⟩
    rw [hm.contains hk he']
    exact hc
  · obtain ⟨e', hc', he'⟩ := (hmem' q).mp hq
    obtain ⟨x, hx, m, hxm, hcq⟩ := getElem?_of_right h.exposes he'
    have hmoved : MovedTo w.kept x.1 e' := by
      rw [MovedTo, Slice.kept, Columns.positions_getElem?, hx]; rfl
    refine ⟨m, (hmem m).mpr ⟨x.1, ?_, hxm⟩, by rw [MovedTo, Columns.positions_getElem?, hcq]; rfl⟩
    rw [← hm.contains hk hmoved]
    exact hc'
  · obtain ⟨e, hc, he⟩ := (hmem m).mp hmr
    exact (h.required m).mpr ⟨e, hcov.contains e hc, he⟩

/-- A node that has to keep its first field still has one. -/
theorem Node.Narrowed.keeps_first {R : Required} {required : List Nat} {natural : Schema}
    {cols : Columns} {n n' : Node} {ins : List (Slice g t)} {w : Slice g t}
    (h : n.Narrowed R required natural cols n' ins w) (hne : n.schema ≠ [])
    (hcov : R.Covers (.positions [0])) : 0 ∈ w.kept ∧ n'.schema ≠ [] := by
  have hzero : 0 ∈ w.kept := h.keeps 0 (List.length_pos_iff.mpr hne) (hcov.contains 0 (by simp))
  refine ⟨hzero, ?_⟩
  rw [← h.new, ← List.length_pos_iff, ← w.kept_length]
  exact List.length_pos_of_mem hzero

namespace Plan.Narrowing

variable {p p' : Plan} {required : List Required} {ws : List (Slice g t)}

/-- What a node demands of its inputs, asked again of the narrowed plan. -/
theorem inputDemands (h : Narrowing required ws p p') (hcheck : p.check = .ok ())
    (hcheck' : p'.check = .ok ()) {id : Nat} {n : Node} {w : Slice g t}
    (hn : p.nodes[id]? = some n) (hw : ws[id]? = some w) {r r' : Required}
    (hcov : (required.getD id .none).Covers r) (hr : r.Proper) (hm : r.Moved w.kept r')
    {t' : Trackers} (hle : t'.Le t) {ds : List Demand}
    (hds : p.inputDemands id r t' = .ok ds) :
    ∃ ds' ins, p'.inputDemands id r' t' = .ok ds' ∧ InputSlices ws n.inputs ins ∧
      AllMoved ins ds ds' := by
  obtain ⟨n', -, hn', -⟩ := h.node_at hn
  obtain ⟨w₀, ins, keep, req₀, natural, cols, hw₀, hins, hready, hnar⟩ := h.node id n n' hn hn'
  rw [hw] at hw₀
  cases hw₀
  obtain ⟨inputs, natural₀, hc⟩ := check_ok.mp hcheck id n hn
  obtain ⟨inputs', natural', hc'⟩ := check_ok.mp hcheck' id n' hn'
  obtain ⟨hschemas, hschemas'⟩ := h.edgeSchemas hins
  have hold : inputs = ins.map Slice.old := Except.ok.inj (hc.schemas.symm.trans hschemas)
  have hnew : inputs' = ins.map Slice.new := by
    rw [← hnar.inputs] at hschemas'
    exact Except.ok.inj (hc'.schemas.symm.trans hschemas')
  obtain rfl : natural₀ = natural := by
    have := hnar.op.natural_old
    rw [← hold, hc.natural_eq] at this
    exact Except.ok.inj this
  rw [inputDemands_eq hn hc] at hds
  obtain ⟨s, hs, hds⟩ := bind_ok hds
  obtain ⟨req, hreq, hds⟩ := bind_ok hds
  have hbelow : r'.Below n'.schema.length := by
    rw [← hnar.new, ← w.kept_length]
    exact hm.below
  obtain ⟨s', req', hs', hreq'⟩ := Node.exists_naturalRequired hc'.exposed
    (hm.proper w.fits.ascending hr) hbelow
  have hcols := (hnar.op.remains hready.required_ascending hready.required_bounded).ascending
  obtain ⟨hasc, -, hmem⟩ := Node.mem_required hr hs hreq hc.exposed
  obtain ⟨hasc', -, hmem'⟩ :=
    Node.mem_required (hm.proper w.fits.ascending hr) hs' hreq' hc'.exposed
  obtain ⟨hmoved, hsub⟩ := hnar.required_moved hcols hcov hm
    (Node.exposes_of_part hc.exposed).length_eq hasc hmem hasc' hmem'
  rw [hold] at hds
  obtain ⟨ds', hds', hall⟩ : ∃ ds', Demand.ofOperator n'.displayName t' n'.op
      (ins.map Slice.new) req' = .ok ds' ∧ AllMoved ins ds ds' :=
    hnar.op.demands hle hsub hmoved hds
  refine ⟨ds', ins, ?_, hins, hall⟩
  rw [inputDemands_eq hn' hc', hnew, hs']
  show (do
    let req ← s'.resolve natural'.length
    Demand.ofOperator n'.displayName t' n'.op (ins.map Slice.new) req) = _
  rw [hreq']
  exact hds'

end Plan.Narrowing

namespace Solver

/-- A state of the analysis of a plan, and the state of the analysis of the
narrowed plan that mirrors it. -/
structure State.Mirrors (ws : List (Slice g t)) (s s' : State) : Prop where
  length : s'.required.length = s.required.length
  required : ∀ id w, ws[id]? = some w → (s.requiredOf id).Moved w.kept (s'.requiredOf id)
  trackers : s'.trackers = s.trackers
  pending : ∀ id ∈ s'.pending, id ∈ s.pending
  descending : s.pending.Pairwise (· > ·) ∧ s'.pending.Pairwise (· > ·)

/-! ## Absorbing -/

/-- Absorbing what has been absorbed changes nothing. -/
theorem absorbParts_self {p : Plan} {s : State} {ds : List PartDemand}
    (h : ∀ d ∈ ds, s.trackers.Records d) : absorbParts p s ds = (s, false) := by
  induction ds with
  | nil => rfl
  | cons d ds ih =>
    have hd : (s.trackers.apply d).2 = false := h d (List.mem_cons_self ..)
    simp only [absorbParts, hd, Bool.false_eq_true, if_false, Bool.false_or,
      ih fun x hx => h x (List.mem_cons_of_mem _ hx)]

theorem absorb_self {p : Plan} {s : State} {input : Nat} {d : Demand}
    (hproper : (s.requiredOf input).Proper) (h : Absorbed s.required s.trackers input d) :
    absorb p s input d = s := by
  have hmerge := Required.merge_eq_of_covers hproper h.fields
  have hset : s.required.set input (s.requiredOf input) = s.required := by
    refine List.ext_getElem? fun i => ?_
    by_cases hi : i = input
    · subst hi
      by_cases hlt : i < s.required.length
      · simp [State.requiredOf, hlt]
      · simp [hlt]
    · rw [List.getElem?_set_ne (Ne.symm hi)]
  unfold absorb mergeDemand
  simp only [hmerge, hset, absorbParts_self h.parts, Bool.or_self, Bool.false_eq_true, if_false]

theorem absorbAll_self {p : Plan} {s : State} {pairs : List (Edge × Demand)}
    (hproper : ∀ id, (s.requiredOf id).Proper)
    (h : ∀ e d, (e, d) ∈ pairs → Absorbed s.required s.trackers e.node d) :
    pairs.foldl (fun s (e, d) => absorb p s e.node d) s = s := by
  induction pairs with
  | nil => rfl
  | cons x xs ih =>
    obtain ⟨e, d⟩ := x
    have hself : absorb p s e.node d = s :=
      absorb_self (hproper _) (h e d (List.mem_cons_self ..))
    rw [List.foldl_cons]
    show xs.foldl _ (absorb p s e.node d) = s
    rw [hself]
    exact ih fun e d hx => h e d (List.mem_cons_of_mem _ hx)

variable {p p' : Plan} {ws : List (Slice g t)}

/-- The nodes of the narrowed plan that look something up do so before. -/
def Fewer (p p' : Plan) : Prop := ∀ u, ∀ id ∈ originators p' u, id ∈ originators p u

theorem mirrors_absorbParts (hfew : Fewer p p') (ds : List PartDemand) {s s' : State}
    (h : s.Mirrors ws s') :
    (absorbParts p s ds).1.Mirrors ws (absorbParts p' s' ds).1 ∧
      (absorbParts p' s' ds).2 = (absorbParts p s ds).2 := by
  induction ds generalizing s s' with
  | nil => exact ⟨h, rfl⟩
  | cons d ds ih =>
    simp only [absorbParts, h.trackers]
    cases hc : (s.trackers.apply d).2 with
    | false => exact ih h
    | true =>
      have hmirrors : State.Mirrors ws
          { s with
            trackers := (s.trackers.apply d).1
            pending := Worklist.insertAll s.pending (originators p d.uid) }
          { s' with
            trackers := (s.trackers.apply d).1
            pending := Worklist.insertAll s'.pending (originators p' d.uid) } := by
        refine ⟨h.length, h.required, rfl, fun id hid => ?_,
          Worklist.insertAll_descending h.descending.1,
          Worklist.insertAll_descending h.descending.2⟩
        refine Worklist.mem_insertAll.mpr ?_
        exact (Worklist.mem_insertAll.mp hid).imp (hfew d.uid id) (h.pending id)
      obtain ⟨h₁, h₂⟩ := ih hmirrors
      exact ⟨h₁, congrArg (true || ·) h₂⟩

theorem mirrors_putBack {s s' : State} (h : s.Mirrors ws s') {changed changed' : Bool}
    (hsame : changed' = changed) (input : Nat) :
    State.Mirrors ws
      (if changed then { s with pending := Worklist.insert input s.pending } else s)
      (if changed' then { s' with pending := Worklist.insert input s'.pending } else s') := by
  subst hsame
  cases changed' with
  | false => exact h
  | true =>
    refine ⟨h.length, h.required, h.trackers, fun x hx => ?_,
      Worklist.insert_descending h.descending.1, Worklist.insert_descending h.descending.2⟩
    exact Worklist.mem_insert.mpr ((Worklist.mem_insert.mp hx).imp id (h.pending x))

theorem mirrors_absorb (hfew : Fewer p p') {s s' : State} (h : s.Mirrors ws s') {input : Nat}
    {w : Slice g t} (hw : ws[input]? = some w) (hlt : input < s.required.length) {d d' : Demand}
    (hd : d.Moved w.kept d') :
    (absorb p s input d).Mirrors ws (absorb p' s' input d') := by
  obtain ⟨hmerged, hflag⟩ := (h.required input w hw).merge w.fits.ascending hd.fields
  have hlt' : input < s'.required.length := h.length ▸ hlt
  have hset : State.Mirrors ws
      { s with required := s.required.set input ((s.requiredOf input).merge d.fields).1 }
      { s' with required := s'.required.set input ((s'.requiredOf input).merge d'.fields).1 } := by
    refine ⟨by simp [h.length], fun id x hx => ?_, h.trackers, h.pending, h.descending⟩
    unfold State.requiredOf
    rw [requiredOf_set hlt, requiredOf_set hlt']
    split
    · rename_i hid
      subst hid
      rw [hw] at hx
      cases hx
      exact hmerged
    · exact h.required id x hx
  obtain ⟨hparts, hflag'⟩ := mirrors_absorbParts hfew d.parts hset
  refine mirrors_putBack ?_ (congrArg₂ or hflag ?_) input
  · rw [mergeDemand, mergeDemand, hd.parts]
    exact hparts
  · rw [mergeDemand, mergeDemand, hd.parts]
    exact hflag'

theorem mirrors_absorbAll (hfew : Fewer p p') {edges : List Edge} {ins : List (Slice g t)}
    (hins : InputSlices ws edges ins) {ds ds' : List Demand} (hall : AllMoved ins ds ds')
    {s s' : State} (h : s.Mirrors ws s') (hlen : ∀ e ∈ edges, e.node < s.required.length) :
    ((edges.zip ds).foldl (fun s (e, d) => absorb p s e.node d) s).Mirrors ws
      ((edges.zip ds').foldl (fun s (e, d) => absorb p' s e.node d) s') := by
  induction hins generalizing ds ds' s s' with
  | nil => exact h
  | @cons e w edges ins hw _ ih =>
    cases hall with
    | cons hd hrest =>
      refine ih hrest (mirrors_absorb hfew h hw (hlen e (List.mem_cons_self ..)) hd) fun x hx => ?_
      rw [absorb_required, List.length_set]
      exact hlen x (List.mem_cons_of_mem _ hx)

/-! ## Visits -/

/-- The first field stays the first, if it is kept. -/
theorem moved_first {w : Slice g t} (h : 0 ∈ w.kept) : MovedTo w.kept 0 0 := by
  obtain ⟨q, hq⟩ := List.mem_iff_getElem?.mp h
  obtain ⟨hlt, hzero⟩ := List.getElem?_eq_some_iff.mp hq
  rcases Nat.eq_zero_or_pos q with rfl | hpos
  · exact hq
  · have hlt₀ := List.pairwise_iff_getElem.mp w.fits.ascending 0 q (Nat.lt_trans hpos hlt) hlt hpos
    exact absurd (hzero ▸ hlt₀) (Nat.not_lt_zero _)

section Visit

variable {required : List Required} {retain : Bool}

/-- Keeping a field of the visited node. -/
theorem mirrors_retaining (hnar : Plan.Narrowing required ws p p') {s s' : State}
    (hs : s.Sound p) (hs' : s'.Sound p') (h : s.Mirrors ws s') {id : Nat} {n n' : Node}
    (hn : p.nodes[id]? = some n) (hn' : p'.nodes[id]? = some n')
    (hcov : (required.getD id .none).Covers ((retaining retain n id s).requiredOf id)) :
    (retaining retain n id s).Mirrors ws (retaining retain n' id s') := by
  obtain ⟨w, _, _, _, _, _, hw, -, -, hnode⟩ := hnar.node id n n' hn hn'
  have hmoved := h.required id w hw
  obtain ⟨hpend, htrack⟩ := retaining_pending retain n id s
  obtain ⟨hpend', htrack'⟩ := retaining_pending retain n' id s'
  refine ⟨?_, fun x v hv => ?_, ?_, ?_, ?_⟩
  · rw [(hs.retaining hn retain).length, (hs'.retaining hn' retain).length, hnar.length]
  · rw [retaining_requiredOf hs hn, retaining_requiredOf hs' hn']
    by_cases hx : x = id
    · subst hx
      rw [hw] at hv
      cases hv
      by_cases hkeep : retain = true ∧ s.requiredOf x = .none ∧ n.schema ≠ []
      · -- The final requirement names the first field, so it is still there.
        rw [retaining_requiredOf hs hn, if_pos ⟨rfl, hkeep⟩] at hcov
        obtain ⟨hzero, hne⟩ := hnode.keeps_first hkeep.2.2 hcov
        rw [if_pos ⟨rfl, hkeep⟩, if_pos ⟨rfl, hkeep.1, hmoved.eq_none_iff.mpr hkeep.2.1, hne⟩]
        exact .positions (.cons (moved_first hzero) .nil)
      · have hkeep' : ¬ (retain = true ∧ s'.requiredOf x = .none ∧ n'.schema ≠ []) := by
          rintro ⟨h₁, h₂, h₃⟩
          refine hkeep ⟨h₁, hmoved.eq_none_iff.mp h₂, ?_⟩
          rw [← hnode.new, ← List.length_pos_iff, ← w.kept_length] at h₃
          rw [← hnode.old, ← List.length_pos_iff]
          exact Nat.lt_of_le_of_lt (Nat.zero_le _)
            (w.kept_bounded _ (List.getElem_mem h₃))
        rw [if_neg fun h => hkeep h.2, if_neg fun h => hkeep' h.2]
        exact hmoved
    · rw [if_neg fun h => hx h.1, if_neg fun h => hx h.1]
      exact h.required x v hv
  · rw [htrack, htrack']
    exact h.trackers
  · rw [hpend, hpend']
    exact h.pending
  · rw [hpend, hpend']
    exact h.descending

/-- A visit that the narrowed plan makes too. -/
theorem mirrors_visit (hnar : Plan.Narrowing required ws p p') (hfew : Fewer p p')
    (hcheck : p.check = .ok ()) (hcheck' : p'.check = .ok ()) {s s' s₁ : State}
    (hs : s.Sound p) (hs' : s'.Sound p') (h : s.Mirrors ws s') {id : Nat}
    (hv : visit p retain s id = .ok s₁)
    (hcov : ∀ x, (required.getD x .none).Covers (s₁.requiredOf x))
    (hle : s.trackers.Le t) :
    ∃ s₁', visit p' retain s' id = .ok s₁' ∧ s₁.Mirrors ws s₁' := by
  obtain ⟨n, ds, hn, hds, rfl⟩ := visit_ok.mp hv
  obtain ⟨n', w, hn', hw⟩ := hnar.node_at hn
  obtain ⟨_, _, _, _, _, _, _, -, -, hnode⟩ := hnar.node id n n' hn hn'
  obtain ⟨hadv, -, -⟩ := advances_visit (Plan.inPlace_of_check hcheck) hs hn hds
  have hcov₀ : (required.getD id .none).Covers ((retaining retain n id s).requiredOf id) :=
    (hcov id).trans (hadv.required id)
  have hret := mirrors_retaining hnar hs hs' h hn hn' hcov₀
  obtain ⟨ds', ins, hds', hins, hall⟩ := hnar.inputDemands hcheck hcheck' hn hw hcov₀
    ((hs.retaining hn retain).proper id) (hret.required id w hw) hle hds
  rw [← h.trackers] at hds'
  refine ⟨_, visit_ok.mpr ⟨n', ds', hn', hds', rfl⟩, ?_⟩
  rw [hnode.inputs]
  refine mirrors_absorbAll hfew hins hall
    ⟨hret.length, hret.required, hret.trackers, hret.pending, hret.descending⟩ fun e he => ?_
  obtain ⟨inputs, natural, hc⟩ := Plan.check_ok.mp hcheck id n hn
  obtain ⟨-, m, hm, -⟩ := hc.earlier e he
  show e.node < (retaining retain n id s).required.length
  rw [(hs.retaining hn retain).length]
  exact (List.getElem?_eq_some_iff.mp hm).1

/-- A visit that the narrowed plan does not make finds nothing new. -/
theorem mirrors_skip (hnar : Plan.Narrowing required ws p p') (hcheck : p.check = .ok ())
    (hcheck' : p'.check = .ok ()) {s s' s₁ : State} (hs : s.Sound p)
    (hs' : s'.Invariant p' retain) (h : s.Mirrors ws s') {id : Nat} (hid : id ∉ s'.pending)
    (hv : visit p retain s id = .ok s₁)
    (hcov : ∀ x, (required.getD x .none).Covers (s₁.requiredOf x))
    (hle : s.trackers.Le t) : s₁.Mirrors ws s' := by
  obtain ⟨n, ds, hn, hds, rfl⟩ := visit_ok.mp hv
  obtain ⟨n', w, hn', hw⟩ := hnar.node_at hn
  obtain ⟨w₀, _, _, _, _, _, hw₀, -, -, hnode⟩ := hnar.node id n n' hn hn'
  rw [hw] at hw₀
  cases hw₀
  obtain ⟨hadv, -, -⟩ := advances_visit (Plan.inPlace_of_check hcheck) hs hn hds
  have hcov₀ : (required.getD id .none).Covers ((retaining retain n id s).requiredOf id) :=
    (hcov id).trans (hadv.required id)
  have hmoved := h.required id w hw
  -- Something is required of the narrowed node, or it has no field to keep.
  have hret : retaining retain n id s = s := by
    unfold retaining retainOne
    split
    · rename_i hr
      split
      · rename_i hempty
        rw [retaining_requiredOf hs hn] at hcov₀
        simp only [Bool.and_eq_true, Bool.not_eq_true', List.isEmpty_eq_false_iff] at hempty
        have hnone : s.requiredOf id = .none := by
          cases hq : s.requiredOf id <;> rw [hq] at hempty <;> first | rfl | cases hempty.1
        rw [if_pos ⟨rfl, hr, hnone, hempty.2⟩] at hcov₀
        have hne := (hnode.keeps_first hempty.2 hcov₀).2
        exact absurd (hmoved.eq_none_iff.mpr hnone) (hs'.retained hr id n' hn' hid hne)
      · rfl
    · rfl
  rw [hret] at hds hcov₀
  obtain ⟨ds', ins, hds', hins, hall⟩ := hnar.inputDemands hcheck hcheck' hn hw hcov₀
    (hs.proper id) hmoved hle hds
  obtain ⟨ds₀, hds₀, habs⟩ := hs'.settled id n' hn' hid
  rw [h.trackers, hds'] at hds₀
  cases hds₀
  have habsorbed : ∀ e d, (e, d) ∈ n.inputs.zip ds → Absorbed s.required s.trackers e.node d := by
    intro e d hx
    obtain ⟨i, hi⟩ := List.mem_iff_getElem?.mp hx
    obtain ⟨he, hd⟩ := List.getElem?_zip_eq_some.mp hi
    obtain ⟨d', v, hd', hv, hdd'⟩ := hall.getElem?_of_left hd
    obtain ⟨v₀, hv₀, hwe⟩ := getElem?_of_left hins he
    rw [hv] at hv₀
    cases hv₀
    have ha := habs e d' (List.mem_of_getElem? (List.getElem?_zip_eq_some.mpr
      ⟨by rw [hnode.inputs]; exact he, hd'⟩))
    refine ⟨(h.required e.node v hwe).covers v.fits.ascending hdd'.fields
      (hs'.sound.proper e.node) ha.fields, ?_⟩
    rw [← h.trackers, ← hdd'.parts]
    exact ha.parts
  have hfold := @absorbAll_self p { s with visits := s.visits + 1 } _ hs.proper habsorbed
  rw [hret]
  show State.Mirrors ws ((n.inputs.zip ds).foldl _ { s with visits := s.visits + 1 }) s'
  rw [hfold]
  exact ⟨h.length, h.required, h.trackers, h.pending, h.descending⟩

/-! ## Runs -/

/-- A whole analysis is mirrored by one of the narrowed plan. -/
theorem mirrors_reaches (hnar : Plan.Narrowing required ws p p') (hfew : Fewer p p')
    (hcheck : p.check = .ok ()) (hcheck' : p'.check = .ok ()) {s s' s₁ : State}
    (h : Reaches p retain s s₁) (hs : s.Invariant p retain) (hs' : s'.Invariant p' retain)
    (hm : s.Mirrors ws s') (hcov : ∀ x, (required.getD x .none).Covers (s₁.requiredOf x))
    (hle : s₁.trackers.Le t) : ∃ s₁', Reaches p' retain s' s₁' ∧ s₁.Mirrors ws s₁' := by
  have hp := Plan.inPlace_of_check hcheck
  induction h generalizing s' with
  | @done s hdone =>
    refine ⟨s', .done (List.eq_nil_iff_forall_not_mem.mpr fun id hid => ?_), hm⟩
    have := hm.pending id hid
    rw [hdone] at this
    cases this
  | @visit s s₁ s₂ id rest hpending hv hnext ih =>
    obtain ⟨hs₁, hle₁, -⟩ := invariant_visit hp hs hpending hv
    obtain ⟨-, -, hle₂, hcov₂⟩ := invariant_reaches hp hnext hs₁
    have hcov₁ : ∀ x, (required.getD x .none).Covers (s₁.requiredOf x) := fun x =>
      (hcov x).trans (hcov₂ x)
    have hsound : State.Sound p { s with pending := rest } := ⟨hs.sound.1, hs.sound.2, hs.sound.3⟩
    have hle₀ := (hle₁.trans hle₂).trans hle
    have hrest : rest.Pairwise (· > ·) ∧ ∀ x ∈ rest, x < id := by
      have := hm.descending.1
      rw [hpending] at this
      exact ⟨(List.pairwise_cons.mp this).2, (List.pairwise_cons.mp this).1⟩
    by_cases hid : id ∈ s'.pending
    · -- The node is the first on both worklists.
      obtain ⟨rest', hpending'⟩ : ∃ rest', s'.pending = id :: rest' := by
        cases hq : s'.pending with
        | nil => rw [hq] at hid; cases hid
        | cons x rest' =>
          refine ⟨rest', ?_⟩
          have hx : x ∈ s.pending := hm.pending x (by rw [hq]; exact List.mem_cons_self ..)
          have hdesc := hm.descending.2
          rw [hq] at hdesc hid
          rw [hpending] at hx
          rcases List.mem_cons.mp hx with rfl | hx
          · rfl
          · rcases List.mem_cons.mp hid with rfl | hid
            · rfl
            · have h₁ := hrest.2 x hx
              have h₂ := (List.pairwise_cons.mp hdesc).1 id hid
              omega
      have hdesc' := hm.descending.2
      rw [hpending'] at hdesc'
      have hmirrors : State.Mirrors ws { s with pending := rest } { s' with pending := rest' } := by
        refine ⟨hm.length, hm.required, hm.trackers, fun x hx => ?_, hrest.1,
          (List.pairwise_cons.mp hdesc').2⟩
        have hxs := hm.pending x (by rw [hpending']; exact List.mem_cons_of_mem _ hx)
        rw [hpending] at hxs
        have hlt := (List.pairwise_cons.mp hdesc').1 x hx
        exact (List.mem_cons.mp hxs).resolve_left (by omega)
      have hsound' : State.Sound p' { s' with pending := rest' } :=
        ⟨hs'.sound.1, hs'.sound.2, hs'.sound.3⟩
      obtain ⟨s₁', hv', hm₁⟩ := mirrors_visit hnar hfew hcheck hcheck' hsound hsound' hmirrors hv
        hcov₁ hle₀
      obtain ⟨hs₁', -, -⟩ := invariant_visit (Plan.inPlace_of_check hcheck') hs' hpending' hv'
      obtain ⟨s₂', hnext', hm₂⟩ := ih hs₁ hs₁' hm₁ hcov hle
      exact ⟨s₂', .visit hpending' hv' hnext', hm₂⟩
    · have hmirrors : State.Mirrors ws { s with pending := rest } s' := by
        refine ⟨hm.length, hm.required, hm.trackers, fun x hx => ?_, hrest.1, hm.descending.2⟩
        have hxs := hm.pending x hx
        rw [hpending] at hxs
        exact (List.mem_cons.mp hxs).resolve_left fun hxid => hid (hxid ▸ hx)
      exact ih hs₁ hs' (mirrors_skip hnar hcheck hcheck' hsound hs' hmirrors hid hv hcov₁ hle₀)
        hcov hle

end Visit

end Solver

namespace Plan.Narrowing

variable {p p' : Plan} {required : List Required} {ws : List (Slice g t)}

/-- A narrowed operator looks up no more than before. -/
theorem originated_subset {required : List Nat} {op op' : Operator} {natural : Schema}
    {cols : Columns} (h : op.Narrowed required op' ws natural cols) :
    ∀ u ∈ Solver.originated op', u ∈ Solver.originated op := by
  cases h with
  | cogroup h =>
    rw [h.same]
    exact fun u hu => hu
  | union h =>
    intro u hu
    obtain ⟨f, hf, rfl⟩ := List.mem_map.mp hu
    obtain ⟨p, -, hp⟩ := mem_of_right h.fields hf
    exact List.mem_map.mpr ⟨f, List.mem_of_getElem? hp, rfl⟩
  | _ => exact fun u hu => hu

theorem fewer (h : Narrowing required ws p p') : Solver.Fewer p p' := by
  intro u id hid
  obtain ⟨n', hn', hid⟩ := List.mem_filterMap.mp hid
  obtain ⟨i, hi'⟩ := List.mem_iff_getElem?.mp hn'
  have hlt : i < p.nodes.length := h.length ▸ (List.getElem?_eq_some_iff.mp hi').1
  obtain ⟨_, _, _, _, _, _, -, -, -, hnode⟩ := h.node i _ n' (List.getElem?_eq_getElem hlt) hi'
  split at hid
  · rename_i hu
    cases hid
    refine List.mem_filterMap.mpr ⟨p.nodes[i], List.getElem_mem hlt, ?_⟩
    rw [if_pos, hnode.id]
    have := originated_subset hnode.op u (by simpa using hu)
    simpa using this
  · cases hid

theorem consumersOf_eq (h : Narrowing required ws p p') (id : Nat) :
    p'.consumersOf id = p.consumersOf id := by
  have hnodes : Forall₂ (fun n n' => n'.inputs = n.inputs ∧ n'.id = n.id) p.nodes p'.nodes :=
    forall₂_of_getElem? h.length.symm fun i n n' hn hn' => by
      obtain ⟨_, _, _, _, _, _, -, -, -, hnode⟩ := h.node i n n' hn hn'
      exact ⟨hnode.inputs, hnode.id⟩
  unfold consumersOf
  generalize p.nodes = nodes at hnodes
  generalize p'.nodes = nodes' at hnodes
  induction hnodes with
  | nil => rfl
  | cons hn _ ih => rw [List.flatMap_cons, List.flatMap_cons, ih, hn.1, hn.2]

theorem sinks_eq (h : Narrowing required ws p p') : p'.sinks = p.sinks := by
  unfold sinks
  rw [h.length]
  exact List.filter_congr fun id _ => by rw [h.consumersOf_eq]

/-- Nothing is removed from a sink. -/
theorem whole_of_sink (h : Narrowing required ws p p') (hclosed : p.Closed required t)
    {id : Nat} (hid : id ∈ p.sinks) {w : Slice g t} (hw : ws[id]? = some w) : w.Whole := by
  obtain ⟨n, n', hn, hn', hold, -, w₀, _, _, _, _, _, hw₀, -, -, hnode⟩ := h.slice_at hw
  rw [hw] at hw₀
  cases hw₀
  refine ⟨fun i hi => hnode.keeps i (hold ▸ hi) ?_, fun f hf d hd => ?_⟩
  · rw [hclosed.sinks id hid]
    rfl
  · exact hclosed.sinkParts id hid n hn d (Schema.mem_wholeDemands.mpr ⟨f, hold ▸ hf, hd⟩)

/-- The analysis of the narrowed plan starts in the state that mirrors the
first. -/
theorem mirrors_start (h : Narrowing required ws p p') (hclosed : p.Closed required t)
    (t₀ : Trackers) : (Solver.start p t₀).Mirrors ws (Solver.start p' t₀) := by
  have hparts : ∀ id ∈ p.sinks, ((p'.nodes[id]?).map fun n => Schema.wholeDemands n.schema) =
      (p.nodes[id]?).map fun n => Schema.wholeDemands n.schema := by
    intro id hid
    cases hn : p.nodes[id]? with
    | none =>
      rw [List.getElem?_eq_none_iff] at hn
      rw [List.getElem?_eq_none (h.length ▸ hn)]
    | some n =>
      obtain ⟨n', -, hn', -⟩ := h.node_at hn
      obtain ⟨w, _, _, _, _, _, hw, -, -, hnode⟩ := h.node id n n' hn hn'
      have hwhole := h.whole_of_sink hclosed hid hw
      rw [hn', Option.map_some, Option.map_some, ← hnode.new, ← hnode.old,
        Slice.wholeDemands_row hwhole.all hwhole.reads]
  refine ⟨by simp [Solver.start, h.length], fun id w hw => ?_, ?_, fun id hid => ?_, ?_⟩
  · rw [Solver.start_requiredOf, Solver.start_requiredOf, h.sinks_eq]
    split
    · exact .all
    · exact .none
  · unfold Solver.start
    simp only [h.sinks_eq]
    generalize p.sinks = ids at hparts
    induction ids generalizing t₀ with
    | nil => rfl
    | cons id ids ih =>
      rw [List.foldl_cons, List.foldl_cons, hparts id (List.mem_cons_self ..)]
      exact ih _ fun x hx => hparts x (List.mem_cons_of_mem _ hx)
  · simpa [Solver.start, h.length] using hid
  · simp [Solver.start, List.pairwise_reverse, List.pairwise_lt_range]

/-- The analysis of a narrowed plan finds the same about parts, and requires the
same of every node, at the new positions. -/
theorem solve {r : Requirements} {ws : List (Slice g r.trackers)}
    (h : Narrowing r.required ws p p') (hcheck : p.check = .ok ()) (hcheck' : p'.check = .ok ())
    {t₀ : Trackers} {retain : Bool} (hsolve : p.solve t₀ retain = .ok r) :
    ∃ r', p'.solve t₀ retain = .ok r' ∧ r'.trackers = r.trackers ∧
      ∀ id w, ws[id]? = some w →
        (r.required.getD id .none).Moved w.kept (r'.required.getD id .none) := by
  have hclosed := closed_of_solve (inPlace_of_check hcheck) hsolve
  obtain ⟨s, hreach, rfl⟩ := reaches_of_solve hsolve
  obtain ⟨s', hreach', hm⟩ := Solver.mirrors_reaches h h.fewer hcheck hcheck' hreach
    (Solver.invariant_start p t₀ retain) (Solver.invariant_start p' t₀ retain)
    (h.mirrors_start hclosed t₀) (fun x => Required.covers_refl _) (Trackers.le_refl _)
  exact ⟨_, solve_of_reaches hreach', hm.trackers, hm.required⟩

end Plan.Narrowing

end Dataflow
