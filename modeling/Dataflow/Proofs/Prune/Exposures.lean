import Dataflow.Proofs.Prune.Total

/-!
# What loads expose

The positions that a load exposes are positions of its source, so they mean the
same before and after a run, whatever is renumbered in the plan. A run leaves every
load its source and some of its positions, in the order in which they were
(`Plan.sheds_of_prune`). In a plan that was built and then pruned any number of
times they are ascending (`Plan.Made.ascends`).
-/

namespace Dataflow

open List (Forall₂)

/-! ## Lists of positions -/

/-- Members that are picked at ascending places. -/
theorem sublist_of_getElem? {α : Type} {ks : List Nat} {xs ys : List α}
    (hks : ks.Pairwise (· < ·)) (h : Forall₂ (fun k y => xs[k]? = some y) ks ys) :
    ys.Sublist xs := by
  -- The places from `d` on pick from the part of the list from `d` on.
  have hdrop : ∀ d, (∀ k ∈ ks, d ≤ k) → ys.Sublist (xs.drop d) := by
    induction h with
    | nil => exact fun d _ => List.nil_sublist _
    | @cons k y ks ys hy _ ih =>
      intro d hd
      obtain ⟨hk, hks⟩ := List.pairwise_cons.mp hks
      have hrest : ys.Sublist (xs.drop (k + 1)) := ih hks (k + 1) fun k' hk' => hk k' hk'
      have hcons : (y :: ys).Sublist (xs.drop k) := by
        rw [drop_eq_cons.mpr ⟨hy, rfl⟩]
        exact hrest.cons_cons y
      exact hcons.trans (List.drop_sublist_drop_left xs (hd k (List.mem_cons_self ..)))
  exact hdrop 0 fun _ _ => Nat.zero_le _

/-- Positions that ascend are in order already. -/
theorem Diagnostics.ascending_eq {ps : List Nat} (h : ps.Pairwise (· < ·)) : ascending ps = ps := by
  have hback : ∀ (x : Nat) (ys : List Nat), (∀ y ∈ ys, y < x) →
      insertBack (fun a b => decide (a < b)) x ys = x :: ys := by
    intro x ys hys
    cases ys with
    | nil => rfl
    | cons y ys =>
      have hlt := hys y (List.mem_cons_self ..)
      rw [insertBack, if_neg (by simpa using Nat.le_of_lt hlt)]
  have hfold : ∀ (xs acc : List Nat), xs.Pairwise (· < ·) → (∀ x ∈ xs, ∀ y ∈ acc, y < x) →
      xs.foldl (fun acc x => insertBack (fun a b => decide (a < b)) x acc) acc =
        xs.reverse ++ acc := by
    intro xs
    induction xs with
    | nil => exact fun acc _ _ => rfl
    | cons x xs ih =>
      intro acc hxs hacc
      obtain ⟨hx, hxs⟩ := List.pairwise_cons.mp hxs
      rw [List.foldl_cons, hback x acc (hacc x (List.mem_cons_self ..)), ih (x :: acc) hxs,
        List.reverse_cons, List.append_assoc]
      · rfl
      · intro z hz y hy
        rcases List.mem_cons.mp hy with rfl | hy
        · exact hx z hz
        · exact hacc z (List.mem_cons_of_mem _ hz) y hy
  rw [ascending, stableSort, hfold ps [] h (fun _ _ => nofun), List.append_nil,
    List.reverse_reverse]

/-! ## Nodes -/

def Node.source? (n : Node) : Option Source :=
  match n.op with
  | .load l => some l.source
  | _ => none

def Node.isLoad (n : Node) : Bool := n.source?.isSome

/-- What a run makes of a node, as far as it is a load: it reads the same source, and
exposes some of the positions that it did. -/
structure Node.Sheds (n n' : Node) : Prop where
  label : n'.label = n.label
  source : n'.source? = n.source?
  exposed : n.isLoad = true → n'.exposed.Sublist n.exposed

namespace Node

variable {n n' n'' : Node}

theorem source?_load {l : Load} (h : n.op = .load l) : n.source? = some l.source := by
  unfold source?
  rw [h]

theorem isLoad_iff : n.isLoad = true ↔ ∃ l, n.op = .load l := by
  unfold isLoad source?
  cases n.op with
  | load l => exact ⟨fun _ => ⟨l, rfl⟩, fun _ => rfl⟩
  | _ => exact ⟨nofun, nofun⟩

theorem Sheds.isLoad (h : n.Sheds n') : n'.isLoad = n.isLoad := by
  unfold Node.isLoad
  rw [h.source]

theorem Sheds.trans (h : n.Sheds n') (h' : n'.Sheds n'') : n.Sheds n'' where
  label := h'.label.trans h.label
  source := h'.source.trans h.source
  exposed hn := (h'.exposed (by rw [h.isLoad]; exact hn)).trans (h.exposed hn)

theorem Rerecorded.sheds (h : n.Rerecorded n') : n.Sheds n' where
  label := by cases h <;> rfl
  source := by
    cases h with
    | same => rfl
    | load hn hl => rw [source?_load hn, source?_load rfl, hl]
  exposed _ := by rw [h.exposed_eq]

/-- A load has its name from its label or its source. -/
theorem Sheds.displayName (h : n.Sheds n') (hn : n.isLoad = true) :
    n'.displayName = n.displayName := by
  obtain ⟨l, hl⟩ := isLoad_iff.mp hn
  obtain ⟨l', hl'⟩ := isLoad_iff.mp (h.isLoad.trans hn)
  have hsource := h.source
  rw [source?_load hl, source?_load hl'] at hsource
  unfold Node.displayName
  rw [h.label, hl, hl']
  cases n.label with
  | some label => rfl
  | none => exact congrArg Source.location (Option.some.inj hsource)

end Node

/-- Narrowing picks from the positions that a load exposes. -/
theorem Projected.exposed_of_load {n : Node} {keep : List Nat} {ins : List Narrowed}
    {proj : Projected} {l : Load} (hl : n.op = .load l)
    (h : Projected.ofAny n keep ins = .ok proj) :
    proj.op.getD n.op = .load l ∧
      Forall₂ (fun k q => n.exposed[k]? = some q) keep (proj.apply n).exposed := by
  have h : (do
      let projection ← exposing n ((List.range l.source.schema.length).map some) keep
      let schema ← Schema.project l.source.schema projection
      return ⟨none, schema, if decide (projection = List.range l.source.schema.length) then none
        else some projection, keep⟩) = Except.ok proj := by
    unfold ofAny ofNode at h
    simp only [hl] at h
    exact h
  obtain ⟨projection, hexposing, h⟩ := bind_ok h
  obtain ⟨schema, hschema, h⟩ := bind_ok h
  cases h
  have hexposed : (apply ⟨none, schema, if decide (projection = List.range l.source.schema.length)
      then none else some projection, keep⟩ n).exposed = projection := by
    unfold Node.exposed apply
    simp only
    split
    · rename_i hwhole
      rw [Option.getD_none, (mapM_ok.mp hschema).length_eq.symm, of_decide_eq_true hwhole,
        List.length_range]
    · rfl
  refine ⟨hl, ?_⟩
  rw [hexposed]
  refine (mapM_ok.mp hexposing).imp fun k q hq => ?_
  split at hq
  · cases hq
  · rename_i m hm
    -- A load's natural output does not move.
    split at hq
    · rename_i q' hq'
      cases hq
      obtain ⟨r, hr, heq⟩ := Option.map_eq_some_iff.mp
        ((List.getElem?_map ..).symm.trans (Option.join_eq_some_iff.mp hq'))
      cases heq
      obtain ⟨hlt, hr⟩ := List.getElem?_eq_some_iff.mp hr
      rw [hm, ← hr, List.getElem_range]
    · cases hq

theorem Projected.sheds {n : Node} {keep : List Nat} {ins : List Narrowed} {proj : Projected}
    (h : Projected.ofAny n keep ins = .ok proj) (hkeep : keep.Pairwise (· < ·)) :
    n.Sheds (proj.apply n) where
  label := rfl
  source := by
    unfold Node.source?
    cases hn : n.op with
    | load l => rw [show (proj.apply n).op = .load l from (exposed_of_load hn h).1]
    | _ =>
      split
      · rename_i l hl
        rw [load_of_ofAny h hl] at hn
        cases hn
      · rfl
  exposed hn := by
    obtain ⟨l, hl⟩ := Node.isLoad_iff.mp hn
    exact sublist_of_getElem? hkeep (exposed_of_load hl h).2

/-! ## Runs -/

namespace Plan

variable {p : Plan} {config : Config} {outcome : PruneOutcome}

theorem sheds_of_project {p' : Plan} {required : List Required} {changed : Bool}
    (hset : ∀ id, (required.getD id .none).Ascending)
    (h : p.project required = (p', .ok changed)) : Forall₂ Node.Sheds p.nodes p'.nodes := by
  refine forall₂_of_getElem? (project_length h).symm fun i n n' hn hn' => ?_
  obtain ⟨_, keep, ins, proj, hstep, rfl⟩ := project_at h hn hn'
  obtain ⟨r, hr, hkeep⟩ := hstep.requires
  have hasc := hset i
  rw [List.getD_eq_getElem?_getD, hr] at hasc
  exact Projected.sheds hstep.ok (Required.resolve_ok hasc hkeep).1

/-- A run leaves every load its source and some of its positions. -/
theorem sheds_of_prune (h : (p.prune config).result = .ok outcome) :
    Forall₂ Node.Sheds p.nodes (p.prune config).plan.nodes := by
  obtain ⟨r, p', changed, hcheck, hsolve, hproject, -, -, hfin⟩ := finished_of_prune h
  have hclosed := closed_of_solve (inPlace_of_check hcheck) hsolve
  have hsheds := sheds_of_project (fun id => (hclosed.proper id).ascending) hproject
  refine forall₂_of_getElem? (hsheds.length_eq.trans hfin.length_eq) fun i n n'' hn hn'' => ?_
  obtain ⟨n', hn', hf⟩ := getElem?_of_right hfin hn''
  obtain ⟨n₀, hn₀, hs⟩ := getElem?_of_right hsheds hn'
  rw [hn] at hn₀
  cases hn₀
  exact hs.trans hf.rerecorded.sheds

/-- The end of a run that succeeded, with what was offered and found. -/
theorem ended_of_prune (h : (p.prune config).result = .ok outcome) :
    ∃ r p' changed nodes os ds, p.check = .ok () ∧
      p.solve (.empty config.mapKeys) config.retainOne = .ok r ∧
      p.project r.required = (p', .ok changed) ∧ p'.check = .ok () ∧
      offered config r.trackers p' = (nodes, os, .ok ()) ∧
      Diagnostics.report (config.tracked r.trackers) (Diagnostics.exposures p) ⟨nodes⟩ =
        ((p.prune config).plan, .ok ds) ∧
      outcome.diagnostics = (if config.diagnostics then ds else []) ∧
      (p.prune config).offers = os.offers := by
  obtain ⟨r, p', changed, hcheck, hsolve, hproject, hcheck', heq⟩ := prune_ok h
  rw [heq] at h ⊢
  obtain ⟨-, nodes, os, ds, ho, hr⟩ := finishPrune_parts h
  refine ⟨r, p', changed, nodes, os, ds, hcheck, hsolve, hproject, hcheck', ho, hr, ?_, ?_⟩
  · rw [(finishPrune_eq changed ho hr).2] at h
    cases h
    rfl
  · unfold offered at ho
    unfold Config.tracked at ho hr
    unfold finishPrune
    simp only [ho, hr]

theorem rerecorded_of_offered {t : Trackers} {nodes : List Node} {os : Offers}
    (h : offered config t p = (nodes, os, .ok ())) : Forall₂ Node.Rerecorded p.nodes nodes := by
  unfold offered at h
  split at h
  · refine (Pushdown.offerNodes_ok h).imp fun _ _ hn => ?_
    obtain ⟨_, _, ho⟩ := hn
    exact Pushdown.rerecorded_of_offer ho
  · cases h
    exact List.forall₂_same.mpr fun _ _ => .same

/-- The loads of a plan expose positions in ascending order. -/
def Ascends (p : Plan) : Prop :=
  ∀ n ∈ p.nodes, n.isLoad = true → n.exposed.Pairwise (· < ·)

theorem Ascends.sheds {p' : Plan} (hp : p.Ascends) (h : Forall₂ Node.Sheds p.nodes p'.nodes) :
    p'.Ascends := by
  intro n' hn' hsome
  obtain ⟨n, hn, hs⟩ := mem_of_right h hn'
  rw [hs.isLoad] at hsome
  exact (hp n hn hsome).sublist (hs.exposed hsome)

theorem Made.ascends (h : p.Made) : p.Ascends := by
  induction h with
  | built hb h =>
    intro n hn _
    obtain ⟨_, -, h⟩ := bind_ok h
    cases h
    obtain ⟨id, hid⟩ := List.mem_iff_getElem?.mp hn
    obtain ⟨inputs, hfits⟩ := hb.grown id n hid
    rw [Node.exposed, hfits.projection_eq]
    exact List.pairwise_lt_range
  | pruned _ h ih => exact ih.sheds (sheds_of_prune h)

end Plan

end Dataflow
