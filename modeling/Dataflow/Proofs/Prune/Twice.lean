import Dataflow.Proofs.Narrowing.Fixed
import Dataflow.Proofs.Prune.Total

/-!
# A second run

Running the pass again on the plan that it left changes nothing and has nothing
to report (`Plan.prune_prune`). The second analysis finds what the first found,
the narrowed plan is not narrowed any further, and what is recorded on the loads
is recorded already.
-/

namespace Dataflow

open List (Forall₂)

variable {g : String → String} {t : Trackers}

/-! ## Records -/

theorem Node.Finished.offer_again {config : Config} {n n' : Node} (h : n.Finished config t n')
    (hp : config.pushdown = true) (id : Nat) :
    ∃ o, Pushdown.offerNode id n' (config.tracked t) = .ok (n', o) := by
  obtain ⟨n₁, hoffer, before, ds, hreport⟩ := h
  rw [if_pos hp] at hoffer
  obtain ⟨id₀, o, ho⟩ := hoffer
  exact Pushdown.offerNode_again ho hreport id

theorem Node.Finished.report_again {config : Config} {n n' : Node} (h : n.Finished config t n') :
    Diagnostics.reportNode n' n'.exposed (config.tracked t) = .ok (n', []) := by
  by_cases hl : ∃ l, n'.op = .load l
  · obtain ⟨l, hl⟩ := hl
    exact Diagnostics.reportNode_again hl (h.keys hl)
  · exact Diagnostics.reportNode_other fun l hn => hl ⟨l, hn⟩

namespace Plan

variable {p p' p₂ : Plan} {config : Config}

/-- The end of a run on a plan that a run with the same findings left. -/
theorem finishPrune_again {r : Requirements} (hplace : p₂.InPlace)
    (h : Forall₂ (Node.Finished config r.trackers) p'.nodes p₂.nodes) :
    ∃ outcome, (finishPrune config (Diagnostics.exposures p₂) r false p₂).result = .ok outcome ∧
      outcome.changed = false ∧ outcome.diagnostics = [] ∧
      (finishPrune config (Diagnostics.exposures p₂) r false p₂).plan = p₂ := by
  obtain ⟨os, hoffers⟩ : ∃ os, offered config r.trackers p₂ = (p₂.nodes, os, .ok ()) := by
    unfold offered
    split
    · rename_i hp
      refine Pushdown.exists_offers (List.forall₂_same.mpr fun n' hn' id => ?_) 0
      obtain ⟨n, -, hn⟩ := mem_of_right h hn'
      exact hn.offer_again hp id
    · exact ⟨_, rfl⟩
  have hreport : Diagnostics.report (config.tracked r.trackers) (Diagnostics.exposures p₂) p₂ =
      (p₂, .ok []) := by
    refine Diagnostics.report_self fun x hx => ?_
    obtain ⟨n', l, hn', -, hbefore⟩ :=
      (Diagnostics.mem_exposures hplace).mp (show (x.1, x.2) ∈ _ from hx)
    obtain ⟨n, -, hn⟩ := getElem?_of_right h hn'
    rw [hbefore]
    exact ⟨n', hn', hn.report_again⟩
  obtain ⟨hplan, hresult⟩ := finishPrune_eq false hoffers hreport
  exact ⟨_, hresult, rfl, by cases config.diagnostics <;> rfl, hplan⟩

/-- Records on the loads do not matter for the relation. -/
theorem Narrowing.rerecorded {required : List Required} {ws : List (Slice g t)}
    (h : Narrowing required ws p p') (hre : Forall₂ Node.Rerecorded p'.nodes p₂.nodes) :
    Narrowing required ws p p₂ := by
  refine ⟨hre.length_eq.symm.trans h.length, h.slices, fun id n n₂ hn hn₂ => ?_⟩
  obtain ⟨n', hn', hsame⟩ := getElem?_of_right hre hn₂
  obtain ⟨w, ins, keep, req, natural, cols, hw, hins, hready, hnode⟩ := h.node id n n' hn hn'
  refine ⟨w, ins, keep, req, natural, cols, hw, hins, hready, ?_⟩
  cases hsame with
  | same => exact hnode
  | @load l l' hl hsource =>
    have hop := hnode.op
    rw [hl] at hop
    have hnatural : Operator.natural (.load l') (ins.map Slice.new) =
        n'.op.natural (ins.map Slice.new) := by
      rw [hl]
      exact congrArg (fun s : Source => (Except.ok s.schema : Except Error Schema)) hsource
    refine ⟨hnode.id, hnode.label, hnode.inputs, hnode.old, hnode.new, ?_, hnode.exposes,
      hnode.required, hnode.keeps, hnode.exact, fun natural' hnat => ?_, fun id natural' hnat => ?_⟩
    · generalize n.op = op at hop
      cases hop with
      | load h => exact .load (hsource.trans h)
    · exact hnode.projection natural' (hnatural ▸ hnat)
    · have := hnode.part id natural' (hnatural ▸ hnat)
      unfold exposedPart at this ⊢
      rw [hl] at this
      exact this

/-- The narrowed plan of a run that succeeded, with the records that the run left
on it. -/
theorem exists_narrowing_of_prune {outcome : PruneOutcome} {g : String → String}
    (h : (p.prune config).result = .ok outcome) (hs : ∀ n ∈ p.nodes, Schema.Coherent g n.schema) :
    ∃ r, ∃ ws : List (Slice g r.trackers), p.check = .ok () ∧
      p.solve (.empty config.mapKeys) config.retainOne = .ok r ∧
      p.Closed r.required r.trackers ∧ Narrowing r.required ws p (p.prune config).plan := by
  obtain ⟨r, p', changed, hcheck, hsolve, hproject, -, -, hfin⟩ := finished_of_prune h
  have hclosed := closed_of_solve (inPlace_of_check hcheck) hsolve
  obtain ⟨p₀, changed₀, ws, hproject₀, hnar⟩ := exists_narrowing_of_coherent hcheck hclosed hs
    (Or.inr ⟨changed, by rw [hproject]⟩)
  rw [hproject] at hproject₀
  cases hproject₀
  exact ⟨r, ws, hcheck, hsolve, hclosed, hnar.rerecorded (hfin.imp fun _ _ h => h.rerecorded)⟩

/-- What a run finds in the plan that a run with the same settings left: the same
keys and columns, and the requirements that narrowing left. -/
theorem exists_solve_of_prune (htypes : p.SharesTypes) {outcome : PruneOutcome}
    (h : (p.prune config).result = .ok outcome) :
    ∃ r r', ∃ ws : List (Slice (fun _ => "") r.trackers),
      p.check = .ok () ∧ p.solve (.empty config.mapKeys) config.retainOne = .ok r ∧
      (p.prune config).plan.check = .ok () ∧
      (p.prune config).plan.solve (.empty config.mapKeys) config.retainOne = .ok r' ∧
      r'.trackers = r.trackers ∧ Narrowing r.required ws p (p.prune config).plan ∧
      (∀ id, (r.required.getD id .none).Proper) ∧
      (∀ id w, ws[id]? = some w →
        (r.required.getD id .none).Moved w.kept (r'.required.getD id .none)) ∧
      ∃ p' : Plan,
        Forall₂ (Node.Finished config r.trackers) p'.nodes (p.prune config).plan.nodes := by
  obtain ⟨r, ws, hcheck, hsolve, hclosed, hnar⟩ := exists_narrowing_of_prune h
    fun n hn => (htypes n hn).coherent ""
  obtain ⟨r₀, p', changed, -, hsolve₀, -, hcheck', -, hfin⟩ := finished_of_prune h
  obtain rfl : r = r₀ := Except.ok.inj (hsolve.symm.trans hsolve₀)
  have hcheck₂ := check_rerecorded (hfin.imp fun _ _ h => h.rerecorded) hcheck'
  obtain ⟨r', hsolve', htrackers, hmoved⟩ := hnar.solve hcheck hcheck₂ hsolve
  exact ⟨r, r', ws, hcheck, hsolve, hcheck₂, hsolve', htrackers, hnar, hclosed.proper, hmoved, p',
    hfin⟩

/-- A second run with the same settings succeeds, changes nothing, and reports
nothing. -/
theorem prune_prune (htypes : p.SharesTypes) {outcome : PruneOutcome}
    (h : (p.prune config).result = .ok outcome) :
    ∃ outcome', ((p.prune config).plan.prune config).result = .ok outcome' ∧
      outcome'.changed = false ∧ outcome'.diagnostics = [] ∧
      ((p.prune config).plan.prune config).plan = (p.prune config).plan := by
  obtain ⟨r, r', ws, -, -, hcheck₂, hsolve', htrackers, hnar, hproper, hmoved, p', hfin⟩ :=
    exists_solve_of_prune htypes h
  generalize (p.prune config).plan = p₂ at *
  have hclosed' := closed_of_solve (inPlace_of_check hcheck₂) hsolve'
  have hproject' := hnar.project_self hcheck₂ hproper hmoved hclosed'.length
  rw [prune_eq hcheck₂ hsolve' hproject' hcheck₂]
  rw [← htrackers] at hfin
  exact finishPrune_again (inPlace_of_check hcheck₂) hfin

end Plan

theorem Builder.visits_pruned : (visits.plan.prune {}).result =
    .ok ⟨true, [.mapKeysRequired "A" [(2, ["lang"])]], [], 6⟩ :=
  Plan.result_of_within 6 (by decide +kernel)

theorem Plan.prune_prune_visits : Builder.visits.plan.SharesTypes ∧
    ∃ outcome', ((Builder.visits.plan.prune {}).plan.prune {}).result = .ok outcome' ∧
      outcome'.changed = false ∧ outcome'.diagnostics = [] ∧
      ((Builder.visits.plan.prune {}).plan.prune {}).plan = (Builder.visits.plan.prune {}).plan :=
  ⟨by decide, Plan.prune_prune (by decide) Builder.visits_pruned⟩

end Dataflow
