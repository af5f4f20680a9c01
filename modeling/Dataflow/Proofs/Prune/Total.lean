import Dataflow.Proofs.Prune.Outcome
import Dataflow.Proofs.Requirement.Progress

/-!
# Runs that cannot fail

A run has many ways to fail: the analysis may meet a field that does not exist,
the pass a reference to a column that is gone, the second check a plan that is
no longer consistent, the report a load that is no longer there. On a plan whose
expressions are in range, none of them is ever taken (`Plan.exists_prune`).
-/

namespace Dataflow

open List (Forall₂)

namespace Plan

variable {p p' : Plan}

/-- In every schema of the plan, inner columns that share an identity have one
type. -/
def SharesTypes (p : Plan) : Prop := ∀ n ∈ p.nodes, n.schema.SharesTypes

instance (p : Plan) : Decidable p.SharesTypes :=
  inferInstanceAs (Decidable (∀ n ∈ p.nodes, n.schema.SharesTypes))

/-- What a load of a consistent plan exposes. -/
theorem exposes_of_load (hcheck : p.check = .ok ()) {n : Node} (hn : n ∈ p.nodes) {l : Load}
    (hl : n.op = .load l) :
    Forall₂ (fun m f => l.source.schema[m]? = some f) n.exposed n.schema := by
  obtain ⟨id, hid⟩ := List.mem_iff_getElem?.mp hn
  obtain ⟨inputs, natural, hc⟩ := check_ok.mp hcheck id n hid
  have hnatural := hc.natural_eq
  rw [hl] at hnatural
  cases hnatural
  exact Node.exposes_of_part hc.exposed

/-- The loads of a consistent plan expose fields of their sources. -/
theorem exposesSource_of_check (hcheck : p.check = .ok ()) : ∀ n ∈ p.nodes, n.ExposesSource := by
  intro n hn l hl q hq
  obtain ⟨f, -, hf⟩ := mem_of_left (exposes_of_load hcheck hn hl) hq
  exact (List.getElem?_eq_some_iff.mp hf).1

/-- The exposures of a plan are those of its own nodes. -/
theorem exposures_bounded (hp : p.InPlace) {x : Nat × List Nat}
    (hx : x ∈ Diagnostics.exposures p) : x.1 < p.nodes.length := by
  obtain ⟨n, -, hn, -, -⟩ := (Diagnostics.mem_exposures hp).mp (show (x.1, x.2) ∈ _ from hx)
  exact (List.getElem?_eq_some_iff.mp hn).1

/-- A plan whose expressions name existing columns, and whose inner columns have
one type for each identity, is pruned without an error. -/
theorem exists_prune (hp : p.Made) (hrange : p.inRange = true) (htypes : p.SharesTypes)
    (config : Config) : ∃ outcome, (p.prune config).result = .ok outcome := by
  have hcheck := hp.check
  have hplace := inPlace_of_check hcheck
  obtain ⟨r, hsolve⟩ := exists_solve hcheck hrange (.empty config.mapKeys) config.retainOne
  have hclosed := closed_of_solve hplace hsolve
  obtain ⟨p', changed, ws, hproject, hnar⟩ := exists_narrowing_of_coherent hcheck hclosed
    (fun n hn => (htypes n hn).coherent "") (Or.inl hrange)
  have hcheck' := hnar.check hcheck
  rw [prune_eq hcheck hsolve hproject hcheck']
  refine exists_finishPrune (fun x hx => ?_) (exposesSource_of_check hcheck')
  rw [hnar.length]
  exact exposures_bounded hplace hx

end Plan

/-! ## A plan of visits -/

namespace Builder

/-- Visits of pages: their users with the pages that they saw, and pairs of
visits of one user. -/
def visits : Builder := empty
  |>.after (schema [("user", .scalar .chararray), ("page", .scalar .chararray),
      ("facts", .map (.scalar .int))])
  |>.after (load "A" "visits" [⟨"user", .scalar .chararray, ⟨0⟩⟩, ⟨"page", .scalar .chararray, ⟨1⟩⟩,
      ⟨"facts", .map (.scalar .int), ⟨2⟩⟩] none)
  |>.after (filter "B" ⟨0, none⟩ (.not (.isNull (.column 1))))
  |>.after (cogroup "G" [(⟨1, none⟩, [.column 0], false)])
  |>.after (forEach "F" ⟨2, none⟩ [(.column 0, false), (.select (.column 1) [1], false)])
  |>.after (join "J" [(⟨0, none⟩, [.column 0]), (⟨0, none⟩, [.column 0])] .inner .hash)
  |>.after (forEach "H" ⟨4, none⟩ [(.column 4, false), (.lookup (.column 2) "lang", false)])

theorem visits_made : visits.plan.Made :=
  .built (b := visits)
    (.step (.step (.step (.step (.step (.step (.step .empty (.schema _)) (.load ..)) (.filter ..))
      (.cogroup ..)) (.forEach ..)) (.join ..)) (.forEach ..)) rfl

end Builder

theorem Plan.exists_prune_visits : Builder.visits.plan.inRange = true ∧
    Builder.visits.plan.SharesTypes ∧
    ∃ outcome, (Builder.visits.plan.prune {}).result = .ok outcome :=
  ⟨by decide, by decide, Plan.exists_prune Builder.visits_made (by decide) (by decide) {}⟩

end Dataflow
