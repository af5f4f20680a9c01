import Dataflow.Proofs.Execution.Outputs
import Dataflow.Proofs.Prune.Twice

/-!
# Pruning keeps results

A plan and what a pruning run makes of it have the same result on every table:
the same rows in the same order for every sink, whose schemas do not change
either (`Plan.run_prune`). The pruned plan is the narrowed plan with other
records on its loads, and those matter only to a run that restricts map keys.

The inner columns of a bag are found again by their identity, so the identities
inside a bag or tuple have to be distinct.
-/

namespace Dataflow

open List (Forall₂)

/-- A run without a restriction gives the rows of a table as they are. -/
theorem Run.loadRows_unrestricted {T : Tables} (hT : T.restrictKeys = false) (l : Load) :
    Run.loadRows T l = T.rows l.source.location := by
  unfold Run.loadRows
  rw [hT]
  cases l.mapKeys <;> rfl

namespace Plan

variable {p p' : Plan} {config : Config} {T : Tables}

/-- What an unrestricted run of a narrowed plan relies on. -/
theorem Narrowing.supplied {g : String → String} {t : Trackers} {required : List Required}
    {ws : List (Slice g t)} {outs : List Output} (h : Narrowing required ws p p')
    (hbags : p.BagPerInput) (hdistinct : ∀ n ∈ p.nodes, n.schema.DistinctInside)
    (hT : T.restrictKeys = false) (hconf : ∀ n ∈ p.nodes, Run.nodeConforms T p outs n = true) :
    Supplied false ws p p' T T outs := by
  refine ⟨hbags, fun n _ ins hins x _ w hw => ?_, fun id n n' l l' hn hn' hl hl' => ?_, hconf⟩
  · obtain ⟨e, -, hwe⟩ := getElem?_of_right hins hw
    obtain ⟨m, -, hm, -, hold, -⟩ := h.slice_at hwe
    refine Reads.exact_of_distinct ?_ _
    rw [hold]
    exact hdistinct m (List.mem_of_getElem? hm)
  · obtain ⟨w, ins, keep, req, natural, cols, -, -, -, hnode⟩ := h.node id n n' hn hn'
    have hsource : l'.source = l.source := by
      have hop := hnode.op
      rw [hl, hl'] at hop
      cases hop with
      | load hsource => exact hsource
    rw [Run.loadRows_unrestricted hT, Run.loadRows_unrestricted hT, hsource]
    refine List.forall₂_same.mpr fun row hrow => Row.Kept.all ?_
    exact Run.nodeConforms_load (hconf n (List.mem_of_getElem? hn)) hl hrow

/-- Sinks are kept whole. -/
theorem Narrowing.schemaOf_sink {t : Trackers} {required : List Required}
    {ws : List (Slice (fun n => n) t)} (h : Narrowing required ws p p')
    (hclosed : p.Closed required t) {id : Nat} (hid : id ∈ p.sinks) :
    p'.schemaOf id = p.schemaOf id := by
  have hlt : id < p.nodes.length := List.mem_range.mp (List.mem_filter.mp hid).1
  obtain ⟨n', w, hn', hw⟩ := h.node_at (List.getElem?_eq_getElem hlt)
  obtain ⟨n, n'', hn, hn'', hold, hnew, -⟩ := h.slice_at hw
  rw [hn'] at hn''
  cases hn''
  have hwhole := h.whole_of_sink hclosed hid hw
  have hsame := (Slice.new_eq_of_whole hwhole.all hwhole.reads).2
  rw [Schema.mapNames_id, Schema.mapNames_id, hold, hnew] at hsame
  simp only [schemaOf, Plan.node, hn, hn']
  exact congrArg Except.ok hsame

/-- Pruning keeps the rows of every sink, and its schema. -/
theorem run_prune (hp : p.Made) (hdistinct : ∀ n ∈ p.nodes, n.schema.DistinctInside)
    (hT : T.restrictKeys = false) (hconf : p.Conforms T) {results : List (Nat × List Row)}
    (hrun : p.run T = .ok results) {outcome : PruneOutcome}
    (h : (p.prune config).result = .ok outcome) :
    (p.prune config).plan.run T = .ok results ∧
      ∀ id ∈ p.sinks, (p.prune config).plan.schemaOf id = p.schemaOf id := by
  obtain ⟨r, ws, hcheck, -, hclosed, hnar⟩ := exists_narrowing_of_prune h
    fun n hn => (hdistinct n hn).coherent fun name => name
  obtain ⟨outs, houts, hall⟩ := hconf
  have hs := hnar.supplied hp.bagPerInput hdistinct hT hall
  exact ⟨(hnar.run_eq hcheck hclosed hs houts).trans hrun,
    fun id hid => hnar.schemaOf_sink hclosed hid⟩

/-- A run can be watched for the declared shapes. -/
theorem conforms_of_all (h : (Run.outputs T p).toOption.any
    (fun outs => p.nodes.all (Run.nodeConforms T p outs)) = true) : p.Conforms T := by
  cases houts : Run.outputs T p with
  | error e => rw [houts] at h; cases h
  | ok outs =>
    rw [houts] at h
    exact ⟨outs, houts, List.all_eq_true.mp h⟩

end Plan

namespace Builder

def visitTables : Tables where
  tables := [("visits",
    [[.str "u", .str "a", .map [("lang", .int 7), ("port", .int 80)]],
     [.str "u", .str "b", .map [("port", .int 81)]],
     [.str "v", .null, .map []]])]
  restrictKeys := false

end Builder

theorem Plan.run_prune_visits : ∃ results,
    Builder.visits.plan.run Builder.visitTables = .ok results ∧
    results.map (fun x => (x.1, x.2.length)) = [(3, 1), (5, 5)] ∧
    (Builder.visits.plan.prune {}).plan.run Builder.visitTables = .ok results ∧
    ∀ id ∈ Builder.visits.plan.sinks,
      (Builder.visits.plan.prune {}).plan.schemaOf id = Builder.visits.plan.schemaOf id := by
  obtain ⟨results, hrun, hcounts⟩ := Option.map_eq_some_iff.mp
    (show (Builder.visits.plan.run Builder.visitTables).toOption.map
      (List.map fun x => (x.1, x.2.length)) = some [(3, 1), (5, 5)] by decide +kernel)
  have hconf : Builder.visits.plan.Conforms Builder.visitTables :=
    Plan.conforms_of_all (by decide +kernel)
  exact ⟨results, Plan.toOption_some hrun, hcounts,
    Plan.run_prune Builder.visits_made (by decide) rfl hconf (Plan.toOption_some hrun)
      Builder.visits_pruned⟩

end Dataflow
