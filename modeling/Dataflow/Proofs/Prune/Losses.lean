import Dataflow.Proofs.Prune.Exposures

/-!
# Accounting for lost positions

What a run reports about columns is exactly what its loads lost in it: one record
for each load that lost something, in the order of the plan, with the lost source
positions in ascending order (`Plan.columns_of_prune`). Since loads never get a
position back, the records of several runs, whatever their settings, list every
position that was lost between the first and the last exactly once
(`Plan.Runs.losses`).
-/

namespace Dataflow

open List (Forall₂)

/-! ## What was lost -/

/-- The source positions that a node exposes, if it is a load. -/
def Node.sourcePositions (n : Node) : List Nat := if n.isLoad then n.exposed else []

/-- The source positions that the load with a number exposes. -/
def Plan.exposedAt (p : Plan) (id : Nat) : List Nat :=
  ((p.nodes[id]?).map Node.sourcePositions).getD []

/-- The source positions that a load exposes in one plan and not in another. -/
def Plan.lostAt (p p' : Plan) (id : Nat) : List Nat :=
  (p.exposedAt id).filter fun q => !(p'.exposedAt id).contains q

/-- The record of what a load has lost. -/
def Plan.lossOf (p p' : Plan) (n : Node) : List Diagnostic :=
  if (p.lostAt p' n.id).isEmpty then [] else [.columnsPruned n.displayName (p.lostAt p' n.id)]

def Diagnostic.isColumns : Diagnostic → Bool
  | .columnsPruned .. => true
  | .mapKeysRequired .. => false

/-! ## Reports -/

namespace Diagnostics

variable {mapKeys : Option (Tracker String)} {n n' : Node} {before : List Nat}
  {ds : List Diagnostic}

theorem filter_lostColumns (n : Node) (before : List Nat) :
    (lostColumns n before).filter Diagnostic.isColumns = lostColumns n before := by
  unfold lostColumns
  simp only
  split <;> rfl

/-- The records about columns in the report of a load. -/
theorem reportNode_columns (hn : n.isLoad = true)
    (h : reportNode n before mapKeys = .ok (n', ds)) :
    ds.filter Diagnostic.isColumns = lostColumns n before := by
  obtain ⟨l, hl⟩ := Node.isLoad_iff.mp hn
  unfold reportNode at h
  rw [hl] at h
  simp only [reportLoad] at h
  split at h
  · cases h
    exact filter_lostColumns n before
  obtain ⟨fields, -, h⟩ := bind_ok h
  split at h
  · cases h
    exact filter_lostColumns n before
  split at h
  · cases h
    exact filter_lostColumns n before
  · cases h
    rw [List.filter_append, filter_lostColumns]
    exact List.append_nil _

theorem lostColumns_rerecorded (h : n.Rerecorded n') (before : List Nat) :
    lostColumns n' before = lostColumns n before := by
  unfold lostColumns
  rw [h.exposed_eq, h.displayName_eq]

/-- The records about columns in the report of a plan, said of the plan after it. -/
theorem report_columns {p p' : Plan} {entries : List (Nat × List Nat)}
    (h : report mapKeys entries p = (p', .ok ds)) (hnodup : (entries.map Prod.fst).Nodup)
    (hloads : ∀ x ∈ entries, ∀ n, p.nodes[x.1]? = some n → n.isLoad = true) :
    ds.filter Diagnostic.isColumns = entries.flatMap fun x =>
      ((p'.nodes[x.1]?).map fun n => lostColumns n x.2).getD [] := by
  induction entries generalizing p ds with
  | nil => cases h; rfl
  | cons x rest ih =>
    obtain ⟨id, before⟩ := x
    obtain ⟨hfresh, hnodup⟩ := List.nodup_cons.mp hnodup
    obtain ⟨n₀, m, d, ds₁, hn₀, hrep, hrest, rfl⟩ := report_cons h
    have hlt := (List.getElem?_eq_some_iff.mp hn₀).1
    -- The rest of the report leaves this node alone, and this step the others.
    obtain ⟨m', hm', hsame, -⟩ := (report_ok hrest hnodup).2 id m (by simp [hlt])
    rw [hsame hfresh] at hm'
    have hothers : ∀ x ∈ rest, ∀ n, (p.nodes.set id m)[x.1]? = some n →
        n.isLoad = true := fun x hx n hn => by
      refine hloads x (List.mem_cons_of_mem _ hx) n ?_
      rwa [List.getElem?_set_ne] at hn
      rintro rfl
      exact hfresh (List.mem_map.mpr ⟨x, hx, rfl⟩)
    rw [List.filter_append, List.flatMap_cons, ih hrest hnodup hothers, hm', Option.map_some,
      Option.getD_some, lostColumns_rerecorded (rerecorded_of_report hrep),
      reportNode_columns (hloads _ (List.mem_cons_self ..) n₀ hn₀) hrep]

theorem flatMap_exposures {β : Type} (p : Plan) (f : Nat × List Nat → List β) :
    (exposures p).flatMap f =
      (p.nodes.filter Node.isLoad).flatMap fun n => f (n.id, n.exposed) := by
  unfold exposures
  induction p.nodes with
  | nil => rfl
  | cons n nodes ih =>
    by_cases hn : n.isLoad = true
    · obtain ⟨l, hl⟩ := Node.isLoad_iff.mp hn
      rw [List.filterMap_cons, List.filter_cons_of_pos hn]
      simp only [hl]
      rw [List.flatMap_cons, List.flatMap_cons, ih]
    · have hnone : ∀ l, n.op ≠ .load l := fun l hl => hn (Node.isLoad_iff.mpr ⟨l, hl⟩)
      rw [List.filterMap_cons, List.filter_cons_of_neg hn]
      split
      · exact ih
      · rename_i y hy
        split at hy
        · rename_i l hl; exact absurd hl (hnone l)
        · cases hy

end Diagnostics

/-! ## One run -/

namespace Plan

variable {p p' q : Plan} {config : Config} {outcome : PruneOutcome} {id : Nat}

theorem exposedAt_of_load {n : Node} (hn : p.nodes[id]? = some n) (hload : n.isLoad = true) :
    p.exposedAt id = n.exposed := by
  rw [exposedAt, hn, Option.map_some, Option.getD_some, Node.sourcePositions, if_pos hload]

theorem exposedAt_sheds (h : Forall₂ Node.Sheds p.nodes p'.nodes) (id : Nat) :
    (p'.exposedAt id).Sublist (p.exposedAt id) := by
  unfold exposedAt
  cases hn' : p'.nodes[id]? with
  | none => exact List.nil_sublist _
  | some n' =>
    obtain ⟨n, hn, hs⟩ := getElem?_of_right h hn'
    rw [hn, Option.map_some, Option.map_some, Option.getD_some, Option.getD_some,
      Node.sourcePositions, Node.sourcePositions, hs.isLoad]
    split
    · rename_i hload; exact hs.exposed hload
    · exact .slnil

theorem exposedAt_ascending (hp : p.Ascends) (id : Nat) : (p.exposedAt id).Pairwise (· < ·) := by
  unfold exposedAt
  cases hn : p.nodes[id]? with
  | none => exact .nil
  | some n =>
    rw [Option.map_some, Option.getD_some, Node.sourcePositions]
    split
    · rename_i hload; exact hp n (List.mem_of_getElem? hn) hload
    · exact .nil

/-- What a run with diagnostics reports about columns: what each load has lost. -/
theorem columns_of_prune (hp : p.Ascends) (hd : config.diagnostics = true)
    (h : (p.prune config).result = .ok outcome) :
    outcome.diagnostics.filter Diagnostic.isColumns =
      (p.nodes.filter Node.isLoad).flatMap (p.lossOf (p.prune config).plan) := by
  obtain ⟨r, p', changed, nodes, os, ds, hcheck, hsolve, hproject, -, hoffered, hreport, hfound,
    -⟩ := ended_of_prune h
  have hplace := inPlace_of_check hcheck
  have hclosed := closed_of_solve hplace hsolve
  have hsheds := sheds_of_prune h
  have hnodes : Forall₂ Node.Sheds p.nodes nodes := by
    have hproj := sheds_of_project (fun id => (hclosed.proper id).ascending) hproject
    have hoff := rerecorded_of_offered hoffered
    refine forall₂_of_getElem? (hproj.length_eq.trans hoff.length_eq) fun i n n₁ hn hn₁ => ?_
    obtain ⟨n', hn', hs⟩ := getElem?_of_left hproj hn
    obtain ⟨n₂, hn₂, ho⟩ := getElem?_of_left hoff hn'
    rw [hn₁] at hn₂
    cases hn₂
    exact hs.trans ho.sheds
  have hloads : ∀ x ∈ Diagnostics.exposures p, ∀ n, nodes[x.1]? = some n →
      n.isLoad = true := fun x hx n₁ hn₁ => by
    obtain ⟨n, l, hn, hl, -⟩ := (Diagnostics.mem_exposures hplace).mp (show (x.1, x.2) ∈ _ from hx)
    obtain ⟨n₀, hn₀, hs⟩ := getElem?_of_right hnodes hn₁
    rw [hn] at hn₀
    cases hn₀
    rw [hs.isLoad]
    exact Node.isLoad_iff.mpr ⟨l, hl⟩
  rw [hfound, if_pos hd, Diagnostics.report_columns hreport (Diagnostics.nodup_exposures hplace)
    hloads, Diagnostics.flatMap_exposures]
  refine List.flatMap_congr fun n hn => ?_
  obtain ⟨hmem, hload⟩ := List.mem_filter.mp hn
  obtain ⟨i, hi⟩ := List.mem_iff_getElem?.mp hmem
  obtain ⟨n', hn', hs⟩ := getElem?_of_left hsheds hi
  have hid : n.id = i := hplace i n hi
  have hlost : (n.exposed.filter fun q => !n'.exposed.contains q) =
      p.lostAt (p.prune config).plan n.id := by
    rw [hid, lostAt, exposedAt_of_load hi hload, exposedAt_of_load hn' (hs.isLoad.trans hload)]
  have hasc : (n.exposed.filter fun q => !n'.exposed.contains q).Pairwise (· < ·) :=
    (hp n hmem hload).sublist List.filter_sublist
  simp only [hid, hn', Option.map_some, Option.getD_some, Diagnostics.lostColumns,
    Diagnostics.ascending_eq hasc, hs.displayName hload]
  rw [hlost, lossOf, hid]

/-! ## Several runs -/

/-- A run that succeeded: the plan before it, what it reported, and the plan after it. -/
structure Step where
  before : Plan
  outcome : PruneOutcome
  after : Plan

/-- Runs with diagnostics that succeed, one after the other, each with settings of
its own. -/
inductive Runs : Plan → List Step → Plan → Prop
  | nil (p : Plan) : Runs p [] p
  | cons {p q : Plan} {steps : List Step} {config : Config} {outcome : PruneOutcome}
      (hd : config.diagnostics = true) (h : (p.prune config).result = .ok outcome)
      (rest : Runs (p.prune config).plan steps q) :
      Runs p (⟨p, outcome, (p.prune config).plan⟩ :: steps) q

/-- Nothing comes back in later runs. -/
theorem Runs.exposedAt_subset {steps : List Step} (h : Runs p steps q) (id : Nat) :
    q.exposedAt id ⊆ p.exposedAt id := by
  induction h with
  | nil => exact List.Subset.refl _
  | cons _ h _ ih => exact List.Subset.trans ih (exposedAt_sheds (sheds_of_prune h) id).subset

theorem Runs.before_subset {steps : List Step} (h : Runs p steps q) (id : Nat) :
    ∀ s ∈ steps, s.before.exposedAt id ⊆ p.exposedAt id := by
  induction h with
  | nil => nofun
  | cons _ h _ ih =>
    intro s hs
    rcases List.mem_cons.mp hs with rfl | hs
    · exact List.Subset.refl _
    · exact List.Subset.trans (ih s hs) (exposedAt_sheds (sheds_of_prune h) id).subset

theorem mem_lostAt {x : Nat} : x ∈ p.lostAt p' id ↔ x ∈ p.exposedAt id ∧ x ∉ p'.exposedAt id := by
  rw [lostAt, List.mem_filter]
  simp

/-- What is lost in one run is not lost again. -/
theorem Runs.disjoint {steps : List Step} (h : Runs p steps q) (id : Nat) :
    (steps.map fun s => s.before.lostAt s.after id).Pairwise List.Disjoint := by
  induction h with
  | nil => exact .nil
  | cons _ _ rest ih =>
    refine List.pairwise_cons.mpr ⟨fun lost hlost => ?_, ih⟩
    obtain ⟨s, hs, rfl⟩ := List.mem_map.mp hlost
    intro x hx hx'
    exact (mem_lostAt.mp hx).2 (rest.before_subset id s hs (mem_lostAt.mp hx').1)

/-- What is lost in all runs together is lost in one of them. -/
theorem Runs.mem_lost {steps : List Step} (h : Runs p steps q) (id x : Nat) :
    (∃ s ∈ steps, x ∈ s.before.lostAt s.after id) ↔ x ∈ p.lostAt q id := by
  rw [mem_lostAt]
  induction h with
  | nil => exact ⟨nofun, fun h => absurd h.1 h.2⟩
  | @cons p q steps config outcome _ h rest ih =>
    have hsub := (exposedAt_sheds (sheds_of_prune h) id).subset
    constructor
    · rintro ⟨s, hs, hx⟩
      rcases List.mem_cons.mp hs with rfl | hs
      · obtain ⟨hx, hgone⟩ := mem_lostAt.mp hx
        exact ⟨hx, fun hq => hgone (rest.exposedAt_subset id hq)⟩
      · obtain ⟨hx, hgone⟩ := ih.mp ⟨s, hs, hx⟩
        exact ⟨hsub hx, hgone⟩
    · rintro ⟨hx, hgone⟩
      by_cases hmid : x ∈ (p.prune config).plan.exposedAt id
      · obtain ⟨s, hs, hx⟩ := ih.mpr ⟨hmid, hgone⟩
        exact ⟨s, List.mem_cons_of_mem _ hs, hx⟩
      · exact ⟨_, List.mem_cons_self .., mem_lostAt.mpr ⟨hx, hmid⟩⟩

/-- The steps of runs on a plan that can be made. -/
theorem Runs.step {steps : List Step} (h : Runs p steps q) (hp : p.Made) {s : Step}
    (hs : s ∈ steps) : ∃ config, s.before.Made ∧ config.diagnostics = true ∧
      (s.before.prune config).result = .ok s.outcome ∧ s.after = (s.before.prune config).plan := by
  induction h with
  | nil => cases hs
  | @cons p _ _ config _ hd h _ ih =>
    rcases List.mem_cons.mp hs with rfl | hs
    · exact ⟨config, hp, hd, h, rfl⟩
    · exact ih (hp.pruned h) hs

/-- The records about columns account for every position that a load loses in runs
with diagnostics, whatever else their settings are. -/
theorem Runs.losses {steps : List Step} (h : Runs p steps q) (hp : p.Made) :
    (∀ s ∈ steps,
      (∀ (id : Nat) (n : Node), s.before.nodes[id]? = some n → n.isLoad = true →
        ∃ n', s.after.nodes[id]? = some n' ∧ n'.source? = n.source? ∧
          n'.exposed.Sublist n.exposed ∧ n'.exposed.Pairwise (· < ·)) ∧
      s.outcome.diagnostics.filter Diagnostic.isColumns =
        (s.before.nodes.filter Node.isLoad).flatMap (s.before.lossOf s.after) ∧
      ∀ id, (s.before.lostAt s.after id).Pairwise (· < ·)) ∧
    ∀ id, (steps.map fun s => s.before.lostAt s.after id).Pairwise List.Disjoint ∧
      ∀ x, (∃ s ∈ steps, x ∈ s.before.lostAt s.after id) ↔
        x ∈ p.exposedAt id ∧ x ∉ q.exposedAt id := by
  refine ⟨fun s hs => ?_, fun id => ⟨h.disjoint id, fun x => (h.mem_lost id x).trans mem_lostAt⟩⟩
  obtain ⟨config, hmade, hd, hrun, hafter⟩ := h.step hp hs
  rw [hafter]
  refine ⟨fun id n hn hload => ?_, columns_of_prune hmade.ascends hd hrun, fun id =>
    (exposedAt_ascending hmade.ascends id).sublist List.filter_sublist⟩
  obtain ⟨n', hn', hsheds⟩ := getElem?_of_left (sheds_of_prune hrun) hn
  refine ⟨n', hn', hsheds.source, hsheds.exposed hload, ?_⟩
  exact (hmade.ascends n (List.mem_of_getElem? hn) hload).sublist (hsheds.exposed hload)

end Plan

namespace Builder

/-- Visits of pages, each counted as one. -/
def counted : Builder := empty
  |>.after (load "A" "visits" [⟨"user", .scalar .chararray, ⟨0⟩⟩, ⟨"page", .scalar .chararray, ⟨1⟩⟩,
      ⟨"facts", .map (.scalar .int), ⟨2⟩⟩] none)
  |>.after (forEach "F" ⟨0, none⟩ [(.literal (.int 1), false)])

theorem counted_made : counted.plan.Made :=
  .built (b := counted) (.step (.step .empty (.load ..)) (.forEach ..)) rfl

end Builder

/-- The visits keep one field in the first run, which the second takes away. -/
theorem Plan.Runs.losses_counted : ∃ steps q, Runs Builder.counted.plan steps q ∧
    steps.map (fun s => s.outcome.diagnostics) =
      [[.columnsPruned "A" [1, 2]], [.columnsPruned "A" [0]]] ∧
    (steps.map fun s => s.before.lostAt s.after 0).Pairwise List.Disjoint ∧
    ∀ x, (∃ s ∈ steps, x ∈ s.before.lostAt s.after 0) ↔
      x ∈ Builder.counted.plan.exposedAt 0 ∧ x ∉ q.exposedAt 0 := by
  have hruns : ((Builder.counted.plan.pruneWithin 2 {}).bind fun run =>
      (run.plan.pruneWithin 2 { retainOne := false }).bind fun run' => do
        return (← run.result.toOption, ← run'.result.toOption)) =
      some (⟨true, [.columnsPruned "A" [1, 2]], [], 2⟩,
        ⟨true, [.columnsPruned "A" [0]], [], 2⟩) := by
    decide +kernel
  obtain ⟨run, hrun, hruns⟩ := Option.bind_eq_some_iff.mp hruns
  obtain ⟨run', hrun', hruns⟩ := Option.bind_eq_some_iff.mp hruns
  obtain ⟨outcome, hfirst, hruns⟩ := Option.bind_eq_some_iff.mp hruns
  obtain ⟨outcome', hsecond, hruns⟩ := Option.bind_eq_some_iff.mp hruns
  cases hruns
  have h := prune_of_within hrun
  have h' := prune_of_within hrun'
  rw [← h] at hfirst h'
  rw [← h'] at hsecond
  have hall : Runs Builder.counted.plan _ _ :=
    .cons rfl (toOption_some hfirst) (.cons rfl (toOption_some hsecond) (.nil _))
  exact ⟨_, _, hall, rfl, (hall.losses Builder.counted_made).2 0⟩

end Dataflow
