import Dataflow.Proofs.Narrowing.Consistent
import Dataflow.Proofs.Narrowing.Step
import Dataflow.Proofs.Plan.Appended
import Dataflow.Proofs.Prune.Records

/-!
# The outcome of a run

A run that succeeds has checked the plan, solved its requirements, narrowed it
and checked it again (`Plan.prune_ok`), and in the end has recorded something on
the loads (`Plan.finishPrune_ok`). The plan that a run leaves behind is
therefore the narrowed plan up to these records.
-/

namespace Dataflow

open List (Forall₂)

/-- The tracked keys that a run records. -/
def Config.tracked (config : Config) (t : Trackers) : Option (Tracker String) :=
  if config.mapKeys then some t.mapKeys else none

/-- What the end of a run makes of a node: the offer, if there is one, and the
report. -/
def Node.Finished (config : Config) (t : Trackers) (n n' : Node) : Prop :=
  ∃ n₁, (if config.pushdown then ∃ id o, Pushdown.offerNode id n (config.tracked t) = .ok (n₁, o)
      else n₁ = n) ∧
    ∃ before ds, Diagnostics.reportNode n₁ before (config.tracked t) = .ok (n', ds)

theorem Node.Finished.rerecorded {config : Config} {t : Trackers} {n n' : Node}
    (h : n.Finished config t n') : n.Rerecorded n' := by
  obtain ⟨n₁, hoffer, before, ds, hreport⟩ := h
  refine Node.Rerecorded.trans ?_ (Diagnostics.rerecorded_of_report hreport)
  split at hoffer
  · obtain ⟨id, o, ho⟩ := hoffer
    exact Pushdown.rerecorded_of_offer ho
  · rw [hoffer]; exact .same

/-- What the end of a run recorded on a load. -/
theorem Node.Finished.keys {config : Config} {t : Trackers} {n n' : Node}
    (h : n.Finished config t n') {l' : Load}
    (hl' : n'.op = .load l') :
    Diagnostics.keysOf l'.source.schema n'.exposed (config.tracked t) = .ok l'.mapKeys := by
  obtain ⟨n₁, -, before, ds, hreport⟩ := h
  by_cases hl : ∃ l, n₁.op = .load l
  · obtain ⟨l, hl⟩ := hl
    obtain ⟨keys, hkeys, rfl⟩ := (Diagnostics.reportNode_load hl).mp ⟨ds, hreport⟩
    cases hl'
    exact hkeys
  · rw [Diagnostics.reportNode_other fun l hn => hl ⟨l, hn⟩] at hreport
    cases hreport
    exact absurd ⟨l', hl'⟩ hl

/-! ## Exposures -/

namespace Diagnostics

theorem mem_exposures {p : Plan} (hp : p.InPlace) {id : Nat} {before : List Nat} :
    (id, before) ∈ exposures p ↔
      ∃ n l, p.nodes[id]? = some n ∧ n.op = .load l ∧ before = n.exposed := by
  unfold exposures
  rw [List.mem_filterMap]
  constructor
  · rintro ⟨n, hn, heq⟩
    obtain ⟨i, hi⟩ := List.mem_iff_getElem?.mp hn
    split at heq
    · rename_i l hl
      cases heq
      rw [hp i n hi]
      exact ⟨n, l, hi, hl, rfl⟩
    · cases heq
  · rintro ⟨n, l, hn, hl, rfl⟩
    exact ⟨n, List.mem_of_getElem? hn, by simp only [hl, hp id n hn]⟩

theorem nodup_exposures {p : Plan} (hp : p.InPlace) : ((exposures p).map Prod.fst).Nodup := by
  have hids : p.nodes.map Node.id = List.range p.nodes.length := by
    refine List.ext_getElem? fun i => ?_
    rw [List.getElem?_map]
    by_cases hi : i < p.nodes.length
    · rw [List.getElem?_range hi, List.getElem?_eq_getElem hi, Option.map_some,
        hp i _ (List.getElem?_eq_getElem hi)]
    · simp [hi]
  have hsub : ((exposures p).map Prod.fst).Sublist (p.nodes.map Node.id) := by
    unfold exposures
    generalize p.nodes = nodes
    induction nodes with
    | nil => exact .slnil
    | cons n nodes ih =>
      rw [List.filterMap_cons]
      split
      · exact ih.cons _
      · rename_i x hx
        split at hx
        · cases hx
          exact ih.cons_cons _
        · cases hx
  rw [hids] at hsub
  exact List.nodup_range.sublist hsub

end Diagnostics

namespace Plan

variable {config : Config} {p p' : Plan} {entries : List (Nat × List Nat)} {r : Requirements}
  {changed : Bool}

/-! ## The end of a run -/

/-- The nodes after the offers, with what came of these. -/
def offered (config : Config) (t : Trackers) (p : Plan) : List Node × Offers × Except Error Unit :=
  if config.pushdown then Pushdown.offerNodes (config.tracked t) 0 p.nodes
  else (p.nodes, Pushdown.empty, .ok ())

theorem finishPrune_eq (changed : Bool) {nodes : List Node} {os : Offers}
    (ho : offered config r.trackers p = (nodes, os, .ok ())) {ds : List Diagnostic}
    (hr : Diagnostics.report (config.tracked r.trackers) entries ⟨nodes⟩ = (p', .ok ds)) :
    (finishPrune config entries r changed p).plan = p' ∧
      (finishPrune config entries r changed p).result =
        .ok ⟨changed, if config.diagnostics then ds else [], os.outcomes, r.visits⟩ := by
  unfold offered at ho
  unfold Config.tracked at ho hr
  unfold finishPrune
  simp only [ho, hr]
  exact ⟨trivial, trivial⟩

theorem finishPrune_parts {outcome : PruneOutcome}
    (h : (finishPrune config entries r changed p).result = .ok outcome) :
    outcome.changed = changed ∧ ∃ nodes os ds,
      offered config r.trackers p = (nodes, os, .ok ()) ∧
      Diagnostics.report (config.tracked r.trackers) entries ⟨nodes⟩ =
        ((finishPrune config entries r changed p).plan, .ok ds) := by
  cases ho : offered config r.trackers p with
  | mk nodes rest =>
    obtain ⟨os, result⟩ := rest
    cases result with
    | error e =>
      unfold offered Config.tracked at ho
      unfold finishPrune at h
      simp only [ho] at h
      cases h
    | ok =>
      cases hr : Diagnostics.report (config.tracked r.trackers) entries ⟨nodes⟩ with
      | mk p₁ result =>
        cases result with
        | error e =>
          unfold offered at ho
          unfold Config.tracked at ho hr
          unfold finishPrune at h
          simp only [ho, hr] at h
          cases h
        | ok ds =>
          obtain ⟨hplan, hresult⟩ := finishPrune_eq changed ho hr
          rw [hresult] at h
          cases h
          exact ⟨rfl, nodes, os, ds, rfl, by rw [hplan, hr]⟩

/-- The end of a run leaves every node as it is, up to records. -/
theorem finishPrune_ok {outcome : PruneOutcome}
    (h : (finishPrune config entries r changed p).result = .ok outcome)
    (hnodup : (entries.map Prod.fst).Nodup)
    (hloads : ∀ i n l, p.nodes[i]? = some n → n.op = .load l → i ∈ entries.map Prod.fst) :
    outcome.changed = changed ∧ Forall₂ (Node.Finished config r.trackers) p.nodes
      (finishPrune config entries r changed p).plan.nodes := by
  obtain ⟨hchanged, nodes, os, ds, ho, hr⟩ := finishPrune_parts h
  refine ⟨hchanged, ?_⟩
  have hoffers : Forall₂ (fun n n₁ => if config.pushdown then
      ∃ id o, Pushdown.offerNode id n (config.tracked r.trackers) = .ok (n₁, o) else n₁ = n)
      p.nodes nodes := by
    unfold offered at ho
    split at ho
    · rename_i hp
      simp only [hp, if_true]
      exact Pushdown.offerNodes_ok ho
    · rename_i hp
      cases ho
      simp only [hp]
      exact List.forall₂_same.mpr fun _ _ => rfl
  obtain ⟨hlen, hall⟩ := Diagnostics.report_ok hr hnodup
  refine forall₂_of_getElem? (by rw [hlen, hoffers.length_eq]) fun i n n' hn hn' => ?_
  obtain ⟨n₁, hn₁, hoffer⟩ := getElem?_of_left hoffers hn
  obtain ⟨n₂, hn₂, hsame, hrep⟩ := hall i n₁ hn₁
  rw [hn'] at hn₂
  cases hn₂
  refine ⟨n₁, hoffer, ?_⟩
  by_cases hi : i ∈ entries.map Prod.fst
  · obtain ⟨⟨j, before⟩, hmem, rfl⟩ := List.mem_map.mp hi
    obtain ⟨d, hd⟩ := hrep before hmem
    exact ⟨before, d, hd⟩
  · refine ⟨[], [], ?_⟩
    rw [hsame hi]
    refine Diagnostics.reportNode_other fun l hl => hi ?_
    -- An offer makes a load of loads only.
    have hre : n.Rerecorded n₁ := by
      split at hoffer
      · obtain ⟨id, o, ho⟩ := hoffer
        exact Pushdown.rerecorded_of_offer ho
      · rw [hoffer]; exact .same
    obtain ⟨l₀, hl₀⟩ : ∃ l₀, n.op = .load l₀ := by
      cases hre with
      | same => exact ⟨l, hl⟩
      | load hn₀ => exact ⟨_, hn₀⟩
    exact hloads i n l₀ hn hl₀

theorem exists_finishPrune (hlt : ∀ x ∈ entries, x.1 < p.nodes.length)
    (hsource : ∀ n ∈ p.nodes, n.ExposesSource) :
    ∃ outcome, (finishPrune config entries r changed p).result = .ok outcome := by
  obtain ⟨nodes, os, ho, hre⟩ : ∃ nodes os, offered config r.trackers p = (nodes, os, .ok ()) ∧
      Forall₂ Node.Rerecorded p.nodes nodes := by
    unfold offered
    split
    · have hoffer : ∀ n ∈ p.nodes, ∃ n', (∀ id, ∃ o,
          Pushdown.offerNode id n (config.tracked r.trackers) = .ok (n', o)) ∧ n.Rerecorded n' := by
        intro n hn
        obtain ⟨n', o, ho⟩ := Pushdown.exists_offer 0 (config.tracked r.trackers)
          (hsource n hn)
        exact ⟨n', fun id => Pushdown.offerNode_ok.mpr (Pushdown.offerNode_ok.mp ⟨o, ho⟩),
          Pushdown.rerecorded_of_offer ho⟩
      obtain ⟨nodes, hnodes⟩ := exists_forall₂ hoffer
      obtain ⟨os, hos⟩ := Pushdown.exists_offers (hnodes.imp fun _ _ h => h.1) 0
      exact ⟨nodes, os, hos, hnodes.imp fun _ _ h => h.2⟩
    · exact ⟨_, _, rfl, List.forall₂_same.mpr fun _ _ => .same⟩
  obtain ⟨p₁, ds, hr⟩ := Diagnostics.exists_report (p := ⟨nodes⟩)
    (config.tracked r.trackers) entries
    (fun x hx => by
      show x.1 < nodes.length
      rw [← hre.length_eq]
      exact hlt x hx)
    (fun n' hn' => by
      obtain ⟨n, hn, h⟩ := mem_of_right hre hn'
      exact (hsource n hn).rerecorded h)
  exact ⟨_, (finishPrune_eq changed ho hr).2⟩

/-! ## A whole run -/

/-- A run whose stages succeed ends in its last stage. -/
theorem prune_eq (hcheck : p.check = .ok ())
    (hsolve : p.solve (.empty config.mapKeys) config.retainOne = .ok r)
    (hproject : p.project r.required = (p', .ok changed)) (hcheck' : p'.check = .ok ()) :
    p.prune config = finishPrune config (Diagnostics.exposures p) r changed p' := by
  unfold prune
  simp only [hcheck, hsolve, hproject, hcheck']

/-- A run whose analysis takes at most `count` visits, if it gets past the
second check. Unlike the analysis itself, this can be evaluated. -/
def pruneWithin (count : Nat) (config : Config) (p : Plan) : Option PruneRun := do
  let s ← (Solver.steps p config.retainOne count (Solver.start p (.empty config.mapKeys))).toOption
  guard s.pending.isEmpty
  p.check.toOption
  let (p', result) := p.project s.required
  let changed ← result.toOption
  p'.check.toOption
  return finishPrune config (Diagnostics.exposures p) ⟨s.required, s.trackers, s.visits⟩ changed p'

theorem toOption_some {ε α : Type} {x : Except ε α} {a : α} (h : x.toOption = some a) :
    x = .ok a := by
  cases x with
  | error e => cases h
  | ok b => cases h; rfl

theorem prune_of_within {count : Nat} {run : PruneRun} (h : p.pruneWithin count config = some run) :
    p.prune config = run := by
  obtain ⟨s, hs, h⟩ := Option.bind_eq_some_iff.mp h
  obtain ⟨_, hdone, h⟩ := Option.bind_eq_some_iff.mp h
  obtain ⟨_, hcheck, h⟩ := Option.bind_eq_some_iff.mp h
  obtain ⟨changed, hchanged, h⟩ := Option.bind_eq_some_iff.mp h
  obtain ⟨_, hcheck', h⟩ := Option.bind_eq_some_iff.mp h
  cases h
  have hpending : s.pending = [] := by
    cases hp : s.pending with
    | nil => rfl
    | cons id rest => rw [hp] at hdone; cases hdone
  exact prune_eq (toOption_some hcheck)
    (solve_of_reaches (Solver.reaches_of_steps (toOption_some hs) hpending))
    (Prod.ext rfl (toOption_some hchanged)) (toOption_some hcheck')

/-- The outcome of a run, evaluated. -/
theorem result_of_within (count : Nat) {outcome : PruneOutcome}
    (h : ((p.pruneWithin count config).bind fun run => run.result.toOption) = some outcome) :
    (p.prune config).result = .ok outcome := by
  obtain ⟨run, hrun, h⟩ := Option.bind_eq_some_iff.mp h
  rw [prune_of_within hrun]
  exact toOption_some h

/-- The stages of a run that succeeded. -/
theorem prune_ok {outcome : PruneOutcome} (h : (p.prune config).result = .ok outcome) :
    ∃ r p' changed, p.check = .ok () ∧
      p.solve (.empty config.mapKeys) config.retainOne = .ok r ∧
      p.project r.required = (p', .ok changed) ∧ p'.check = .ok () ∧
      p.prune config = finishPrune config (Diagnostics.exposures p) r changed p' := by
  unfold prune at h
  split at h
  · cases h
  · rename_i hcheck
    split at h
    · cases h
    · rename_i r hr
      split at h
      · cases h
      · rename_i p' changed hproj
        split at h
        · cases h
        · rename_i hcheck'
          exact ⟨r, p', changed, hcheck, hr, hproj, hcheck', prune_eq hcheck hr hproj hcheck'⟩

/-! ## Plans that can be made -/

/-- The pass over the node stored under `id`, given what became of the nodes. -/
structure Projects (required : List Required) (done : List Narrowed) (id : Nat) (n : Node)
    (keep : List Nat) (ins : List Narrowed) (proj : Projected) : Prop where
  requires : ∃ r, required[id]? = some r ∧ r.resolve n.schema.length = .ok keep
  inputs : Forall₂ (fun e N => e.node < id ∧ done[e.node]? = some N) n.inputs ins
  ok : Projected.ofAny n keep ins = .ok proj

theorem projectNode_ok {required : List Required} {done : List Narrowed} {n : Node}
    {proj : Projected} (h : projectNode required done n = .ok proj) :
    ∃ keep ins, Projects required done done.length n keep ins proj := by
  have failing_ok : ∀ {α : Type} {x : Except Error α} {a : α}, failing x = .ok a → x = .ok a := by
    intro α x a hx
    cases x with
    | error e => cases hx
    | ok b => cases hx; rfl
  unfold projectNode at h
  dsimp only at h
  split at h
  on_goal 2 => cases h
  rename_i r hr
  obtain ⟨r', hr', h⟩ := bind_ok h
  cases hr'
  obtain ⟨keep, hkeep, h⟩ := bind_ok h
  obtain ⟨ins, hins, h⟩ := bind_ok h
  refine ⟨keep, ins, ⟨r, hr, failing_ok hkeep⟩, (mapM_ok.mp hins).imp fun e N he => ?_,
    failing_ok h⟩
  split at he
  · rename_i N' hN'
    cases he
    exact ⟨(List.getElem?_eq_some_iff.mp hN').1, hN'⟩
  · cases he

theorem Projects.append {required : List Required} {done : List Narrowed} {id : Nat} {n : Node}
    {keep : List Nat} {ins : List Narrowed} {proj : Projected}
    (h : Projects required done id n keep ins proj) (rest : List Narrowed) :
    Projects required (done ++ rest) id n keep ins proj where
  requires := h.requires
  inputs := h.inputs.imp fun e N he => by
    refine ⟨he.1, ?_⟩
    rw [List.getElem?_append_left (List.getElem?_eq_some_iff.mp he.2).1]
    exact he.2
  ok := h.ok

/-- What the pass keeps of a node for those that read it. -/
def record (proj : Projected) (n : Node) : Narrowed :=
  ⟨n.schema, proj.schema, .ofKept n.schema.length proj.kept⟩

/-- A pass over several nodes is one over the first of them and one over the
rest. -/
theorem projectNodes_cons {required : List Required} {done : List Narrowed} {n : Node}
    {rest nodes' : List Node}
    (h : projectNodes required done (n :: rest) = (nodes', .ok changed)) :
    ∃ proj nodes₁ c, projectNode required done n = .ok proj ∧
      projectNodes required (done ++ [record proj n]) rest = (nodes₁, .ok c) ∧
      nodes' = proj.apply n :: nodes₁ ∧ changed = (proj.differs n || c) := by
  rw [projectNodes] at h
  split at h
  · cases h
  · rename_i proj hproj
    change (proj.apply n :: (projectNodes required (done ++ [record proj n]) rest).1,
      (projectNodes required (done ++ [record proj n]) rest).2.map _) = _ at h
    cases hrest : projectNodes required (done ++ [record proj n]) rest with
    | mk nodes₁ result =>
      rw [hrest] at h
      cases result with
      | error e => cases h
      | ok c =>
        cases h
        exact ⟨proj, nodes₁, c, hproj, hrest, rfl, rfl⟩

/-- Narrowing makes something of each node, given what became of those before. -/
theorem projectNodes_ok {required : List Required} {done : List Narrowed} {nodes nodes' : List Node}
    (h : projectNodes required done nodes = (nodes', .ok changed)) :
    ∃ projs, projs.length = nodes.length ∧ nodes' = List.zipWith Projected.apply projs nodes ∧
      ∀ i n proj, nodes[i]? = some n → projs[i]? = some proj → ∃ keep ins,
        Projects required (done ++ List.zipWith record projs nodes) (done.length + i) n keep ins
          proj := by
  induction nodes generalizing done nodes' changed with
  | nil => cases h; exact ⟨[], rfl, rfl, fun i n proj hn => by cases hn⟩
  | cons n rest ih =>
    obtain ⟨proj, nodes₁, c, hproj, hrest, rfl, -⟩ := projectNodes_cons h
    obtain ⟨projs, hlen, rfl, hsteps⟩ := ih hrest
    refine ⟨proj :: projs, congrArg Nat.succ hlen, rfl, fun i m q hm hq => ?_⟩
    cases i with
    | zero =>
      cases hm
      cases hq
      obtain ⟨keep, ins, hstep⟩ := projectNode_ok hproj
      exact ⟨keep, ins, hstep.append _⟩
    | succ i =>
      obtain ⟨keep, ins, hstep⟩ := hsteps i m q hm hq
      rw [List.append_assoc, List.length_append, List.length_singleton, Nat.add_assoc,
        Nat.add_comm 1 i] at hstep
      exact ⟨keep, ins, hstep⟩

theorem project_ok {required : List Required} (h : p.project required = (p', .ok changed)) :
    ∃ projs, projs.length = p.nodes.length ∧
      p'.nodes = List.zipWith Projected.apply projs p.nodes ∧
      ∀ i n proj, p.nodes[i]? = some n → projs[i]? = some proj → ∃ keep ins,
        Projects required (List.zipWith record projs p.nodes) i n keep ins proj := by
  unfold project at h
  cases hnodes : projectNodes required [] p.nodes with
  | mk nodes result =>
    rw [hnodes] at h
    cases h
    obtain ⟨projs, hlen, hnodes', hsteps⟩ := projectNodes_ok hnodes
    refine ⟨projs, hlen, hnodes', fun i n proj hn hproj => ?_⟩
    obtain ⟨keep, ins, hstep⟩ := hsteps i n proj hn hproj
    rw [List.nil_append, List.length_nil, Nat.zero_add] at hstep
    exact ⟨keep, ins, hstep⟩

theorem project_length {required : List Required} (h : p.project required = (p', .ok changed)) :
    p'.nodes.length = p.nodes.length := by
  obtain ⟨projs, hlen, hnodes, -⟩ := project_ok h
  rw [hnodes, List.length_zipWith, hlen, Nat.min_self]

/-- What narrowing makes of the node at a place. -/
theorem project_at {required : List Required} (h : p.project required = (p', .ok changed))
    {id : Nat} {n n' : Node} (hn : p.nodes[id]? = some n) (hn' : p'.nodes[id]? = some n') :
    ∃ done keep ins proj, Projects required done id n keep ins proj ∧ n' = proj.apply n := by
  obtain ⟨projs, -, hnodes, hsteps⟩ := project_ok h
  rw [hnodes] at hn'
  obtain ⟨proj, n₀, hproj, hn₀, rfl⟩ := List.getElem?_zipWith_eq_some.mp hn'
  rw [hn] at hn₀
  cases hn₀
  obtain ⟨keep, ins, hstep⟩ := hsteps id n proj hn hproj
  exact ⟨_, keep, ins, proj, hstep, rfl⟩

/-- Narrowing makes something of each node by itself. -/
theorem project_nodes {required : List Required} (h : p.project required = (p', .ok changed)) :
    Forall₂ (fun n n' => ∃ keep ins proj, Projected.ofAny n keep ins = .ok proj ∧
      n' = proj.apply n) p.nodes p'.nodes := by
  refine forall₂_of_getElem? (project_length h).symm fun i n n' hn hn' => ?_
  obtain ⟨_, keep, ins, proj, hstep, rfl⟩ := project_at h hn hn'
  exact ⟨keep, ins, proj, hstep.ok, rfl⟩

end Plan

/-- A node is narrowed to a load only if it is one. -/
theorem Projected.load_of_ofAny {n : Node} {keep : List Nat} {ins : List Narrowed}
    {proj : Projected} (h : Projected.ofAny n keep ins = .ok proj) {l : Load}
    (hl : proj.op.getD n.op = .load l) : n.op = .load l := by
  rcases Projected.ofAny_op h with ⟨es, hop⟩ | ⟨_, _, -, hop⟩ | ⟨_, _, -, hop⟩
  · rw [hl] at hop
    cases hn : n.op with
    | load l' => rw [hn] at hop; cases hop; rfl
    | _ => rw [hn] at hop; cases hop
  · rw [hl] at hop; cases hop
  · rw [hl] at hop; cases hop

/-- A cogroup keeps its bags. -/
theorem Projected.bags_of_ofAny {n : Node} {keep : List Nat} {ins : List Narrowed}
    {proj : Projected} (h : Projected.ofAny n keep ins = .ok proj) {c : CoGroup}
    (hc : proj.op.getD n.op = .cogroup c) : ∃ c₀, n.op = .cogroup c₀ ∧ c.bags = c₀.bags := by
  rcases Projected.ofAny_op h with ⟨es, hop⟩ | ⟨_, _, -, hop⟩ | ⟨_, _, -, hop⟩
  · rw [hc] at hop
    cases hn : n.op with
    | cogroup c₀ => rw [hn] at hop; cases hop; exact ⟨c₀, rfl, rfl⟩
    | _ => rw [hn] at hop; cases hop
  · rw [hc] at hop; cases hop
  · rw [hc] at hop; cases hop

namespace Plan

/-- Records do not matter for the check. -/
theorem check_rerecorded {p p' : Plan} (h : Forall₂ Node.Rerecorded p.nodes p'.nodes)
    (hcheck : p.check = .ok ()) : p'.check = .ok () := by
  refine check_ok.mpr fun id n' hn' => ?_
  obtain ⟨n, hn, hre⟩ := getElem?_of_right h hn'
  obtain ⟨inputs, natural, hc⟩ := check_ok.mp hcheck id n hn
  refine ⟨inputs, natural, hre.id_eq.trans hc.id_eq, ?_, fun e he => ?_, ?_, ?_, ?_, ?_, ?_⟩
  · rw [hre.inputs_eq]
    cases hre with
    | same => exact hc.takes
    | load hl =>
      have := hc.takes
      rw [hl] at this
      exact ⟨this.least, this.greatest⟩
  · rw [hre.inputs_eq] at he
    obtain ⟨hlt, m, hm, hb⟩ := hc.earlier e he
    obtain ⟨m', hm', hre'⟩ := getElem?_of_left h hm
    refine ⟨hlt, m', hm', ?_⟩
    cases hre' with
    | same => exact hb
    | load hl =>
      revert hb
      unfold checkBranch
      rw [hl]
      cases e.branch <;> exact fun h => h
  · rw [hre.inputs_eq, edgeSchemas_ok]
    refine (edgeSchemas_ok.mp hc.schemas).imp fun e s ⟨m, hm, hs⟩ => ?_
    obtain ⟨m', hm', hre'⟩ := getElem?_of_left h hm
    exact ⟨m', hm', hre'.schema_eq.trans hs⟩
  · cases hre with
    | same => exact hc.typed
    | load => nofun
  · cases hre with
    | same => exact hc.mapped
    | load => nofun
  · cases hre with
    | same => exact hc.natural_eq
    | @load l l' hl hsource =>
      have := hc.natural_eq
      rw [hl] at this
      exact (congrArg (fun s : Source => (Except.ok s.schema : Except Error Schema))
        hsource).trans this
  · have hpart := hc.exposed
    unfold exposedPart at hpart ⊢
    rw [hre.schema_eq, hre.projection_eq]
    cases hre with
    | same => exact hpart
    | load hl =>
      rw [hl] at hpart
      exact hpart

variable {p : Plan} {config : Config}

/-- A run that succeeds ends with the narrowed plan, up to records. -/
theorem finished_of_prune {outcome : PruneOutcome}
    (h : (p.prune config).result = .ok outcome) :
    ∃ r p' changed, p.check = .ok () ∧
      p.solve (.empty config.mapKeys) config.retainOne = .ok r ∧
      p.project r.required = (p', .ok changed) ∧ p'.check = .ok () ∧ outcome.changed = changed ∧
      Forall₂ (Node.Finished config r.trackers) p'.nodes (p.prune config).plan.nodes := by
  obtain ⟨r, p', changed, hcheck, hsolve, hproject, hcheck', heq⟩ := prune_ok h
  have hplace := inPlace_of_check hcheck
  rw [heq] at h
  obtain ⟨hchanged, hfin⟩ := finishPrune_ok h (Diagnostics.nodup_exposures hplace)
    fun i n' l hn' hl => by
      obtain ⟨n, hn, keep, ins, proj, hany, rfl⟩ := getElem?_of_right (project_nodes hproject) hn'
      exact List.mem_map.mpr ⟨(i, n.exposed), (Diagnostics.mem_exposures hplace).mpr
        ⟨n, l, hn, Projected.load_of_ofAny hany hl, rfl⟩, rfl⟩
  exact ⟨r, p', changed, hcheck, hsolve, hproject, hcheck', hchanged, by rw [heq]; exact hfin⟩

theorem Made.check (h : p.Made) : p.check = .ok () := by
  cases h with
  | built _ h =>
    obtain ⟨_, hcheck, h⟩ := bind_ok h
    cases h
    exact hcheck
  | pruned _ h =>
    obtain ⟨r, p', changed, -, -, -, hcheck', -, hfin⟩ := finished_of_prune h
    exact check_rerecorded (hfin.imp fun _ _ h => h.rerecorded) hcheck'

theorem Made.bagPerInput (h : p.Made) : p.BagPerInput := by
  induction h with
  | built hb h =>
    obtain ⟨_, -, h⟩ := bind_ok h
    cases h
    exact hb.bagPerInput
  | pruned _ h ih =>
    obtain ⟨r, p', changed, -, -, hproject, -, -, hfin⟩ := finished_of_prune h
    intro n'' hn'' c hc
    obtain ⟨n', hn', hf⟩ := mem_of_right hfin hn''
    obtain ⟨n, hn, keep, ins, proj, hany, rfl⟩ := mem_of_right (project_nodes hproject) hn'
    rw [hf.rerecorded.inputs_eq]
    have hc' : proj.op.getD n.op = .cogroup c := by
      have hre := hf.rerecorded
      cases hre with
      | same => exact hc
      | load => cases hc
    obtain ⟨c₀, hc₀, hbags⟩ := Projected.bags_of_ofAny hany hc'
    rw [hbags]
    exact ih n hn c₀ hc₀

end Plan

end Dataflow
