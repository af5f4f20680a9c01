import Dataflow.Execution.Reader
import Dataflow.Proofs.Prune.Total
import Dataflow.Proofs.Requirement.Keyless

/-!
# What settings can change

Of the settings of a run only `Config.retainOne` has an influence on the
rewritten plan. Tracking keys changes no requirement (`Plan.solve_required`), an
offer to a source changes what is recorded on its load and nothing else, whatever
the source answers, and a report is only reported. So two runs whose settings
agree on `Config.retainOne` fail together or rewrite alike
(`Plan.prune_settings`).

That answers do not matter is said by a second plan, which has other answers at
its readers. No step before the offers looks at them: the checks, the analysis
and the narrowing all commute with a change of loads that leaves location and
schema as they are (`Plan.onLoads`).
-/

namespace Dataflow

open List (Forall₂)

/-! ## Changing loads -/

/-- The operator with its load changed, if it is one. -/
def Operator.onLoad (h : Load → Load) : Operator → Operator
  | .load l => .load (h l)
  | op => op

/-- The node with its load changed, which may depend on the node's number. -/
def Node.onLoad (h : Nat → Load → Load) (n : Node) : Node := { n with op := n.op.onLoad (h n.id) }

def Plan.onLoads (h : Nat → Load → Load) (p : Plan) : Plan := ⟨p.nodes.map (Node.onLoad h)⟩

/-- A change of loads that leaves location and schema as they are. -/
structure KeepsSource (h : Nat → Load → Load) : Prop where
  location : ∀ id l, (h id l).source.location = l.source.location
  schema : ∀ id l, (h id l).source.schema = l.source.schema

namespace Operator

variable (h : Load → Load) (op : Operator)

@[simp] theorem onLoad_arity : (op.onLoad h).arity = op.arity := by cases op <;> rfl
@[simp] theorem onLoad_name : (op.onLoad h).name = op.name := by cases op <;> rfl
@[simp] theorem onLoad_canProject : (op.onLoad h).canProject = op.canProject := by cases op <;> rfl
@[simp] theorem onLoad_expressions : (op.onLoad h).expressions = op.expressions := by
  cases op <;> rfl
@[simp] theorem onLoad_originated : Solver.originated (op.onLoad h) = Solver.originated op := by
  cases op <;> rfl

theorem onLoad_natural (hschema : ∀ l, (h l).source.schema = l.source.schema)
    (inputs : List Schema) : (op.onLoad h).natural inputs = op.natural inputs := by
  cases op with
  | load l => exact congrArg Except.ok (hschema l)
  | _ => rfl

theorem onLoad_of_not_load (hop : ∀ l, op ≠ .load l) : op.onLoad h = op := by
  cases op with
  | load l => exact absurd rfl (hop l)
  | _ => rfl

end Operator

section

variable {h : Nat → Load → Load} (hk : KeepsSource h) (p : Plan)

include hk

theorem Node.onLoad_displayName (n : Node) : (n.onLoad h).displayName = n.displayName := by
  unfold Node.displayName
  cases hop : n.op with
  | load l =>
    simp only [Node.onLoad, hop, Operator.onLoad]
    cases n.label with
    | none => exact hk.location n.id l
    | some a => rfl
  | _ => simp [Node.onLoad, hop, Operator.onLoad]

omit hk in
theorem Plan.onLoads_node (id : Nat) :
    (p.onLoads h).node id = (p.node id).map (Node.onLoad h) := by
  unfold Plan.node Plan.onLoads
  simp only [List.getElem?_map]
  cases p.nodes[id]? <;> rfl

omit hk in
@[simp] theorem Plan.onLoads_schemaOf (id : Nat) : (p.onLoads h).schemaOf id = p.schemaOf id := by
  unfold Plan.schemaOf
  rw [Plan.onLoads_node]
  cases p.node id <;> rfl

omit hk in
@[simp] theorem Plan.onLoads_edgeSchemas (edges : List Edge) :
    (p.onLoads h).edgeSchemas edges = p.edgeSchemas edges := by
  unfold Plan.edgeSchemas
  simp only [Plan.onLoads_schemaOf]

omit hk in
@[simp] theorem Plan.onLoads_inputSchemas (id : Nat) :
    (p.onLoads h).inputSchemas id = p.inputSchemas id := by
  unfold Plan.inputSchemas
  rw [Plan.onLoads_node]
  cases p.node id with
  | error e => rfl
  | ok n => exact p.onLoads_edgeSchemas n.inputs

theorem Plan.onLoads_natural (id : Nat) : (p.onLoads h).natural id = p.natural id := by
  unfold Plan.natural
  rw [Plan.onLoads_node, Plan.onLoads_inputSchemas]
  cases p.node id with
  | error e => rfl
  | ok n =>
    refine congrArg (p.inputSchemas id >>= ·) (funext fun inputs => ?_)
    exact n.op.onLoad_natural (h n.id) (hk.schema n.id) inputs

/-! ## Checks -/

omit hk in
theorem Plan.onLoads_checkInput (id : Nat) (e : Edge) :
    (p.onLoads h).checkInput id e = p.checkInput id e := by
  unfold Plan.checkInput
  rw [Plan.onLoads_node]
  cases p.node e.node with
  | error e => rfl
  | ok m =>
    have hbranch : Plan.checkBranch id e (m.onLoad h) = Plan.checkBranch id e m := by
      unfold Plan.checkBranch Node.onLoad
      cases m.op <;> cases e.branch <;> rfl
    simp only [Except.map, bind, Except.bind, hbranch]

theorem Plan.onLoads_checkNode (id : Nat) (n : Node) :
    (p.onLoads h).checkNode id (n.onLoad h) = p.checkNode id n := by
  by_cases hid : n.id = id
  · have hid' : (n.onLoad h).id = id := hid
    have harity : checkArity id (n.onLoad h) = checkArity id n := by
      simp only [checkArity, Node.onLoad, Operator.onLoad_arity, Operator.onLoad_name]
      rfl
    have hmappings : ∀ inputs, checkMappings id (n.onLoad h).op inputs =
        checkMappings id n.op inputs := by
      intro inputs
      unfold checkMappings Node.onLoad
      cases n.op <;> rfl
    have hpart : ∀ natural, exposedPart id (n.onLoad h) natural = exposedPart id n natural := by
      intro natural
      simp [exposedPart, Node.onLoad]
    have hnatural := n.op.onLoad_natural (h n.id) (hk.schema n.id)
    rw [checkNode_eq hid, checkNode_eq hid', harity]
    simp only [hmappings, hpart, onLoads_checkInput, onLoads_edgeSchemas]
    simp only [Node.onLoad, hnatural, Operator.onLoad_expressions]
    rfl
  · have hid' : (n.onLoad h).id ≠ id := hid
    simp only [checkNode, ne_eq, hid, hid', not_false_eq_true, if_true]
    rfl

theorem Plan.onLoads_check : (p.onLoads h).check = p.check := by
  have hnodes : (p.onLoads h).nodes.zipIdx = p.nodes.zipIdx.map fun x => (x.1.onLoad h, x.2) := by
    simp [Plan.onLoads, List.zipIdx_map]
  unfold Plan.check
  rw [hnodes, List.forM_eq_forM, List.forM_map]
  simp only [Plan.onLoads_checkNode hk]

/-! ## The analysis -/

theorem Plan.onLoads_inputDemands (id : Nat) (r : Required) (t : Trackers) :
    (p.onLoads h).inputDemands id r t = p.inputDemands id r t := by
  unfold inputDemands
  rw [onLoads_node, onLoads_inputSchemas, onLoads_natural hk]
  cases p.node id with
  | error e => rfl
  | ok n =>
    have hop : ∀ inputs required, Demand.ofOperator (n.onLoad h).displayName t (n.onLoad h).op
        inputs required = Demand.ofOperator n.displayName t n.op inputs required := by
      intro inputs required
      rw [Node.onLoad_displayName hk]
      unfold Node.onLoad
      cases n.op <;> rfl
    have hrequired : (n.onLoad h).naturalRequired r = n.naturalRequired r := by
      simp only [Node.naturalRequired, Node.onLoad_displayName hk]
      rfl
    simp only [Except.map, bind, Except.bind, hop, hrequired]

omit hk in
theorem Plan.onLoads_originators (u : Uid) :
    Solver.originators (p.onLoads h) u = Solver.originators p u := by
  simp [Solver.originators, Plan.onLoads, List.filterMap_map, Node.onLoad]

omit hk in
theorem Solver.onLoads_absorb (s : Solver.State) (input : Nat) (d : Demand) :
    Solver.absorb (p.onLoads h) s input d = Solver.absorb p s input d := by
  have hparts : ∀ (ds : List PartDemand) (s : Solver.State),
      Solver.absorbParts (p.onLoads h) s ds = Solver.absorbParts p s ds := by
    intro ds
    induction ds with
    | nil => exact fun s => rfl
    | cons d ds ih =>
      intro s
      simp only [Solver.absorbParts, ih, Plan.onLoads_originators]
  simp only [Solver.absorb, Solver.mergeDemand, hparts]
  rfl

theorem Solver.onLoads_visit (retain : Bool) (s : Solver.State) (id : Nat) :
    Solver.visit (p.onLoads h) retain s id = Solver.visit p retain s id := by
  unfold Solver.visit
  rw [Plan.onLoads_node]
  cases p.node id with
  | error e => rfl
  | ok n =>
    simp only [Except.map, bind, Except.bind, Plan.onLoads_inputDemands hk, Solver.onLoads_absorb]
    rfl

theorem Solver.onLoads_reaches {retain : Bool} {s s' : Solver.State} :
    Solver.Reaches (p.onLoads h) retain s s' ↔ Solver.Reaches p retain s s' := by
  constructor
  · intro hr
    induction hr with
    | done hp => exact .done hp
    | visit hp hv _ ih => exact .visit hp ((Solver.onLoads_visit hk p ..).symm.trans hv) ih
  · intro hr
    induction hr with
    | done hp => exact .done hp
    | visit hp hv _ ih => exact .visit hp ((Solver.onLoads_visit hk p ..).trans hv) ih

omit hk in
theorem Plan.onLoads_sinks : (p.onLoads h).sinks = p.sinks := by
  have hconsumers : ∀ id, (p.onLoads h).consumersOf id = p.consumersOf id := by
    intro id
    simp [Plan.consumersOf, Plan.onLoads, List.flatMap_map, Node.onLoad]
  have hlength : (p.onLoads h).nodes.length = p.nodes.length := List.length_map ..
  simp only [Plan.sinks, hconsumers, hlength]

omit hk in
theorem Solver.onLoads_start (t : Trackers) :
    Solver.start (p.onLoads h) t = Solver.start p t := by
  have hlength : (p.onLoads h).nodes.length = p.nodes.length := List.length_map ..
  have hschema : ∀ id : Nat,
      ((p.onLoads h).nodes[id]?).map (fun n : Node => Schema.wholeDemands n.schema) =
        (p.nodes[id]?).map fun n : Node => Schema.wholeDemands n.schema := by
    intro id
    rw [Plan.onLoads, List.getElem?_map, Option.map_map]
    rfl
  simp only [Solver.start, Plan.onLoads_sinks, hschema, hlength]

theorem Plan.onLoads_solve {t : Trackers} {retain : Bool} {r : Requirements} :
    (p.onLoads h).solve t retain = .ok r ↔ p.solve t retain = .ok r := by
  constructor
  · intro hr
    obtain ⟨s, hs, rfl⟩ := reaches_of_solve hr
    rw [Solver.onLoads_start] at hs
    exact solve_of_reaches ((Solver.onLoads_reaches hk p).mp hs)
  · intro hr
    obtain ⟨s, hs, rfl⟩ := reaches_of_solve hr
    refine solve_of_reaches ?_
    rw [Solver.onLoads_start]
    exact (Solver.onLoads_reaches hk p).mpr hs

/-! ## The narrowing -/

omit hk in
theorem Node.onLoad_of_not_load {n : Node} (hop : ∀ l, n.op ≠ .load l) : n.onLoad h = n := by
  unfold Node.onLoad
  rw [n.op.onLoad_of_not_load _ hop]

theorem Projected.onLoad_ofAny (n : Node) (keep : List Nat) (ins : List Narrowed) :
    Projected.ofAny (n.onLoad h) keep ins = Projected.ofAny n keep ins := by
  by_cases hload : ∃ l, n.op = .load l
  · obtain ⟨l, hop⟩ := hload
    have hop' : (n.onLoad h).op = .load (h n.id l) := by rw [Node.onLoad, hop]; rfl
    have hexposing : ∀ moved, Projected.exposing (n.onLoad h) moved keep =
        Projected.exposing n moved keep := by
      intro moved
      unfold Projected.exposing
      rw [Node.onLoad_displayName hk]
      rfl
    simp only [Projected.ofAny, Projected.ofNode, hop, hop', Operator.revise, Operator.expressions,
      reviseEach, Operator.withExpressions, Operator.natural, Operator.canProject,
      Projected.naturalMap, hexposing, hk.schema]
    rfl
  · rw [Node.onLoad_of_not_load fun l hl => hload ⟨l, hl⟩]

omit hk in
/-- A load is not replaced when it is narrowed. -/
theorem Projected.onLoad_apply {n : Node} {keep : List Nat} {ins : List Narrowed} {proj : Projected}
    (hproj : Projected.ofAny n keep ins = .ok proj) :
    proj.apply (n.onLoad h) = (proj.apply n).onLoad h := by
  by_cases hload : ∃ l, n.op = .load l
  · obtain ⟨l, hop⟩ := hload
    have hnone : proj.op = none := by
      simp only [Projected.ofAny, Projected.ofNode, hop, Operator.revise, Operator.expressions,
        reviseEach, Operator.natural, Operator.canProject, bind, Except.bind] at hproj
      obtain ⟨projection, -, hproj⟩ := bind_ok hproj
      obtain ⟨schema, -, hproj⟩ := bind_ok hproj
      cases hproj
      rfl
    simp only [Projected.apply, Node.onLoad, hnone, Option.getD_none]
  · have hop : ∀ l, n.op ≠ .load l := fun l hl => hload ⟨l, hl⟩
    rw [Node.onLoad_of_not_load hop, Node.onLoad_of_not_load fun l hl => hop l ?_]
    exact Projected.load_of_ofAny hproj hl

theorem Plan.onLoads_projectNode (required : List Required) (done : List Narrowed) (n : Node) :
    projectNode required done (n.onLoad h) = projectNode required done n := by
  unfold projectNode
  simp only [Projected.onLoad_ofAny hk]
  rfl

theorem Plan.onLoads_projectNodes (required : List Required) (done : List Narrowed)
    (nodes : List Node) :
    projectNodes required done (nodes.map (Node.onLoad h)) =
      ((projectNodes required done nodes).1.map (Node.onLoad h),
        (projectNodes required done nodes).2) := by
  induction nodes generalizing done with
  | nil => rfl
  | cons n nodes ih =>
    rw [List.map_cons, projectNodes, projectNodes, onLoads_projectNode hk]
    cases hproj : projectNode required done n with
    | error e => rfl
    | ok proj =>
      obtain ⟨keep, ins, hstep⟩ := projectNode_ok hproj
      simp only [show (n.onLoad h).schema = n.schema from rfl, ih, Projected.onLoad_apply hstep.ok,
        List.map_cons]
      rfl

theorem Plan.onLoads_project (required : List Required) :
    (p.onLoads h).project required =
      ((p.project required).1.onLoads h, (p.project required).2) := by
  unfold project
  simp only [onLoads, onLoads_projectNodes hk]

end

/-! ## Records and answers -/

/-- The load without what earlier runs recorded on it. -/
def Load.unrecorded (l : Load) : Load := { l with mapKeys := none, pushdown := none }

/-- The load whose reader, if it has one, has another answer. -/
def Load.answering (answer? : Option (Projection → Except Report Answer)) (l : Load) : Load :=
  { l with source := { l.source with
      reader := l.source.reader.map fun r => { r with answer? := answer? } } }

namespace Plan

/-- The plan without what earlier runs recorded on its loads. -/
def unrecorded (p : Plan) : Plan := p.onLoads fun _ => Load.unrecorded

/-- The plan whose readers have other answers, one for each load. -/
def answering (answers : Nat → Option (Projection → Except Report Answer)) (p : Plan) : Plan :=
  p.onLoads fun id => Load.answering (answers id)

theorem keepsSource_answering (answers : Nat → Option (Projection → Except Report Answer)) :
    KeepsSource fun id => Load.answering (answers id) where
  location _ _ := rfl
  schema _ _ := rfl

variable {p p' : Plan} {config config' : Config}

theorem unrecorded_of_rerecorded (h : Forall₂ Node.Rerecorded p.nodes p'.nodes) :
    p'.unrecorded = p.unrecorded := by
  unfold unrecorded onLoads
  congr 1
  generalize p.nodes = nodes at h ⊢
  generalize p'.nodes = nodes' at h ⊢
  induction h with
  | nil => rfl
  | cons hn _ ih =>
    refine congrArg₂ List.cons ?_ ih
    cases hn with
    | same => rfl
    | load hl hsource =>
      simp [Node.onLoad, hl, Operator.onLoad, Load.unrecorded, hsource]

theorem unrecorded_answering (answers : Nat → Option (Projection → Except Report Answer))
    (p : Plan) : (p.answering answers).unrecorded = p.unrecorded.answering answers := by
  unfold unrecorded answering onLoads
  simp only [List.map_map]
  congr 1
  refine List.map_congr_left fun n _ => ?_
  simp only [Function.comp_apply, Node.onLoad]
  cases n.op <;> rfl

/-- A run succeeds if the plan is consistent, its analysis succeeds and the
narrowed plan is consistent. -/
theorem exists_prune_iff : (∃ outcome, (p.prune config).result = .ok outcome) ↔
    ∃ r p' changed, p.check = .ok () ∧ p.solve (.empty false) config.retainOne = .ok r ∧
      p.project r.required = (p', .ok changed) ∧ p'.check = .ok () := by
  constructor
  · rintro ⟨outcome, h⟩
    obtain ⟨r, p', changed, hcheck, hsolve, hproject, hcheck', -⟩ := prune_ok h
    obtain ⟨r', hsolve', hreq⟩ := solve_required hcheck hsolve false
    exact ⟨r', p', changed, hcheck, hsolve', hreq ▸ hproject, hcheck'⟩
  · rintro ⟨r, p', changed, hcheck, hsolve, hproject, hcheck'⟩
    obtain ⟨r', hsolve', hreq⟩ := solve_required hcheck hsolve config.mapKeys
    rw [prune_eq hcheck hsolve' (hreq ▸ hproject) hcheck']
    refine exists_finishPrune (fun x hx => ?_) (exposesSource_of_check hcheck')
    have hlen := (project_nodes hproject).length_eq
    rw [← hlen]
    exact exposures_bounded (inPlace_of_check hcheck) hx

/-- Only `Config.retainOne` influences the rewritten plan: two runs that agree on
it, whatever sources answer, both fail, or report the same change and end with
plans that differ in what is recorded on loads, and in the answers, at most. -/
theorem prune_settings (p : Plan) (answers : Nat → Option (Projection → Except Report Answer))
    (config config' : Config) (hretain : config'.retainOne = config.retainOne) :
    ((∃ outcome, (p.prune config).result = .ok outcome) ↔
        ∃ outcome', ((p.answering answers).prune config').result = .ok outcome') ∧
      ∀ outcome outcome', (p.prune config).result = .ok outcome →
        ((p.answering answers).prune config').result = .ok outcome' →
        outcome'.changed = outcome.changed ∧
          ((p.answering answers).prune config').plan.unrecorded =
            ((p.prune config).plan.answering answers).unrecorded := by
  have hk := keepsSource_answering answers
  have hproject := fun r => onLoads_project hk p r
  constructor
  · rw [exists_prune_iff, exists_prune_iff, hretain]
    constructor
    · rintro ⟨r, p', changed, hcheck, hsolve, hp', hcheck'⟩
      refine ⟨r, p'.answering answers, changed, (onLoads_check hk p).trans hcheck,
        (onLoads_solve hk p).mpr hsolve, ?_, (onLoads_check hk p').trans hcheck'⟩
      exact (hproject r.required).trans (by rw [hp']; rfl)
    · rintro ⟨r, q, changed, hcheck, hsolve, hq, hcheck'⟩
      obtain ⟨hplan, hresult⟩ := Prod.mk.inj ((hproject r.required).symm.trans hq)
      refine ⟨r, (p.project r.required).1, changed, (onLoads_check hk p).symm.trans hcheck,
        (onLoads_solve hk p).mp hsolve, Prod.ext rfl hresult, ?_⟩
      rw [← onLoads_check hk, hplan]
      exact hcheck'
  · intro outcome outcome' h h'
    obtain ⟨r, p₁, changed, hcheck, hsolve, hp₁, -, hchanged, hnodes⟩ := finished_of_prune h
    obtain ⟨r', p₁', changed', -, hsolve', hp₁', -, hchanged', hnodes'⟩ := finished_of_prune h'
    -- Both analyses require the same, hence both plans are narrowed alike.
    obtain ⟨r₂, hsolve₂, hreq⟩ := solve_required hcheck hsolve config'.mapKeys
    rw [hretain] at hsolve'
    obtain rfl : r₂ = r' :=
      Except.ok.inj (hsolve₂.symm.trans ((onLoads_solve hk p).mp hsolve'))
    obtain ⟨hplan, hresult⟩ := Prod.mk.inj ((hproject r₂.required).symm.trans hp₁')
    rw [hreq, hp₁] at hplan hresult
    cases hresult
    refine ⟨hchanged'.trans hchanged.symm, ?_⟩
    have hrec := unrecorded_of_rerecorded (hnodes.imp fun _ _ hn => hn.rerecorded)
    have hrec' := unrecorded_of_rerecorded (hnodes'.imp fun _ _ hn => hn.rerecorded)
    rw [hrec', unrecorded_answering, hrec, ← unrecorded_answering, ← hplan]
    rfl

end Plan

/-- Visits of pages, from a source that accepts every projection. -/
def Plan.acceptedVisits : Plan := Builder.visits.plan.onLoads fun _ l =>
  { l with source := { l.source with reader := some (.inMemory 0 .accepting) } }

theorem Plan.prune_settings_visits :
    ∃ outcome', ((acceptedVisits.answering fun _ => Reader.answerOf (.failing Reader.refusal)).prune
        { mapKeys := false, diagnostics := false }).result = .ok outcome' ∧
      outcome'.changed = true ∧
      ((acceptedVisits.answering fun _ => Reader.answerOf (.failing Reader.refusal)).prune
          { mapKeys := false, diagnostics := false }).plan.unrecorded =
        ((acceptedVisits.prune {}).plan.answering
          fun _ => Reader.answerOf (.failing Reader.refusal)).unrecorded := by
  have hrun : (acceptedVisits.prune {}).result =
      .ok ⟨true, [.mapKeysRequired "A" [(2, ["lang"])]], [⟨0, "A", .accepted⟩], 6⟩ :=
    result_of_within 6 (by decide +kernel)
  obtain ⟨hiff, hsame⟩ := prune_settings acceptedVisits
    (fun _ => Reader.answerOf (.failing Reader.refusal)) {}
    { mapKeys := false, diagnostics := false } rfl
  obtain ⟨outcome', hrun'⟩ := hiff.mp ⟨_, hrun⟩
  exact ⟨outcome', hrun', hsame _ _ hrun hrun'⟩

end Dataflow
