import Dataflow.Plan.Check
import Dataflow.Prune.Config
import Dataflow.Prune.Diagnostic
import Dataflow.Prune.Project
import Dataflow.Prune.Pushdown
import Dataflow.Requirement.Solver

/-!
# Column pruning

Removes the fields that nobody needs from every node of a plan, as close to the
sources as possible: solve what is required, narrow the plan to it, offer the
result to the sources, and report what was removed.

A run that fails leaves the plan as far revised as it came; nothing is
offered to a source, and nothing is recorded on a load, before the narrowed
plan has been checked.
-/

namespace Dataflow

structure PruneOutcome where
  /-- Whether any schema, expression or projection changed. -/
  changed : Bool
  diagnostics : List Diagnostic
  pushdowns : List PushdownOutcome
  /-- How many nodes the analysis visited. -/
  visits : Nat
deriving Repr, DecidableEq

/-- A pruning run: the plan after it, the projections that were offered, the
log, and the outcome. -/
structure PruneRun where
  plan : Plan
  offers : List Offer
  logs : List LogRecord
  result : Except Failure PruneOutcome

namespace Plan

/-- A run that failed before any offer was made. -/
def pruneFailed (p : Plan) (f : Failure) : PruneRun := ⟨p, [], [], .error f⟩

def solvedRecord (p : Plan) (r : Requirements) : LogRecord :=
  ⟨.debug, "Column requirements converged after " ++ toString r.visits ++ " visits over " ++
    toString p.nodes.length ++ " nodes"⟩

/-- The end of a run, on the narrowed plan: offers and reports. -/
def finishPrune (config : Config) (before : List (Nat × List Nat)) (r : Requirements)
    (changed : Bool) (p : Plan) : PruneRun :=
  let solved := solvedRecord p r
  let mapKeys := if config.mapKeys then some r.trackers.mapKeys else none
  let (nodes, offers, offered) :=
    if config.pushdown then Pushdown.offerNodes mapKeys 0 p.nodes
    else (p.nodes, Pushdown.empty, .ok ())
  let logs := solved :: offers.logs
  match offered with
  | .error e => ⟨⟨nodes⟩, offers.offers, logs, .error (.error e)⟩
  | .ok () =>
    match Diagnostics.report mapKeys before ⟨nodes⟩ with
    | (p', .error e) => ⟨p', offers.offers, logs, .error (.error e)⟩
    | (p', .ok found) =>
      let diagnostics := if config.diagnostics then found else []
      ⟨p', offers.offers, logs ++ diagnostics.map fun d => ⟨.info, d.text⟩,
        .ok ⟨changed, diagnostics, offers.outcomes, r.visits⟩⟩

def prune (config : Config) (p : Plan) : PruneRun :=
  match p.check with
  | .error e => p.pruneFailed (.error e)
  | .ok () =>
    match p.solve (.empty config.mapKeys) config.retainOne with
    | .error e => p.pruneFailed (.error e)
    | .ok r =>
      match p.project r.required with
      | (p', .error f) => p'.pruneFailed f
      | (p', .ok changed) =>
        match p'.check with
        | .error e => p'.pruneFailed (.error e)
        | .ok () => finishPrune config (Diagnostics.exposures p) r changed p'

end Plan

/-! ## Optimizing -/

/-- A pass over plans. There is one kind: column pruning. -/
inductive Rule
  | columnPruning (config : Config)
deriving Repr, DecidableEq

def Rule.name : Rule → String
  | .columnPruning _ => "ColumnPruning"

/-- An optimization: whether the plan changed, with the plan itself; and what
happened on the way, failed or not. -/
structure Optimization where
  offers : List Offer
  logs : List LogRecord
  result : Except Failure (Plan × Bool)

namespace Plan

def ruleRecord (rule : Rule) (changed : Bool) : LogRecord :=
  ⟨.debug, "Rule " ++ rule.name ++ " " ++ (if changed then "changed" else "did not change") ++
    " the plan"⟩

def applyRules : List Rule → Plan → Bool → Optimization
  | [], p, changed => ⟨[], [], .ok (p, changed)⟩
  | rule :: rest, p, changed =>
    let run := match rule with
      | .columnPruning config => p.prune config
    match run.result with
    | .error f => ⟨run.offers, run.logs, .error f⟩
    | .ok outcome =>
      let more := applyRules rest run.plan (changed || outcome.changed)
      ⟨run.offers ++ more.offers,
        run.logs ++ ruleRecord rule outcome.changed :: more.logs, more.result⟩

/-- Checks a plan and applies rules to it, each once. -/
def optimize (rules : List Rule) (p : Plan) : Optimization :=
  match p.check with
  | .error e => ⟨[], [], .error (.error e)⟩
  | .ok () => applyRules rules p false

end Plan

end Dataflow
