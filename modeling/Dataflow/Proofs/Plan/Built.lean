import Dataflow.Plan.Builder
import Dataflow.Prune.Pass

/-!
# Plans that can be built

`Plan.Made` describes the plans a user of the library can hold: one that a
builder has finished after any operations, and whatever pruning makes of such a
plan, any number of times. They are consistent (`Made.check`).

The check does not look at the bags of a cogroup. That there is one for each
input is promised by the builder (`Plan.BagPerInput`), and pruning leaves it so.
-/

namespace Dataflow

namespace Builder

/-- What a builder is after a step, whether it succeeds or not. -/
def after {α : Type} (b : Builder) (step : Build α) : Builder := (Id.run (step.run.run b)).2

def returns {α : Type} (b : Builder) (step : Build α) : Except Error α :=
  (Id.run (step.run.run b)).1

/-- The operations of a builder. Asking for the schema of a node is not among them,
since it changes nothing, and grouping is a cogroup of one input. -/
inductive Operation : {α : Type} → Build α → Prop
  | field (name : String) (type : DataType) : Operation (Builder.field name type)
  | schema (fields : List (String × DataType)) : Operation (Builder.schema fields)
  | load (label location : String) (schema : Schema) (reader : Option Reader) :
      Operation (Builder.load label location schema reader)
  | store (input : Edge) (location : String) : Operation (Builder.store input location)
  | forEach (label : String) (input : Edge) (items : List (Expr × Bool)) :
      Operation (Builder.forEach label input items)
  | filter (label : String) (input : Edge) (predicate : Expr) :
      Operation (Builder.filter label input predicate)
  | join (label : String) (inputs : List (Edge × List Expr)) (type : JoinType)
      (strategy : JoinStrategy) : Operation (Builder.join label inputs type strategy)
  | cogroup (label : String) (inputs : List (Edge × List Expr × Bool)) :
      Operation (Builder.cogroup label inputs)
  | cross (label : String) (inputs : List Edge) : Operation (Builder.cross label inputs)
  | union (label : String) (inputs : List Edge) : Operation (Builder.union label inputs)
  | unionByName (label : String) (inputs : List Edge) :
      Operation (Builder.unionByName label inputs)
  | distinct (label : String) (input : Edge) : Operation (Builder.distinct label input)
  | orderBy (label : String) (input : Edge) (o : OrderBy) :
      Operation (Builder.orderBy label input o)
  | limit (label : String) (input : Edge) (count : Nat) :
      Operation (Builder.limit label input count)
  | split (label : String) (input : Edge) (predicates : List Expr) :
      Operation (Builder.split label input predicates)
  | stream (label : String) (input : Edge) (command : String) (schema : Schema) :
      Operation (Builder.stream label input command schema)

/-- A builder that operations lead to, failed ones included. -/
inductive Reachable : Builder → Prop
  | empty : Reachable .empty
  | step {α : Type} {b : Builder} {op : Build α} (h : Reachable b) (hop : Operation op) :
      Reachable (b.after op)

end Builder

/-- A plan as built, or as pruned after that. -/
inductive Plan.Made : Plan → Prop
  | built {b : Builder} {p : Plan} (hb : b.Reachable) (h : b.build = .ok p) : Made p
  | pruned {p : Plan} {config : Config} {outcome : PruneOutcome} (hp : Made p)
      (h : (p.prune config).result = .ok outcome) : Made (p.prune config).plan

/-- Every cogroup has a bag for each of its inputs. -/
def Plan.BagPerInput (p : Plan) : Prop :=
  ∀ n ∈ p.nodes, ∀ c, n.op = .cogroup c → c.bags.length = n.inputs.length

end Dataflow
