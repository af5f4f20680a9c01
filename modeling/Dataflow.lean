import Dataflow.Codec.Expr
import Dataflow.Codec.Plan
import Dataflow.Execution.Reader
import Dataflow.Execution.Run
import Dataflow.Plan.Builder
import Dataflow.Proofs.Codec.RoundTrip
import Dataflow.Proofs.Execution.Conforms
import Dataflow.Proofs.Execution.Grouped
import Dataflow.Proofs.Execution.Outputs
import Dataflow.Proofs.Expr.Rebuilt
import Dataflow.Proofs.Narrowing.Consistent
import Dataflow.Proofs.Narrowing.Fixed
import Dataflow.Proofs.Plan.Fresh
import Dataflow.Proofs.Plan.Typed
import Dataflow.Proofs.Prune.Keys
import Dataflow.Proofs.Prune.Losses
import Dataflow.Proofs.Prune.Outcome
import Dataflow.Proofs.Prune.Reported
import Dataflow.Proofs.Prune.Requests
import Dataflow.Proofs.Prune.Selections
import Dataflow.Proofs.Prune.Settings
import Dataflow.Proofs.Prune.Sound
import Dataflow.Proofs.Prune.Total
import Dataflow.Proofs.Requirement.Exact
import Dataflow.Proofs.Requirement.Growth
import Dataflow.Proofs.Requirement.Progress
import Dataflow.Prune.Pass
