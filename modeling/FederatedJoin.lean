import FederatedJoin.Plan.Annotated
import FederatedJoin.Plan.Text
import FederatedJoin.Planner
import FederatedJoin.Proofs.Planner.Correctness
import FederatedJoin.Proofs.Diagnostics
import FederatedJoin.Proofs.Search.Explanations
import FederatedJoin.Proofs.Search.BindingOrder
import FederatedJoin.Proofs.Decomposition.Classes
import FederatedJoin.Proofs.Planner.Isolation
import FederatedJoin.Proofs.Graph.Embedding
import FederatedJoin.Proofs.Planner.Monotonicity
import FederatedJoin.Proofs.JoinOrder.Outcome
import FederatedJoin.Proofs.Search.Invariants
import FederatedJoin.Proofs.Search.Forgetting
import FederatedJoin.Proofs.Planner.FragmentOrder
import FederatedJoin.Proofs.JoinOrder.Sharing
import FederatedJoin.Proofs.Decomposition.Chains
import FederatedJoin.Proofs.Deduplication
import FederatedJoin.Proofs.Search.Worklist
import FederatedJoin.Proofs.Search.Statistics
import FederatedJoin.Proofs.Planner.Samples
import FederatedJoin.Proofs.Graph.Reachability
import FederatedJoin.Proofs.Universe
import FederatedJoin.Proofs.Search.Dominance
import FederatedJoin.Proofs.Search.Bookkeeping
import FederatedJoin.Proofs.Plan.Annotated
import FederatedJoin.Proofs.Decomposition.Parents
import FederatedJoin.Proofs.Planner.Combination
import FederatedJoin.Proofs.Planner.Parallel
