import FederatedJoin.NodeSet
import FederatedJoin.Universe

/-!
# Errors of the planner

Why no plan is returned: either the caller broke a rule, or an exchangeable policy of the planner
returned something that cannot be planned.

## Main definitions

* `ContractViolation` — the rules for callers, and `ContractViolation.message`.
* `PolicyFault` — what policies must not return, and `PolicyFault.message`.
* `PlanningError` — either of them.
-/

namespace FederatedJoin

/-- A rule of the planner's interface that a caller broke. -/
inductive ContractViolation where
  /-- A fragment matches triples that the query does not have. -/
  | fragmentOutsideQuery (fragment : String) (triples : TripleSet)
  /-- The query has ids that are not in use in the universe. -/
  | queryOutsideUniverse (triples : TripleSet)
  /-- Some nodes of a set have no join with the rest of it. -/
  | disconnectedNodeSet (nodes pending : NodeSet)
  /-- There is no join of no nodes. -/
  | emptyNodeSet
  /-- A node index is outside the join graph. -/
  | unknownNode (node : Nat)
  deriving DecidableEq

/-- A result of a policy that cannot be planned. -/
inductive PolicyFault where
  /-- No join component is left after aggregation. -/
  | noComponentLeft
  /-- A join component matches other triples than those of the query. -/
  | componentMismatch (nodes : NodeSet) (matched query : TripleSet)
  deriving DecidableEq

/-- The reason why a planner returns no plan. -/
inductive PlanningError where
  | contract (violation : ContractViolation)
  | policy (fault : PolicyFault)
  deriving DecidableEq

/-- The message for a broken rule. -/
def ContractViolation.message : ContractViolation → String
  | fragmentOutsideQuery fragment triples =>
    "The fragment " ++ fragment ++ " claims the triples " ++ triples.text ++
      " that are not part of the query"
  | queryOutsideUniverse triples =>
    "The query refers to the triples " ++ triples.text ++
      " that are not part of the triple universe"
  | disconnectedNodeSet nodes pending =>
    "The node set " ++ nodes.text ++ " is not join-connected, could not attach " ++ pending.text
  | emptyNodeSet => "Cannot plan the join of an empty node set"
  | unknownNode node => "The node " ++ Nat.repr node ++ " is not part of the join graph"

/-- The message for a result that cannot be planned. -/
def PolicyFault.message : PolicyFault → String
  | noComponentLeft => "The sub-path aggregator removed all join components"
  | componentMismatch nodes matched query =>
    "The join component " ++ nodes.text ++ " matches " ++ matched.text ++ " instead of " ++
      query.text

/-- The message for an error. -/
def PlanningError.message : PlanningError → String
  | contract violation => violation.message
  | policy fault =>
    "An internal error that likely indicates towards a bug in the planner: " ++ fault.message

end FederatedJoin
