import FederatedJoin.Alternatives
import FederatedJoin.Decomposition.Basic
import FederatedJoin.Graph.Grouping
import FederatedJoin.JoinOrder.LeftDeep
import FederatedJoin.Search.Outcome

/-!
# The planner

The planner answers a query with the fragments that sources offer for it. It divides the query
into independent parts, finds the join components of each part, and answers a part with any of
them.

## Main definitions

* `Planner` — the policies and the limits, with the defaults of the library.
* `Planner.planConnected`, `Planner.planParts` — a query as a whole, and in parts.
* `Planner.plan` — a plan for a query.
-/

namespace FederatedJoin

/-- Replaces the join components of a graph before they are planned. The graph may be replaced with
them. -/
abbrev Aggregator := JoinGraph → List JoinComponent → JoinGraph × List JoinComponent

/-- Keeps the graph and its components. -/
def Aggregator.identity : Aggregator := fun g components => (g, components)

/-- The policies and the limits of planning. -/
structure Planner where
  config : Config := {}
  validity : JoinValidity := .sharedVariable
  alternatives : AlternativeSources := .sameContentSameSources
  aggregator : Aggregator := .identity
  joinOrder : JoinOrder := .leftDeep
  decomposer : Decomposer := .variableConnected

/-- A plan, with the number of join components that it was made from. -/
structure PlanOutcome where
  plan : Plan
  componentCount : Nat
  deriving DecidableEq

namespace Planner

/-- The outcome for a query without a plan. -/
def noPlan (query : TripleSet) (diagnostics : Diagnostics) : PlanOutcome :=
  ⟨.empty query diagnostics, 0⟩

/-- Plans one or more join components with shared sub-plans. -/
def planComponents (p : Planner) (g : JoinGraph) (first : JoinComponent)
    (others : List JoinComponent) : Except ContractViolation PlanOutcome :=
  let planning : JoinPlanning PlanOutcome := do
    let plan ← p.joinOrder g first.nodes
    let plans ← others.mapM fun c => p.joinOrder g c.nodes
    return ⟨.ofAlternatives plan plans, others.length + 1⟩
  (planning.run.run ∅).1

/-- Plans a query as a whole. -/
def planConnected (p : Planner) (query : TripleSet) (fragments : List Fragment) :
    Except PlanningError PlanOutcome :=
  if fragments.isEmpty then .ok (noPlan query (.ofUnreachable query))
  else
    let graph := JoinGraph.build (Grouping.ofFragments fragments).nodes.toList p.validity
    let found := Search.run { graph, query, config := p.config }
    if found.components.isEmpty then .ok (noPlan query found.diagnostics)
    else
      let (graph, components) :=
        p.aggregator graph (graph.distinctComponents p.alternatives found.components)
      match components, components.find? (·.triples ≠ query) with
      | [], _ => .error (.policy .noComponentLeft)
      | _, some c => .error (.policy (.componentMismatch c.nodes c.triples query))
      | first :: others, none => (p.planComponents graph first others).mapError .contract

/-- Combines the outcomes of the parts of a query. -/
def combine (query : TripleSet) (first : PlanOutcome) (others : List PlanOutcome) : PlanOutcome :=
  let outcomes := first :: others
  let failures := outcomes.filterMap (·.plan.empty?)
  if failures.length = outcomes.length then
    noPlan query ((failures.map Prod.snd).foldl Diagnostics.merge ∅)
  else
    ⟨(others.map PlanOutcome.plan).foldl .join first.plan,
      (outcomes.map PlanOutcome.componentCount).foldr (· + ·) 0⟩

/-- Plans a part of a query with the fragments that lie in it. -/
def planPart (p : Planner) (fragments : List Fragment) (part : TripleSet) :
    Except PlanningError PlanOutcome :=
  p.planConnected part (fragments.filter fun f => ¬f.triples.isEmpty ∧ f.triples ⊆ part)

/-- Plans a query in one or more parts. -/
def planParts (p : Planner) (query : TripleSet) (fragments : List Fragment) (first : TripleSet)
    (others : List TripleSet) : Except PlanningError PlanOutcome := do
  let outcome ← p.planPart fragments first
  let outcomes ← others.mapM (p.planPart fragments)
  return combine query outcome outcomes

/-- The first rule for callers that a query with its fragments breaks. -/
def violation? (u : Universe) (query : TripleSet) (fragments : List Fragment) :
    Option ContractViolation :=
  if u.containsAll query then
    (fragments.find? (¬·.triples ⊆ query)).map fun f =>
      .fragmentOutsideQuery f.name (f.triples \ query)
  else some (.queryOutsideUniverse (query \ u.fullSet))

/-- A plan that answers a query over a universe with some fragments. -/
def plan (p : Planner) (u : Universe) (query : TripleSet) (fragments : List Fragment) :
    Except PlanningError PlanOutcome :=
  match violation? u query fragments with
  | some violation => .error (.contract violation)
  | none =>
    if query.isEmpty then .ok (noPlan ∅ ∅)
    else
      match mergeSpanned (p.decomposer u query) fragments with
      | first :: second :: others => p.planParts query fragments first (second :: others)
      | _ => p.planConnected query fragments

end Planner
end FederatedJoin
