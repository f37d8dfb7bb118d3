import FederatedJoin.Component
import FederatedJoin.Diagnostics
import FederatedJoin.Distinct
import FederatedJoin.Search.Basic

/-!
# The outcome of a search

Every path that covers the query gets a verdict: it is a join component, it can do without one of
its nodes, or it has unbound inputs.

## Main definitions

* `Search.judge` — the verdict on a path.
* `Search.diagnose` — samples of the attempts that failed.
* `Search.run` — the components, the diagnostics and the statistics.
-/

namespace FederatedJoin

/-- How much work a search did. -/
structure Statistics where
  /-- Paths that were taken up. -/
  expanded : Nat := 0
  /-- Extensions that were dropped because of a dominated node. -/
  rejectedDominated : Nat := 0
  /-- Paths that cover the query and can do without one of their nodes. -/
  rejectedRedundant : Nat := 0
  /-- Extensions that the memo refused. -/
  memoHits : Nat := 0
  /-- Node sets that the memo forgot. -/
  memoEvictions : Nat := 0
  deriving DecidableEq

/-- What a search found. -/
structure SearchOutcome where
  components : List JoinComponent := []
  diagnostics : Diagnostics := ∅
  statistics : Statistics := {}
  deriving DecidableEq

/-- The verdict on a path that covers the query. -/
inductive Verdict where
  | component (component : JoinComponent)
  | redundant (node : Nat)
  | unbound (sample : UnboundInputs)
  deriving DecidableEq

namespace Verdict

/-- The component, if the path is one. -/
def component? : Verdict → Option JoinComponent
  | component c => some c
  | _ => none

/-- The unbound inputs, if these are what the path fails by. -/
def unbound? : Verdict → Option UnboundInputs
  | unbound sample => some sample
  | _ => none

/-- Whether the path can do without one of its nodes. -/
def isRedundant : Verdict → Bool
  | redundant _ => true
  | _ => false

end Verdict

namespace Search

/-- The triples of the query that no node matches. -/
def unreachable (s : Search) : TripleSet := s.query \ s.graph.triplesOf s.graph.allNodes

/-- The verdict on a path that covers the query. -/
def judge (s : Search) (p : JoinPath) : Verdict :=
  match p.redundantNode? s.graph with
  | some node => .redundant node
  | none =>
    let missing := s.graph.unboundInputs p.nodes
    if missing.isEmpty then .component ⟨p.nodes, p.matched⟩
    else .unbound ⟨p.nodes, (s.graph.nodesOf p.nodes).map Node.label, missing⟩

/-- Samples of the attempts that failed. -/
def diagnose (s : Search) (expansions : List Expansion) (verdicts : List Verdict) : Diagnostics :=
  let limits := s.config.limits
  let deadEnds := expansions.filterMap Expansion.deadEnd?
  let nearMisses := (deadEnds.map (s.query \ ·.matched)).foldl (Diagnostics.addNearMiss limits) ∅
  (verdicts.filterMap Verdict.unbound?).foldl (Diagnostics.addUnboundInputs limits) nearMisses

/-- Runs the search. A node set that was taken up more than once is one component. A query with
triples that no node matches is not searched at all. -/
def run (s : Search) : SearchOutcome :=
  if s.unreachable.isEmpty then
    let (rounds, memo) := s.allRounds
    let expansions := rounds.flatten
    let verdicts := (expansions.filterMap Expansion.complete?).map s.judge
    { components := distinctBy JoinComponent.nodes (verdicts.filterMap Verdict.component?)
      diagnostics := s.diagnose expansions verdicts
      statistics :=
        { expanded := expansions.length
          rejectedDominated := (expansions.map Expansion.dominated).foldr (· + ·) 0
          rejectedRedundant := verdicts.countP Verdict.isRedundant
          memoHits := memo.hits
          memoEvictions := memo.evictions } }
  else { diagnostics := .ofUnreachable s.unreachable }

end Search
end FederatedJoin
