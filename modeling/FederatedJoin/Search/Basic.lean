import FederatedJoin.Config
import FederatedJoin.Search.JoinPath
import FederatedJoin.Search.Memo

/-!
# The search for join components

The search works in rounds. The paths of one round have the same number of nodes, and each is
extended by each node of its frontier. A path that covers the query is never extended, because a
node of any greater path could be left out. An extension with a dominated node is dropped, and the
memo drops the node sets that it remembers.

## Main definitions

* `Search` — a graph, a query and the limits.
* `Search.expand` — what comes of one path.
* `Search.rounds`, `Search.allRounds` — what comes of all paths, by rounds.
-/

namespace FederatedJoin

/-- A graph whose join components are sought, and the query that they answer. -/
structure Search where
  graph : JoinGraph
  query : TripleSet
  config : Config := {}

/-- What comes of a path that is taken up: it covers the query, or it is extended. -/
inductive Expansion where
  | complete (path : JoinPath)
  | extended (path : JoinPath) (successors : List JoinPath) (dominated : Nat)

namespace Expansion

/-- The path that was taken up. -/
def path : Expansion → JoinPath
  | complete path => path
  | extended path _ _ => path

/-- The path, if it covers the query. -/
def complete? : Expansion → Option JoinPath
  | complete path => some path
  | extended _ _ _ => none

/-- The extensions of the path. -/
def successors : Expansion → List JoinPath
  | complete _ => []
  | extended _ successors _ => successors

/-- How many extensions were dropped because of a dominated node. -/
def dominated : Expansion → Nat
  | complete _ => 0
  | extended _ _ dominated => dominated

/-- The path, if it does not cover the query and has no extension. -/
def deadEnd? : Expansion → Option JoinPath
  | extended path [] _ => some path
  | _ => none

end Expansion

namespace Search

/-- One more than the greatest triple of the query. -/
def width (s : Search) : Nat :=
  match s.query.max? with
  | none => 0
  | some greatest => greatest + 1

/-- The paths of a single node that matches some triple. -/
def seeds (s : Search) : List JoinPath :=
  (s.graph.allNodes.toList.map (JoinPath.single s.graph s.width)).filter (!·.matched.isEmpty)

/-- Takes up a path. -/
def expand (s : Search) (p : JoinPath) : Expansion :=
  if p.covers s.query then .complete p
  else
    let extensions := (s.graph.frontier p.nodes).toList.map (p.extend s.graph s.width)
    .extended p (extensions.filterMap Except.toOption) (extensions.countP (!·.isOk))

/-- Takes up the paths of one round, and then those of the following rounds. -/
def rounds (s : Search) : Nat → Memo NodeSet → List JoinPath → List (List Expansion) × Memo NodeSet
  | 0, memo, _ => ([], memo)
  | k + 1, memo, paths =>
    let expansions := paths.map s.expand
    let (memo, next) := memo.insertAll JoinPath.nodes (expansions.flatMap Expansion.successors)
    let (later, memo) := s.rounds k memo next
    (expansions :: later, memo)

/-- All rounds of the search. The paths of round `k` have `k` nodes, so there are no paths left
after as many rounds as there are nodes. -/
def allRounds (s : Search) : List (List Expansion) × Memo NodeSet :=
  let (memo, paths) := Memo.insertAll JoinPath.nodes { capacity := s.config.memoCapacity } s.seeds
  s.rounds s.graph.size memo paths

end Search
end FederatedJoin
