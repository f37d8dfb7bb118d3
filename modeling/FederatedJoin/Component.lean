import FederatedJoin.Graph.Connectivity
import FederatedJoin.Graph.Subset

/-!
# Join components

A join component is a set of nodes that answers the whole query: its nodes match all triples, are
connected by joins, and cannot do without any of them.

## Main definitions

* `JoinComponent` — a set of nodes with the triples it is said to match.
* `JoinComponent.isCovering`, `JoinComponent.isMinimal`, `JoinComponent.isConnected`.
* `JoinGraph.canLeaveOut` — a node without which the others do as well.
-/

namespace FederatedJoin

/-- A set of nodes with the triples it is said to match. -/
structure JoinComponent where
  nodes : NodeSet
  triples : TripleSet
  deriving DecidableEq

/-- Whether node `i` can be left out of `s`: the other nodes match its triples and stay connected.
A node outside the graph can be left out. -/
def JoinGraph.canLeaveOut (g : JoinGraph) (s : NodeSet) (i : Nat) : Bool :=
  match g.node? i with
  | none => true
  | some n => n.triples ⊆ g.triplesOf (s.erase i) ∧ g.isConnected (s.erase i)

namespace JoinComponent

/-- The fragments of the nodes. -/
def fragments (c : JoinComponent) (g : JoinGraph) : List Fragment :=
  (g.nodesOf c.nodes).flatMap Node.members

/-- Whether the triples are those that the nodes match. -/
def isCovering (c : JoinComponent) (g : JoinGraph) : Bool := g.triplesOf c.nodes = c.triples

/-- Whether no node can be left out. -/
def isMinimal (c : JoinComponent) (g : JoinGraph) : Bool :=
  c.nodes.toList.all fun i => !g.canLeaveOut c.nodes i

/-- Whether the nodes are connected by joins. -/
def isConnected (c : JoinComponent) (g : JoinGraph) : Bool := g.isConnected c.nodes

end JoinComponent
end FederatedJoin
