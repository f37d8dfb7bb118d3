import FederatedJoin.Graph.Basic
import FederatedJoin.JoinOrder.Interning

/-!
# Left-deep join orders

A join order turns a set of nodes into a tree of joins. The left-deep order starts with the lowest
node and attaches the lowest node that can be joined with one of those before it, until no node is
left.

## Main definitions

* `JoinOrder` — how a set of nodes is joined.
* `JoinOrder.leaf` — the plan of a single node.
* `JoinOrder.leftDeep` — the left-deep order.
-/

namespace FederatedJoin

/-- The plan that answers with any member of a node. -/
def Node.plan (n : Node) : Plan :=
  .ofAlternatives (.fragment n.first) (n.others.map .fragment)

/-- Turns a set of nodes into a tree of joins. -/
abbrev JoinOrder := JoinGraph → NodeSet → JoinPlanning Plan

namespace JoinOrder

/-- The plan of a single node. -/
def leaf (g : JoinGraph) (i : Nat) : JoinPlanning Plan :=
  match g.node? i with
  | none => throw (.unknownNode i)
  | some n => Interning.canonicalize [i] n.plan

/-- The lowest pending node that can be joined with an included one. -/
def nextNode? (g : JoinGraph) (included pending : NodeSet) : Option Nat :=
  pending.toList.find? fun j => included.toList.any fun i => g.Adjacent i j

theorem mem_of_nextNode?_eq_some {g : JoinGraph} {included pending : NodeSet} {i : Nat}
    (h : nextNode? g included pending = some i) : i ∈ pending :=
  List.mem_of_find?_eq_some h

/-- Attaches all pending nodes to a tree, which joins the nodes of `sequence`. -/
def attach (g : JoinGraph) (included pending : NodeSet) (sequence : List Nat) (tree : Plan) :
    JoinPlanning Plan :=
  match _ : nextNode? g included pending with
  | none =>
    if pending.isEmpty then pure tree
    else throw (.disconnectedNodeSet (included ∪ pending) pending)
  | some i => do
    let right ← leaf g i
    let sequence := sequence ++ [i]
    let tree ← Interning.canonicalize sequence (.join tree right)
    attach g (included.insert i) (pending.erase i) sequence tree
termination_by pending.size
decreasing_by exact OrdSet.size_erase_lt (mem_of_nextNode?_eq_some ‹_›)

/-- The left-deep order. -/
def leftDeep : JoinOrder := fun g nodes =>
  match nodes.min? with
  | none => throw .emptyNodeSet
  | some root => do
    let tree ← leaf g root
    attach g {root} (nodes.erase root) [root] tree

end JoinOrder
end FederatedJoin
