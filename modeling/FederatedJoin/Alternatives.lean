import FederatedJoin.Component
import FederatedJoin.Distinct

/-!
# Alternative sources

Nodes that offer the same content from the same sources are alternatives to each other. Of the
components that differ in alternatives only, one is kept.

## Main definitions

* `AlternativeSources` — which nodes are interchangeable.
* `JoinGraph.canonicalNodes` — a representative for every node.
* `JoinGraph.distinctComponents` — the first component for each set of representatives.
-/

namespace FederatedJoin

/-- Decides whether two nodes are interchangeable. -/
abbrev AlternativeSources := Node → Node → Bool

namespace AlternativeSources

/-- Nodes are interchangeable if they match the same triples at the same sources, of which there
is at least one. -/
def sameContentSameSources : AlternativeSources := fun a b =>
  a.triples = b.triples ∧ a.sources ≠ ∅ ∧ a.sources = b.sources

/-- No nodes are interchangeable. -/
def none : AlternativeSources := fun _ _ => false

end AlternativeSources

/-- The representatives of the nodes from index `i` on, where `representatives` are the nodes
before `i` that represent themselves. -/
def representativesFrom (interchangeable : AlternativeSources) :
    Nat → List (Nat × Node) → List Node → List Nat
  | _, _, [] => []
  | i, representatives, n :: nodes =>
    match representatives.find? fun r => interchangeable r.2 n with
    | some (j, _) => j :: representativesFrom interchangeable (i + 1) representatives nodes
    | none => i :: representativesFrom interchangeable (i + 1) (representatives ++ [(i, n)]) nodes

namespace JoinGraph

/-- The representative of every node: the first node before it that represents itself and is
interchangeable with it, or else the node itself. -/
def canonicalNodes (g : JoinGraph) (interchangeable : AlternativeSources) : List Nat :=
  representativesFrom interchangeable 0 [] g.nodes.toList

/-- The representatives of a set of nodes. Nodes without a representative stand for themselves. -/
def canonicalSet (canonical : List Nat) (s : NodeSet) : NodeSet :=
  .ofList (s.toList.map fun i => canonical.getD i i)

theorem mem_canonicalSet {canonical : List Nat} {s : NodeSet} {j : Nat} :
    j ∈ canonicalSet canonical s ↔ ∃ i ∈ s, canonical.getD i i = j := by
  simp only [canonicalSet, OrdSet.mem_ofList, List.mem_map, OrdSet.mem_toList]

theorem canonicalSet_eq_self {canonical : List Nat} (itself : ∀ i, canonical.getD i i = i)
    (s : NodeSet) : canonicalSet canonical s = s := by
  apply OrdSet.ext
  intro j
  simp only [mem_canonicalSet, itself, exists_eq_right]

/-- The first component for each set of representatives. -/
def distinctComponents (g : JoinGraph) (interchangeable : AlternativeSources)
    (components : List JoinComponent) : List JoinComponent :=
  let canonical := g.canonicalNodes interchangeable
  distinctBy (fun c => canonicalSet canonical c.nodes) components

end JoinGraph
end FederatedJoin
