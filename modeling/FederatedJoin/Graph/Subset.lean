import FederatedJoin.Graph.Basic

/-!
# Sets of nodes of a join graph

What the nodes of a set match, bind and require together.

## Main definitions

* `JoinGraph.allNodes`, `JoinGraph.nodesOf` — all indices, and the nodes behind a set of them.
* `JoinGraph.triplesOf`, `JoinGraph.resultsOf` — what the nodes of a set match and bind.
* `JoinGraph.unboundInputs` — the inputs that no other node of a set binds.
-/

namespace FederatedJoin
namespace JoinGraph

/-- All nodes. -/
def allNodes (g : JoinGraph) : NodeSet := ⟨List.range g.size, List.pairwise_lt_range⟩

@[simp] theorem mem_allNodes {g : JoinGraph} {i : Nat} : i ∈ g.allNodes ↔ i < g.size :=
  List.mem_range

theorem size_allNodes (g : JoinGraph) : g.allNodes.size = g.size := List.length_range

/-- The nodes of `s` that exist, by ascending index. -/
def nodesOf (g : JoinGraph) (s : NodeSet) : List Node := s.toList.filterMap g.node?

theorem mem_nodesOf {g : JoinGraph} {s : NodeSet} {n : Node} :
    n ∈ g.nodesOf s ↔ ∃ i ∈ s, g.node? i = some n :=
  List.mem_filterMap

/-- The members of `f n` for the nodes `n` of `s`. -/
def unionOver {α : Type} [LE α] [LT α] [DecidableLT α] [Std.IsLinearOrder α] [Std.LawfulOrderLT α]
    (g : JoinGraph) (f : Node → OrdSet α) (s : NodeSet) : OrdSet α :=
  .unions ((g.nodesOf s).map f)

theorem mem_unionOver {α : Type} [LE α] [LT α] [DecidableLT α] [Std.IsLinearOrder α]
    [Std.LawfulOrderLT α] {g : JoinGraph} {f : Node → OrdSet α} {s : NodeSet} {a : α} :
    a ∈ g.unionOver f s ↔ ∃ i ∈ s, ∃ n, g.node? i = some n ∧ a ∈ f n := by
  simp only [unionOver, OrdSet.mem_unions, List.mem_map, mem_nodesOf]
  constructor
  · rintro ⟨_, ⟨n, ⟨i, hi, hn⟩, rfl⟩, ha⟩
    exact ⟨i, hi, n, hn, ha⟩
  · rintro ⟨i, hi, n, hn, ha⟩
    exact ⟨_, ⟨n, ⟨i, hi, hn⟩, rfl⟩, ha⟩

/-- The triples matched by the nodes of `s`. -/
def triplesOf (g : JoinGraph) (s : NodeSet) : TripleSet := g.unionOver Node.triples s

theorem mem_triplesOf {g : JoinGraph} {s : NodeSet} {id : TripleId} :
    id ∈ g.triplesOf s ↔ ∃ i ∈ s, ∃ n, g.node? i = some n ∧ id ∈ n.triples :=
  mem_unionOver

theorem triplesOf_subset {g : JoinGraph} {s t : NodeSet} (h : s ⊆ t) :
    g.triplesOf s ⊆ g.triplesOf t := by
  intro id hid
  obtain ⟨i, hi, found⟩ := mem_triplesOf.1 hid
  exact mem_triplesOf.2 ⟨i, h i hi, found⟩

/-- The variables bound by the nodes of `s`. -/
def resultsOf (g : JoinGraph) (s : NodeSet) : VariableSet := g.unionOver Node.results s

theorem mem_resultsOf {g : JoinGraph} {s : NodeSet} {v : Variable} :
    v ∈ g.resultsOf s ↔ ∃ i ∈ s, ∃ n, g.node? i = some n ∧ v ∈ n.results :=
  mem_unionOver

/-- The inputs of the nodes of `s` that no other node of `s` binds. -/
def unboundInputs (g : JoinGraph) (s : NodeSet) : VariableSet :=
  .unions (s.toList.filterMap fun i => (g.node? i).map (·.inputs \ g.resultsOf (s.erase i)))

theorem mem_unboundInputs {g : JoinGraph} {s : NodeSet} {v : Variable} :
    v ∈ g.unboundInputs s ↔
      ∃ i ∈ s, ∃ n, g.node? i = some n ∧ v ∈ n.inputs ∧ v ∉ g.resultsOf (s.erase i) := by
  simp only [unboundInputs, OrdSet.mem_unions, List.mem_filterMap, Option.map_eq_some_iff,
    OrdSet.mem_toList]
  constructor
  · rintro ⟨_, ⟨i, hi, n, hn, rfl⟩, hv⟩
    exact ⟨i, hi, n, hn, OrdSet.mem_sdiff.1 hv⟩
  · rintro ⟨i, hi, n, hn, hv⟩
    exact ⟨_, ⟨i, hi, n, hn, rfl⟩, OrdSet.mem_sdiff.2 hv⟩

end JoinGraph
end FederatedJoin
