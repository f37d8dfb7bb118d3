import FederatedJoin.Proofs.Search.Exactness

/-!
# What holds of a component in any graph

Nodes may match triples that the query does not ask for, or none at all. A component is then still
a connected set with the triples that it matches. But the search counts the triples up to the
greatest one of the query only, so it does not see that a node can be left out if the node matches
a triple beyond that.

* `Search.components_invariants` — what holds of the components of every search.
* `Search.not_minimal_beyondQuery` — a component that can do without a node.
-/

namespace FederatedJoin
namespace Search

variable {s : Search} {t : NodeSet} {i : Nat} {n : Node}

theorem lt_width_iff {id : TripleId} : id < s.width ↔ ∃ q ∈ s.query, id ≤ q := by
  constructor
  · unfold width
    cases hmax : s.query.max? with
    | none => exact fun h => absurd h (Nat.not_lt_zero id)
    | some greatest =>
      intro h
      exact ⟨greatest, (OrdSet.max?_eq_some_iff.1 hmax).1, Nat.le_of_lt_succ h⟩
  · intro h
    obtain ⟨q, hq, hle⟩ := h
    exact Nat.lt_of_le_of_lt hle (lt_width hq)

/-- A node that can be left out is spare if all its triples are counted. -/
theorem isSpare_of_canLeaveOut (hn : s.graph.node? i = some n)
    (hleave : s.graph.canLeaveOut t i = true) (counted : ∀ id ∈ n.triples, id < s.width) :
    s.graph.isSpare s.width t i = true := by
  rw [← JoinGraph.triplesOf_singleton hn] at counted
  rw [JoinGraph.isSpare_eq_canLeaveOut counted, hleave]

theorem exists_node?_of_mem_reached (ht : t ∈ s.reached) (hi : i ∈ t) :
    ∃ n, s.graph.node? i = some n := by
  obtain ⟨k, hk⟩ := mem_reached_iff.1 ht
  exact JoinGraph.exists_node? (JoinGraph.mem_allNodes.1 (subset_allNodes_of_mem_level hk i hi))

/-- A component matches the triples that it is said to match and is connected. Any node that it can
do without matches a triple beyond all those of the query, so a component whose nodes match no such
triple is minimal. -/
theorem components_invariants (s : Search) : ∀ c ∈ s.run.components,
    c.isCovering s.graph = true ∧ c.isConnected s.graph = true ∧
    (∀ i ∈ c.nodes, s.graph.canLeaveOut c.nodes i = true →
      ∃ n, s.graph.node? i = some n ∧ ∃ id ∈ n.triples, ∀ q ∈ s.query, q < id) ∧
    ((∀ id ∈ c.triples, ∃ q ∈ s.query, id ≤ q) → c.isMinimal s.graph = true) := by
  intro c hc
  obtain ⟨-, hreached, hanswer⟩ := mem_components_iff.1 hc
  obtain ⟨-, needed, -, heq⟩ := answer?_eq_some_iff.1 hanswer
  have htriples : s.graph.triplesOf c.nodes = c.triples := congrArg JoinComponent.triples heq
  have uncounted : ∀ i ∈ c.nodes, s.graph.canLeaveOut c.nodes i = true →
      ∃ n, s.graph.node? i = some n ∧ ∃ id ∈ n.triples, ∀ q ∈ s.query, q < id := by
    intro i hi hleave
    obtain ⟨n, hn⟩ := exists_node?_of_mem_reached hreached hi
    refine ⟨n, hn, Classical.byContradiction fun none => ?_⟩
    have hspare := isSpare_of_canLeaveOut hn hleave fun id hid => by
      refine lt_width_iff.2 (Classical.byContradiction fun beyond => none ⟨id, hid, fun q hq => ?_⟩)
      exact Nat.lt_of_not_le fun hle => beyond ⟨q, hq, hle⟩
    rw [needed i hi] at hspare
    cases hspare
  refine ⟨decide_eq_true htriples, isConnected_of_mem_components hc, uncounted, fun within => ?_⟩
  rw [JoinComponent.isMinimal_iff]
  intro i hi
  refine Bool.eq_false_iff.2 fun hleave => ?_
  obtain ⟨n, hn, id, hid, beyond⟩ := uncounted i hi hleave
  obtain ⟨q, hq, hle⟩ := within id (htriples ▸ JoinGraph.mem_triplesOf.2 ⟨i, hi, n, hn, hid⟩)
  exact absurd (beyond q hq) (Nat.not_lt.2 hle)

/-- Two nodes that can be joined and match the same triple beyond the query. -/
def beyondQuery : JoinGraph :=
  (JoinGraph.edgeless
    [.ofFragment (.ofTriples "all" (.ofList [0, 9])),
      .ofFragment (.ofTriples "beyond" (.ofList [9]))]).linkAll [(0, 1)]

theorem mem_components_beyondQuery :
    ⟨.ofList [0, 1], .ofList [0, 9]⟩ ∈
      (Search.run ⟨beyondQuery, .ofList [0], {}⟩).components := by
  refine mem_components_iff.2 ⟨by decide, ?_, by decide⟩
  exact mem_reached_iff.2 ⟨1, by decide⟩

theorem components_invariants_beyondQuery :
    ∃ c ∈ (Search.run ⟨beyondQuery, .ofList [0], {}⟩).components,
      c.isCovering beyondQuery = true ∧ c.isConnected beyondQuery = true ∧
      1 ∈ c.nodes ∧ beyondQuery.canLeaveOut c.nodes 1 = true ∧
        ∃ n, beyondQuery.node? 1 = some n ∧ ∃ id ∈ n.triples, ∀ q ∈ OrdSet.ofList [0], q < id := by
  obtain ⟨covering, connected, beyond, -⟩ :=
    components_invariants ⟨beyondQuery, .ofList [0], {}⟩ _ mem_components_beyondQuery
  have hi : 1 ∈ OrdSet.ofList [0, 1] := by decide
  have hleave : beyondQuery.canLeaveOut (.ofList [0, 1]) 1 = true := by decide
  exact ⟨_, mem_components_beyondQuery, covering, connected, hi, hleave, beyond 1 hi hleave⟩

/-- The first node alone is a component, and so are both together, although nothing is lost without
the second one. -/
theorem not_minimal_beyondQuery :
    ∃ c ∈ (Search.run ⟨beyondQuery, .ofList [0], {}⟩).components,
      c.nodes = .ofList [0, 1] ∧ c.isMinimal beyondQuery = false :=
  ⟨_, mem_components_beyondQuery, rfl, by decide⟩

end Search
end FederatedJoin
