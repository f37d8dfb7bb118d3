import FederatedJoin.Proofs.Graph.Answers
import FederatedJoin.Proofs.Search.Rounds

/-!
# Exactness of the search

If the nodes match nothing but triples of the query, the components of a search are exactly the
sets of nodes that answer it. The short cuts of the search lose none of them: a set that answers
the query contains no smaller connected set that covers it, and no set with a dominated node.

* `Search.exists_mem_level` — every minimal set that matches the query is built up level by level.
* `Search.mem_components_iff_answers` — the components of a search.
-/

namespace FederatedJoin
namespace Search

variable {s : Search} {t u : NodeSet} {k i : Nat}

theorem lt_width {id : TripleId} (h : id ∈ s.query) : id < s.width := by
  unfold width
  cases hmax : s.query.max? with
  | none =>
    have : s.query.toList = [] := List.getLast?_eq_none_iff.1 hmax
    exact absurd (this ▸ h : id ∈ []) List.not_mem_nil
  | some greatest =>
    exact Nat.lt_succ_of_le ((OrdSet.max?_eq_some_iff.1 hmax).2 id h)

/-- All triples of the nodes are counted. -/
theorem isSpare_eq_canLeaveOut (h : ∀ n ∈ s.graph.nodes, n.triples ⊆ s.query) :
    s.graph.isSpare s.width t i = s.graph.canLeaveOut t i :=
  JoinGraph.isSpare_eq_canLeaveOut fun id hid =>
    lt_width (JoinGraph.triplesOf_subset_of_nodes h id hid)

section MinimalCover
variable (h : ∀ n ∈ s.graph.nodes, n.triples ⊆ s.query) (ht : s.graph.MinimalCover s.query t)
include h ht

/-- A dominated node could be left out of the greater set as well. -/
theorem dominatedIn?_eq_none (hut : u ⊆ t) : s.graph.dominatedIn? s.width u = none := by
  unfold JoinGraph.dominatedIn?
  rw [List.find?_eq_none]
  intro j hj dominated
  obtain ⟨neighbors, spare⟩ := Bool.and_eq_true_iff.1 dominated
  have hjt : j ∈ t := hut j hj
  have hspare := JoinGraph.isSpare_of_dominated hut (ht.lt_size hjt)
    (of_decide_eq_true neighbors) spare ht.connected
  rw [isSpare_eq_canLeaveOut h, ht.canLeaveOut_eq_false hjt] at hspare
  cases hspare

/-- Up to its size, every level has a part of a minimal set that matches the query. -/
theorem exists_mem_level (hk : k < t.size) : ∃ u ∈ s.level k, u ⊆ t := by
  induction k with
  | zero =>
    obtain ⟨i, hi, matched⟩ := ht.exists_mem_triplesOf_ne_empty
    refine ⟨{i}, mem_level_zero.2 ⟨i, ht.lt_size hi, matched, rfl⟩, ?_⟩
    intro j hj
    exact OrdSet.mem_singleton.1 hj ▸ hi
  | succ k ih =>
    obtain ⟨u, hu, hut⟩ := ih (by omega)
    have connected := isConnected_of_mem_level hu
    have hsize := size_of_mem_level hu
    obtain ⟨i, hi⟩ : ∃ i, i ∈ u :=
      OrdSet.exists_mem_of_ne_empty fun hempty => by simp [hempty, OrdSet.size] at hsize
    have hrest : ¬t ⊆ u := fun hsub => by
      have := OrdSet.size_le_of_subset hsub
      omega
    obtain ⟨j, hjt, hju⟩ := OrdSet.exists_mem_of_not_subset hrest
    obtain ⟨m, hmt, hm⟩ := JoinGraph.exists_mem_frontier ht.connected hut hi hjt hju
    have hsub : u.insert m ⊆ t := by grind
    refine ⟨u.insert m, mem_level_succ.2 ⟨u, hu, mem_successorSets.2 ⟨?_, ?_, ?_⟩⟩, hsub⟩
    · exact ht.not_covered h hut connected hi hjt hju
    · exact ⟨m, hm, rfl⟩
    · exact dominatedIn?_eq_none h ht hsub

theorem mem_reached_of_minimalCover : t ∈ s.reached := by
  have hpos : 0 < t.size := by
    obtain ⟨i, hi⟩ := OrdSet.exists_mem_of_ne_empty ht.nonempty
    exact List.length_pos_of_mem hi
  obtain ⟨u, hu, hut⟩ := exists_mem_level h ht (k := t.size - 1) (by omega)
  have hsize := size_of_mem_level hu
  have heq : u = t := OrdSet.eq_of_subset_of_size_le hut (by omega)
  exact mem_reached_iff.2 ⟨t.size - 1, heq ▸ hu⟩

end MinimalCover

theorem minimalCover_of_mem_reached (h : ∀ n ∈ s.graph.nodes, n.triples ⊆ s.query)
    (ht : t ∈ s.reached) (covers : s.query ⊆ s.graph.triplesOf t)
    (spare : ∀ i ∈ t, s.graph.isSpare s.width t i = false) : s.graph.MinimalCover s.query t := by
  obtain ⟨k, hk⟩ := mem_reached_iff.1 ht
  have hsize := size_of_mem_level hk
  constructor
  · intro hempty
    simp [hempty, OrdSet.size] at hsize
  · exact subset_allNodes_of_mem_level hk
  · exact isConnected_of_mem_level hk
  · apply OrdSet.ext
    intro id
    exact ⟨JoinGraph.triplesOf_subset_of_nodes h id, covers id⟩
  · rw [JoinComponent.isMinimal_iff]
    intro i hi
    rw [← isSpare_eq_canLeaveOut h]
    exact spare i hi

/-- What the search asks of a set of nodes that it reaches is that it answers the query. -/
theorem answers_of_mem_reached (h : ∀ n ∈ s.graph.nodes, n.triples ⊆ s.query)
    (ht : t ∈ s.reached) {c : JoinComponent} (hc : s.answer? t = some c) :
    s.graph.Answers s.query t := by
  obtain ⟨covers, spare, unbound, -⟩ := answer?_eq_some_iff.1 hc
  exact (minimalCover_of_mem_reached h ht covers spare).answers unbound

theorem answer?_of_answers (h : ∀ n ∈ s.graph.nodes, n.triples ⊆ s.query)
    (ht : s.graph.Answers s.query t) : s.answer? t = some ⟨t, s.graph.triplesOf t⟩ := by
  refine answer?_eq_some_iff.2 ⟨?_, ?_, ?_, rfl⟩
  · rw [ht.covers]
    exact fun _ hid => hid
  · intro i hi
    rw [isSpare_eq_canLeaveOut h]
    exact ht.minimalCover.canLeaveOut_eq_false hi
  · exact JoinGraph.unboundInputs_eq_empty_iff.2 ht.bound

theorem mem_components_iff_answers (h : ∀ n ∈ s.graph.nodes, n.triples ⊆ s.query)
    {c : JoinComponent} :
    c ∈ s.run.components ↔
      s.graph.Answers s.query c.nodes ∧ c.triples = s.graph.triplesOf c.nodes := by
  rw [mem_components_iff]
  constructor
  · intro hc
    obtain ⟨-, reached, answer⟩ := hc
    refine ⟨answers_of_mem_reached h reached answer, ?_⟩
    exact congrArg JoinComponent.triples (answer?_eq_some_iff.1 answer).2.2.2.symm
  · intro hc
    obtain ⟨answers, triples⟩ := hc
    refine ⟨?_, mem_reached_of_minimalCover h answers.minimalCover, ?_⟩
    · rw [← answers.covers]
      exact JoinGraph.triplesOf_subset answers.known
    · rw [answer?_of_answers h answers, ← triples]

/-- The components of a search are exactly the sets of nodes that answer the query, each found
once. -/
theorem run_components_exact (s : Search) (h : ∀ n ∈ s.graph.nodes, n.triples ⊆ s.query) :
    (s.run.components.map JoinComponent.nodes).Nodup ∧
      ∀ c : JoinComponent, c ∈ s.run.components ↔
        s.graph.Answers s.query c.nodes ∧ c.triples = s.graph.triplesOf c.nodes :=
  ⟨nodup_nodes_components s, fun _ => mem_components_iff_answers h⟩

/-- A chain of three nodes. The triples of the node between the others are matched by them. -/
def bridge : JoinGraph :=
  (JoinGraph.edgeless
    [.ofFragment (.ofTriples "left" (.ofList [0, 1])),
      .ofFragment (.ofTriples "between" (.ofList [1, 2])),
      .ofFragment (.ofTriples "right" (.ofList [2, 3]))]).linkAll [(0, 1), (1, 2)]

/-- The chain is a component, because the outer nodes cannot be joined directly. -/
theorem run_components_exact_bridge :
    (∀ n ∈ bridge.nodes, n.triples ⊆ .ofList [0, 1, 2, 3]) ∧
      ⟨.ofList [0, 1, 2], .ofList [0, 1, 2, 3]⟩ ∈
        (Search.run ⟨bridge, .ofList [0, 1, 2, 3], {}⟩).components := by
  have inside : ∀ n ∈ bridge.nodes, n.triples ⊆ .ofList [0, 1, 2, 3] := by decide
  have answers : bridge.Answers (.ofList [0, 1, 2, 3]) (.ofList [0, 1, 2]) :=
    { nonempty := by decide
      known := by decide
      connected := by decide
      covers := by decide
      minimal := by decide
      bound := JoinGraph.unboundInputs_eq_empty_iff.1 (by decide) }
  have exact := (run_components_exact ⟨bridge, .ofList [0, 1, 2, 3], {}⟩ inside).2
  exact ⟨inside, (exact _).2 ⟨answers, by decide⟩⟩

end Search
end FederatedJoin
