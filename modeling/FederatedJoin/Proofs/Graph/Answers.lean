import FederatedJoin.Component
import FederatedJoin.Proofs.Graph.Connected

/-!
# Sets of nodes that answer a query

What the planner looks for, in terms of the graph alone.

* `JoinGraph.Answers` — a set of nodes that answers a query.
* `JoinGraph.MinimalCover` — what is asked of such a set apart from its inputs.
* `JoinGraph.MinimalCover.not_covered` — no smaller connected set of nodes matches the whole query.
* `JoinGraph.exists_minimalCover` — every connected set that matches the query has a minimal part
  that matches it.
-/

namespace FederatedJoin

/-- A set of nodes that answers a query: its nodes are connected, match the query between them,
cannot do without any of them, and bind each other's inputs. -/
structure JoinGraph.Answers (g : JoinGraph) (query : TripleSet) (t : NodeSet) : Prop where
  nonempty : t ≠ ∅
  known : t ⊆ g.allNodes
  connected : g.isConnected t = true
  covers : g.triplesOf t = query
  minimal : (JoinComponent.mk t query).isMinimal g = true
  bound : ∀ i ∈ t, ∀ n, g.node? i = some n → ∀ v ∈ n.inputs,
    ∃ j ∈ t, j ≠ i ∧ ∃ m, g.node? j = some m ∧ v ∈ m.results

/-- A connected set of nodes that matches the query and cannot do without any of its nodes. -/
structure JoinGraph.MinimalCover (g : JoinGraph) (query : TripleSet) (t : NodeSet) : Prop where
  nonempty : t ≠ ∅
  known : t ⊆ g.allNodes
  connected : g.isConnected t = true
  covers : g.triplesOf t = query
  minimal : (JoinComponent.mk t query).isMinimal g = true

theorem JoinGraph.Answers.minimalCover {g : JoinGraph} {query : TripleSet} {t : NodeSet}
    (h : g.Answers query t) : g.MinimalCover query t where
  nonempty := h.nonempty
  known := h.known
  connected := h.connected
  covers := h.covers
  minimal := h.minimal

namespace JoinComponent

theorem isMinimal_iff {g : JoinGraph} {c : JoinComponent} :
    c.isMinimal g = true ↔ ∀ i ∈ c.nodes, g.canLeaveOut c.nodes i = false := by
  simp [isMinimal]

end JoinComponent

namespace JoinGraph

variable {g : JoinGraph} {query : TripleSet} {s t : NodeSet} {i : Nat}

theorem unboundInputs_eq_empty_iff :
    g.unboundInputs t = ∅ ↔ ∀ i ∈ t, ∀ n, g.node? i = some n → ∀ v ∈ n.inputs,
      ∃ j ∈ t, j ≠ i ∧ ∃ m, g.node? j = some m ∧ v ∈ m.results := by
  constructor
  · intro h i hi n hn v hv
    have hbound : v ∈ g.resultsOf (t.erase i) := by
      refine Decidable.by_contra fun hnot => ?_
      exact OrdSet.not_mem_empty (h ▸ mem_unboundInputs.2 ⟨i, hi, n, hn, hv, hnot⟩)
    obtain ⟨j, hj, m, hm, hvm⟩ := mem_resultsOf.1 hbound
    obtain ⟨hjt, hji⟩ := OrdSet.mem_erase.1 hj
    exact ⟨j, hjt, hji, m, hm, hvm⟩
  · intro h
    refine Decidable.by_contra fun hne => ?_
    obtain ⟨v, hv⟩ := OrdSet.exists_mem_of_ne_empty hne
    obtain ⟨i, hi, n, hn, hvn, hnot⟩ := mem_unboundInputs.1 hv
    obtain ⟨j, hjt, hji, m, hm, hvm⟩ := h i hi n hn v hvn
    exact hnot (mem_resultsOf.2 ⟨j, OrdSet.mem_erase.2 ⟨hjt, hji⟩, m, hm, hvm⟩)

/-- The nodes of the graph match no triples outside the query. -/
theorem triplesOf_subset_of_nodes (h : ∀ n ∈ g.nodes, n.triples ⊆ query) :
    g.triplesOf t ⊆ query := by
  intro id hid
  obtain ⟨i, -, n, hn, hid⟩ := mem_triplesOf.1 hid
  exact h n (mem_nodes_of_node? hn) id hid

/-- A node that a connected set can lose can be left out if the others match the query anyway. -/
theorem canLeaveOut_of_covers (h : ∀ n ∈ g.nodes, n.triples ⊆ query)
    (covers : query ⊆ g.triplesOf (t.erase i)) (connected : g.isConnected (t.erase i) = true) :
    g.canLeaveOut t i = true := by
  unfold canLeaveOut
  cases hn : g.node? i with
  | none => rfl
  | some n =>
    simp only [decide_eq_true_eq]
    exact ⟨fun id hid => covers id (h n (mem_nodes_of_node? hn) id hid), connected⟩

namespace MinimalCover

theorem answers (ht : g.MinimalCover query t) (bound : g.unboundInputs t = ∅) :
    g.Answers query t where
  nonempty := ht.nonempty
  known := ht.known
  connected := ht.connected
  covers := ht.covers
  minimal := ht.minimal
  bound := unboundInputs_eq_empty_iff.1 bound

theorem canLeaveOut_eq_false (ht : g.MinimalCover query t) (hi : i ∈ t) :
    g.canLeaveOut t i = false :=
  JoinComponent.isMinimal_iff.1 ht.minimal i hi

theorem lt_size (ht : g.MinimalCover query t) (hi : i ∈ t) : i < g.size :=
  mem_allNodes.1 (ht.known i hi)

/-- A connected set that matches the query is never a proper part of a minimal one: the node
that is attached last on the way from one to the other could be left out. -/
theorem not_covered (ht : g.MinimalCover query t) (h : ∀ n ∈ g.nodes, n.triples ⊆ query)
    (hst : s ⊆ t) (hs : g.isConnected s = true) (hi : i ∈ s) {j : Nat} (hj : j ∈ t)
    (hjs : j ∉ s) : ¬query ⊆ g.triplesOf s := by
  intro covers
  obtain ⟨k, hkt, hks, connected⟩ := exists_isConnected_erase hs ht.connected hst hi hj hjs
  have hsub : s ⊆ t.erase k := by grind
  have hleave : g.canLeaveOut t k = true :=
    canLeaveOut_of_covers h
      (fun id hid => triplesOf_subset hsub id (covers id hid)) connected
  rw [ht.canLeaveOut_eq_false hkt] at hleave
  cases hleave

/-- The nodes that a set can lose are needed for their triples, so they match some. -/
theorem exists_mem_triplesOf_ne_empty (ht : g.MinimalCover query t) :
    ∃ i ∈ t, g.triplesOf {i} ≠ ∅ := by
  obtain ⟨j, hj⟩ := OrdSet.exists_mem_of_ne_empty ht.nonempty
  obtain ⟨i, hi, connected⟩ := exists_mem_isConnected_erase ht.connected hj
  obtain ⟨n, hn⟩ := exists_node? (ht.lt_size hi)
  refine ⟨i, hi, fun hnone => ?_⟩
  have hleave : g.canLeaveOut t i = true := by
    simp only [canLeaveOut, hn, decide_eq_true_eq]
    refine ⟨fun id hid => ?_, connected⟩
    have : id ∈ g.triplesOf {i} :=
      mem_triplesOf.2 ⟨i, OrdSet.mem_singleton.2 rfl, n, hn, hid⟩
    exact absurd (hnone ▸ this) OrdSet.not_mem_empty
  rw [ht.canLeaveOut_eq_false hi] at hleave
  cases hleave

end MinimalCover

/-! ## Minimal parts -/

/-- A node that matches something belongs to the graph, and so does all that is linked to it. -/
theorem subset_allNodes_of_isConnected (connected : g.isConnected t = true)
    (matched : g.triplesOf t ≠ ∅) : t ⊆ g.allNodes := by
  obtain ⟨id, hid⟩ := OrdSet.exists_mem_of_ne_empty matched
  obtain ⟨i, hi, n, hn, -⟩ := mem_triplesOf.1 hid
  have hlt : i < g.size := node?_isSome_iff.1 (hn ▸ rfl)
  intro j hj
  rw [mem_allNodes]
  cases isConnected_iff.1 connected i hi j hj with
  | refl _ => exact hlt
  | step _ adjacent _ => exact adjacent.lt_right

theorem triplesOf_erase_of_canLeaveOut (hi : g.canLeaveOut t i = true) :
    g.triplesOf (t.erase i) = g.triplesOf t := by
  apply OrdSet.ext
  intro id
  refine ⟨triplesOf_subset (fun j hj => (OrdSet.mem_erase.1 hj).1) id, fun hid => ?_⟩
  obtain ⟨j, hj, n, hn, hid⟩ := mem_triplesOf.1 hid
  by_cases hji : j = i
  · subst hji
    simp only [canLeaveOut, hn, decide_eq_true_eq] at hi
    exact hi.1 id hid
  · exact mem_triplesOf.2 ⟨j, OrdSet.mem_erase.2 ⟨hj, hji⟩, n, hn, hid⟩

theorem isConnected_erase_of_canLeaveOut (hi : g.canLeaveOut t i = true) (known : i < g.size) :
    g.isConnected (t.erase i) = true := by
  obtain ⟨n, hn⟩ := exists_node? known
  simp only [canLeaveOut, hn, decide_eq_true_eq] at hi
  exact hi.2

/-- Nodes that can be left out are left out one after the other, until none is left that can. -/
theorem exists_minimalCover (hne : query ≠ ∅) (connected : g.isConnected t = true)
    (covers : g.triplesOf t = query) : ∃ u, u ⊆ t ∧ g.MinimalCover query u := by
  induction hn : t.size using Nat.strongRecOn generalizing t with
  | ind n ih =>
    have known := subset_allNodes_of_isConnected connected (covers ▸ hne)
    by_cases minimal : (JoinComponent.mk t query).isMinimal g = true
    · refine ⟨t, fun _ h => h, ?_, known, connected, covers, minimal⟩
      rintro rfl
      exact hne covers.symm
    · obtain ⟨i, hi, hleave⟩ : ∃ i ∈ t, g.canLeaveOut t i = true := by
        simpa [JoinComponent.isMinimal_iff] using minimal
      obtain ⟨u, hut, hu⟩ := ih _ (hn ▸ OrdSet.size_erase_lt hi)
        (isConnected_erase_of_canLeaveOut hleave (mem_allNodes.1 (known i hi)))
        ((triplesOf_erase_of_canLeaveOut hleave).trans covers) rfl
      exact ⟨u, fun j hj => (OrdSet.mem_erase.1 (hut j hj)).1, hu⟩

end JoinGraph
end FederatedJoin
