import FederatedJoin.Graph.Basic
import Mathlib.Data.List.Basic

/-!
# The graph of a validity predicate

* `JoinGraph.node?_build` — the graph of some nodes has these nodes.
* `JoinGraph.adjacent_build_iff` — two nodes can be joined if the predicate accepts them.
* `JoinGraph.adjacent_build_of_symm` — their order does not matter if it does not matter to the
  predicate.
-/

namespace FederatedJoin

theorem JoinValidity.sharedVariable_comm (a b : Node) :
    sharedVariable a b = sharedVariable b a := by
  simp only [sharedVariable, or_comm, OrdSet.disjoint_comm]

namespace JoinGraph

variable {nodes : List Node} {validity : JoinValidity} {i j : Nat}

theorem nodes_build (nodes : List Node) (validity : JoinValidity) :
    (build nodes validity).nodes = nodes.toArray := by
  rw [build, nodes_linkAll]
  rfl

theorem node?_build (nodes : List Node) (validity : JoinValidity) (i : Nat) :
    (build nodes validity).node? i = nodes[i]? := by
  rw [node?, nodes_build, List.getElem?_toArray]

theorem not_adjacent_edgeless : ¬(edgeless nodes).Adjacent i j := by
  simp [Adjacent, neighbors, edgeless, Array.getD]

theorem mem_pairsBelow {n : Nat} : (i, j) ∈ pairsBelow n ↔ i < j ∧ j < n := by
  simp [pairsBelow, and_comm]

/-- The predicate is asked about the node with the smaller index first. -/
theorem adjacent_build_iff (hij : i < j) :
    (build nodes validity).Adjacent i j ↔
      ∃ a b, nodes[i]? = some a ∧ nodes[j]? = some b ∧ validity a b = true := by
  have hnode : ∀ k, (edgeless nodes).node? k = nodes[k]? := fun k => List.getElem?_toArray
  have hsize : (edgeless nodes).size = nodes.length := List.size_toArray
  rw [build, adjacent_linkAll, or_iff_right not_adjacent_edgeless]
  simp only [List.mem_filter, mem_pairsBelow, hnode, hsize]
  constructor
  · rintro ⟨-, ⟨-, accepted⟩ | ⟨⟨hji, -⟩, -⟩⟩
    · cases ha : nodes[i]? with
      | none => simp [ha] at accepted
      | some a =>
        cases hb : nodes[j]? with
        | none => simp [ha, hb] at accepted
        | some b => exact ⟨a, b, rfl, rfl, by simpa [ha, hb] using accepted⟩
    · omega
  · rintro ⟨a, b, ha, hb, accepted⟩
    have hi : i < nodes.length := (List.getElem?_eq_some_iff.1 ha).1
    have hj : j < nodes.length := (List.getElem?_eq_some_iff.1 hb).1
    exact ⟨⟨Nat.ne_of_lt hij, hi, hj⟩, .inl ⟨⟨hij, hj⟩, by simpa [ha, hb] using accepted⟩⟩

theorem adjacent_build_of_symm (symm : ∀ a b, validity a b = validity b a) :
    (build nodes validity).Adjacent i j ↔
      i ≠ j ∧ ∃ a b, nodes[i]? = some a ∧ nodes[j]? = some b ∧ validity a b = true := by
  rcases Nat.lt_trichotomy i j with hij | rfl | hji
  · rw [adjacent_build_iff hij, and_iff_right (Nat.ne_of_lt hij)]
  · exact iff_of_false (fun h => h.ne rfl) fun h => h.1 rfl
  · rw [and_iff_right (Nat.ne_of_gt hji)]
    calc (build nodes validity).Adjacent i j
      _ ↔ (build nodes validity).Adjacent j i := ⟨.symm, .symm⟩
      _ ↔ ∃ b a, nodes[j]? = some b ∧ nodes[i]? = some a ∧ validity b a = true :=
        adjacent_build_iff hji
      _ ↔ ∃ a b, nodes[i]? = some a ∧ nodes[j]? = some b ∧ validity a b = true := by
        rw [exists_comm]
        simp only [symm, and_left_comm]

end JoinGraph
end FederatedJoin
