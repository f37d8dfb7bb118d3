import FederatedJoin.Proofs.Alternatives
import FederatedJoin.Proofs.Graph.Embedding

/-!
# The same nodes with other numbers

The same fragments in another order lead to the same nodes. Their indices, the order of their
members and the representatives of interchangeable nodes may be different ones.

* `JoinGraph.Renumbers` — where the nodes of one graph are found in another, with the same members.
* `JoinGraph.exists_renumbers` — the graphs of the same fragments.
* `JoinGraph.Renumbers.canonicalSet_places_eq_iff` — which sets of nodes have the same
  representatives does not depend on the numbers.
-/

namespace FederatedJoin
namespace JoinGraph

/-- Node `i` of a graph has its place in another one as node `place i`, which has the same
members. -/
structure Renumbers (g h : JoinGraph) (place : Nat → Nat) : Prop extends g.Embeds h place where
  sameMembers : ∀ {i n m}, g.node? i = some n → h.node? (place i) = some m → n.SameMembers m

theorem exists_renumbers {fragments fragments' : List Fragment}
    (same : ∀ f, f ∈ fragments ↔ f ∈ fragments') :
    ∃ place, (build (Node.group fragments) .sharedVariable).Renumbers
      (build (Node.group fragments') .sharedVariable) place := by
  obtain ⟨place, e⟩ := exists_embeds fun f hf => (same f).1 hf
  refine ⟨place, e, fun {i n m} hn hm => ?_⟩
  obtain ⟨_, hm', hinterface⟩ := e.node hn
  cases hm.symm.trans hm'
  rw [node?_build] at hn hm
  refine ⟨hinterface.symm, fun f => ?_⟩
  rw [Node.mem_members_group (List.mem_of_getElem? hn),
    Node.mem_members_group (List.mem_of_getElem? hm), same, hinterface]

namespace Renumbers

variable {interchangeable : AlternativeSources} {g h : JoinGraph} {place : Nat → Nat}
variable {s t : NodeSet} {i j : Nat} (r : g.Renumbers h place)
include r

/-- The places of the nodes of a component have the same fragments. -/
theorem mem_fragments_iff {c c' : JoinComponent} (known : c.nodes ⊆ g.allNodes)
    (hplaces : c'.nodes = places place c.nodes) {f : Fragment} :
    f ∈ c'.fragments h ↔ f ∈ c.fragments g := by
  simp only [JoinComponent.fragments, List.mem_flatMap, mem_nodesOf, hplaces, mem_places]
  constructor
  · intro hf
    obtain ⟨m, ⟨_, ⟨i, hi, rfl⟩, hm⟩, hf⟩ := hf
    obtain ⟨n, hn⟩ := exists_node? (mem_allNodes.1 (known i hi))
    exact ⟨n, ⟨i, hi, hn⟩, ((r.sameMembers hn hm).mem_iff f).2 hf⟩
  · intro hf
    obtain ⟨n, ⟨i, hi, hn⟩, hf⟩ := hf
    obtain ⟨m, hm, -⟩ := r.node hn
    exact ⟨m, ⟨place i, ⟨i, hi, rfl⟩, hm⟩, ((r.sameMembers hn hm).mem_iff f).1 hf⟩

variable (coherent : interchangeable.Coherent)
include coherent

theorem canonical_eq_iff (hi : i < g.size) (hj : j < g.size) :
    (h.canonicalNodes interchangeable).getD (place i) (place i) =
        (h.canonicalNodes interchangeable).getD (place j) (place j) ↔
      (g.canonicalNodes interchangeable).getD i i =
        (g.canonicalNodes interchangeable).getD j j := by
  obtain ⟨n, hn⟩ := exists_node? hi
  obtain ⟨m, hm⟩ := exists_node? hj
  obtain ⟨n', hn', -⟩ := r.node hn
  obtain ⟨m', hm', -⟩ := r.node hm
  rw [coherent.canonical_eq_iff hn' hm', coherent.canonical_eq_iff hn hm,
    coherent.congr (r.sameMembers hn hn') (r.sameMembers hm hm'),
    (⟨r.injective hi hj, congrArg place⟩ : place i = place j ↔ i = j)]

theorem canonicalSet_places_subset_iff (hs : s ⊆ g.allNodes) (ht : t ⊆ g.allNodes) :
    canonicalSet (h.canonicalNodes interchangeable) (places place s) ⊆
        canonicalSet (h.canonicalNodes interchangeable) (places place t) ↔
      canonicalSet (g.canonicalNodes interchangeable) s ⊆
        canonicalSet (g.canonicalNodes interchangeable) t := by
  have same : ∀ i ∈ s, ∀ j ∈ t, _ := fun i hi j hj =>
    r.canonical_eq_iff coherent (mem_allNodes.1 (ht j hj)) (mem_allNodes.1 (hs i hi))
  constructor
  · intro hsub k hk
    obtain ⟨i, hi, rfl⟩ := mem_canonicalSet.1 hk
    obtain ⟨_, hplace, heq⟩ := mem_canonicalSet.1
      (hsub _ (mem_canonicalSet.2 ⟨place i, mem_places_of_mem hi, rfl⟩))
    obtain ⟨j, hj, rfl⟩ := mem_places.1 hplace
    exact mem_canonicalSet.2 ⟨j, hj, (same i hi j hj).1 heq⟩
  · intro hsub k hk
    obtain ⟨_, hplace, rfl⟩ := mem_canonicalSet.1 hk
    obtain ⟨i, hi, rfl⟩ := mem_places.1 hplace
    obtain ⟨j, hj, heq⟩ := mem_canonicalSet.1 (hsub _ (mem_canonicalSet.2 ⟨i, hi, rfl⟩))
    exact mem_canonicalSet.2 ⟨place j, mem_places_of_mem hj, (same i hi j hj).2 heq⟩

/-- Whether two sets of nodes have the same representatives does not depend on the numbers. -/
theorem canonicalSet_places_eq_iff (hs : s ⊆ g.allNodes) (ht : t ⊆ g.allNodes) :
    canonicalSet (h.canonicalNodes interchangeable) (places place s) =
        canonicalSet (h.canonicalNodes interchangeable) (places place t) ↔
      canonicalSet (g.canonicalNodes interchangeable) s =
        canonicalSet (g.canonicalNodes interchangeable) t := by
  rw [OrdSet.eq_iff_subset, OrdSet.eq_iff_subset, r.canonicalSet_places_subset_iff coherent hs ht,
    r.canonicalSet_places_subset_iff coherent ht hs]

end Renumbers

/-- If no nodes are interchangeable, each represents itself. -/
theorem canonicalSet_none (g : JoinGraph) (s : NodeSet) :
    canonicalSet (g.canonicalNodes .none) s = s := by
  have itself : ∀ i : Nat, (g.canonicalNodes .none).getD i i = i := by
    intro i
    have represents := represents_canonicalNodes g .none
    by_cases hi : i < (g.canonicalNodes .none).length
    · have hn := List.getElem?_eq_getElem (represents.length_eq ▸ hi)
      rcases represents.choice hn (List.getElem?_eq_getElem hi) with heq | ⟨-, -, _, -, hnone⟩
      · rw [List.getD_eq_getElem?_getD, List.getElem?_eq_getElem hi, Option.getD_some, heq]
      · cases hnone
    · rw [List.getD_eq_getElem?_getD, List.getElem?_eq_none (Nat.le_of_not_lt hi),
        Option.getD_none]
  exact canonicalSet_eq_self itself s

end JoinGraph
end FederatedJoin
