import FederatedJoin.Proofs.Graph.Answers
import FederatedJoin.Proofs.Graph.Build
import FederatedJoin.Proofs.Graph.Grouping
import Mathlib.Tactic.Choose

/-!
# Finding the nodes of one graph in another

More fragments lead to more nodes, in another order, but the nodes that there were are still there
and can be joined as before. What answered a query answers it still.

* `JoinGraph.Embeds` — where the nodes of one graph are found in another.
* `JoinGraph.Embeds.answers` — what answers a query in one graph answers it in the other.
* `JoinGraph.exists_embeds` — the graph of some fragments embeds into the graph of more fragments.
-/

namespace FederatedJoin
namespace JoinGraph

/-- Node `i` of a graph has its place in another one as node `place i`, which has the same
interface. Two places can be joined exactly if the nodes can. -/
structure Embeds (g h : JoinGraph) (place : Nat → Nat) : Prop where
  node : ∀ {i n}, g.node? i = some n → ∃ m, h.node? (place i) = some m ∧ m.interface = n.interface
  injective : ∀ {i j}, i < g.size → j < g.size → place i = place j → i = j
  adjacent_iff : ∀ {i j}, i < g.size → j < g.size →
    (h.Adjacent (place i) (place j) ↔ g.Adjacent i j)

/-- The places of a set of nodes. -/
def places (place : Nat → Nat) (s : NodeSet) : NodeSet := .ofList (s.toList.map place)

variable {g h : JoinGraph} {place : Nat → Nat} {query : TripleSet} {s t : NodeSet} {i j k : Nat}

theorem mem_places : k ∈ places place s ↔ ∃ i ∈ s, place i = k := by
  simp only [places, OrdSet.mem_ofList, List.mem_map, OrdSet.mem_toList]

theorem mem_places_of_mem (hi : i ∈ s) : place i ∈ places place s :=
  mem_places.2 ⟨i, hi, rfl⟩

namespace Embeds

/-! ## Nodes -/

theorem triplesOf_places (e : g.Embeds h place) (known : s ⊆ g.allNodes) :
    h.triplesOf (places place s) = g.triplesOf s := by
  apply OrdSet.ext
  intro id
  simp only [mem_triplesOf, mem_places]
  constructor
  · rintro ⟨_, ⟨i, hi, rfl⟩, m, hm, hid⟩
    obtain ⟨n, hn⟩ := exists_node? (mem_allNodes.1 (known i hi))
    obtain ⟨m', hm', hinterface⟩ := e.node hn
    cases hm.symm.trans hm'
    exact ⟨i, hi, n, hn, by rwa [Node.triples, ← hinterface]⟩
  · rintro ⟨i, hi, n, hn, hid⟩
    obtain ⟨m, hm, hinterface⟩ := e.node hn
    exact ⟨_, ⟨i, hi, rfl⟩, m, hm, by rwa [Node.triples, hinterface]⟩

theorem places_erase (e : g.Embeds h place) (known : s ⊆ g.allNodes) (hi : i ∈ s) :
    places place (s.erase i) = (places place s).erase (place i) := by
  apply OrdSet.ext
  intro k
  simp only [mem_places, OrdSet.mem_erase]
  constructor
  · rintro ⟨j, ⟨hj, hji⟩, rfl⟩
    exact ⟨⟨j, hj, rfl⟩, fun heq =>
      hji (e.injective (mem_allNodes.1 (known j hj)) (mem_allNodes.1 (known i hi)) heq)⟩
  · rintro ⟨⟨j, hj, rfl⟩, hne⟩
    exact ⟨j, ⟨hj, fun hji => hne (hji ▸ rfl)⟩, rfl⟩

/-! ## Paths -/

theorem linked_places (e : g.Embeds h place) (path : g.Linked s i j) :
    h.Linked (places place s) (place i) (place j) := by
  induction path with
  | refl mem => exact .refl (mem_places_of_mem mem)
  | step path adjacent mem ih =>
    refine .step ih ?_ (mem_places_of_mem mem)
    exact (e.adjacent_iff adjacent.lt_left adjacent.lt_right).2 adjacent

/-- A path between places leads from node to node. -/
theorem exists_linked (e : g.Embeds h place) (known : s ⊆ g.allNodes) (hi : i ∈ s)
    (path : h.Linked (places place s) (place i) k) : ∃ j, place j = k ∧ g.Linked s i j := by
  induction path with
  | refl _ => exact ⟨i, rfl, .refl hi⟩
  | step _ adjacent mem ih =>
    obtain ⟨j, rfl, path⟩ := ih
    obtain ⟨l, hl, rfl⟩ := mem_places.1 mem
    have hj := mem_allNodes.1 (known j path.mem_right)
    exact ⟨l, rfl, .step path ((e.adjacent_iff hj (mem_allNodes.1 (known l hl))).1 adjacent) hl⟩

theorem isConnected_places (e : g.Embeds h place) (known : s ⊆ g.allNodes) :
    h.isConnected (places place s) = g.isConnected s := by
  rw [Bool.eq_iff_iff, isConnected_iff, isConnected_iff]
  constructor
  · intro linked i hi j hj
    obtain ⟨l, heq, path⟩ := e.exists_linked known hi
      (linked (place i) (mem_places_of_mem hi) (place j) (mem_places_of_mem hj))
    have hl := mem_allNodes.1 (known l path.mem_right)
    exact e.injective hl (mem_allNodes.1 (known j hj)) heq ▸ path
  · intro linked a ha b hb
    obtain ⟨i, hi, rfl⟩ := mem_places.1 ha
    obtain ⟨j, hj, rfl⟩ := mem_places.1 hb
    exact e.linked_places (linked i hi j hj)

/-! ## Answers -/

theorem canLeaveOut_places (e : g.Embeds h place) (known : s ⊆ g.allNodes) (hi : i ∈ s) :
    h.canLeaveOut (places place s) (place i) = g.canLeaveOut s i := by
  have hsub : s.erase i ⊆ g.allNodes := fun j hj => known j (OrdSet.mem_erase.1 hj).1
  obtain ⟨n, hn⟩ := exists_node? (mem_allNodes.1 (known i hi))
  obtain ⟨m, hm, hinterface⟩ := e.node hn
  have htriples : m.triples = n.triples := congrArg Interface.triples hinterface
  rw [canLeaveOut, canLeaveOut, hm, hn]
  dsimp only
  rw [htriples, ← e.places_erase known hi, e.triplesOf_places hsub, e.isConnected_places hsub]

/-- What answers a query in one graph answers it in the other. -/
theorem answers (e : g.Embeds h place) (ht : g.Answers query t) :
    h.Answers query (places place t) where
  nonempty := by
    obtain ⟨i, hi⟩ := OrdSet.exists_mem_of_ne_empty ht.nonempty
    exact fun hempty => OrdSet.not_mem_empty (hempty ▸ mem_places_of_mem hi)
  known := by
    intro k hk
    obtain ⟨i, hi, rfl⟩ := mem_places.1 hk
    obtain ⟨n, hn⟩ := exists_node? (mem_allNodes.1 (ht.known i hi))
    obtain ⟨m, hm, -⟩ := e.node hn
    exact mem_allNodes.2 (node?_isSome_iff.1 (hm ▸ rfl))
  connected := (e.isConnected_places ht.known).trans ht.connected
  covers := (e.triplesOf_places ht.known).trans ht.covers
  minimal := by
    refine JoinComponent.isMinimal_iff.2 fun k hk => ?_
    obtain ⟨i, hi, rfl⟩ := mem_places.1 hk
    exact (e.canLeaveOut_places ht.known hi).trans (ht.minimalCover.canLeaveOut_eq_false hi)
  bound := by
    intro k hk m hm v hv
    obtain ⟨i, hi, rfl⟩ := mem_places.1 hk
    obtain ⟨n, hn⟩ := exists_node? (mem_allNodes.1 (ht.known i hi))
    obtain ⟨m', hm', hinterface⟩ := e.node hn
    cases hm.symm.trans hm'
    rw [Node.inputs, hinterface] at hv
    obtain ⟨j, hj, hji, o, ho, hvo⟩ := ht.bound i hi n hn v hv
    obtain ⟨o', ho', hinterface'⟩ := e.node ho
    refine ⟨place j, mem_places_of_mem hj, fun heq => hji ?_, o', ho',
      by rwa [Node.results, hinterface']⟩
    exact e.injective (mem_allNodes.1 (ht.known j hj)) (mem_allNodes.1 (ht.known i hi)) heq

end Embeds

/-! ## More fragments -/

theorem sharedVariable_congr {a a' b b' : Node} (ha : a.interface = a'.interface)
    (hb : b.interface = b'.interface) :
    JoinValidity.sharedVariable a b = JoinValidity.sharedVariable a' b' := by
  unfold JoinValidity.sharedVariable
  rw [decide_eq_decide]
  simp only [Node.vars, Node.inputs, Node.results, ha, hb]

/-- The graph of some fragments embeds into the graph of more fragments. -/
theorem exists_embeds {fragments fragments' : List Fragment}
    (more : ∀ f ∈ fragments, f ∈ fragments') :
    ∃ place, (build (Node.group fragments) .sharedVariable).Embeds
      (build (Node.group fragments') .sharedVariable) place := by
  have found : ∀ i : Nat, ∃ k : Nat, ∀ n : Node, (Node.group fragments)[i]? = some n →
      ∃ m : Node, (Node.group fragments')[k]? = some m ∧ m.interface = n.interface := by
    intro i
    cases hn : (Node.group fragments)[i]? with
    | none => exact ⟨0, nofun⟩
    | some n =>
      obtain ⟨m, hm, hinterface⟩ :=
        Node.exists_mem_group_of_subset more (List.mem_of_getElem? hn)
      obtain ⟨k, hk⟩ := List.getElem?_of_mem hm
      exact ⟨k, fun _ h => ⟨m, hk, Option.some.inj h ▸ hinterface⟩⟩
  choose place hplace using found
  have known : ∀ i, i < (build (Node.group fragments) .sharedVariable).size →
      ∃ n m : Node, (Node.group fragments)[i]? = some n ∧
        (Node.group fragments')[place i]? = some m ∧ m.interface = n.interface := by
    intro i hi
    obtain ⟨n, hn⟩ := exists_node? hi
    rw [node?_build] at hn
    exact ⟨n, (hplace i n hn).imp fun m hm => ⟨hn, hm⟩⟩
  have injective : ∀ {i j}, i < (build (Node.group fragments) .sharedVariable).size →
      j < (build (Node.group fragments) .sharedVariable).size → place i = place j → i = j := by
    intro i j hi hj heq
    obtain ⟨n, n', hn, hn', hinterface⟩ := known i hi
    obtain ⟨m, m', hm, hm', hinterface'⟩ := known j hj
    cases (heq ▸ hn').symm.trans hm'
    exact Node.eq_of_interface_eq hn hm (hinterface.symm.trans hinterface')
  refine ⟨place, ?_, injective, ?_⟩
  · intro i n hn
    rw [node?_build] at hn ⊢
    exact hplace i n hn
  · intro i j hi hj
    obtain ⟨n, n', hn, hn', hinterface⟩ := known i hi
    obtain ⟨m, m', hm, hm', hinterface'⟩ := known j hj
    rw [adjacent_build_of_symm JoinValidity.sharedVariable_comm,
      adjacent_build_of_symm JoinValidity.sharedVariable_comm, hn, hm, hn', hm',
      ne_eq, (⟨injective hi hj, congrArg place⟩ : place i = place j ↔ i = j)]
    simp [sharedVariable_congr hinterface hinterface']

end JoinGraph
end FederatedJoin
