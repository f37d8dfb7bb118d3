import FederatedJoin.Proofs.Graph.Answers
import FederatedJoin.Proofs.Search.Grown

/-!
# What a path keeps of its nodes

A path adds up the triples of its nodes and a tally of their matches while it grows, and nothing is
worked out again. What it has kept agrees with what its nodes match, in whatever order they came,
so redundancy by the tally and minimality by the union of the other nodes are the same.

* `JoinGraph.Replaceable` — a node that the others can replace.
* `JoinPath.Grown.redundantNode?_eq_some_iff` — the redundant node is the lowest replaceable one.
* `JoinPath.Grown.occurrences_le` — the tally counts no further than there are nodes.
-/

namespace FederatedJoin

variable {g : JoinGraph} {width i : Nat} {s : NodeSet} {id : TripleId}

namespace JoinGraph

/-- The other nodes of `s` can replace node `i`: they match all its triples, each of which is below
`width`, and they are connected without it. -/
structure Replaceable (g : JoinGraph) (width : Nat) (s : NodeSet) (i : Nat) : Prop where
  mem : i ∈ s
  matched : ∀ n, g.node? i = some n → ∀ id ∈ n.triples,
    id < width ∧ ∃ j ∈ s, j ≠ i ∧ ∃ m, g.node? j = some m ∧ id ∈ m.triples
  connected : g.isConnected (s.erase i) = true

theorem replaceable_iff (known : i < g.size) :
    g.Replaceable width s i ↔ i ∈ s ∧ g.isSpare width s i = true := by
  obtain ⟨n, hn⟩ := exists_node? known
  have others : ∀ id, id ∈ g.triplesOf (s.erase i) ↔
      ∃ j ∈ s, j ≠ i ∧ ∃ m, g.node? j = some m ∧ id ∈ m.triples := by
    intro id
    simp only [mem_triplesOf, OrdSet.mem_erase, and_assoc]
  rw [isSpare_iff hn]
  constructor
  · intro h
    exact ⟨h.mem, fun id hid => (h.matched n hn id hid).imp_right (others id).2, h.connected⟩
  · rintro ⟨hi, matched, connected⟩
    refine ⟨hi, fun m hm id hid => ?_, connected⟩
    cases hn.symm.trans hm
    exact (matched id hid).imp_right (others id).1

theorem matchCount_le_size : g.matchCount s id ≤ s.size :=
  Nat.le_trans List.countP_le_length (List.length_filterMap_le _ _)

end JoinGraph

namespace JoinPath

variable {p : JoinPath}

namespace Grown

variable (h : p.Grown g width)
include h

theorem size_le : p.nodes.size ≤ g.size := by
  rw [← JoinGraph.size_allNodes g]
  exact OrdSet.size_le_of_subset fun i hi => JoinGraph.mem_allNodes.2 (h.known i hi)

theorem occurrences_le (id : TripleId) : p.occurrences id ≤ g.size := by
  rw [h.tracks.occurrences_eq]
  split
  · exact Nat.le_trans JoinGraph.matchCount_le_size h.size_le
  · exact Nat.zero_le _

theorem replaceable_iff : g.Replaceable width p.nodes i ↔
    i ∈ p.nodes ∧ g.isSpare width p.nodes i = true := by
  by_cases hi : i ∈ p.nodes
  · exact JoinGraph.replaceable_iff (h.known i hi)
  · exact iff_of_false (fun replaceable => hi replaceable.mem) fun spare => hi spare.1

theorem redundantNode?_eq_some_iff : p.redundantNode? g = some i ↔
    g.Replaceable width p.nodes i ∧ ∀ j < i, ¬g.Replaceable width p.nodes j := by
  rw [h.redundantNode?_eq, OrdSet.find?_toList_eq_some_iff, ← h.replaceable_iff]
  refine and_congr_right fun _ => ⟨fun least j hj replaceable => ?_, fun lowest j hj spare => ?_⟩
  · obtain ⟨hmem, spare⟩ := h.replaceable_iff.1 replaceable
    exact Nat.not_lt.2 (least j hmem spare) hj
  · exact Nat.not_lt.1 fun hlt => lowest j hlt (h.replaceable_iff.2 ⟨hj, spare⟩)

/-- The tally finds no redundant node exactly if the union of the other nodes' triples finds none
that could be left out. -/
theorem redundantNode?_eq_none_iff (counted : ∀ id ∈ p.matched, id < width) (triples : TripleSet) :
    p.redundantNode? g = none ↔ (JoinComponent.mk p.nodes triples).isMinimal g = true := by
  rw [h.tracks.matched_eq] at counted
  rw [h.redundantNode?_eq, List.find?_eq_none, JoinComponent.isMinimal_iff]
  refine forall₂_congr fun i hi => ?_
  have own : g.triplesOf {i} ⊆ g.triplesOf p.nodes :=
    JoinGraph.triplesOf_subset fun j hj => OrdSet.mem_singleton.1 hj ▸ hi
  rw [JoinGraph.isSpare_eq_canLeaveOut fun id hid => counted id (own id hid), Bool.not_eq_true]

end Grown

/-- However a path has grown, its nodes are connected, the triples and the tally that it has kept
are those of its nodes, and no counter exceeds 32 bits. So its redundant node is the lowest one that
the others can replace, and if all its triples are counted there is none exactly if the nodes are
minimal. -/
theorem kept_agrees (g : JoinGraph) (width : Nat) (p : JoinPath) (small : g.size < UInt32.size)
    (grown : p.Grown g width) :
    g.isConnected p.nodes = true ∧
    p.matched = g.triplesOf p.nodes ∧
    (∀ id, p.occurrences id = if id < width then g.matchCount p.nodes id else 0) ∧
    (∀ id, p.occurrences id < UInt32.size) ∧
    (∀ i, p.redundantNode? g = some i ↔
      g.Replaceable width p.nodes i ∧ ∀ j < i, ¬g.Replaceable width p.nodes j) ∧
    ((∀ id ∈ p.matched, id < width) → ∀ triples,
      (p.redundantNode? g = none ↔ (JoinComponent.mk p.nodes triples).isMinimal g = true)) := by
  refine ⟨grown.isConnected, grown.tracks.matched_eq, grown.tracks.occurrences_eq, fun id => ?_,
    fun i => grown.redundantNode?_eq_some_iff, grown.redundantNode?_eq_none_iff⟩
  exact Nat.lt_of_le_of_lt (grown.occurrences_le id) small

/-- Two nodes with a third one between them, which matches a triple of the first one only. -/
def middle : JoinGraph :=
  (JoinGraph.edgeless
    [.ofFragment (.ofTriples "left" (.ofList [0, 1])),
      .ofFragment (.ofTriples "middle" (.ofList [1])),
      .ofFragment (.ofTriples "right" (.ofList [2]))]).linkAll [(0, 1), (1, 2)]

/-- The path of the left node and the one in the middle. -/
def middlePath : JoinPath := (JoinPath.single middle 3 0).add middle 3 1

/-- The node in the middle is redundant until the right one is added. -/
theorem kept_agrees_middle :
    middle.size < UInt32.size ∧ middlePath.Grown middle 3 ∧
    middlePath.occurrences 1 = 2 ∧ middlePath.redundantNode? middle = some 1 ∧
    (middlePath.add middle 3 2).Grown middle 3 ∧
    (middlePath.add middle 3 2).redundantNode? middle = none := by
  have small : middle.size < UInt32.size := by decide
  have grown : middlePath.Grown middle 3 := .add (.single (by decide)) (by decide)
  have grown' : (middlePath.add middle 3 2).Grown middle 3 := .add grown (by decide)
  obtain ⟨-, -, occurrences, -, redundant, -⟩ := kept_agrees middle 3 middlePath small grown
  obtain ⟨-, matched, -, -, -, minimal⟩ := kept_agrees middle 3 _ small grown'
  refine ⟨small, grown, occurrences 1, (redundant 1).2 ?_, grown', (minimal ?_ ∅).2 (by decide)⟩
  · rw [← grown.redundantNode?_eq_some_iff, grown.redundantNode?_eq]
    decide
  · rw [matched]
    decide

end JoinPath
end FederatedJoin
