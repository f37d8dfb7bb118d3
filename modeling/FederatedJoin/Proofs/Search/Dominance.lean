import FederatedJoin.Proofs.Graph.Answers
import FederatedJoin.Proofs.Search.Grown

/-!
# Dominated nodes

The search drops an extension of a path if a node of it is dominated: redundant, and without
neighbours outside the extension. Redundancy alone would not be enough, since a redundant node may
become the only link to nodes that are added later. A dominated node stays redundant whatever is
added, so nothing that is minimal is lost.

* `JoinGraph.Dominated.mono` — a dominated node stays dominated.
* `JoinPath.extend_eq_error_iff` — which extensions are dropped.
* `JoinPath.Grown.dominated_of_extend_eq_error` — what is known of the node that is named.
-/

namespace FederatedJoin

variable {g : JoinGraph} {width i v : Nat} {s t : NodeSet}

namespace JoinGraph

/-- A node of `s` that `s` can do without and that has no neighbours outside `s`. -/
structure Dominated (g : JoinGraph) (width : Nat) (s : NodeSet) (v : Nat) : Prop where
  mem : v ∈ s
  neighbors : g.neighbors v ⊆ s
  spare : g.isSpare width s v = true

theorem dominated_of_dominatedIn? (h : g.dominatedIn? width s = some v) :
    g.Dominated width s v := by
  have hmem : v ∈ s := List.mem_of_find?_eq_some h
  have hfound : (decide (g.neighbors v ⊆ s) && g.isSpare width s v) = true :=
    List.find?_some (p := fun i => g.neighbors i ⊆ s && g.isSpare width s i) h
  obtain ⟨hneighbors, hspare⟩ := Bool.and_eq_true_iff.1 hfound
  exact ⟨hmem, of_decide_eq_true hneighbors, hspare⟩

/-- A dominated node stays dominated, because all its neighbours are in the smaller set already. -/
theorem Dominated.mono (h : g.Dominated width s v) (known : v < g.size) (hst : s ⊆ t)
    (connected : g.isConnected t = true) : g.Dominated width t v where
  mem := hst v h.mem
  neighbors i hi := hst i (h.neighbors i hi)
  spare := isSpare_of_dominated hst known h.neighbors h.spare connected

theorem Dominated.not_isMinimal (h : g.Dominated width t v) (triples : TripleSet) :
    (JoinComponent.mk t triples).isMinimal g = false := by
  refine Bool.eq_false_iff.2 fun minimal => ?_
  have needed : g.canLeaveOut t v = false := JoinComponent.isMinimal_iff.1 minimal v h.mem
  have spare := h.spare
  rw [isSpare, needed, Bool.and_false] at spare
  cases spare

end JoinGraph

namespace JoinPath

variable {p : JoinPath}

/-- An extension is dropped for the first of its dominated nodes. -/
theorem extend_eq_error_iff :
    p.extend g width i = .error v ↔ (p.add g width i).dominatedNode? g = some v := by
  unfold extend
  cases h : (p.add g width i).dominatedNode? g <;> simp [h]

theorem Grown.dominated_of_extend_eq_error (h : p.Grown g width) (hi : i ∈ g.frontier p.nodes)
    (rejected : p.extend g width i = .error v) : g.Dominated width (p.nodes.insert i) v := by
  have hfirst := extend_eq_error_iff.1 rejected
  rw [(h.add hi).dominatedNode?_eq, nodes_add_of_mem_frontier width hi] at hfirst
  exact JoinGraph.dominated_of_dominatedIn? hfirst

/-- If an extension is dropped for a node, that node is redundant in every connected set of nodes
that contains the extension, and in every path that does. None of these sets is minimal. -/
theorem redundant_of_extend_eq_error (g : JoinGraph) (width : Nat) (p : JoinPath) (i v : Nat)
    (grown : p.Grown g width) (next : i ∈ g.frontier p.nodes)
    (rejected : p.extend g width i = .error v) :
    (∀ t, p.nodes ⊆ t → i ∈ t → g.isConnected t = true →
      v ∈ t ∧
      (∃ n, g.node? v = some n ∧
        ∀ id ∈ n.triples, ∃ j ∈ t, j ≠ v ∧ ∃ m, g.node? j = some m ∧ id ∈ m.triples) ∧
      g.isConnected (t.erase v) = true ∧
      ∀ triples, (JoinComponent.mk t triples).isMinimal g = false) ∧
    ∀ q : JoinPath, q.Grown g width → p.nodes ⊆ q.nodes → i ∈ q.nodes →
      q.isRedundant g v = true := by
  have dominated := grown.dominated_of_extend_eq_error next rejected
  have known : v < g.size := by
    have hmem := dominated.mem
    rw [← nodes_add_of_mem_frontier width next] at hmem
    exact (grown.add next).known v hmem
  have stays : ∀ t, p.nodes ⊆ t → i ∈ t → g.isConnected t = true → g.Dominated width t v := by
    intro t hpt hit connected
    refine dominated.mono known (fun j hj => ?_) connected
    rcases OrdSet.mem_insert.1 hj with rfl | hj
    · exact hit
    · exact hpt j hj
  refine ⟨fun t hpt hit connected => ?_, fun q hq hpq hiq => ?_⟩
  · have hdominated := stays t hpt hit connected
    obtain ⟨n, hn⟩ := JoinGraph.exists_node? known
    obtain ⟨matched, without⟩ := (JoinGraph.isSpare_iff hn).1 hdominated.spare
    refine ⟨hdominated.mem, ⟨n, hn, fun id hid => ?_⟩, without, hdominated.not_isMinimal⟩
    obtain ⟨j, hj, m, hm, hidm⟩ := JoinGraph.mem_triplesOf.1 (matched id hid).2
    obtain ⟨hjt, hjv⟩ := OrdSet.mem_erase.1 hj
    exact ⟨j, hjt, hjv, m, hm, hidm⟩
  · have hdominated := stays q.nodes hpq hiq hq.isConnected
    rw [hq.isRedundant_eq hdominated.mem]
    exact hdominated.spare

/-- A ring of three nodes, the second of which matches nothing, and a node next to the third. -/
def ringWithTail : JoinGraph :=
  (JoinGraph.edgeless
    [.ofFragment (.ofTriples "first" (.ofList [0])), .ofFragment (.ofTriples "second" ∅),
      .ofFragment (.ofTriples "third" (.ofList [1])),
      .ofFragment (.ofTriples "tail" (.ofList [2]))]).linkAll [(0, 1), (1, 2), (0, 2), (2, 3)]

/-- The path of the first two nodes of the ring. -/
def ringPath : JoinPath := (JoinPath.single ringWithTail 3 0).add ringWithTail 3 1

theorem redundant_of_extend_eq_error_ring :
    ringPath.Grown ringWithTail 3 ∧ 2 ∈ ringWithTail.frontier ringPath.nodes ∧
      ringPath.extend ringWithTail 3 2 = .error 1 ∧
      ringWithTail.isConnected (.ofList [0, 1, 2, 3]) = true ∧
      ringWithTail.isConnected ((OrdSet.ofList [0, 1, 2, 3]).erase 1) = true ∧
      (JoinComponent.mk (.ofList [0, 1, 2, 3]) (.ofList [0, 1, 2])).isMinimal ringWithTail =
        false := by
  have grown : ringPath.Grown ringWithTail 3 := .add (.single (by decide)) (by decide)
  have next : 2 ∈ ringWithTail.frontier ringPath.nodes := by decide
  have rejected : ringPath.extend ringWithTail 3 2 = .error 1 := by
    rw [extend_eq_error_iff, (grown.add next).dominatedNode?_eq]
    decide
  have connected : ringWithTail.isConnected (.ofList [0, 1, 2, 3]) = true := by decide
  obtain ⟨-, -, without, notMinimal⟩ :=
    (redundant_of_extend_eq_error ringWithTail 3 ringPath 2 1 grown next rejected).1
      (.ofList [0, 1, 2, 3]) (by decide) (by decide) connected
  exact ⟨grown, next, rejected, connected, without, notMinimal _⟩

end JoinPath
end FederatedJoin
