import FederatedJoin.Proofs.Graph.Build
import FederatedJoin.Proofs.Graph.Connected
import Mathlib.Combinatorics.SimpleGraph.Paths

/-!
# Connectivity as graph connectivity

A join graph is an undirected graph without loops, however it was made, and a set of its nodes is
connected if any two of them are joined by a path within the set.

* `JoinGraph.toSimpleGraph` — a join graph as a graph on all indices.
* `JoinGraph.linked_iff_exists_path` — paths within a set, as paths of this graph.
* `JoinGraph.isConnected_iff_size` — a set is connected if as many nodes are reached as it has.
* `JoinGraph.Presents` — what the stored neighbours say about a list of nodes.
* `JoinGraph.adjacent_linkAll_edgeless`, `JoinGraph.ofEdges_eq_error_iff` — the graph of a list of
  edges, and what a list is refused for.
-/

namespace FederatedJoin
namespace JoinGraph

variable {g : JoinGraph} {nodes : List Node} {edges : List (Nat × Nat)} {s : NodeSet}
variable {i j k : Nat}

/-! ## Paths -/

/-- The graph on all indices in which two nodes are adjacent if they can be joined. -/
def toSimpleGraph (g : JoinGraph) : SimpleGraph Nat where
  Adj := g.Adjacent
  symm := ⟨fun _ _ => Adjacent.symm⟩
  loopless := ⟨fun _ h => h.ne rfl⟩

@[simp] theorem toSimpleGraph_adj : g.toSimpleGraph.Adj i j ↔ g.Adjacent i j := Iff.rfl

theorem Linked.exists_walk (h : g.Linked s i j) :
    ∃ w : g.toSimpleGraph.Walk i j, ∀ k ∈ w.support, k ∈ s := by
  induction h with
  | refl mem => exact ⟨.nil, by simpa using mem⟩
  | step _ adjacent mem ih =>
    obtain ⟨w, hw⟩ := ih
    refine ⟨w.concat (toSimpleGraph_adj.2 adjacent), ?_⟩
    simpa [SimpleGraph.Walk.support_concat, or_imp, forall_and] using ⟨hw, mem⟩

theorem linked_of_walk (w : g.toSimpleGraph.Walk i j) (h : ∀ k ∈ w.support, k ∈ s) :
    g.Linked s i j := by
  induction w with
  | nil => exact .refl (h _ (by simp))
  | @cons i k j adjacent w ih =>
    rw [SimpleGraph.Walk.support_cons, List.forall_mem_cons] at h
    exact (Linked.step (.refl h.1) adjacent (h.2 k w.start_mem_support)).trans (ih h.2)

/-- A way within a set that visits a node more than once can be cut short. -/
theorem linked_iff_exists_path :
    g.Linked s i j ↔ ∃ w : g.toSimpleGraph.Walk i j, w.IsPath ∧ ∀ k ∈ w.support, k ∈ s := by
  constructor
  · intro h
    obtain ⟨w, hw⟩ := h.exists_walk
    exact ⟨w.bypass, w.bypass_isPath, fun k hk => hw k (w.support_bypass_subset_support hk)⟩
  · rintro ⟨w, -, hw⟩
    exact linked_of_walk w hw

/-- It is enough to count the nodes that are reached, from whichever node of the set. -/
theorem isConnected_iff_size (hi : i ∈ s) :
    g.isConnected s = true ↔ (g.closure s s.size {i}).size = s.size := by
  have hsub : g.closure s s.size {i} ⊆ s := fun j hj =>
    ((mem_closure_iff_linked hi).1 hj).mem_right
  constructor
  · intro connected
    have hall : s ⊆ g.closure s s.size {i} := fun j hj =>
      (mem_closure_iff_linked hi).2 (isConnected_iff.1 connected i hi j hj)
    rw [OrdSet.eq_iff_subset.2 ⟨hsub, hall⟩]
  · intro hsize
    have hall := OrdSet.eq_of_subset_of_size_le hsub hsize.ge
    exact isConnected_of_linked fun j hj => (mem_closure_iff_linked hi).1 (hall.symm ▸ hj)

/-! ## The graph of some nodes -/

/-- The stored neighbours are those of an undirected graph on the indices of these nodes, without
loops. The test for connectivity tells whether any two nodes of a set are joined by a path within
the set. It comes to the same to count the nodes of the set that are reached from one of them. -/
structure Presents (g : JoinGraph) (nodes : List Node) : Prop where
  nodes_eq : g.nodes = nodes.toArray
  symm : ∀ i j, g.Adjacent i j → g.Adjacent j i
  irrefl : ∀ i, ¬g.Adjacent i i
  known : ∀ i j, g.Adjacent i j → i < nodes.length ∧ j < nodes.length
  neighbors_eq_empty : ∀ i, nodes.length ≤ i → g.neighbors i = ∅
  isConnected_iff : ∀ s, g.isConnected s = true ↔ ∀ i ∈ s, ∀ j ∈ s,
    ∃ w : g.toSimpleGraph.Walk i j, w.IsPath ∧ ∀ k ∈ w.support, k ∈ s
  isConnected_iff_size : ∀ s, ∀ i ∈ s,
    g.isConnected s = true ↔ (g.closure s s.size {i}).size = s.size

theorem lt_length_of_adjacent (h : g.nodes = nodes.toArray) (adjacent : g.Adjacent i j) :
    i < nodes.length := by
  simpa [size, h] using adjacent.lt_left

theorem presents (h : g.nodes = nodes.toArray) : g.Presents nodes where
  nodes_eq := h
  symm _ _ := Adjacent.symm
  irrefl _ h := h.ne rfl
  known _ _ adjacent := ⟨lt_length_of_adjacent h adjacent, lt_length_of_adjacent h adjacent.symm⟩
  neighbors_eq_empty i hi := by
    refine OrdSet.ext fun j => iff_of_false (fun adjacent => ?_) OrdSet.not_mem_empty
    exact Nat.not_lt.2 hi (lt_length_of_adjacent h adjacent)
  isConnected_iff s := by
    simp only [isConnected_iff, linked_iff_exists_path]
  isConnected_iff_size _ _ hi := isConnected_iff_size hi

/-! ## Construction -/

theorem presents_build (nodes : List Node) (validity : JoinValidity) :
    (build nodes validity).Presents nodes :=
  presents (nodes_build nodes validity)

/-- The ends of all edges in reading order. -/
def ends (edges : List (Nat × Nat)) : List Nat := edges.flatMap fun e => [e.1, e.2]

theorem ofEdges_eq (nodes : List Node) (edges : List (Nat × Nat)) :
    ofEdges nodes edges = match (ends edges).find? (nodes.length ≤ ·) with
      | some node => .error (.unknownNode node)
      | none => .ok ((edgeless nodes).linkAll edges) := rfl

/-- The first end that is no index of a node is the one that is reported. -/
theorem ofEdges_eq_error_iff {e : ContractViolation} :
    ofEdges nodes edges = .error e ↔ ∃ before node after, ends edges = before ++ node :: after ∧
      (∀ i ∈ before, i < nodes.length) ∧ nodes.length ≤ node ∧ e = .unknownNode node := by
  have hfind : ofEdges nodes edges = .error e ↔
      ∃ node, (ends edges).find? (nodes.length ≤ ·) = some node ∧ e = .unknownNode node := by
    rw [ofEdges_eq]
    cases (ends edges).find? (nodes.length ≤ ·) <;> simp [eq_comm]
  simp only [hfind, List.find?_eq_some_iff_append]
  constructor
  · rintro ⟨node, ⟨hnode, before, after, hends, hbefore⟩, rfl⟩
    exact ⟨before, node, after, hends, by simpa using hbefore, by simpa using hnode, rfl⟩
  · rintro ⟨before, node, after, hends, hbefore, hnode, rfl⟩
    exact ⟨node, ⟨by simpa using hnode, before, after, hends, by simpa using hbefore⟩, rfl⟩

theorem ofEdges_of_known (known : ∀ i ∈ ends edges, i < nodes.length) :
    ofEdges nodes edges = .ok ((edgeless nodes).linkAll edges) := by
  have hfind : (ends edges).find? (nodes.length ≤ ·) = none := by
    simpa [List.find?_eq_none] using known
  rw [ofEdges_eq, hfind]

theorem adjacent_linkAll_edgeless (known : ∀ i ∈ ends edges, i < nodes.length) (hij : i ≠ j) :
    ((edgeless nodes).linkAll edges).Adjacent i j ↔ (i, j) ∈ edges ∨ (j, i) ∈ edges := by
  have hsize : (edgeless nodes).size = nodes.length := List.size_toArray
  have inside : ∀ e ∈ edges, e.1 < nodes.length ∧ e.2 < nodes.length := by
    intro e he
    exact ⟨known e.1 (List.mem_flatMap.2 ⟨e, he, by simp⟩),
      known e.2 (List.mem_flatMap.2 ⟨e, he, by simp⟩)⟩
  rw [adjacent_linkAll, or_iff_right not_adjacent_edgeless, hsize, and_iff_right_iff_imp]
  rintro (h | h)
  · exact ⟨hij, inside _ h⟩
  · exact ⟨hij, (inside _ h).symm⟩

/-- A join graph is an undirected graph whose connected sets are found by the test for connectivity.
A validity predicate decides on the pairs with the smaller index first, even if it depends on the
order. A list of edges is refused for its first end that is no index of a node; otherwise it says
which nodes can be joined, in whichever order and however often it names them, and loops have no
effect. -/
theorem presents_nodes (nodes : List Node) :
    (∀ validity : JoinValidity, (build nodes validity).Presents nodes ∧
      ∀ i j, i < j → ((build nodes validity).Adjacent i j ↔
        ∃ a b, nodes[i]? = some a ∧ nodes[j]? = some b ∧ validity a b = true)) ∧
    ∀ edges : List (Nat × Nat),
      (∀ e, ofEdges nodes edges = .error e ↔
        ∃ before node after, ends edges = before ++ node :: after ∧
          (∀ i ∈ before, i < nodes.length) ∧ nodes.length ≤ node ∧ e = .unknownNode node) ∧
      ((∀ i ∈ ends edges, i < nodes.length) → ∃ g, ofEdges nodes edges = .ok g ∧ g.Presents nodes ∧
        ∀ i j, i ≠ j → (g.Adjacent i j ↔ (i, j) ∈ edges ∨ (j, i) ∈ edges)) := by
  refine ⟨fun validity => ⟨presents_build nodes validity, fun i j => adjacent_build_iff⟩,
    fun edges => ⟨fun e => ofEdges_eq_error_iff, fun known => ?_⟩⟩
  refine ⟨_, ofEdges_of_known known, presents ?_, fun i j => adjacent_linkAll_edgeless known⟩
  rw [nodes_linkAll]
  rfl

end JoinGraph
end FederatedJoin
