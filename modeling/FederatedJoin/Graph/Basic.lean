import FederatedJoin.Error
import FederatedJoin.Graph.Node

/-!
# The join graph

The nodes of a planning problem, and which of them can be joined directly.

## Main definitions

* `JoinGraph` — nodes with a symmetric and irreflexive adjacency.
* `JoinGraph.build`, `JoinGraph.ofEdges` — the graph of a validity predicate or of a list of edges.
* `JoinGraph.neighbors`, `JoinGraph.Adjacent` — which nodes can be joined.

`JoinGraph.adjacent_linkAll` says which nodes of a graph with given edges can be joined.
-/

namespace FederatedJoin

/-- Decides whether two nodes can be joined. -/
abbrev JoinValidity := Node → Node → Bool

namespace JoinValidity

/-- Nodes can be joined if they share a variable and do not both wait for a variable that the
other one binds. -/
def sharedVariable : JoinValidity := fun a b =>
  ¬a.vars.Disjoint b.vars ∧ (a.inputs.Disjoint b.results ∨ b.inputs.Disjoint a.results)

end JoinValidity

/-- The nodes of a planning problem with the set of neighbours of each. -/
structure JoinGraph where
  nodes : Array Node
  adjacency : Array NodeSet
  size_adjacency : adjacency.size = nodes.size
  symmetric : ∀ i j, j ∈ adjacency.getD i ∅ → i ∈ adjacency.getD j ∅
  irreflexive : ∀ i, i ∉ adjacency.getD i ∅

namespace JoinGraph

/-- The number of nodes. -/
def size (g : JoinGraph) : Nat := g.nodes.size

/-- The node with index `i`. -/
def node? (g : JoinGraph) (i : Nat) : Option Node := g.nodes[i]?

theorem node?_isSome_iff {g : JoinGraph} {i : Nat} : (g.node? i).isSome ↔ i < g.size := by
  simp [node?, size]

theorem exists_node? {g : JoinGraph} {i : Nat} (h : i < g.size) : ∃ n, g.node? i = some n :=
  Option.isSome_iff_exists.1 (node?_isSome_iff.2 h)

theorem mem_nodes_of_node? {g : JoinGraph} {i : Nat} {n : Node} (h : g.node? i = some n) :
    n ∈ g.nodes :=
  Array.mem_of_getElem? h

/-- The nodes that can be joined with node `i`. -/
def neighbors? (g : JoinGraph) (i : Nat) : Option NodeSet := g.adjacency[i]?

/-- The nodes that can be joined with node `i`. An index outside the graph has no neighbours. -/
def neighbors (g : JoinGraph) (i : Nat) : NodeSet := g.adjacency.getD i ∅

/-- Whether nodes `i` and `j` can be joined. -/
def Adjacent (g : JoinGraph) (i j : Nat) : Prop := j ∈ g.neighbors i

instance (g : JoinGraph) (i j : Nat) : Decidable (g.Adjacent i j) :=
  inferInstanceAs (Decidable (j ∈ g.neighbors i))

theorem Adjacent.symm {g : JoinGraph} {i j : Nat} (h : g.Adjacent i j) : g.Adjacent j i :=
  g.symmetric i j h

theorem Adjacent.ne {g : JoinGraph} {i j : Nat} (h : g.Adjacent i j) : i ≠ j := by
  rintro rfl
  exact g.irreflexive i h

theorem Adjacent.lt_left {g : JoinGraph} {i j : Nat} (h : g.Adjacent i j) : i < g.size := by
  refine Decidable.by_contra fun hi => ?_
  have : g.neighbors i = ∅ := by
    simp [neighbors, Array.getD, g.size_adjacency, show ¬i < g.nodes.size from hi]
  exact OrdSet.not_mem_empty (show j ∈ (∅ : NodeSet) from this ▸ h)

theorem Adjacent.lt_right {g : JoinGraph} {i j : Nat} (h : g.Adjacent i j) : j < g.size :=
  h.symm.lt_left

/-! ## Construction -/

/-- The graph in which no nodes can be joined. -/
def edgeless (nodes : List Node) : JoinGraph :=
  { nodes := nodes.toArray
    adjacency := Array.replicate nodes.length ∅
    size_adjacency := by simp
    symmetric := by simp [Array.getD]
    irreflexive := by simp [Array.getD] }

private theorem mem_link {adjacency : Array NodeSet} {i j k m : Nat} (hi : i < adjacency.size)
    (hj : j < adjacency.size) :
    m ∈ ((adjacency.modify i (·.insert j)).modify j (·.insert i)).getD k ∅ ↔
      m ∈ adjacency.getD k ∅ ∨ (k = i ∧ m = j) ∨ (k = j ∧ m = i) := by
  by_cases hk : k < adjacency.size
  · simp only [Array.getD, Array.size_modify, hk, dif_pos, Array.getInternal_eq_getElem,
      Array.getElem_modify]
    by_cases hki : i = k <;> by_cases hkj : j = k <;> simp [hki, hkj, eq_comm (a := k)]
    · grind
    · grind
    · grind
  · have hki : k ≠ i := fun h => hk (h ▸ hi)
    have hkj : k ≠ j := fun h => hk (h ▸ hj)
    simp [Array.getD, hk, hki, hkj]

/-- The graph in which, in addition, nodes `i` and `j` can be joined. There are no loops, and
indices outside the graph are ignored. -/
def link (g : JoinGraph) (i j : Nat) : JoinGraph :=
  if h : i ≠ j ∧ i < g.size ∧ j < g.size then
    have hi : i < g.adjacency.size := g.size_adjacency ▸ h.2.1
    have hj : j < g.adjacency.size := g.size_adjacency ▸ h.2.2
    { nodes := g.nodes
      adjacency := (g.adjacency.modify i (·.insert j)).modify j (·.insert i)
      size_adjacency := by simp [g.size_adjacency]
      symmetric := fun k m => by
        rw [mem_link hi hj, mem_link hi hj]
        rintro (hkm | h | h)
        · exact .inl (g.symmetric k m hkm)
        · exact .inr (.inr h.symm)
        · exact .inr (.inl h.symm)
      irreflexive := fun k => by
        rw [mem_link hi hj]
        rintro (hk | ⟨rfl, hkj⟩ | ⟨rfl, hki⟩)
        · exact g.irreflexive k hk
        · exact h.1 hkj
        · exact h.1 hki.symm }
  else g

@[simp] theorem nodes_link (g : JoinGraph) (i j : Nat) : (g.link i j).nodes = g.nodes := by
  unfold link
  split <;> rfl

theorem adjacent_link {g : JoinGraph} {i j k m : Nat} :
    (g.link i j).Adjacent k m ↔ g.Adjacent k m ∨
      (i ≠ j ∧ i < g.size ∧ j < g.size) ∧ ((k = i ∧ m = j) ∨ (k = j ∧ m = i)) := by
  unfold link
  split
  · next h =>
    have hi : i < g.adjacency.size := g.size_adjacency ▸ h.2.1
    have hj : j < g.adjacency.size := g.size_adjacency ▸ h.2.2
    rw [and_iff_right h]
    exact mem_link hi hj
  · next h => simp [h]

/-- Links the ends of every edge. -/
def linkAll (g : JoinGraph) (edges : List (Nat × Nat)) : JoinGraph :=
  edges.foldl (fun g e => g.link e.1 e.2) g

@[simp] theorem nodes_linkAll (g : JoinGraph) (edges : List (Nat × Nat)) :
    (g.linkAll edges).nodes = g.nodes := by
  induction edges generalizing g with
  | nil => rfl
  | cons e edges ih => exact (ih _).trans (nodes_link g e.1 e.2)

theorem adjacent_linkAll {g : JoinGraph} {edges : List (Nat × Nat)} {i j : Nat} :
    (g.linkAll edges).Adjacent i j ↔ g.Adjacent i j ∨
      (i ≠ j ∧ i < g.size ∧ j < g.size) ∧ ((i, j) ∈ edges ∨ (j, i) ∈ edges) := by
  induction edges generalizing g with
  | nil => simp [linkAll]
  | cons e edges ih =>
    obtain ⟨k, m⟩ := e
    have hsize : (g.link k m).size = g.size := congrArg Array.size (nodes_link g k m)
    have hlink : (g.linkAll ((k, m) :: edges)) = (g.link k m).linkAll edges := rfl
    rw [hlink, ih, adjacent_link, hsize]
    simp only [List.mem_cons, Prod.mk.injEq]
    grind

/-- All pairs of indices below `n`, the smaller index first. -/
def pairsBelow (n : Nat) : List (Nat × Nat) :=
  (List.range n).flatMap fun j => (List.range j).map fun i => (i, j)

/-- The graph in which two nodes can be joined if `validity` accepts them, the one with the smaller
index first. -/
def build (nodes : List Node) (validity : JoinValidity) : JoinGraph :=
  let g := edgeless nodes
  g.linkAll <| (pairsBelow g.size).filter fun (i, j) =>
    match g.node? i, g.node? j with
    | some a, some b => validity a b
    | _, _ => false

/-- The graph with the given edges. The first end of an edge, in reading order, that is no index
of a node is an error. Loops are ignored. -/
def ofEdges (nodes : List Node) (edges : List (Nat × Nat)) :
    Except ContractViolation JoinGraph :=
  match (edges.flatMap fun (i, j) => [i, j]).find? (nodes.length ≤ ·) with
  | some node => .error (.unknownNode node)
  | none => .ok ((edgeless nodes).linkAll edges)

end JoinGraph
end FederatedJoin
