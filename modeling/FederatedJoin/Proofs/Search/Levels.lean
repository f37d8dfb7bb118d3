import FederatedJoin.Proofs.Distinct
import FederatedJoin.Proofs.Search.Grown
import FederatedJoin.Search.Basic

/-!
# The levels of the search

What the search does with a path depends on its set of nodes only. Level `k` lists the sets of
`k + 1` nodes that are reached at all, each once and in the order in which it is first reached.

The levels are sets of nodes and refer to no memo. `Search.nodes_successors` says that taking up a
path leads to the sets that its own set of nodes leads to.
-/

namespace FederatedJoin
namespace Search

variable {s : Search} {p : JoinPath} {t u : NodeSet} {k : Nat}

/-! ## Levels -/

/-- The sets of nodes that the search goes on to from `t`. -/
def successorSets (s : Search) (t : NodeSet) : List NodeSet :=
  if s.query ⊆ s.graph.triplesOf t then []
  else ((s.graph.frontier t).toList.map t.insert).filter fun u =>
    (s.graph.dominatedIn? s.width u).isNone

/-- The sets of `k + 1` nodes that the search reaches, in the order in which it reaches them. -/
def level (s : Search) : Nat → List NodeSet
  | 0 => (s.graph.allNodes.toList.filter fun i => !(s.graph.triplesOf {i}).isEmpty).map ({·})
  | k + 1 => distinctBy id ((s.level k).flatMap s.successorSets)

theorem mem_successorSets :
    u ∈ s.successorSets t ↔ ¬s.query ⊆ s.graph.triplesOf t ∧
      (∃ i ∈ s.graph.frontier t, t.insert i = u) ∧ s.graph.dominatedIn? s.width u = none := by
  unfold successorSets
  split
  · next h => simp [h]
  · next h => simp [h]

theorem mem_level_zero :
    t ∈ s.level 0 ↔ ∃ i, i < s.graph.size ∧ s.graph.triplesOf {i} ≠ ∅ ∧ {i} = t := by
  simp [level, and_assoc]

theorem mem_level_succ : u ∈ s.level (k + 1) ↔ ∃ t ∈ s.level k, u ∈ s.successorSets t := by
  simp [level]

theorem nodup_level (s : Search) (k : Nat) : (s.level k).Nodup := by
  cases k with
  | zero =>
    rw [level, List.Nodup, List.pairwise_map]
    refine ((OrdSet.nodup_toList s.graph.allNodes).filter _).imp fun {i j} hij heq => hij ?_
    have : i ∈ ({j} : NodeSet) := heq ▸ OrdSet.mem_singleton.2 rfl
    exact OrdSet.mem_singleton.1 this
  | succ k => exact nodup_distinctBy_id _

theorem size_of_mem_level (h : t ∈ s.level k) : t.size = k + 1 := by
  induction k generalizing t with
  | zero =>
    obtain ⟨i, -, -, rfl⟩ := mem_level_zero.1 h
    rfl
  | succ k ih =>
    obtain ⟨u, hu, htu⟩ := mem_level_succ.1 h
    obtain ⟨-, ⟨i, hi, rfl⟩, -⟩ := mem_successorSets.1 htu
    rw [OrdSet.size_insert (JoinGraph.mem_frontier.1 hi).1, ih hu]

theorem isConnected_of_mem_level (h : t ∈ s.level k) : s.graph.isConnected t = true := by
  induction k generalizing t with
  | zero =>
    obtain ⟨i, -, -, rfl⟩ := mem_level_zero.1 h
    exact JoinGraph.isConnected_singleton
  | succ k ih =>
    obtain ⟨u, hu, htu⟩ := mem_level_succ.1 h
    obtain ⟨-, ⟨i, hi, rfl⟩, -⟩ := mem_successorSets.1 htu
    exact JoinGraph.isConnected_insert (ih hu) hi

theorem subset_allNodes_of_mem_level (h : t ∈ s.level k) : t ⊆ s.graph.allNodes := by
  induction k generalizing t with
  | zero =>
    obtain ⟨i, hi, -, rfl⟩ := mem_level_zero.1 h
    intro j hj
    rw [OrdSet.mem_singleton.1 hj, JoinGraph.mem_allNodes]
    exact hi
  | succ k ih =>
    obtain ⟨u, hu, htu⟩ := mem_level_succ.1 h
    obtain ⟨-, ⟨i, hi, rfl⟩, -⟩ := mem_successorSets.1 htu
    obtain ⟨-, j, -, adjacent⟩ := JoinGraph.mem_frontier.1 hi
    intro l hl
    rcases OrdSet.mem_insert.1 hl with rfl | hl
    · exact JoinGraph.mem_allNodes.2 adjacent.lt_right
    · exact ih hu l hl

/-- There are no more levels than nodes. -/
theorem lt_size_of_mem_level (h : t ∈ s.level k) : k < s.graph.size := by
  have hle := OrdSet.size_le_of_subset (subset_allNodes_of_mem_level h)
  rw [size_of_mem_level h, JoinGraph.size_allNodes] at hle
  omega

theorem level_eq_nil (h : s.graph.size ≤ k) : s.level k = [] :=
  List.eq_nil_iff_forall_not_mem.2 fun _ ht => absurd (lt_size_of_mem_level ht) (Nat.not_lt.2 h)

theorem pairwise_levels (s : Search) (n : Nat) :
    ((List.range n).map s.level).Pairwise fun l m => ∀ t ∈ m, t ∉ l := by
  rw [List.pairwise_map]
  refine List.pairwise_lt_range.imp fun {j k} hjk => ?_
  intro t hk hj
  have hsize := size_of_mem_level hk
  rw [size_of_mem_level hj] at hsize
  omega

/-! ## Taking up a path -/

theorem covers_eq (h : p.Grown s.graph s.width) :
    p.covers s.query = decide (s.query ⊆ s.graph.triplesOf p.nodes) := by
  rw [JoinPath.covers, h.tracks.matched_eq]

theorem path_expand (s : Search) (p : JoinPath) : (s.expand p).path = p := by
  unfold expand
  split <;> rfl

theorem complete?_expand (h : p.Grown s.graph s.width) :
    (s.expand p).complete? = if s.query ⊆ s.graph.triplesOf p.nodes then some p else none := by
  unfold expand
  rw [covers_eq h]
  by_cases hc : s.query ⊆ s.graph.triplesOf p.nodes <;> simp [hc, Expansion.complete?]

theorem toOption_extend {i : Nat} (h : p.Grown s.graph s.width)
    (hi : i ∈ s.graph.frontier p.nodes) :
    (p.extend s.graph s.width i).toOption =
      if (s.graph.dominatedIn? s.width (p.nodes.insert i)).isNone then
        some (p.add s.graph s.width i) else none := by
  have nodes := JoinPath.nodes_add_of_mem_frontier s.width hi
  simp only [JoinPath.extend, (JoinPath.Grown.add h hi).dominatedNode?_eq, nodes]
  cases s.graph.dominatedIn? s.width (p.nodes.insert i) <;> rfl

theorem successors_expand (h : p.Grown s.graph s.width) :
    (s.expand p).successors =
      if s.query ⊆ s.graph.triplesOf p.nodes then []
      else ((s.graph.frontier p.nodes).toList.filter fun i =>
        (s.graph.dominatedIn? s.width (p.nodes.insert i)).isNone).map (p.add s.graph s.width) := by
  unfold expand
  rw [covers_eq h]
  by_cases hc : s.query ⊆ s.graph.triplesOf p.nodes
  · simp [hc, Expansion.successors]
  · simp only [hc, decide_false, Bool.false_eq_true, if_false, Expansion.successors,
      List.filterMap_map]
    rw [← List.filterMap_eq_map, List.filterMap_filter]
    refine List.filterMap_congr fun i hi => ?_
    rw [Function.comp_apply, toOption_extend h hi]
    rfl

theorem grown_of_mem_successors {q : JoinPath} (h : p.Grown s.graph s.width)
    (hq : q ∈ (s.expand p).successors) : q.Grown s.graph s.width := by
  rw [successors_expand h] at hq
  split at hq
  · cases hq
  · obtain ⟨i, hi, rfl⟩ := List.mem_map.1 hq
    exact .add h (List.mem_filter.1 hi).1

theorem nodes_successors (h : p.Grown s.graph s.width) :
    (s.expand p).successors.map JoinPath.nodes = s.successorSets p.nodes := by
  rw [successors_expand h, successorSets]
  split
  · rfl
  · rw [List.filter_map, List.map_map]
    refine List.map_congr_left fun i hi => ?_
    exact JoinPath.nodes_add_of_mem_frontier s.width (List.mem_filter.1 hi).1

theorem grown_of_mem_seeds (h : p ∈ s.seeds) : p.Grown s.graph s.width := by
  obtain ⟨i, hi, rfl⟩ := List.mem_map.1 (List.mem_filter.1 h).1
  exact .single (JoinGraph.mem_allNodes.1 hi)

theorem nodes_seeds (s : Search) : s.seeds.map JoinPath.nodes = s.level 0 := by
  have single : ∀ i ∈ s.graph.allNodes.toList,
      (JoinPath.single s.graph s.width i).nodes = {i} ∧
        (JoinPath.single s.graph s.width i).matched = s.graph.triplesOf {i} := by
    intro i hi
    have known := JoinGraph.mem_allNodes.1 hi
    have nodes := JoinPath.nodes_single s.width known
    exact ⟨nodes, nodes ▸ (JoinPath.Grown.single known).tracks.matched_eq⟩
  rw [seeds, level, List.filter_map, List.map_map]
  have heq : s.graph.allNodes.toList.filter
      ((fun q => !q.matched.isEmpty) ∘ JoinPath.single s.graph s.width) =
      s.graph.allNodes.toList.filter fun i => !(s.graph.triplesOf {i}).isEmpty :=
    List.filter_congr fun i hi => by rw [Function.comp_apply, (single i hi).2]
  rw [heq]
  exact List.map_congr_left fun i hi => (single i (List.mem_filter.1 hi).1).1

end Search
end FederatedJoin
