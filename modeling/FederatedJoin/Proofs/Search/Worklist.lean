import FederatedJoin.Proofs.Search.Rounds
import Mathlib.Algebra.BigOperators.Intervals
import Mathlib.Algebra.Order.BigOperators.Group.List
import Mathlib.Algebra.Order.Interval.Finset.SuccPred
import Mathlib.Data.List.Perm.Subperm
import Mathlib.Data.Nat.Factorial.Basic

/-!
# The search as a worklist

The rounds are what a queue of paths goes through: the path that has waited longest is taken up, and
its extensions wait behind all others.

* `Search.Pops` — taking up one path after the other.
* `Search.pops_allRounds` — all rounds, one path after the other, empty the queue.
* `Search.RoundStart.pairwise_size` — smaller paths are taken up first.
* `Search.length_allRounds_le` — how many paths are taken up, whatever the memo forgets.
-/

namespace FederatedJoin

/-- A memo, and the paths that wait to be taken up, the one that has waited longest first. -/
structure Worklist where
  memo : Memo NodeSet
  waiting : List JoinPath

namespace Search

variable {s : Search} {memo : Memo NodeSet} {p : JoinPath} {paths popped popped' : List JoinPath}
variable {w w' : Worklist} {t : NodeSet} {k : Nat}

/-! ## Taking up one path after the other -/

/-- The paths that the search begins with. -/
def worklist (s : Search) : Worklist :=
  let (memo, paths) := Memo.insertAll JoinPath.nodes { capacity := s.config.memoCapacity } s.seeds
  ⟨memo, paths⟩

/-- Takes up path `p`. Those of its extensions that the memo lets through wait behind all others. -/
def takeUp (s : Search) (memo : Memo NodeSet) (p : JoinPath) (waiting : List JoinPath) :
    Worklist :=
  let (memo, admitted) := memo.insertAll JoinPath.nodes (s.expand p).successors
  ⟨memo, waiting ++ admitted⟩

/-- The search takes up these paths in this order and so comes from one worklist to another. -/
inductive Pops (s : Search) : Worklist → List JoinPath → Worklist → Prop where
  | nil {w : Worklist} : Pops s w [] w
  | cons {memo : Memo NodeSet} {p : JoinPath} {waiting popped : List JoinPath} {w : Worklist}
    (rest : Pops s (s.takeUp memo p waiting) popped w) :
    Pops s ⟨memo, p :: waiting⟩ (p :: popped) w

namespace Pops

theorem append {w'' : Worklist} (h : s.Pops w popped w') (h' : s.Pops w' popped' w'') :
    s.Pops w (popped ++ popped') w'' := by
  induction h with
  | nil => exact h'
  | cons _ ih => exact .cons (ih h')

/-- There is only one way to go on, up to the end where no path waits. -/
theorem rest (h : s.Pops w popped w') (last : s.Pops w popped' ⟨memo, []⟩) :
    ∃ later, popped' = popped ++ later ∧ s.Pops w' later ⟨memo, []⟩ := by
  induction h generalizing popped' with
  | nil => exact ⟨popped', rfl, last⟩
  | cons _ ih =>
    cases last with
    | cons last =>
      obtain ⟨later, rfl, hlater⟩ := ih last
      exact ⟨later, rfl, hlater⟩

theorem isPrefix (h : s.Pops w popped w') (last : s.Pops w popped' ⟨memo, []⟩) :
    popped <+: popped' := by
  obtain ⟨later, rfl, -⟩ := h.rest last
  exact List.prefix_append popped later

/-- The paths that wait are taken up in their order before any others. -/
theorem waiting_isPrefix (last : s.Pops w popped ⟨memo, []⟩) : w.waiting <+: popped := by
  generalize hend : (⟨memo, []⟩ : Worklist) = w' at last
  induction last with
  | nil =>
    subst hend
    exact List.nil_prefix
  | @cons memo p waiting popped w rest ih =>
    exact List.cons_prefix_cons.2 ⟨rfl, (List.prefix_append _ _).trans (ih hend)⟩

/-- Every path that is taken up has waited in front. -/
theorem exists_waiting (h : s.Pops w popped w') (hp : p ∈ popped) :
    ∃ before memo waiting, s.Pops w before ⟨memo, p :: waiting⟩ := by
  induction h with
  | nil => cases hp
  | @cons memo q waiting popped w _ ih =>
    rcases List.mem_cons.1 hp with rfl | hp
    · exact ⟨[], memo, waiting, .nil⟩
    · obtain ⟨before, memo', waiting', hbefore⟩ := ih hp
      exact ⟨q :: before, memo', waiting', .cons hbefore⟩

end Pops

/-- A round takes up the paths that wait in front. -/
theorem pops_round (s : Search) (memo : Memo NodeSet) (paths waiting : List JoinPath) :
    let next := memo.insertAll JoinPath.nodes ((paths.map s.expand).flatMap Expansion.successors)
    s.Pops ⟨memo, paths ++ waiting⟩ paths ⟨next.1, waiting ++ next.2⟩ := by
  induction paths generalizing memo waiting with
  | nil =>
    rw [List.map_nil, List.flatMap_nil, Memo.insertAll, List.nil_append]
    dsimp only
    rw [List.append_nil]
    exact .nil
  | cons p paths ih =>
    have rest := ih (memo.insertAll JoinPath.nodes (s.expand p).successors).1
      (waiting ++ (memo.insertAll JoinPath.nodes (s.expand p).successors).2)
    rw [← List.append_assoc] at rest
    dsimp only at rest ⊢
    rw [List.map_cons, List.flatMap_cons, Memo.insertAll_append, ← List.append_assoc waiting]
    exact .cons rest

theorem RoundStart.mem_level (h : s.RoundStart k memo paths) (hp : p ∈ paths) :
    p.nodes ∈ s.level k := by
  rw [← h.level, mem_distinctBy_id]
  exact List.mem_map_of_mem hp

/-- The queue is empty after as many rounds as there are nodes. -/
theorem RoundStart.pops (h : s.RoundStart k memo paths) (n : Nat) (hn : s.graph.size ≤ k + n) :
    s.Pops ⟨memo, paths⟩ ((s.rounds n memo paths).1.flatten.map Expansion.path)
      ⟨(s.rounds n memo paths).2, []⟩ := by
  induction n generalizing k memo paths with
  | zero =>
    have hnil : paths = [] := by
      refine List.eq_nil_iff_forall_not_mem.2 fun p hp => ?_
      have := lt_size_of_mem_level (h.mem_level hp)
      omega
    rw [hnil]
    exact .nil
  | succ n ih =>
    have round := s.pops_round memo paths []
    rw [List.append_nil] at round
    have hpaths : (paths.map s.expand).map Expansion.path = paths := by
      rw [List.map_map]
      exact (List.map_congr_left fun p _ => path_expand s p).trans paths.map_id
    rw [fst_rounds_succ, List.flatten_cons, List.map_append, hpaths]
    exact round.append (ih h.next (by omega))

theorem pops_allRounds (s : Search) :
    s.Pops s.worklist (s.allRounds.1.flatten.map Expansion.path) ⟨s.allRounds.2, []⟩ :=
  (roundStart_seeds s s.config.memoCapacity).pops s.graph.size (Nat.le_add_left _ _)

/-! ## The order of the paths -/

theorem RoundStart.size_of_mem (h : s.RoundStart k memo paths) :
    ∀ e ∈ paths.map s.expand, e.path.nodes.size = k + 1 := by
  intro e he
  obtain ⟨p, hp, rfl⟩ := List.mem_map.1 he
  rw [path_expand, size_of_mem_level (h.mem_level hp)]

theorem RoundStart.lt_size_of_mem_rounds (h : s.RoundStart k memo paths) (n : Nat) :
    ∀ e ∈ (s.rounds n memo paths).1.flatten, k < e.path.nodes.size := by
  induction n generalizing k memo paths with
  | zero => exact fun e he => absurd he List.not_mem_nil
  | succ n ih =>
    rw [fst_rounds_succ, List.flatten_cons, List.forall_mem_append]
    refine ⟨fun e he => ?_, fun e he => Nat.lt_of_succ_lt (ih h.next e he)⟩
    rw [h.size_of_mem e he]
    exact k.lt_succ_self

/-- The paths of a round have one and the same size, and those of later rounds are greater. -/
theorem RoundStart.pairwise_size (h : s.RoundStart k memo paths) (n : Nat) :
    (s.rounds n memo paths).1.flatten.Pairwise (·.path.nodes.size ≤ ·.path.nodes.size) := by
  induction n generalizing k memo paths with
  | zero => exact .nil
  | succ n ih =>
    rw [fst_rounds_succ, List.flatten_cons, List.pairwise_append]
    refine ⟨List.pairwise_of_forall_mem_list fun e he e' he' => ?_, ih h.next,
      fun e he e' he' => ?_⟩
    · rw [h.size_of_mem e he, h.size_of_mem e' he']
    · rw [h.size_of_mem e he]
      exact Nat.le_of_lt (h.next.lt_size_of_mem_rounds n e' he')

/-- Components come in the order in which their paths are taken up. -/
theorem nodes_components_sublist (s : Search) :
    (s.run.components.map JoinComponent.nodes).Sublist
      (s.allRounds.1.flatten.map fun e => e.path.nodes) := by
  rw [components_eq]
  split
  · have hanswer : ∀ t, (s.answer? t).map JoinComponent.nodes =
        Option.guard (fun t => (s.answer? t).isSome) t := by
      intro t
      cases h : s.answer? t with
      | none => simp [Option.guard, h]
      | some c =>
        obtain ⟨-, -, -, rfl⟩ := answer?_eq_some_iff.1 h
        simp [Option.guard, h]
    rw [List.map_filterMap, funext hanswer, List.filterMap_eq_filter, ← distinctBy_allRounds]
    exact List.filter_sublist.trans (distinctBy_sublist _ _)
  · exact List.nil_sublist _

/-! ## The number of paths -/

/-- A set of nodes has no more successors than there are other nodes. -/
theorem length_successorSets_le (ht : t ⊆ s.graph.allNodes) :
    (s.successorSets t).length ≤ s.graph.size - t.size := by
  have hsuccessors : (s.successorSets t).length ≤ (s.graph.frontier t).toList.length := by
    unfold successorSets
    split
    · exact Nat.zero_le _
    · exact (List.length_filter_le _ _).trans_eq (List.length_map _)
  have hnodup : ((s.graph.frontier t).toList ++ t.toList).Nodup := by
    refine (OrdSet.nodup_toList _).append (OrdSet.nodup_toList _) fun i hi hit => ?_
    exact (JoinGraph.mem_frontier.1 hi).1 hit
  have hsub : (s.graph.frontier t).toList ++ t.toList ⊆ s.graph.allNodes.toList := by
    refine List.append_subset.2 ⟨fun i hi => ?_, ht⟩
    obtain ⟨-, j, -, adjacent⟩ := JoinGraph.mem_frontier.1 hi
    exact JoinGraph.mem_allNodes.2 adjacent.lt_right
  have hle : (s.graph.frontier t).toList.length + t.size ≤ s.graph.allNodes.size := by
    rw [OrdSet.size, OrdSet.size, ← List.length_append]
    exact (List.subperm_of_subset hnodup hsub).length_le
  rw [JoinGraph.size_allNodes] at hle
  omega

/-- Every path leads to no more than the nodes that are left to choose from. -/
theorem RoundStart.length_next_le (h : s.RoundStart k memo paths)
    (hlength : paths.length ≤ s.graph.size.descFactorial (k + 1)) :
    let batch := (paths.map s.expand).flatMap Expansion.successors
    (memo.insertAll JoinPath.nodes batch).2.length ≤ s.graph.size.descFactorial (k + 2) := by
  intro batch
  have hsuccessors : ∀ t ∈ paths.map JoinPath.nodes,
      (s.successorSets t).length ≤ s.graph.size - (k + 1) := by
    intro t ht
    obtain ⟨p, hp, rfl⟩ := List.mem_map.1 ht
    have hlevel := h.mem_level hp
    exact size_of_mem_level hlevel ▸ length_successorSets_le (subset_allNodes_of_mem_level hlevel)
  calc (memo.insertAll JoinPath.nodes batch).2.length
    _ ≤ batch.length := (Memo.insertAll_sublist _ _).length_le
    _ = ((paths.map JoinPath.nodes).map fun t => (s.successorSets t).length).sum := by
      rw [← List.length_map JoinPath.nodes, h.nodes_batch, List.length_flatMap]
    _ ≤ paths.length * (s.graph.size - (k + 1)) := by
      have hsum := List.sum_le_card_nsmul
        ((paths.map JoinPath.nodes).map fun t => (s.successorSets t).length) _
        (List.forall_mem_map.2 hsuccessors)
      rwa [List.length_map, List.length_map, Nat.nsmul_eq_mul] at hsum
    _ ≤ s.graph.size.descFactorial (k + 1) * (s.graph.size - (k + 1)) :=
      Nat.mul_le_mul_right _ hlength
    _ = s.graph.size.descFactorial (k + 2) := by
      rw [Nat.descFactorial_succ _ (k + 1), Nat.mul_comm]

theorem RoundStart.length_rounds_le (h : s.RoundStart k memo paths)
    (hlength : paths.length ≤ s.graph.size.descFactorial (k + 1)) (n : Nat) :
    (s.rounds n memo paths).1.flatten.length ≤
      ∑ j ∈ Finset.range n, s.graph.size.descFactorial (k + 1 + j) := by
  induction n generalizing k memo paths with
  | zero => exact Nat.le_refl _
  | succ n ih =>
    have later := ih h.next (h.length_next_le hlength)
    rw [fst_rounds_succ, List.flatten_cons, List.length_append, List.length_map,
      Finset.sum_range_succ', Nat.add_comm]
    refine Nat.add_le_add (later.trans_eq (Finset.sum_congr rfl fun j _ => ?_)) hlength
    congr 1
    omega

/-- There are no more paths than sequences of different nodes. -/
theorem length_allRounds_le (s : Search) :
    s.allRounds.1.flatten.length ≤
      ∑ k ∈ Finset.Icc 1 s.graph.size, s.graph.size.factorial / (s.graph.size - k).factorial := by
  have hseeds : s.worklist.waiting.length ≤ s.graph.size.descFactorial (0 + 1) := by
    have hle : s.worklist.waiting.length ≤ s.seeds.length :=
      (Memo.insertAll_sublist _ _).length_le
    rw [Nat.descFactorial_one, ← JoinGraph.size_allNodes, OrdSet.size]
    exact hle.trans ((List.length_filter_le _ _).trans_eq (List.length_map _))
  have hle := (roundStart_seeds s s.config.memoCapacity).length_rounds_le hseeds s.graph.size
  refine hle.trans_eq ?_
  rw [← Finset.Ico_add_one_right_eq_Icc, Finset.sum_Ico_eq_sum_range]
  refine Finset.sum_congr rfl fun j hj => ?_
  rw [Nat.zero_add, Nat.descFactorial_eq_div]
  have := Finset.mem_range.1 hj
  omega

/-- Whatever the memo forgets, the search ends: every way of taking up one path after the other is
the beginning of one that leaves no path waiting. Smaller paths are taken up first, so components
with fewer nodes are found first, and there are no more paths than sequences of different nodes. -/
theorem run_breadthFirst (s : Search) :
    let n := s.graph.size
    let bound := ∑ k ∈ Finset.Icc 1 n, n.factorial / (n - k).factorial
    let popped := s.allRounds.1.flatten.map Expansion.path
    s.Pops s.worklist popped ⟨s.allRounds.2, []⟩ ∧
      (∀ popped' w, s.Pops s.worklist popped' w → popped' <+: popped) ∧
      popped.Pairwise (·.nodes.size ≤ ·.nodes.size) ∧
      (s.run.components.map JoinComponent.nodes).Sublist (popped.map JoinPath.nodes) ∧
      s.run.components.Pairwise (·.nodes.size ≤ ·.nodes.size) ∧
      s.run.statistics.expanded = (if s.unreachable = ∅ then popped.length else 0) ∧
      s.run.statistics.expanded ≤ bound := by
  intro n bound popped
  have hexpanded : s.run.statistics.expanded = if s.unreachable = ∅ then popped.length else 0 := by
    unfold run
    by_cases h : s.unreachable = ∅
    · rw [if_pos (OrdSet.isEmpty_iff.2 h), if_pos h]
      exact (List.length_map _).symm
    · rw [if_neg (mt OrdSet.isEmpty_iff.1 h), if_neg h]
  have hsublist : (s.run.components.map JoinComponent.nodes).Sublist
      (popped.map JoinPath.nodes) := by
    rw [List.map_map]
    exact nodes_components_sublist s
  have hsizes : popped.Pairwise (·.nodes.size ≤ ·.nodes.size) :=
    List.pairwise_map.2 ((roundStart_seeds s s.config.memoCapacity).pairwise_size s.graph.size)
  refine ⟨pops_allRounds s, fun popped' w h => h.isPrefix (pops_allRounds s), hsizes, hsublist,
    pairwise_size_components s, hexpanded, ?_⟩
  rw [hexpanded]
  split
  · exact (List.length_map _).trans_le (length_allRounds_le s)
  · exact Nat.zero_le _

end Search
end FederatedJoin
