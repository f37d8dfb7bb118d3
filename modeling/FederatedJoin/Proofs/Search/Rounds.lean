import FederatedJoin.Proofs.Search.Levels
import FederatedJoin.Proofs.Search.Memo
import FederatedJoin.Search.Outcome

/-!
# Rounds and levels

A round takes up paths for exactly the sets of its level. It can take up several paths for one of
them, because the memo may have forgotten a set when it is reached again; but the first occurrences
are the level in its order, whatever the capacity of the memo.

* `Search.RoundStart` — what holds at the start of a round.
* `Search.RoundStart.next` — a round leads to the start of the next one.
* `Search.components_eq` — the components of a search, read off its levels.
-/

namespace FederatedJoin
namespace Search

variable {s : Search} {memo : Memo NodeSet} {paths : List JoinPath} {p : JoinPath} {t : NodeSet}
variable {k : Nat}

/-- What holds before the paths of round `k` are taken up. The memo may still hold sets of earlier
rounds, but none of a later one. -/
structure RoundStart (s : Search) (k : Nat) (memo : Memo NodeSet) (paths : List JoinPath) :
    Prop where
  grown : ∀ p ∈ paths, p.Grown s.graph s.width
  remembered : ∀ t ∈ memo.seen, t.size ≤ k + 1
  level : distinctBy id (paths.map JoinPath.nodes) = s.level k

/-- The paths that round `k` leads to, before the memo has seen them. -/
theorem RoundStart.nodes_batch (h : s.RoundStart k memo paths) :
    ((paths.map s.expand).flatMap Expansion.successors).map JoinPath.nodes =
      (paths.map JoinPath.nodes).flatMap s.successorSets := by
  rw [List.flatMap_map, List.map_flatMap, List.flatMap_map]
  exact List.flatMap_congr fun p hp => nodes_successors (h.grown p hp)

theorem RoundStart.distinctBy_batch (h : s.RoundStart k memo paths) :
    distinctBy id (((paths.map s.expand).flatMap Expansion.successors).map JoinPath.nodes) =
      s.level (k + 1) := by
  rw [h.nodes_batch, distinctBy_flatMap, h.level, Search.level]

theorem RoundStart.size_of_mem_batch (h : s.RoundStart k memo paths) :
    ∀ t ∈ ((paths.map s.expand).flatMap Expansion.successors).map JoinPath.nodes,
      t.size = k + 2 := by
  intro t ht
  rw [← mem_distinctBy_id, h.distinctBy_batch] at ht
  exact size_of_mem_level ht

/-- No path that a round leads to is remembered from an earlier round. -/
theorem RoundStart.fresh (h : s.RoundStart k memo paths) :
    ∀ q ∈ (paths.map s.expand).flatMap Expansion.successors, q.nodes ∉ memo.seen := by
  intro q hq remembered
  have := h.size_of_mem_batch q.nodes (List.mem_map_of_mem hq)
  have := h.remembered q.nodes remembered
  omega

theorem RoundStart.next (h : s.RoundStart k memo paths) :
    let batch := (paths.map s.expand).flatMap Expansion.successors
    s.RoundStart (k + 1) (memo.insertAll JoinPath.nodes batch).1
      (memo.insertAll JoinPath.nodes batch).2 := by
  intro batch
  constructor
  · intro q hq
    obtain ⟨e, he, hqe⟩ := List.mem_flatMap.1 ((Memo.insertAll_sublist memo batch).subset hq)
    obtain ⟨p, hp, rfl⟩ := List.mem_map.1 he
    exact grown_of_mem_successors (h.grown p hp) hqe
  · intro t ht
    rcases Memo.mem_seen_insertAll ht with old | new
    · have := h.remembered t old
      omega
    · have := h.size_of_mem_batch t new
      omega
  · rw [← h.distinctBy_batch]
    exact Memo.distinctBy_insertAll h.fresh

/-- The search starts with the first level. -/
theorem roundStart_seeds (s : Search) (capacity : Nat) :
    s.RoundStart 0 (Memo.insertAll JoinPath.nodes { capacity } s.seeds).1
      (Memo.insertAll JoinPath.nodes { capacity } s.seeds).2 := by
  have none : ∀ t : NodeSet, t ∉ ({ capacity } : Memo NodeSet).seen := fun _ =>
    Std.HashSet.not_mem_empty
  constructor
  · intro p hp
    exact grown_of_mem_seeds ((Memo.insertAll_sublist _ _).subset hp)
  · intro t ht
    have hmem := (Memo.mem_seen_insertAll ht).resolve_left (none t)
    rw [nodes_seeds] at hmem
    exact Nat.le_of_eq (size_of_mem_level hmem)
  · rw [Memo.distinctBy_insertAll fun p _ => none p.nodes, nodes_seeds]
    exact distinctBy_eq_self (nodup_level s 0)

/-! ## All rounds -/

theorem fst_rounds_succ (s : Search) (n : Nat) (memo : Memo NodeSet) (paths : List JoinPath) :
    let batch := (paths.map s.expand).flatMap Expansion.successors
    (s.rounds (n + 1) memo paths).1 = paths.map s.expand ::
      (s.rounds n (memo.insertAll JoinPath.nodes batch).1
        (memo.insertAll JoinPath.nodes batch).2).1 := rfl

theorem RoundStart.exists_grown (h : s.RoundStart k memo paths) (n : Nat) :
    ∀ round ∈ (s.rounds n memo paths).1, ∀ e ∈ round,
      ∃ p, p.Grown s.graph s.width ∧ s.expand p = e := by
  induction n generalizing k memo paths with
  | zero => exact fun round hround => absurd hround List.not_mem_nil
  | succ n ih =>
    rw [fst_rounds_succ]
    intro round hround e he
    rcases List.mem_cons.1 hround with rfl | hround
    · obtain ⟨p, hp, rfl⟩ := List.mem_map.1 he
      exact ⟨p, h.grown p hp, rfl⟩
    · exact ih h.next round hround e he

/-- The sets of nodes that are taken up in each round, by first occurrence, are the levels. -/
theorem RoundStart.rounds_eq (h : s.RoundStart k memo paths) (n : Nat) :
    (s.rounds n memo paths).1.map (fun round => distinctBy id (round.map fun e => e.path.nodes)) =
      (List.range' k n).map s.level := by
  induction n generalizing k memo paths with
  | zero => rfl
  | succ n ih =>
    rw [fst_rounds_succ, List.map_cons, ih h.next, List.range'_succ, List.map_cons, ← h.level,
      List.map_map]
    simp only [Function.comp_def, path_expand]

/-- The sets of nodes that a search reaches, level by level. -/
def reached (s : Search) : List NodeSet := (List.range s.graph.size).flatMap s.level

theorem distinctBy_allRounds (s : Search) :
    distinctBy id (s.allRounds.1.flatten.map fun e => e.path.nodes) = s.reached := by
  have hrounds : s.allRounds.1.map (fun round => distinctBy id (round.map fun e => e.path.nodes)) =
      (List.range s.graph.size).map s.level := by
    rw [List.range_eq_range']
    exact (roundStart_seeds s s.config.memoCapacity).rounds_eq s.graph.size
  have hpairwise := pairwise_levels s s.graph.size
  rw [← hrounds, List.pairwise_map] at hpairwise
  simp only [mem_distinctBy_id] at hpairwise
  calc distinctBy id (s.allRounds.1.flatten.map fun e => e.path.nodes)
    _ = distinctBy id (s.allRounds.1.map fun round => round.map fun e => e.path.nodes).flatten := by
      rw [List.map_flatten]
    _ = (s.allRounds.1.map fun round =>
          distinctBy id (round.map fun e => e.path.nodes)).flatten := by
      rw [distinctBy_flatten (List.pairwise_map.2 hpairwise), List.map_map]
      rfl
    _ = s.reached := by
      rw [reached, List.flatMap_def, ← hrounds]

/-! ## Verdicts -/

/-- The verdict on a set of nodes that covers the query. -/
def verdictOn (s : Search) (t : NodeSet) : Verdict :=
  match t.toList.find? (s.graph.isSpare s.width t) with
  | some node => .redundant node
  | none =>
    let missing := s.graph.unboundInputs t
    if missing.isEmpty then .component ⟨t, s.graph.triplesOf t⟩
    else .unbound ⟨t, (s.graph.nodesOf t).map Node.label, missing⟩

theorem judge_eq (h : p.Grown s.graph s.width) : s.judge p = s.verdictOn p.nodes := by
  unfold judge verdictOn
  rewrite [h.redundantNode?_eq, h.tracks.matched_eq]
  rfl

/-- The component that a set of nodes makes, if it is one. -/
def answer? (s : Search) (t : NodeSet) : Option JoinComponent :=
  if s.query ⊆ s.graph.triplesOf t then (s.verdictOn t).component? else none

/-- A set without a spare node is judged by its inputs. -/
theorem verdictOn_cases (s : Search) (t : NodeSet) :
    (∃ i ∈ t, s.graph.isSpare s.width t i = true ∧ s.verdictOn t = .redundant i) ∨
      ((∀ i ∈ t, s.graph.isSpare s.width t i = false) ∧
        s.verdictOn t =
          if (s.graph.unboundInputs t).isEmpty then .component ⟨t, s.graph.triplesOf t⟩
          else .unbound ⟨t, (s.graph.nodesOf t).map Node.label, s.graph.unboundInputs t⟩) := by
  unfold verdictOn
  cases spare : t.toList.find? (s.graph.isSpare s.width t) with
  | some i => exact .inl ⟨i, List.mem_of_find?_eq_some spare, List.find?_some spare, rfl⟩
  | none =>
    refine .inr ⟨fun i hi => ?_, rfl⟩
    simpa using List.find?_eq_none.1 spare i hi

theorem answer?_eq_some_iff {c : JoinComponent} :
    s.answer? t = some c ↔ s.query ⊆ s.graph.triplesOf t ∧
      (∀ i ∈ t, s.graph.isSpare s.width t i = false) ∧ s.graph.unboundInputs t = ∅ ∧
        ⟨t, s.graph.triplesOf t⟩ = c := by
  unfold answer?
  by_cases covers : s.query ⊆ s.graph.triplesOf t
  · simp only [covers, if_true, true_and]
    rcases verdictOn_cases s t with ⟨i, hi, spare, verdict⟩ | ⟨needed, verdict⟩
    · rw [verdict]
      refine iff_of_false nofun fun h => ?_
      rw [h.1 i hi] at spare
      cases spare
    · rw [verdict]
      by_cases missing : s.graph.unboundInputs t = ∅
      · simpa [missing, Verdict.component?] using fun _ => needed
      · simp [missing, Verdict.component?]
  · simp [covers]

/-- What is read off the verdicts on the paths that cover the query depends on their sets of
nodes. -/
theorem filterMap_judge {α : Type} (f : Verdict → Option α) {expansions : List Expansion}
    (h : ∀ e ∈ expansions, ∃ p, p.Grown s.graph s.width ∧ s.expand p = e) :
    ((expansions.filterMap Expansion.complete?).map s.judge).filterMap f =
      (expansions.map fun e => e.path.nodes).filterMap fun t =>
        if s.query ⊆ s.graph.triplesOf t then f (s.verdictOn t) else none := by
  rw [List.filterMap_map, List.filterMap_filterMap, List.filterMap_map]
  refine List.filterMap_congr fun e he => ?_
  obtain ⟨p, hp, rfl⟩ := h e he
  rw [complete?_expand hp, Function.comp_apply, path_expand]
  split
  · rw [Option.bind_some, Function.comp_apply, judge_eq hp]
  · rfl

theorem exists_grown_of_mem_allRounds (s : Search) :
    ∀ e ∈ s.allRounds.1.flatten, ∃ p, p.Grown s.graph s.width ∧ s.expand p = e := by
  intro e he
  obtain ⟨round, hround, he⟩ := List.mem_flatten.1 he
  exact (roundStart_seeds s s.config.memoCapacity).exists_grown s.graph.size round hround e he

/-- The components of a search, in the order of the levels. The memo plays no part in them. -/
theorem components_eq (s : Search) :
    s.run.components = if s.unreachable.isEmpty then s.reached.filterMap s.answer? else [] := by
  unfold run
  split
  · have judged := filterMap_judge Verdict.component? (exists_grown_of_mem_allRounds s)
    have found := distinctBy_filterMap JoinComponent.nodes
      (fun t c (h : s.answer? t = some c) => (answer?_eq_some_iff.1 h).2.2.2 ▸ rfl)
      (s.allRounds.1.flatten.map fun e => e.path.nodes)
    rw [distinctBy_allRounds] at found
    exact (congrArg (distinctBy JoinComponent.nodes) judged).trans found
  · rfl

/-- Two components never have the same nodes. -/
theorem nodup_nodes_components (s : Search) : (s.run.components.map JoinComponent.nodes).Nodup := by
  unfold run
  split
  · exact List.pairwise_map.2 (pairwise_distinctBy _ _)
  · exact List.nodup_nil

theorem mem_components_iff {c : JoinComponent} :
    c ∈ s.run.components ↔ s.query ⊆ s.graph.triplesOf s.graph.allNodes ∧
      c.nodes ∈ s.reached ∧ s.answer? c.nodes = some c := by
  have found : c ∈ s.reached.filterMap s.answer? ↔ c.nodes ∈ s.reached ∧
      s.answer? c.nodes = some c := by
    rw [List.mem_filterMap]
    constructor
    · intro h
      obtain ⟨t, ht, hc⟩ := h
      have : c.nodes = t := (answer?_eq_some_iff.1 hc).2.2.2 ▸ rfl
      exact this ▸ ⟨ht, hc⟩
    · intro h
      exact ⟨c.nodes, h⟩
  rw [components_eq, ← OrdSet.sdiff_eq_empty_iff, ← found, ← unreachable]
  by_cases h : s.unreachable = ∅
  · simp [h]
  · simp [h]

/-- As many rounds as there are nodes are enough to reach every level. -/
theorem mem_reached_iff : t ∈ s.reached ↔ ∃ k, t ∈ s.level k := by
  simp only [reached, List.mem_flatMap, List.mem_range]
  constructor
  · intro h
    obtain ⟨k, -, hk⟩ := h
    exact ⟨k, hk⟩
  · intro h
    obtain ⟨k, hk⟩ := h
    exact ⟨k, lt_size_of_mem_level hk, hk⟩

/-- Smaller sets are reached first. -/
theorem pairwise_size_reached (s : Search) : s.reached.Pairwise (·.size ≤ ·.size) := by
  rw [reached, List.flatMap_def, List.pairwise_flatten, List.pairwise_map]
  refine ⟨fun l hl => ?_, List.pairwise_lt_range.imp fun {j k} hjk t ht u hu => ?_⟩
  · obtain ⟨k, -, rfl⟩ := List.mem_map.1 hl
    refine List.pairwise_of_forall_mem_list fun t ht u hu => ?_
    rw [size_of_mem_level ht, size_of_mem_level hu]
  · rw [size_of_mem_level ht, size_of_mem_level hu]
    exact Nat.succ_le_succ (Nat.le_of_lt hjk)

/-- Components with fewer nodes are found first. -/
theorem pairwise_size_components (s : Search) :
    s.run.components.Pairwise (·.nodes.size ≤ ·.nodes.size) := by
  rw [components_eq]
  split
  · refine List.Pairwise.filterMap _ ?_ s.pairwise_size_reached
    intro t u hle c hc d hd
    obtain ⟨-, -, -, rfl⟩ := answer?_eq_some_iff.1 hc
    obtain ⟨-, -, -, rfl⟩ := answer?_eq_some_iff.1 hd
    exact hle
  · exact .nil

theorem isConnected_of_mem_components {c : JoinComponent} (h : c ∈ s.run.components) :
    s.graph.isConnected c.nodes = true := by
  obtain ⟨k, hk⟩ := mem_reached_iff.1 (mem_components_iff.1 h).2.1
  exact isConnected_of_mem_level hk

theorem unboundInputs_of_mem_components {c : JoinComponent} (h : c ∈ s.run.components) :
    s.graph.unboundInputs c.nodes = ∅ :=
  (answer?_eq_some_iff.1 (mem_components_iff.1 h).2.2).2.2.1

/-! ## The capacity of the memo -/

theorem level_config (s : Search) (config : Config) (k : Nat) :
    ({ s with config } : Search).level k = s.level k := by
  induction k with
  | zero => rfl
  | succ k ih =>
    rw [level, level, ih]
    rfl

/-- The limits that hold for a search have no influence on its components. -/
theorem components_config (s : Search) (config : Config) :
    ({ s with config } : Search).run.components = s.run.components := by
  have hlevel : ({ s with config } : Search).level = s.level := funext (level_config s config)
  rw [components_eq, components_eq, reached, reached, hlevel]
  rfl

/-- Searches with memos of different capacity find the same components in the same order, each of
them once. -/
theorem run_components_memoCapacity (g : JoinGraph) (query : TripleSet) (config : Config)
    (capacity : Nat) :
    let components := (Search.run ⟨g, query, config⟩).components
    (Search.run ⟨g, query, { config with memoCapacity := capacity }⟩).components = components ∧
      (components.map JoinComponent.nodes).Nodup :=
  ⟨components_config ⟨g, query, config⟩ _, nodup_nodes_components ⟨g, query, config⟩⟩

end Search
end FederatedJoin
