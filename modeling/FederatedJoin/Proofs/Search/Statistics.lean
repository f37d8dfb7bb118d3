import FederatedJoin.Proofs.Search.Forgetting
import FederatedJoin.Proofs.Search.Worklist
import Mathlib.Algebra.BigOperators.Group.List.Basic
import Mathlib.Data.Finset.Powerset

/-!
# The statistics of a search

The statistics depend on the sets of nodes that are taken up. A small memo makes a difference only
if it forgets a set that is reached again, and it does not do so as long as it has room for all sets
of one and the same size.

* `Worklist.Accounts` — what the memo has counted when some paths have been taken up.
* `Search.statistics_eq` — the statistics, read off the sets of nodes that are taken up.
* `Search.mem_takenUp_iff_waits` — what is taken up is what waits at some time.
* `Search.NeverForgets` — a search whose memo has room for everything.
* `Search.statistics_of_room` — when the statistics are those of a memo that never forgets.
-/

namespace FederatedJoin

/-! ## The accounts of the memo -/

/-- What the memo has counted when the paths `popped` have been taken up. It has let through these
paths and those that wait, in this order. All other extensions were refused. -/
structure Worklist.Accounts (s : Search) (popped : List JoinPath) (w : Worklist) : Prop where
  capacity_eq : w.memo.capacity = s.config.memoCapacity
  window : w.memo.Window ((popped ++ w.waiting).map JoinPath.nodes)
  hits_eq : w.memo.hits + (popped ++ w.waiting).length =
    s.seeds.length + (popped.map fun p => (s.expand p).successors.length).sum

namespace Search

variable {s : Search} {memo : Memo NodeSet} {p : JoinPath} {waiting popped popped' : List JoinPath}
variable {w w' : Worklist} {t : NodeSet} {k capacity : Nat}

theorem accounts_worklist (s : Search) : s.worklist.Accounts s [] where
  capacity_eq := Memo.capacity_insertAll _ _
  window := (Memo.window_nil s.config.memoCapacity).insertAll s.seeds
  hits_eq := (Memo.hits_insertAll _ s.seeds).trans (Nat.add_comm 0 _)

/-- A path that is taken up is accounted for with its extensions. -/
theorem accounts_takeUp (h : Worklist.Accounts s popped ⟨memo, p :: waiting⟩) :
    (s.takeUp memo p waiting).Accounts s (popped ++ [p]) where
  capacity_eq := (Memo.capacity_insertAll _ _).trans h.capacity_eq
  window := by
    have hwindow : (memo.insertAll JoinPath.nodes (s.expand p).successors).1.Window _ :=
      h.window.insertAll (s.expand p).successors
    rw [← List.map_append, List.append_assoc, List.cons_append] at hwindow
    rw [List.append_assoc, List.singleton_append]
    exact hwindow
  hits_eq := by
    have hold := h.hits_eq
    have hnew : (memo.insertAll JoinPath.nodes (s.expand p).successors).1.hits + _ = _ :=
      Memo.hits_insertAll memo (s.expand p).successors
    rw [takeUp, List.map_append, List.sum_append]
    simp only [List.length_append, List.length_cons, List.length_nil, List.map_cons, List.map_nil,
      List.sum_cons, List.sum_nil] at hold ⊢
    omega

theorem Pops.accounts (h : s.Pops w popped' w') (hw : w.Accounts s popped) :
    w'.Accounts s (popped ++ popped') := by
  induction h generalizing popped with
  | nil => rwa [List.append_nil]
  | cons _ ih =>
    rw [← List.singleton_append, ← List.append_assoc]
    exact ih (accounts_takeUp hw)

theorem accounts_allRounds (s : Search) :
    Worklist.Accounts s (s.allRounds.1.flatten.map Expansion.path) ⟨s.allRounds.2, []⟩ :=
  (pops_allRounds s).accounts (accounts_worklist s)

/-! ## Statistics of sets of nodes -/

/-- How many extensions of a set of nodes are dropped because of a dominated node. -/
def dominatedAfter (s : Search) (t : NodeSet) : Nat :=
  if s.query ⊆ s.graph.triplesOf t then 0
  else (s.graph.frontier t).toList.countP fun i =>
    (s.graph.dominatedIn? s.width (t.insert i)).isSome

/-- Whether a set of nodes covers the query and can do without one of its nodes. -/
def hasSpare (s : Search) (t : NodeSet) : Bool :=
  s.query ⊆ s.graph.triplesOf t && (s.verdictOn t).isRedundant

/-- The statistics of a search that takes up these sets of nodes. -/
def statisticsOf (s : Search) (sets : List NodeSet) : Statistics where
  expanded := sets.length
  rejectedDominated := (sets.map s.dominatedAfter).sum
  rejectedRedundant := sets.countP s.hasSpare
  memoHits :=
    (s.level 0).length + (sets.map fun t => (s.successorSets t).length).sum - sets.length
  memoEvictions :=
    if s.config.memoCapacity = 0 then 0 else sets.length - s.config.memoCapacity

theorem dominated_expand (h : p.Grown s.graph s.width) :
    (s.expand p).dominated = s.dominatedAfter p.nodes := by
  unfold expand dominatedAfter
  rw [covers_eq h]
  by_cases hc : s.query ⊆ s.graph.triplesOf p.nodes
  · simp [hc, Expansion.dominated]
  · simp only [hc, decide_false, Bool.false_eq_true, if_false, Expansion.dominated,
      List.countP_map]
    refine List.countP_congr fun i hi => ?_
    have hadd := toOption_extend h hi
    rw [Function.comp_apply]
    cases hextend : p.extend s.graph s.width i <;>
      cases hdominated : s.graph.dominatedIn? s.width (p.nodes.insert i) <;>
        simp_all [Except.toOption, Except.isOk, Except.toBool]

theorem rejectedDominated_eq (s : Search) :
    (s.allRounds.1.flatten.map Expansion.dominated).foldr (· + ·) 0 =
      (s.takenUp.map s.dominatedAfter).sum := by
  rw [← List.sum_eq_foldr, takenUp, List.map_map]
  refine congrArg List.sum (List.map_congr_left fun e he => ?_)
  obtain ⟨p, hp, rfl⟩ := exists_grown_of_mem_allRounds s e he
  rw [dominated_expand hp, Function.comp_apply, path_expand]

theorem rejectedRedundant_eq (s : Search) :
    ((s.allRounds.1.flatten.filterMap Expansion.complete?).map s.judge).countP
      Verdict.isRedundant = s.takenUp.countP s.hasSpare := by
  have judged := congrArg List.length (filterMap_judge (Option.guard Verdict.isRedundant)
    (exists_grown_of_mem_allRounds s))
  have hguard : ∀ t, (if s.query ⊆ s.graph.triplesOf t then
      Option.guard Verdict.isRedundant (s.verdictOn t) else none).isSome = s.hasSpare t := by
    intro t
    by_cases hc : s.query ⊆ s.graph.triplesOf t <;> simp [hc, hasSpare, Option.isSome_guard]
  rw [List.length_filterMap_eq_countP, List.length_filterMap_eq_countP] at judged
  simp only [hguard, Option.isSome_guard] at judged
  exact judged

/-- Every extension that is not dropped is either taken up itself or refused by the memo. -/
theorem memoHits_eq (s : Search) :
    s.allRounds.2.hits = (s.level 0).length +
      (s.takenUp.map fun t => (s.successorSets t).length).sum - s.takenUp.length := by
  have hits := (accounts_allRounds s).hits_eq
  have hsuccessors : ∀ e ∈ s.allRounds.1.flatten,
      (s.expand e.path).successors.length = (s.successorSets e.path.nodes).length := by
    intro e he
    obtain ⟨p, hp, rfl⟩ := exists_grown_of_mem_allRounds s e he
    rw [path_expand, ← nodes_successors hp, List.length_map]
  rw [List.append_nil, List.length_map, List.map_map, ← List.length_map JoinPath.nodes,
    nodes_seeds] at hits
  rw [takenUp, List.map_map, List.length_map]
  have hsum := congrArg List.sum (List.map_congr_left hsuccessors)
  simp only [Function.comp_def] at hits ⊢
  omega

theorem memoEvictions_eq (s : Search) :
    s.allRounds.2.evictions =
      if s.config.memoCapacity = 0 then 0 else s.takenUp.length - s.config.memoCapacity := by
  have accounts := accounts_allRounds s
  rw [accounts.window.evictions_eq, accounts.capacity_eq, List.append_nil, List.map_map,
    List.length_map, takenUp, List.length_map]

theorem statistics_eq (h : s.unreachable = ∅) : s.run.statistics = s.statisticsOf s.takenUp := by
  unfold run statisticsOf
  rw [if_pos (OrdSet.isEmpty_iff.2 h)]
  simp only [rejectedDominated_eq, rejectedRedundant_eq, memoHits_eq, memoEvictions_eq]
  rw [takenUp, List.length_map]

theorem statistics_of_unreachable (h : s.unreachable ≠ ∅) : s.run.statistics = {} := by
  unfold run
  rw [if_neg (mt OrdSet.isEmpty_iff.1 h)]

/-! ## Room for the sets of one size -/

/-- The search with a memo of another capacity. -/
def withMemo (s : Search) (capacity : Nat) : Search :=
  { s with config := { s.config with memoCapacity := capacity } }

/-- The sets of nodes that a run takes up, in order and with repetitions. -/
def expandedSets (s : Search) : List NodeSet := if s.unreachable.isEmpty then s.takenUp else []

/-- The different sets of `k` nodes that a run lets wait, all of which are taken up in the end. -/
def enqueued (s : Search) (k : Nat) : Finset NodeSet :=
  (s.expandedSets.filter (·.size = k)).toFinset

/-- The memo has room for every set of nodes that is let through. -/
structure NeverForgets (s : Search) : Prop where
  capacity_pos : 0 < s.config.memoCapacity
  evictions_eq : s.run.statistics.memoEvictions = 0

theorem level_withMemo (s : Search) (capacity : Nat) : (s.withMemo capacity).level = s.level :=
  funext (level_config s _)

theorem reached_withMemo (s : Search) (capacity : Nat) :
    (s.withMemo capacity).reached = s.reached := by
  rw [reached, level_withMemo]
  rfl

theorem takenUp_eq_map (s : Search) :
    s.takenUp = (s.allRounds.1.flatten.map Expansion.path).map JoinPath.nodes :=
  (List.map_map ..).symm

theorem expandedSets_eq (h : s.unreachable = ∅) : s.expandedSets = s.takenUp :=
  if_pos (OrdSet.isEmpty_iff.2 h)

/-- What is taken up is what waits at some time. -/
theorem mem_takenUp_iff_waits :
    t ∈ s.takenUp ↔ ∃ popped w, s.Pops s.worklist popped w ∧ ∃ p ∈ w.waiting, p.nodes = t := by
  rw [takenUp_eq_map, List.mem_map]
  constructor
  · rintro ⟨p, hp, rfl⟩
    obtain ⟨popped, memo, waiting, h⟩ := (pops_allRounds s).exists_waiting hp
    exact ⟨popped, _, h, p, List.mem_cons_self, rfl⟩
  · rintro ⟨popped, w, h, p, hp, rfl⟩
    obtain ⟨later, hall, hlater⟩ := h.rest (pops_allRounds s)
    refine ⟨p, ?_, rfl⟩
    rw [hall]
    exact List.mem_append_right _ (hlater.waiting_isPrefix.subset hp)

theorem enqueued_succ (h : s.unreachable = ∅) (k : Nat) :
    s.enqueued (k + 1) = (s.level k).toFinset := by
  ext t
  rw [enqueued, expandedSets_eq h, List.mem_toFinset, List.mem_toFinset, List.mem_filter,
    decide_eq_true_iff, mem_takenUp, mem_reached_iff]
  constructor
  · rintro ⟨⟨j, hj⟩, hsize⟩
    rw [size_of_mem_level hj, Nat.succ_inj] at hsize
    exact hsize ▸ hj
  · intro ht
    exact ⟨⟨k, ht⟩, size_of_mem_level ht⟩

theorem card_enqueued_succ (h : s.unreachable = ∅) (k : Nat) :
    (s.enqueued (k + 1)).card = (s.level k).length := by
  rw [enqueued_succ h, List.toFinset_card_of_nodup (nodup_level s k)]

theorem nodup_reached (s : Search) : s.reached.Nodup := by
  rw [← distinctBy_takenUp]
  exact nodup_distinctBy_id _

theorem length_level_le (s : Search) (k : Nat) : (s.level k).length ≤ s.reached.length :=
  (List.subperm_of_subset (nodup_level s k) fun _ ht => mem_reached_iff.2 ⟨k, ht⟩).length_le

theorem length_reached_le (s : Search) : s.reached.length ≤ 2 ^ s.graph.size := by
  calc s.reached.length
    _ = s.reached.toFinset.card := (List.toFinset_card_of_nodup s.nodup_reached).symm
    _ ≤ (Finset.range s.graph.size).powerset.card := by
      refine Finset.card_le_card_of_injOn (fun t => t.toList.toFinset) (fun t ht => ?_)
        fun t _ u _ heq => OrdSet.ext fun i => ?_
      · obtain ⟨k, hk⟩ := mem_reached_iff.1 (List.mem_toFinset.1 ht)
        refine Finset.mem_powerset.2 fun i hi => Finset.mem_range.2 ?_
        exact JoinGraph.mem_allNodes.1 (subset_allNodes_of_mem_level hk i (List.mem_toFinset.1 hi))
      · have hmem := Finset.ext_iff.1 heq i
        rwa [List.mem_toFinset, List.mem_toFinset] at hmem
    _ = 2 ^ s.graph.size := by rw [Finset.card_powerset, Finset.card_range]

theorem takenUp_of_length_le (h : s.reached.length ≤ s.config.memoCapacity) :
    s.takenUp = s.reached :=
  takenUp_of_room fun k _ => (length_level_le s k).trans h

/-- A memo with room for all sets of nodes of the graph is as good as an unbounded one. -/
theorem neverForgets_of_two_pow_le (h : 2 ^ s.graph.size ≤ s.config.memoCapacity) :
    s.NeverForgets where
  capacity_pos := Nat.lt_of_lt_of_le (Nat.two_pow_pos _) h
  evictions_eq := by
    by_cases hreach : s.unreachable = ∅
    · have hlength : s.reached.length ≤ s.config.memoCapacity := (length_reached_le s).trans h
      rw [statistics_eq hreach, takenUp_of_length_le hlength, statisticsOf,
        Nat.sub_eq_zero_of_le hlength, ite_self]
    · rw [statistics_of_unreachable hreach]

theorem NeverForgets.takenUp_eq (h : s.NeverForgets) (hreach : s.unreachable = ∅) :
    s.takenUp = s.reached := by
  have hevictions := h.evictions_eq
  rw [statistics_eq hreach, statisticsOf, if_neg (Nat.ne_of_gt h.capacity_pos)] at hevictions
  have hlength : s.reached.length ≤ s.takenUp.length := by
    rw [← distinctBy_takenUp]
    exact (distinctBy_sublist _ _).length_le
  exact takenUp_of_length_le (hlength.trans (Nat.le_of_sub_eq_zero hevictions))

/-- If no set is taken up twice, what is reached again is still remembered. -/
theorem Pops.mem_seen (hnodup : s.takenUp.Nodup)
    (h : s.Pops s.worklist popped ⟨memo, p :: waiting⟩) {q : JoinPath}
    (hq : q ∈ (s.expand p).successors)
    (again : q.nodes ∈ (popped ++ p :: waiting).map JoinPath.nodes) : q.nodes ∈ memo.seen := by
  by_contra forgotten
  obtain ⟨later, hall, hlater⟩ := h.rest (pops_allRounds s)
  cases hlater with
  | cons rest =>
    let admitted := (memo.insertAll JoinPath.nodes (s.expand p).successors).2
    have hadmitted : q.nodes ∈ admitted.map JoinPath.nodes := Memo.mem_insertAll hq forgotten
    obtain ⟨last, hlast⟩ := rest.waiting_isPrefix
    have htakenUp : s.takenUp = (popped ++ p :: waiting).map JoinPath.nodes ++
        (admitted.map JoinPath.nodes ++ last.map JoinPath.nodes) := by
      rw [takenUp_eq_map, hall, ← hlast]
      simp [takeUp, admitted]
    rw [htakenUp] at hnodup
    exact List.disjoint_of_nodup_append hnodup again (List.mem_append_left _ hadmitted)

/-- If the memo has room for the sets of each size from two on, it makes no difference that it
forgets. It may have less room than there are nodes, let alone sets of nodes. What it forgets are
smaller sets, which are not reached again: an extension that has waited before is remembered. -/
theorem statistics_of_room (s : Search) (unbounded capacity : Nat)
    (unforgetful : (s.withMemo unbounded).NeverForgets)
    (room : ∀ k, 2 ≤ k → ((s.withMemo unbounded).enqueued k).card ≤ capacity) :
    let free := (s.withMemo unbounded).run.statistics
    let bounded := (s.withMemo capacity).run.statistics
    (s.withMemo capacity).expandedSets.Nodup ∧
      bounded.expanded = (s.withMemo capacity).expandedSets.length ∧
      bounded.expanded = free.expanded ∧
      bounded.rejectedDominated = free.rejectedDominated ∧
      bounded.rejectedRedundant = free.rejectedRedundant ∧
      bounded.memoHits = free.memoHits ∧
      (s.unreachable = ∅ → ∀ popped memo p waiting,
        (s.withMemo capacity).Pops (s.withMemo capacity).worklist popped ⟨memo, p :: waiting⟩ →
        ∀ q ∈ ((s.withMemo capacity).expand p).successors,
          q.nodes ∈ (popped ++ p :: waiting).map JoinPath.nodes → q.nodes ∈ memo.seen) := by
  intro free bounded
  by_cases hreach : s.unreachable = ∅
  · have hreach' : ∀ c, (s.withMemo c).unreachable = ∅ := fun _ => hreach
    have hfree : (s.withMemo unbounded).takenUp = s.reached :=
      (unforgetful.takenUp_eq (hreach' _)).trans (reached_withMemo s unbounded)
    have hbounded : (s.withMemo capacity).takenUp = s.reached := by
      rw [← reached_withMemo s capacity]
      refine takenUp_of_room fun k hk => ?_
      have hcard := room (k + 1) (Nat.succ_le_succ hk)
      rw [card_enqueued_succ (hreach' _), level_withMemo] at hcard
      rwa [level_withMemo]
    have hstatistics : free = (s.withMemo unbounded).statisticsOf s.reached :=
      hfree ▸ statistics_eq (hreach' _)
    have hstatistics' : bounded = (s.withMemo capacity).statisticsOf s.reached :=
      hbounded ▸ statistics_eq (hreach' _)
    rw [hstatistics, hstatistics', expandedSets_eq (hreach' _), hbounded]
    refine ⟨nodup_reached s, rfl, rfl, rfl, rfl, ?_, fun _ popped memo p waiting h q hq =>
      h.mem_seen (hbounded ▸ nodup_reached s) hq⟩
    rw [statisticsOf, statisticsOf, level_withMemo, level_withMemo]
    rfl
  · have hstatistics : free = {} := statistics_of_unreachable hreach
    have hstatistics' : bounded = {} := statistics_of_unreachable hreach
    have hnone : (s.withMemo capacity).expandedSets = [] := if_neg (mt OrdSet.isEmpty_iff.1 hreach)
    rw [hstatistics, hstatistics', hnone]
    exact ⟨List.nodup_nil, rfl, rfl, rfl, rfl, rfl, fun h => absurd h hreach⟩

/-- For a chain of three nodes there is enough room with a memo for two sets of nodes. -/
theorem statistics_of_room_bridge :
    let s : Search := ⟨bridge, .ofList [0, 1, 2, 3], {}⟩
    (s.withMemo 8).NeverForgets ∧ 2 < bridge.size ∧
      (∀ k, 2 ≤ k → ((s.withMemo 8).enqueued k).card ≤ 2) ∧
      (s.withMemo 2).expandedSets.Nodup ∧
      (s.withMemo 2).run.statistics.memoHits = (s.withMemo 8).run.statistics.memoHits := by
  intro s
  have unforgetful : (s.withMemo 8).NeverForgets := neverForgets_of_two_pow_le (by decide)
  have room : ∀ k, 2 ≤ k → ((s.withMemo 8).enqueued k).card ≤ 2 := by
    intro k hk
    obtain ⟨k, rfl⟩ := Nat.exists_eq_add_of_le' hk
    rw [card_enqueued_succ (by decide)]
    by_cases hsize : k + 1 < 3
    · have small : ∀ k < 3, 0 < k → ((s.withMemo 8).level k).length ≤ 2 := by decide
      exact small (k + 1) hsize k.succ_pos
    · rw [level_eq_nil (Nat.le_of_not_lt hsize)]
      exact Nat.zero_le 2
  obtain ⟨hnodup, -, -, -, -, hhits, -⟩ := statistics_of_room s 8 2 unforgetful room
  exact ⟨unforgetful, by decide, room, hnodup, hhits⟩

end Search
end FederatedJoin
