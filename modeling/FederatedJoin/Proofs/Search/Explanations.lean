import FederatedJoin.Proofs.Diagnostics
import FederatedJoin.Proofs.Search.Exactness

/-!
# Why a search finds nothing

The samples that a search leaves behind are true, and if it finds no component, there is a sample
of the kind that says why.

* `UnboundInputs.Explains` — what a sample of unbound inputs says about a graph.
* `Search.diagnostics_eq` — the samples, read off the sets of nodes that are taken up.
* `Search.exists_subset_reached` — the search goes on from every set that it reaches, up to a set
  that it cannot go on from.
-/

namespace FederatedJoin

/-- A sample of unbound inputs names nodes that match the whole query, are connected and cannot do
without any of them, with their labels by ascending index. What is missing are the inputs that no
other of these nodes binds, of which there is at least one. -/
structure UnboundInputs.Explains (sample : UnboundInputs) (g : JoinGraph) (query : TripleSet) :
    Prop where
  cover : g.MinimalCover query sample.nodes
  labels : sample.labels = (g.nodesOf sample.nodes).map Node.label
  missing_ne_empty : sample.missing ≠ ∅
  mem_missing : ∀ v, v ∈ sample.missing ↔
    ∃ i ∈ sample.nodes, ∃ n, g.node? i = some n ∧ v ∈ n.inputs ∧
      ¬∃ j ∈ sample.nodes, j ≠ i ∧ ∃ m, g.node? j = some m ∧ v ∈ m.results

/-- Some connected set of nodes matches the whole query. -/
def JoinGraph.Coverable (g : JoinGraph) (query : TripleSet) : Prop :=
  ∃ t, g.isConnected t = true ∧ query ⊆ g.triplesOf t

/-- The last node of an expansion is a dead end if there is neither a component nor a successor. -/
theorem Expansion.deadEnd?_eq (e : Expansion) :
    e.deadEnd? = if e.complete? = none ∧ e.successors = [] then some e.path else none := by
  cases e with
  | complete path => simp [deadEnd?, complete?]
  | extended path successors dominated =>
    cases successors <;> simp [deadEnd?, complete?, Expansion.successors, Expansion.path]

namespace Search

variable {s : Search} {p : JoinPath} {t u : NodeSet} {k : Nat}

/-! ## Sets of nodes that fail -/

/-- What a set of nodes leaves uncovered, if the search does not go on from it. -/
def leftUncovered? (s : Search) (t : NodeSet) : Option TripleSet :=
  if ¬s.query ⊆ s.graph.triplesOf t ∧ s.successorSets t = [] then
    some (s.query \ s.graph.triplesOf t)
  else none

/-- The unbound inputs of a set of nodes that covers the query and fails by nothing else. -/
def unboundSample? (s : Search) (t : NodeSet) : Option UnboundInputs :=
  if s.query ⊆ s.graph.triplesOf t then (s.verdictOn t).unbound? else none

theorem leftUncovered?_eq_some_iff {uncovered : TripleSet} :
    s.leftUncovered? t = some uncovered ↔ ¬s.query ⊆ s.graph.triplesOf t ∧
      s.successorSets t = [] ∧ s.query \ s.graph.triplesOf t = uncovered := by
  simp [leftUncovered?, and_assoc]

theorem unboundSample?_eq_some_iff {sample : UnboundInputs} :
    s.unboundSample? t = some sample ↔ s.query ⊆ s.graph.triplesOf t ∧
      (∀ i ∈ t, s.graph.isSpare s.width t i = false) ∧ s.graph.unboundInputs t ≠ ∅ ∧
        ⟨t, (s.graph.nodesOf t).map Node.label, s.graph.unboundInputs t⟩ = sample := by
  unfold unboundSample?
  by_cases covers : s.query ⊆ s.graph.triplesOf t
  · simp only [covers, if_true, true_and]
    rcases verdictOn_cases s t with ⟨i, hi, spare, verdict⟩ | ⟨needed, verdict⟩
    · rw [verdict]
      refine iff_of_false nofun fun h => ?_
      rw [h.1 i hi] at spare
      cases spare
    · rw [verdict]
      by_cases missing : s.graph.unboundInputs t = ∅
      · simp [missing, Verdict.unbound?]
      · simpa [missing, Verdict.unbound?] using fun _ => needed
  · simp [covers]

theorem map_deadEnd?_expand (h : p.Grown s.graph s.width) :
    (s.expand p).deadEnd?.map (s.query \ ·.matched) = s.leftUncovered? p.nodes := by
  have hsuccessors : (s.expand p).successors = [] ↔ s.successorSets p.nodes = [] := by
    rw [← nodes_successors h, List.map_eq_nil_iff]
  simp only [Expansion.deadEnd?_eq, complete?_expand h, path_expand, leftUncovered?, hsuccessors]
  by_cases hc : s.query ⊆ s.graph.triplesOf p.nodes
  · simp [hc]
  · by_cases hs : s.successorSets p.nodes = [] <;> simp [hc, hs, h.tracks.matched_eq]

/-! ## The samples of a search -/

/-- The sets of nodes that a search takes up, in order and with repetitions. -/
def takenUp (s : Search) : List NodeSet := s.allRounds.1.flatten.map fun e => e.path.nodes

theorem mem_takenUp : t ∈ s.takenUp ↔ t ∈ s.reached := by
  rw [← distinctBy_allRounds, mem_distinctBy_id, takenUp]

theorem diagnostics_eq (h : s.unreachable = ∅) :
    s.run.diagnostics =
      { nearMisses :=
          (distinctBy id ((s.takenUp.filterMap s.leftUncovered?).filter
            (·.size ≤ s.config.limits.uncovered))).take s.config.limits.samples
        unbound := (s.takenUp.filterMap s.unboundSample?).take s.config.limits.samples } := by
  have grown := exists_grown_of_mem_allRounds s
  have deadEnds : (s.allRounds.1.flatten.filterMap Expansion.deadEnd?).map
      (s.query \ ·.matched) = s.takenUp.filterMap s.leftUncovered? := by
    rw [takenUp, List.map_filterMap, List.filterMap_map]
    refine List.filterMap_congr fun e he => ?_
    obtain ⟨p, hp, rfl⟩ := grown e he
    rw [map_deadEnd?_expand hp, Function.comp_apply, path_expand]
  have unbound : ((s.allRounds.1.flatten.filterMap Expansion.complete?).map s.judge).filterMap
      Verdict.unbound? = s.takenUp.filterMap s.unboundSample? :=
    filterMap_judge Verdict.unbound? grown
  unfold run
  rw [if_pos (OrdSet.isEmpty_iff.2 h)]
  simp only [diagnose, deadEnds, unbound, Diagnostics.foldl_addNearMiss,
    Diagnostics.foldl_addUnboundInputs]
  simp
  rfl

theorem unreachable_diagnostics (s : Search) : s.run.diagnostics.unreachable = s.unreachable := by
  by_cases h : s.unreachable = ∅
  · rw [diagnostics_eq h, h]
  · unfold run
    rw [if_neg (mt OrdSet.isEmpty_iff.1 h)]
    rfl

theorem mem_unreachable {id : TripleId} :
    id ∈ s.unreachable ↔ id ∈ s.query ∧ ∀ n ∈ s.graph.nodes, id ∉ n.triples := by
  rw [unreachable, OrdSet.mem_sdiff, JoinGraph.mem_triplesOf]
  refine and_congr_right fun _ => ?_
  constructor
  · intro h n hn hid
    obtain ⟨i, hi, hget⟩ := Array.mem_iff_getElem.1 hn
    exact h ⟨i, JoinGraph.mem_allNodes.2 hi, n, Array.getElem?_eq_some_iff.2 ⟨hi, hget⟩, hid⟩
  · intro h found
    obtain ⟨i, -, n, hn, hid⟩ := found
    exact h n (JoinGraph.mem_nodes_of_node? hn) hid

/-- A search that is cut short leaves no other samples. -/
theorem diagnostics_of_unreachable (h : s.unreachable ≠ ∅) :
    s.run.diagnostics = .ofUnreachable s.unreachable := by
  unfold run
  rw [if_neg (mt OrdSet.isEmpty_iff.1 h)]

/-! ## Samples are true -/

theorem explains_of_mem_unbound (inside : ∀ n ∈ s.graph.nodes, n.triples ⊆ s.query)
    {sample : UnboundInputs} (h : sample ∈ s.run.diagnostics.unbound) :
    sample.Explains s.graph s.query := by
  by_cases hreach : s.unreachable = ∅
  · rw [diagnostics_eq hreach] at h
    obtain ⟨t, ht, hsample⟩ := List.mem_filterMap.1 (List.mem_of_mem_take h)
    obtain ⟨covers, spare, missing, rfl⟩ := unboundSample?_eq_some_iff.1 hsample
    refine ⟨minimalCover_of_mem_reached inside (mem_takenUp.1 ht) covers spare, rfl, missing, ?_⟩
    intro v
    rw [JoinGraph.mem_unboundInputs]
    refine exists_congr fun i => and_congr_right fun hi => exists_congr fun n => ?_
    refine and_congr_right fun hn => and_congr_right fun hv => not_congr ?_
    rw [JoinGraph.mem_resultsOf]
    simp only [OrdSet.mem_erase, and_assoc]
  · rw [diagnostics_of_unreachable hreach] at h
    cases h

theorem nodup_nearMisses (s : Search) : s.run.diagnostics.nearMisses.Nodup := by
  by_cases hreach : s.unreachable = ∅
  · rw [diagnostics_eq hreach]
    exact (nodup_distinctBy_id _).sublist (List.take_sublist _ _)
  · rw [diagnostics_of_unreachable hreach]
    exact List.nodup_nil

theorem of_mem_nearMisses {uncovered : TripleSet} (h : uncovered ∈ s.run.diagnostics.nearMisses) :
    uncovered.size ≤ s.config.limits.uncovered ∧
      ∃ t ∈ s.reached, s.leftUncovered? t = some uncovered := by
  by_cases hreach : s.unreachable = ∅
  · rw [diagnostics_eq hreach] at h
    have hmem := mem_distinctBy_id.1 (List.mem_of_mem_take h)
    obtain ⟨hmem, small⟩ := List.mem_filter.1 hmem
    obtain ⟨t, ht, huncovered⟩ := List.mem_filterMap.1 hmem
    exact ⟨of_decide_eq_true small, t, mem_takenUp.1 ht, huncovered⟩
  · rw [diagnostics_of_unreachable hreach] at h
    cases h

/-! ## Samples of the right kind -/

/-- The search goes on from a set of nodes for as long as it can. -/
theorem exists_subset_reached (ht : t ∈ s.level k) :
    ∃ u ∈ s.reached, t ⊆ u ∧ s.successorSets u = [] := by
  -- The induction is on the number of levels that are left.
  induction hn : s.graph.size - k using Nat.strongRecOn generalizing t k with
  | ind n ih =>
    cases hsucc : s.successorSets t with
    | nil => exact ⟨t, mem_reached_iff.2 ⟨k, ht⟩, fun _ h => h, hsucc⟩
    | cons u rest =>
      have hmem : u ∈ s.successorSets t := hsucc ▸ List.mem_cons_self
      have hu : u ∈ s.level (k + 1) := mem_level_succ.2 ⟨t, ht, hmem⟩
      have hlt := lt_size_of_mem_level hu
      obtain ⟨w, hw, huw, hend⟩ := ih (s.graph.size - (k + 1)) (by omega) hu rfl
      obtain ⟨-, ⟨i, -, rfl⟩, -⟩ := mem_successorSets.1 hmem
      exact ⟨w, hw, fun j hj => huw j (OrdSet.mem_insert.2 (.inr hj)), hend⟩

/-- If all triples of a query are matched, but not by a connected set of nodes, the search comes to
a dead end that leaves less than the query uncovered. -/
theorem exists_deadEnd (hne : s.query ≠ ∅) (hreach : s.unreachable = ∅)
    (uncoverable : ¬s.graph.Coverable s.query) :
    ∃ t ∈ s.reached, ∃ uncovered, s.leftUncovered? t = some uncovered ∧
      uncovered.size < s.query.size := by
  obtain ⟨id, hid⟩ := OrdSet.exists_mem_of_ne_empty hne
  have hmatched : id ∈ s.graph.triplesOf s.graph.allNodes :=
    OrdSet.sdiff_eq_empty_iff.1 hreach id hid
  obtain ⟨i, hi, n, hn, hidn⟩ := JoinGraph.mem_triplesOf.1 hmatched
  have hsingle : id ∈ s.graph.triplesOf {i} :=
    JoinGraph.mem_triplesOf.2 ⟨i, OrdSet.mem_singleton.2 rfl, n, hn, hidn⟩
  have hseed : {i} ∈ s.level 0 := by
    refine mem_level_zero.2 ⟨i, JoinGraph.mem_allNodes.1 hi, fun hempty => ?_, rfl⟩
    exact OrdSet.not_mem_empty (hempty ▸ hsingle)
  obtain ⟨t, ht, hit, hend⟩ := exists_subset_reached hseed
  obtain ⟨k, hk⟩ := mem_reached_iff.1 ht
  have huncovered : ¬s.query ⊆ s.graph.triplesOf t := fun covers =>
    uncoverable ⟨t, isConnected_of_mem_level hk, covers⟩
  refine ⟨t, ht, _, leftUncovered?_eq_some_iff.2 ⟨huncovered, hend, rfl⟩, ?_⟩
  refine OrdSet.size_lt_of_subset (a := id) (fun a ha => (OrdSet.mem_sdiff.1 ha).1) hid fun h => ?_
  exact (OrdSet.mem_sdiff.1 h).2 (JoinGraph.triplesOf_subset hit id hsingle)

private theorem take_ne_nil_of_mem {α : Type} {l : List α} {a : α} {n : Nat} (ha : a ∈ l)
    (room : 1 ≤ n) : l.take n ≠ [] := by
  intro hnil
  rcases List.take_eq_nil_iff.1 hnil with rfl | rfl
  · omega
  · cases ha

theorem nearMisses_ne_nil (hreach : s.unreachable = ∅) (room : 1 ≤ s.config.limits.samples)
    (ht : t ∈ s.reached) {uncovered : TripleSet} (huncovered : s.leftUncovered? t = some uncovered)
    (small : uncovered.size ≤ s.config.limits.uncovered) : s.run.diagnostics.nearMisses ≠ [] := by
  rw [diagnostics_eq hreach]
  have hmem : uncovered ∈ s.takenUp.filterMap s.leftUncovered? :=
    List.mem_filterMap.2 ⟨t, mem_takenUp.2 ht, huncovered⟩
  exact take_ne_nil_of_mem
    (mem_distinctBy_id.2 (List.mem_filter.2 ⟨hmem, decide_eq_true small⟩)) room

theorem unbound_ne_nil (hreach : s.unreachable = ∅) (room : 1 ≤ s.config.limits.samples)
    (ht : t ∈ s.reached) {sample : UnboundInputs} (hsample : s.unboundSample? t = some sample) :
    s.run.diagnostics.unbound ≠ [] := by
  rw [diagnostics_eq hreach]
  exact take_ne_nil_of_mem (List.mem_filterMap.2 ⟨t, mem_takenUp.2 ht, hsample⟩) room

/-- If a query can be covered and there is no component, the minimal covers have unbound inputs. -/
theorem exists_unboundSample (hne : s.query ≠ ∅)
    (inside : ∀ n ∈ s.graph.nodes, n.triples ⊆ s.query) (hnone : s.run.components = [])
    (coverable : s.graph.Coverable s.query) :
    ∃ t ∈ s.reached, ∃ sample, s.unboundSample? t = some sample := by
  obtain ⟨t, connected, covers⟩ := coverable
  have htriples : s.graph.triplesOf t = s.query :=
    OrdSet.ext fun id => ⟨JoinGraph.triplesOf_subset_of_nodes inside id, covers id⟩
  obtain ⟨u, -, cover⟩ := JoinGraph.exists_minimalCover hne connected htriples
  refine ⟨u, mem_reached_of_minimalCover inside cover, _, unboundSample?_eq_some_iff.2
    ⟨fun id hid => cover.covers ▸ hid, fun i hi => ?_, fun bound => ?_, rfl⟩⟩
  · rw [isSpare_eq_canLeaveOut inside]
    exact cover.canLeaveOut_eq_false hi
  · have hmem : ⟨u, s.graph.triplesOf u⟩ ∈ s.run.components :=
      (mem_components_iff_answers inside).2 ⟨cover.answers bound, rfl⟩
    rw [hnone] at hmem
    cases hmem

/-- The samples of a search say what is the case. If there is room for them and no component is
found, they say why: there are triples that nothing matches, or the connected sets of nodes that
match the query have unbound inputs, or there is no such set and dead ends tell what is left. -/
theorem run_explains (s : Search) (hne : s.query ≠ ∅)
    (inside : ∀ n ∈ s.graph.nodes, n.triples ⊆ s.query) :
    let d := s.run.diagnostics
    let limits := s.config.limits
    (∀ id, id ∈ d.unreachable ↔ id ∈ s.query ∧ ∀ n ∈ s.graph.nodes, id ∉ n.triples) ∧
    (∀ sample ∈ d.unbound, sample.Explains s.graph s.query) ∧
    d.nearMisses.Nodup ∧
    (∀ uncovered ∈ d.nearMisses, uncovered ≠ ∅ ∧ uncovered.size ≤ limits.uncovered ∧
      ∃ t, t ≠ ∅ ∧ t ⊆ s.graph.allNodes ∧ s.graph.isConnected t = true ∧
        uncovered = s.query \ s.graph.triplesOf t) ∧
    (1 ≤ limits.samples → s.query.size - 1 ≤ limits.uncovered → s.run.components = [] →
      d.unreachable ≠ ∅ ∨
        ((d.unbound ≠ [] ↔ s.graph.Coverable s.query) ∧
          (d.unbound ≠ [] ∨ d.nearMisses ≠ []))) := by
  intro d limits
  refine ⟨fun id => ?_, fun sample => explains_of_mem_unbound inside, nodup_nearMisses s, ?_, ?_⟩
  · rw [unreachable_diagnostics, mem_unreachable]
  · intro uncovered h
    obtain ⟨small, t, ht, huncovered⟩ := of_mem_nearMisses h
    obtain ⟨covers, -, rfl⟩ := leftUncovered?_eq_some_iff.1 huncovered
    obtain ⟨k, hk⟩ := mem_reached_iff.1 ht
    refine ⟨mt OrdSet.sdiff_eq_empty_iff.1 covers, small, t, ?_, subset_allNodes_of_mem_level hk,
      isConnected_of_mem_level hk, rfl⟩
    rintro rfl
    exact absurd (size_of_mem_level hk) (Nat.succ_ne_zero k).symm
  · intro room small hnone
    by_cases hreach : s.unreachable = ∅
    · have unbound_iff : d.unbound ≠ [] ↔ s.graph.Coverable s.query := by
        constructor
        · intro h
          obtain ⟨sample, hsample⟩ := List.exists_mem_of_ne_nil _ h
          have cover := (explains_of_mem_unbound inside hsample).cover
          exact ⟨sample.nodes, cover.connected, fun id hid => cover.covers ▸ hid⟩
        · intro coverable
          obtain ⟨t, ht, sample, hsample⟩ := exists_unboundSample hne inside hnone coverable
          exact unbound_ne_nil hreach room ht hsample
      refine .inr ⟨unbound_iff, ?_⟩
      by_cases coverable : s.graph.Coverable s.query
      · exact .inl (unbound_iff.2 coverable)
      · obtain ⟨t, ht, uncovered, huncovered, hlt⟩ := exists_deadEnd hne hreach coverable
        have hsmall := Nat.le_trans (Nat.le_sub_one_of_lt hlt) small
        exact .inr (nearMisses_ne_nil hreach room ht huncovered hsmall)
    · rw [← unreachable_diagnostics] at hreach
      exact .inl hreach

/-- Two nodes that can be joined. The first one waits for a variable that neither of them binds. -/
def waiting : JoinGraph :=
  (JoinGraph.edgeless
    [.ofFragment ((Fragment.ofTriples "waits" (.ofList [0])).withInputs {"person"}),
      .ofFragment (.ofTriples "binds nothing" (.ofList [1]))]).linkAll [(0, 1)]

/-- The search for what the two nodes match together. -/
def waitingSearch : Search := ⟨waiting, .ofList [0, 1], {}⟩

/-- The two nodes match the query together, so the search reports what they wait for. -/
theorem run_explains_waiting :
    waitingSearch.query ≠ ∅ ∧ (∀ n ∈ waiting.nodes, n.triples ⊆ waitingSearch.query) ∧
      waitingSearch.run.components = [] ∧ waitingSearch.run.diagnostics.unbound ≠ [] := by
  have hne : waitingSearch.query ≠ ∅ := by decide
  have inside : ∀ n ∈ waiting.nodes, n.triples ⊆ waitingSearch.query := by decide
  have waits : ∀ n ∈ waiting.nodes, 0 ∈ n.triples → "person" ∈ n.inputs := by decide
  have unbound : ∀ n ∈ waiting.nodes, "person" ∉ n.results := by decide
  have hnone : waitingSearch.run.components = [] := by
    refine List.eq_nil_iff_forall_not_mem.2 fun c hc => ?_
    have answers := ((mem_components_iff_answers inside).1 hc).1
    have hzero : 0 ∈ waiting.triplesOf c.nodes := answers.covers.symm ▸ by decide
    obtain ⟨i, hi, n, hn, hid⟩ := JoinGraph.mem_triplesOf.1 hzero
    have hwaits := waits n (JoinGraph.mem_nodes_of_node? hn) hid
    obtain ⟨j, -, -, m, hm, hbinds⟩ := answers.bound i hi n hn _ hwaits
    exact unbound m (JoinGraph.mem_nodes_of_node? hm) hbinds
  obtain ⟨hunreachable, -, -, -, explained⟩ := run_explains waitingSearch hne inside
  rcases explained (by decide) (by decide) hnone with hreach | ⟨unbound_iff, -⟩
  · obtain ⟨id, hid⟩ := OrdSet.exists_mem_of_ne_empty hreach
    obtain ⟨hquery, hnode⟩ := (hunreachable id).1 hid
    have matched : ∀ id ∈ waitingSearch.query, ∃ n ∈ waiting.nodes, id ∈ n.triples := by decide
    obtain ⟨n, hn, hidn⟩ := matched id hquery
    exact absurd hidn (hnode n hn)
  · exact ⟨hne, inside, hnone, unbound_iff.2 ⟨.ofList [0, 1], by decide, by decide⟩⟩

end Search
end FederatedJoin
