import FederatedJoin.Component
import FederatedJoin.Proofs.Graph.Connected
import FederatedJoin.Search.JoinPath
import Mathlib.Data.List.Find

/-!
# Paths grown by the search

What a path keeps track of is determined by its set of nodes, in whatever order they were added.

* `JoinPath.Grown` — the paths that start with one node and add nodes of their frontier.
* `JoinPath.Grown.tracks` — the matched triples and the tally of such a path.
* `JoinPath.Grown.isRedundant_eq` — the tally and the union of all triples agree on which nodes
  can be left out.
* `JoinGraph.isSpare_of_dominated` — a dominated node can be left out of every greater connected
  set.
-/

namespace FederatedJoin

/-! ## Counting matches -/

namespace JoinGraph

variable {g : JoinGraph} {s t : NodeSet} {i : Nat} {n : Node} {id : TripleId}

/-- How many nodes of `s` match a triple. -/
def matchCount (g : JoinGraph) (s : NodeSet) (id : TripleId) : Nat :=
  (g.nodesOf s).countP fun n => id ∈ n.triples

theorem matchCount_pos_iff : 0 < g.matchCount s id ↔ id ∈ g.triplesOf s := by
  rw [matchCount, List.countP_pos_iff, mem_triplesOf]
  constructor
  · rintro ⟨n, hn, hid⟩
    obtain ⟨i, hi, hin⟩ := mem_nodesOf.1 hn
    exact ⟨i, hi, n, hin, by simpa using hid⟩
  · rintro ⟨i, hi, n, hin, hid⟩
    exact ⟨n, mem_nodesOf.2 ⟨i, hi, hin⟩, by simpa using hid⟩

theorem nodesOf_insert_perm (hi : i ∉ s) (hn : g.node? i = some n) :
    (g.nodesOf (s.insert i)).Perm (n :: g.nodesOf s) := by
  have h := (OrdSet.toList_insert_perm hi).filterMap g.node?
  rwa [List.filterMap_cons_some hn] at h

theorem matchCount_insert (hi : i ∉ s) (hn : g.node? i = some n) (id : TripleId) :
    g.matchCount (s.insert i) id = g.matchCount s id + if id ∈ n.triples then 1 else 0 := by
  rw [matchCount, (nodesOf_insert_perm hi hn).countP_eq, List.countP_cons, matchCount]
  by_cases h : id ∈ n.triples <;> simp [h]

theorem triplesOf_insert (hn : g.node? i = some n) :
    g.triplesOf (s.insert i) = g.triplesOf s ∪ n.triples := by
  apply OrdSet.ext
  intro id
  rw [OrdSet.mem_union, mem_triplesOf, mem_triplesOf]
  constructor
  · rintro ⟨j, hj, m, hm, hid⟩
    rcases OrdSet.mem_insert.1 hj with rfl | hj
    · rw [hn, Option.some.injEq] at hm
      exact .inr (hm ▸ hid)
    · exact .inl ⟨j, hj, m, hm, hid⟩
  · rintro (⟨j, hj, m, hm, hid⟩ | hid)
    · exact ⟨j, OrdSet.mem_insert.2 (.inr hj), m, hm, hid⟩
    · exact ⟨i, OrdSet.mem_insert.2 (.inl rfl), n, hn, hid⟩

theorem triplesOf_singleton (hn : g.node? i = some n) : g.triplesOf {i} = n.triples := by
  apply OrdSet.ext
  intro id
  rw [mem_triplesOf]
  constructor
  · rintro ⟨j, hj, m, hm, hid⟩
    rw [OrdSet.mem_singleton.1 hj, hn, Option.some.injEq] at hm
    exact hm ▸ hid
  · intro hid
    exact ⟨i, OrdSet.mem_singleton.2 rfl, n, hn, hid⟩

/-- Apart from node `i` itself, some node of `s` matches the triple. -/
theorem one_lt_matchCount_iff (hi : i ∈ s) (hn : g.node? i = some n) (hid : id ∈ n.triples) :
    1 < g.matchCount s id ↔ id ∈ g.triplesOf (s.erase i) := by
  have hnot : i ∉ s.erase i := fun h => (OrdSet.mem_erase.1 h).2 rfl
  have hcount := matchCount_insert hnot hn id
  rw [OrdSet.insert_erase hi, if_pos hid] at hcount
  rw [← matchCount_pos_iff]
  omega

/-! ## Spare nodes -/

/-- Whether `s` can do without node `i` and matches none of its triples from `width` on, which are
not counted. -/
def isSpare (g : JoinGraph) (width : Nat) (s : NodeSet) (i : Nat) : Bool :=
  (g.triplesOf {i}).toList.all (· < width) && g.canLeaveOut s i

theorem isSpare_iff {width : Nat} (hn : g.node? i = some n) :
    g.isSpare width s i = true ↔
      (∀ id ∈ n.triples, id < width ∧ id ∈ g.triplesOf (s.erase i)) ∧
        g.isConnected (s.erase i) = true := by
  simp only [isSpare, canLeaveOut, hn, triplesOf_singleton hn, Bool.and_eq_true, List.all_eq_true,
    OrdSet.mem_toList, decide_eq_true_eq, OrdSet.subset_iff]
  constructor
  · rintro ⟨counted, matched, connected⟩
    exact ⟨fun id hid => ⟨counted id hid, matched id hid⟩, connected⟩
  · rintro ⟨matched, connected⟩
    exact ⟨fun id hid => (matched id hid).1, fun id hid => (matched id hid).2, connected⟩

/-- If all triples of a node are counted, it is spare exactly if it can be left out. -/
theorem isSpare_eq_canLeaveOut {width : Nat} (counted : ∀ id ∈ g.triplesOf {i}, id < width) :
    g.isSpare width s i = g.canLeaveOut s i := by
  have own : (g.triplesOf {i}).toList.all (· < width) = true := by
    simpa only [List.all_eq_true, OrdSet.mem_toList, decide_eq_true_eq] using counted
  rw [isSpare, own, Bool.true_and]

/-- A spare node without neighbours outside `s` is spare in every greater connected set. -/
theorem isSpare_of_dominated {width : Nat} (hst : s ⊆ t) (hi : i < g.size)
    (neighbors : g.neighbors i ⊆ s) (spare : g.isSpare width s i = true)
    (ht : g.isConnected t = true) : g.isSpare width t i = true := by
  obtain ⟨n, hn⟩ := exists_node? hi
  obtain ⟨matched, connected⟩ := (isSpare_iff hn).1 spare
  have hsub : s.erase i ⊆ t.erase i := by
    intro j hj
    obtain ⟨hjs, hji⟩ := OrdSet.mem_erase.1 hj
    exact OrdSet.mem_erase.2 ⟨hst j hjs, hji⟩
  refine (isSpare_iff hn).2 ⟨fun id hid => ?_, ?_⟩
  · exact ⟨(matched id hid).1, triplesOf_subset hsub id (matched id hid).2⟩
  · exact isConnected_erase_of_subset hst neighbors connected ht

/-- The first spare node of `s` that has no neighbours outside `s`. -/
def dominatedIn? (g : JoinGraph) (width : Nat) (s : NodeSet) : Option Nat :=
  s.toList.find? fun i => g.neighbors i ⊆ s && g.isSpare width s i

end JoinGraph

/-! ## Grown paths -/

namespace JoinPath

variable {g : JoinGraph} {width i : Nat} {p : JoinPath}

/-- A path that starts with a single node and was extended by nodes of its frontier. -/
inductive Grown (g : JoinGraph) (width : Nat) : JoinPath → Prop where
  | single {i : Nat} (known : i < g.size) : Grown g width (single g width i)
  | add {p : JoinPath} {i : Nat} (grown : Grown g width p) (next : i ∈ g.frontier p.nodes) :
    Grown g width (p.add g width i)

/-- The path keeps track of what its nodes match. -/
structure Tracks (g : JoinGraph) (width : Nat) (p : JoinPath) : Prop where
  matched_eq : p.matched = g.triplesOf p.nodes
  occurrences_eq : ∀ id, p.occurrences id = if id < width then g.matchCount p.nodes id else 0

theorem tracks_empty : empty.Tracks g width where
  matched_eq := rfl
  occurrences_eq id := by
    simp [occurrences, empty, JoinGraph.matchCount, JoinGraph.nodesOf]

theorem Tracks.add (h : p.Tracks g width) (hi : i ∉ p.nodes) (known : i < g.size) :
    (p.add g width i).Tracks g width := by
  obtain ⟨n, hn⟩ := JoinGraph.exists_node? known
  constructor
  · rw [matched_add p hn, nodes_add p hn, JoinGraph.triplesOf_insert hn, h.matched_eq]
  · intro id
    rw [occurrences_add p hn, nodes_add p hn, JoinGraph.matchCount_insert hi hn, h.occurrences_eq]
    by_cases hid : id < width <;> simp [hid]

theorem nodes_single (width : Nat) (known : i < g.size) : (single g width i).nodes = {i} := by
  obtain ⟨n, hn⟩ := JoinGraph.exists_node? known
  rw [single, nodes_add empty hn]
  rfl

theorem nodes_add_of_mem_frontier (width : Nat) (h : i ∈ g.frontier p.nodes) :
    (p.add g width i).nodes = p.nodes.insert i := by
  obtain ⟨-, j, -, adjacent⟩ := JoinGraph.mem_frontier.1 h
  obtain ⟨n, hn⟩ := JoinGraph.exists_node? adjacent.lt_right
  exact nodes_add p hn

namespace Grown

theorem known (h : p.Grown g width) : ∀ i ∈ p.nodes, i < g.size := by
  induction h with
  | @single i known =>
    intro j hj
    rw [nodes_single width known] at hj
    exact OrdSet.mem_singleton.1 hj ▸ known
  | @add p i grown next ih =>
    intro j hj
    rw [nodes_add_of_mem_frontier width next] at hj
    rcases OrdSet.mem_insert.1 hj with rfl | hj
    · obtain ⟨-, k, -, adjacent⟩ := JoinGraph.mem_frontier.1 next
      exact adjacent.lt_right
    · exact ih j hj

theorem isConnected (h : p.Grown g width) : g.isConnected p.nodes = true := by
  induction h with
  | single known =>
    rw [nodes_single width known]
    exact JoinGraph.isConnected_singleton
  | add grown next ih =>
    rw [nodes_add_of_mem_frontier width next]
    exact JoinGraph.isConnected_insert ih next

theorem tracks (h : p.Grown g width) : p.Tracks g width := by
  induction h with
  | single known => exact tracks_empty.add OrdSet.not_mem_empty known
  | add grown next ih =>
    obtain ⟨hi, j, -, adjacent⟩ := JoinGraph.mem_frontier.1 next
    exact ih.add hi adjacent.lt_right

/-- The tally finds the same nodes redundant as the triples of all other nodes do. -/
theorem isRedundant_eq (h : p.Grown g width) (hi : i ∈ p.nodes) :
    p.isRedundant g i = g.isSpare width p.nodes i := by
  obtain ⟨n, hn⟩ := JoinGraph.exists_node? (h.known i hi)
  rw [Bool.eq_iff_iff, JoinGraph.isSpare_iff hn]
  simp only [isRedundant, hn, Bool.and_eq_true, List.all_eq_true, OrdSet.mem_toList,
    decide_eq_true_eq]
  refine and_congr_left fun _ => forall₂_congr fun id hid => ?_
  rw [h.tracks.occurrences_eq id]
  by_cases hwidth : id < width
  · rw [if_pos hwidth, JoinGraph.one_lt_matchCount_iff hi hn hid, and_iff_right hwidth]
  · simp [hwidth]

theorem redundantNode?_eq (h : p.Grown g width) :
    p.redundantNode? g = p.nodes.toList.find? (g.isSpare width p.nodes) :=
  List.find?_congr fun _ hi => h.isRedundant_eq hi

theorem dominatedNode?_eq (h : p.Grown g width) :
    p.dominatedNode? g = g.dominatedIn? width p.nodes :=
  List.find?_congr fun i hi => by rw [h.isRedundant_eq hi]

end Grown
end JoinPath
end FederatedJoin
