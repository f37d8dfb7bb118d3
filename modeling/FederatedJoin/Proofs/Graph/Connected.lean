import FederatedJoin.Graph.Connectivity

/-!
# Growing and shrinking connected sets of nodes

How connectivity passes from a set of nodes to greater and to smaller sets.

* `JoinGraph.isConnected_insert` — a connected set stays connected with a node of its frontier.
* `JoinGraph.exists_isConnected_erase` — beyond a smaller connected set there is always a node
  that a connected set can lose.
* `JoinGraph.isConnected_erase_of_subset` — a node whose neighbours all lie in a connected set that
  can lose it can be lost by every greater connected set.
-/

namespace FederatedJoin
namespace JoinGraph

variable {g : JoinGraph} {s t : NodeSet} {i j k : Nat}

theorem isConnected_singleton : g.isConnected {i} = true := by
  rw [isConnected_iff]
  intro j hj k hk
  rw [OrdSet.mem_singleton.1 hj, OrdSet.mem_singleton.1 hk]
  exact .refl (OrdSet.mem_singleton.2 rfl)

/-- It is enough that one node is linked to all the others. -/
theorem isConnected_of_linked (h : ∀ j ∈ s, g.Linked s i j) : g.isConnected s = true := by
  rw [isConnected_iff]
  intro j hj k hk
  exact (h j hj).symm.trans (h k hk)

theorem isConnected_insert (hs : g.isConnected s = true) (hi : i ∈ g.frontier s) :
    g.isConnected (s.insert i) = true := by
  obtain ⟨-, j, hj, adjacent⟩ := mem_frontier.1 hi
  have hsub : s ⊆ s.insert i := fun k hk => OrdSet.mem_insert.2 (.inr hk)
  have linked : ∀ k ∈ s, g.Linked (s.insert i) j k := fun k hk =>
    (isConnected_iff.1 hs j hj k hk).mono hsub
  apply isConnected_of_linked (i := j)
  intro k hk
  rcases OrdSet.mem_insert.1 hk with rfl | hk
  · exact .step (linked j hj) adjacent (OrdSet.mem_insert.2 (.inl rfl))
  · exact linked k hk

/-! ## Nodes between two connected sets -/

/-- A path that leads out of `s` passes through the frontier of `s`. -/
theorem exists_mem_frontier (ht : g.isConnected t = true) (hst : s ⊆ t) (hj : j ∈ s) (hk : k ∈ t)
    (hks : k ∉ s) : ∃ i ∈ t, i ∈ g.frontier s := by
  have leaves : ∀ m, g.Linked t j m → m ∈ s ∨ ∃ i ∈ t, i ∈ g.frontier s := by
    intro m linked
    induction linked with
    | refl _ => exact .inl hj
    | @step m n _ adjacent hn ih =>
      rcases ih with hm | found
      · by_cases hns : n ∈ s
        · exact .inl hns
        · exact .inr ⟨n, hn, mem_frontier.2 ⟨hns, m, hm, adjacent⟩⟩
      · exact .inr found
  exact (leaves k (isConnected_iff.1 ht j (hst j hj) k hk)).resolve_left hks

/-- The node that was attached last when `s` is grown to `t` can be taken away again. -/
theorem exists_isConnected_erase (hs : g.isConnected s = true) (ht : g.isConnected t = true)
    (hst : s ⊆ t) (hj : j ∈ s) (hk : k ∈ t) (hks : k ∉ s) :
    ∃ i ∈ t, i ∉ s ∧ g.isConnected (t.erase i) = true := by
  -- The induction is on the number of nodes that are still to be attached.
  induction hn : (t \ s).size using Nat.strongRecOn generalizing s k with
  | ind n ih =>
    obtain ⟨i, hit, hi⟩ := exists_mem_frontier ht hst hj hk hks
    have his : i ∉ s := (mem_frontier.1 hi).1
    by_cases hall : t ⊆ s.insert i
    · have heq : t = s.insert i := by
        apply OrdSet.ext
        intro m
        refine ⟨hall m, fun hm => ?_⟩
        rcases OrdSet.mem_insert.1 hm with rfl | hm
        · exact hit
        · exact hst m hm
      refine ⟨i, hit, his, ?_⟩
      rw [heq, OrdSet.erase_insert his]
      exact hs
    · obtain ⟨m, hmt, hms⟩ := OrdSet.exists_mem_of_not_subset hall
      have hsub : s.insert i ⊆ t := by
        intro l hl
        rcases OrdSet.mem_insert.1 hl with rfl | hl
        · exact hit
        · exact hst l hl
      have hlt : (t \ s.insert i).size < n := by
        rw [← hn]
        refine OrdSet.size_lt_of_subset (a := i) (fun l hl => ?_) (OrdSet.mem_sdiff.2 ⟨hit, his⟩) ?_
        · obtain ⟨hlt, hls⟩ := OrdSet.mem_sdiff.1 hl
          exact OrdSet.mem_sdiff.2 ⟨hlt, fun h => hls (OrdSet.mem_insert.2 (.inr h))⟩
        · intro h
          exact (OrdSet.mem_sdiff.1 h).2 (OrdSet.mem_insert.2 (.inl rfl))
      obtain ⟨l, hlt', hls, connected⟩ := ih _ hlt (isConnected_insert hs hi) hsub
        (OrdSet.mem_insert.2 (.inr hj)) hmt hms rfl
      exact ⟨l, hlt', fun h => hls (OrdSet.mem_insert.2 (.inr h)), connected⟩

/-- Every connected set has a node that it can lose. -/
theorem exists_mem_isConnected_erase (ht : g.isConnected t = true) (hi : i ∈ t) :
    ∃ j ∈ t, g.isConnected (t.erase j) = true := by
  by_cases hall : t ⊆ {i}
  · refine ⟨i, hi, ?_⟩
    rw [isConnected_iff]
    intro j hj
    obtain ⟨hjt, hji⟩ := OrdSet.mem_erase.1 hj
    exact absurd (OrdSet.mem_singleton.1 (hall j hjt)) hji
  · obtain ⟨k, hkt, hki⟩ := OrdSet.exists_mem_of_not_subset hall
    have hsub : {i} ⊆ t := fun j hj => OrdSet.mem_singleton.1 hj ▸ hi
    obtain ⟨j, hj, -, connected⟩ := exists_isConnected_erase isConnected_singleton ht hsub
      (OrdSet.mem_singleton.2 rfl) hkt hki
    exact ⟨j, hj, connected⟩

/-! ## Nodes without neighbours outside a set -/

/-- Every path through `i` enters and leaves it within `s`, where there is a way around `i`. -/
theorem isConnected_erase_of_subset (hst : s ⊆ t) (hi : g.neighbors i ⊆ s)
    (hs : g.isConnected (s.erase i) = true) (ht : g.isConnected t = true) :
    g.isConnected (t.erase i) = true := by
  have hsub : s.erase i ⊆ t.erase i := by
    intro m hm
    obtain ⟨hms, hmi⟩ := OrdSet.mem_erase.1 hm
    exact OrdSet.mem_erase.2 ⟨hst m hms, hmi⟩
  have neighbor : ∀ m, g.Adjacent i m → m ∈ s.erase i := fun m adjacent =>
    OrdSet.mem_erase.2 ⟨hi m adjacent, adjacent.ne.symm⟩
  rw [isConnected_iff]
  intro j hj k hk
  obtain ⟨hjt, hji⟩ := OrdSet.mem_erase.1 hj
  obtain ⟨hkt, hki⟩ := OrdSet.mem_erase.1 hk
  -- A path that has come to `i` has left a neighbour of `i` behind.
  have around : ∀ m, g.Linked t j m → (m ≠ i → g.Linked (t.erase i) j m) ∧
      (m = i → ∃ n ∈ s.erase i, g.Linked (t.erase i) j n) := by
    intro m linked
    induction linked with
    | refl _ => exact ⟨fun _ => .refl hj, fun h => absurd h hji⟩
    | @step m n _ adjacent hn ih =>
      by_cases hm : m = i
      · subst hm
        obtain ⟨l, hl, linked⟩ := ih.2 rfl
        refine ⟨fun _ => ?_, fun hnm => absurd hnm.symm adjacent.ne⟩
        exact linked.trans ((isConnected_iff.1 hs l hl n (neighbor n adjacent)).mono hsub)
      · refine ⟨fun hni => .step (ih.1 hm) adjacent (OrdSet.mem_erase.2 ⟨hn, hni⟩), ?_⟩
        rintro rfl
        exact ⟨m, neighbor m adjacent.symm, ih.1 hm⟩
  exact (around k (isConnected_iff.1 ht j hjt k hkt)).1 hki

end JoinGraph
end FederatedJoin
