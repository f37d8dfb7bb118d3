import FederatedJoin.Graph.Basic

/-!
# Connectivity within a set of nodes

## Main definitions

* `JoinGraph.frontier` — the nodes next to a set.
* `JoinGraph.Linked` — a path between two nodes that stays within a set.
* `JoinGraph.closure`, `JoinGraph.isConnected` — the nodes that paths within a set lead to, and
  whether these are all.

The main statement is `JoinGraph.isConnected_iff`: the search for connectivity decides whether any
two nodes are linked.
-/

namespace FederatedJoin
namespace JoinGraph

/-- The nodes outside `s` that can be joined with a node of `s`. -/
def frontier (g : JoinGraph) (s : NodeSet) : NodeSet :=
  OrdSet.unions (s.toList.map g.neighbors) \ s

theorem mem_frontier {g : JoinGraph} {s : NodeSet} {j : Nat} :
    j ∈ g.frontier s ↔ j ∉ s ∧ ∃ i ∈ s, g.Adjacent i j := by
  simp only [frontier, OrdSet.mem_sdiff, OrdSet.mem_unions, List.mem_map]
  constructor
  · rintro ⟨⟨_, ⟨i, hi, rfl⟩, hj⟩, hjs⟩
    exact ⟨hjs, i, hi, hj⟩
  · rintro ⟨hjs, i, hi, hj⟩
    exact ⟨⟨_, ⟨i, hi, rfl⟩, hj⟩, hjs⟩

/-! ## Paths -/

/-- There is a path from node `i` to node `j` whose nodes all belong to `s`. -/
inductive Linked (g : JoinGraph) (s : NodeSet) (i : Nat) : Nat → Prop where
  | refl (mem : i ∈ s) : Linked g s i i
  | step {j k : Nat} (path : Linked g s i j) (adjacent : g.Adjacent j k) (mem : k ∈ s) :
    Linked g s i k

namespace Linked

variable {g : JoinGraph} {s : NodeSet} {i j k : Nat}

theorem mem_right (h : g.Linked s i j) : j ∈ s := by
  cases h with
  | refl mem => exact mem
  | step _ _ mem => exact mem

theorem trans (h : g.Linked s i j) (h' : g.Linked s j k) : g.Linked s i k := by
  induction h' with
  | refl _ => exact h
  | step _ adjacent mem ih => exact .step ih adjacent mem

theorem symm (h : g.Linked s i j) : g.Linked s j i := by
  induction h with
  | refl mem => exact .refl mem
  | step path adjacent mem ih =>
    exact trans (.step (.refl mem) adjacent.symm path.mem_right) ih

theorem mono {t : NodeSet} (h : g.Linked s i j) (hst : s ⊆ t) : g.Linked t i j := by
  induction h with
  | refl mem => exact .refl (hst _ mem)
  | step _ adjacent mem ih => exact .step ih adjacent (hst _ mem)

end Linked

/-! ## Reaching all nodes of a set -/

/-- The nodes reached from `reached` in at most `rounds` steps between nodes of `s`. -/
def closure (g : JoinGraph) (s : NodeSet) : Nat → NodeSet → NodeSet
  | 0, reached => reached
  | rounds + 1, reached =>
    let fresh := g.frontier reached ∩ s
    if fresh.isEmpty then reached else g.closure s rounds (reached ∪ fresh)

theorem subset_closure {g : JoinGraph} {s : NodeSet} {rounds : Nat} {reached : NodeSet} :
    reached ⊆ g.closure s rounds reached := by
  fun_induction closure g s rounds reached with
  | case1 reached => exact fun _ h => h
  | case2 rounds reached fresh h => exact fun _ h => h
  | case3 rounds reached fresh h ih => exact fun j hj => ih j (OrdSet.mem_union.2 (.inl hj))

theorem linked_of_mem_closure {g : JoinGraph} {s : NodeSet} {rounds i : Nat} {reached : NodeSet}
    (h : ∀ j ∈ reached, g.Linked s i j) : ∀ j ∈ g.closure s rounds reached, g.Linked s i j := by
  fun_induction closure g s rounds reached with
  | case1 reached => exact h
  | case2 rounds reached fresh hfresh => exact h
  | case3 rounds reached fresh hfresh ih =>
    refine ih fun j hj => ?_
    rcases OrdSet.mem_union.1 hj with hj | hj
    · exact h j hj
    · obtain ⟨hj, hjs⟩ := OrdSet.mem_inter.1 hj
      obtain ⟨-, k, hk, adjacent⟩ := mem_frontier.1 hj
      exact .step (h k hk) adjacent hjs

/-- After as many rounds as there are nodes to reach, no step leads out of the closure. -/
theorem mem_closure_of_adjacent {g : JoinGraph} {s : NodeSet} {rounds i j : Nat}
    {reached : NodeSet} (h : (s \ reached).size ≤ rounds) (hi : i ∈ g.closure s rounds reached)
    (hij : g.Adjacent i j) (hj : j ∈ s) : j ∈ g.closure s rounds reached := by
  fun_induction closure g s rounds reached with
  | case1 reached =>
    refine Decidable.by_contra fun hjr => ?_
    have : 0 < (s \ reached).size :=
      Nat.lt_of_le_of_lt (Nat.zero_le _)
        (OrdSet.size_lt_of_subset (s := ∅) nofun (OrdSet.mem_sdiff.2 ⟨hj, hjr⟩)
          OrdSet.not_mem_empty)
    omega
  | case2 rounds reached fresh hfresh =>
    refine Decidable.by_contra fun hjr => ?_
    have : j ∈ fresh := OrdSet.mem_inter.2 ⟨mem_frontier.2 ⟨hjr, i, hi, hij⟩, hj⟩
    exact OrdSet.not_mem_empty (OrdSet.isEmpty_iff.1 hfresh ▸ this)
  | case3 rounds reached fresh hfresh ih =>
    refine ih ?_ hi
    obtain ⟨k, hk⟩ := OrdSet.exists_mem_of_ne_empty (mt OrdSet.isEmpty_iff.2 hfresh)
    obtain ⟨hkf, hks⟩ := OrdSet.mem_inter.1 hk
    have : (s \ (reached ∪ fresh)).size < (s \ reached).size := by
      refine OrdSet.size_lt_of_subset (a := k) (fun m hm => ?_) ?_ ?_
      · have := OrdSet.mem_sdiff.1 hm
        exact OrdSet.mem_sdiff.2 ⟨this.1, fun h => this.2 (OrdSet.mem_union.2 (.inl h))⟩
      · exact OrdSet.mem_sdiff.2 ⟨hks, (mem_frontier.1 hkf).1⟩
      · exact fun h => (OrdSet.mem_sdiff.1 h).2 (OrdSet.mem_union.2 (.inr hk))
    omega

/-- Whether the nodes of `s` are connected by joins between nodes of `s`. No path within `s` has
more steps than `s` has nodes. -/
def isConnected (g : JoinGraph) (s : NodeSet) : Bool :=
  match s.min? with
  | none => true
  | some start => g.closure s s.size {start} = s

theorem mem_closure_iff_linked {g : JoinGraph} {s : NodeSet} {i j : Nat} (hi : i ∈ s) :
    j ∈ g.closure s s.size {i} ↔ g.Linked s i j := by
  constructor
  · refine linked_of_mem_closure (fun k hk => ?_) j
    rw [OrdSet.mem_singleton.1 hk]
    exact .refl hi
  · intro h
    induction h with
    | refl _ => exact subset_closure i (OrdSet.mem_singleton.2 rfl)
    | step _ adjacent mem ih =>
      refine mem_closure_of_adjacent (OrdSet.size_le_of_subset fun k hk => ?_) ih adjacent mem
      exact (OrdSet.mem_sdiff.1 hk).1

/-- A set is connected if any two of its nodes are linked by a path within it. -/
theorem isConnected_iff {g : JoinGraph} {s : NodeSet} :
    g.isConnected s = true ↔ ∀ i ∈ s, ∀ j ∈ s, g.Linked s i j := by
  unfold isConnected
  split
  · next h =>
    refine iff_of_true rfl fun i hi => ?_
    have : s.toList = [] := List.head?_eq_none_iff.1 h
    exact absurd (this ▸ hi : i ∈ []) List.not_mem_nil
  · next start h =>
    have hstart := (OrdSet.min?_eq_some_iff.1 h).1
    rw [decide_eq_true_iff]
    constructor
    · intro hs i hi j hj
      have linked : ∀ k ∈ s, g.Linked s start k := fun k hk =>
        (mem_closure_iff_linked hstart).1 (by rw [hs]; exact hk)
      exact (linked i hi).symm.trans (linked j hj)
    · intro linked
      refine OrdSet.ext fun j => (mem_closure_iff_linked hstart).trans ⟨fun h => h.mem_right, ?_⟩
      exact linked start hstart j

end JoinGraph
end FederatedJoin
