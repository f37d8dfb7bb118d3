import FederatedJoin.Component
import FederatedJoin.Proofs.JoinOrder.LeftDeep

/-!
# The leaves of a plan

* `Plan.leaves` — the fragments and the queries without an answer that a plan is made of.
* `Plan.Answered` — a plan without a query that has no answer.
* `Plan.mem_triples`, `Plan.mem_vars`, `Plan.isOptional_iff` — what is known of a plan is known from
  its leaves.
* `JoinGraph.Joins.leaves_perm` — the tree of a set of nodes is made of the fragments of the nodes.
-/

namespace FederatedJoin
namespace Plan

/-- Induction over the sub-plans of a plan. -/
@[elab_as_elim, induction_eliminator]
theorem induction {motive : Plan → Prop} (fragment : ∀ f, motive (fragment f))
    (join : ∀ left right, motive left → motive right → motive (join left right))
    (union : ∀ first second others, (∀ p ∈ first :: second :: others, motive p) →
      motive (union first second others))
    (empty : ∀ query diagnostics, motive (empty query diagnostics)) (p : Plan) : motive p := by
  refine @Plan.rec motive (fun l => ∀ p ∈ l, motive p) fragment join ?_ empty ?_ ?_ p
  · intro first second others hfirst hsecond hothers
    refine union first second others fun p hp => ?_
    simp only [List.mem_cons] at hp
    rcases hp with rfl | rfl | hp
    · exact hfirst
    · exact hsecond
    · exact hothers p hp
  · exact fun p hp => absurd hp List.not_mem_nil
  · intro q l hq hl p hp
    rcases List.mem_cons.1 hp with rfl | hp
    · exact hq
    · exact hl p hp

/-! ## Leaves -/

/-- The fragments of a plan and its queries without an answer, from left to right. -/
def leaves : Plan → List Plan :=
  fold (fun f => [fragment f]) (· ++ ·) List.flatten fun query diagnostics =>
    [empty query diagnostics]

variable {left right : Plan}

theorem leaves_join : (join left right).leaves = left.leaves ++ right.leaves := rfl

theorem leaves_ofAlternatives (first : Plan) (others : List Plan) :
    (ofAlternatives first others).leaves = (first :: others).flatMap leaves := by
  cases others with
  | nil => simp [ofAlternatives]
  | cons second others =>
    simp only [ofAlternatives, leaves, fold_union, children, List.flatMap_def]

theorem leaves_foldl_join (first : Plan) (others : List Plan) :
    (others.foldl join first).leaves = (first :: others).flatMap leaves := by
  induction others generalizing first with
  | nil => simp
  | cons second others ih =>
    rw [List.foldl_cons, ih]
    simp [leaves_join]

/-- No part of the query is without an answer. -/
def Answered (p : Plan) : Prop := ∀ leaf ∈ p.leaves, leaf.isEmpty = false

theorem not_answered_empty {query : TripleSet} {diagnostics : Diagnostics} :
    ¬(empty query diagnostics).Answered :=
  fun h => Bool.noConfusion (h _ (List.mem_singleton_self _))

theorem answered_iff_of_leaves_eq {p : Plan} {plans : List Plan}
    (h : p.leaves = plans.flatMap leaves) : p.Answered ↔ ∀ q ∈ plans, q.Answered := by
  unfold Answered
  rw [h]
  exact List.forall_mem_flatMap

theorem leaves_union (first second : Plan) (others : List Plan) :
    (union first second others).leaves = (first :: second :: others).flatMap leaves :=
  leaves_ofAlternatives first (second :: others)

/-- What is united over a plan comes from its leaves. -/
private theorem mem_fold {β : Type} [LT β] [DecidableLT β]
    [LE β] [Std.IsLinearOrder β] [Std.LawfulOrderLT β] {onFragment : Fragment → OrdSet β}
    {onEmpty : TripleSet → Diagnostics → OrdSet β} {p : Plan} {b : β} :
    b ∈ fold onFragment (· ∪ ·) OrdSet.unions onEmpty p ↔
      ∃ leaf ∈ p.leaves, b ∈ fold onFragment (· ∪ ·) OrdSet.unions onEmpty leaf := by
  induction p with
  | fragment f => simp [leaves, fold]
  | join left right ihl ihr =>
    rw [fold, OrdSet.mem_union, ihl, ihr, leaves_join]
    simp only [List.mem_append, or_and_right, exists_or]
  | union first second others ih =>
    rw [fold_union, OrdSet.mem_unions, leaves_union]
    simp only [List.mem_map, List.mem_flatMap, children]
    constructor
    · intro h
      obtain ⟨_, ⟨p, hp, rfl⟩, hb⟩ := h
      obtain ⟨leaf, hleaf, hb⟩ := (ih p hp).1 hb
      exact ⟨leaf, ⟨p, hp, hleaf⟩, hb⟩
    · intro h
      obtain ⟨leaf, ⟨p, hp, hleaf⟩, hb⟩ := h
      exact ⟨_, ⟨p, hp, rfl⟩, (ih p hp).2 ⟨leaf, hleaf, hb⟩⟩
  | empty query diagnostics => simp [leaves, fold]

theorem mem_triples {p : Plan} {id : TripleId} :
    id ∈ p.triples ↔ ∃ leaf ∈ p.leaves, id ∈ leaf.triples :=
  mem_fold

theorem mem_vars {p : Plan} {v : Variable} : v ∈ p.vars ↔ ∃ leaf ∈ p.leaves, v ∈ leaf.vars :=
  mem_fold

theorem isOptional_iff {p : Plan} :
    p.isOptional = true ↔ ∀ leaf ∈ p.leaves, leaf.isOptional = true := by
  induction p with
  | fragment f => simp [leaves, fold]
  | join left right ihl ihr =>
    have hjoin : (join left right).isOptional = (left.isOptional && right.isOptional) := rfl
    rw [hjoin, Bool.and_eq_true, ihl, ihr, leaves_join, List.forall_mem_append]
  | union first second others ih =>
    rw [isOptional, fold_union, leaves_union, List.forall_mem_flatMap, List.all_map]
    exact List.all_eq_true.trans (forall₂_congr ih)
  | empty query diagnostics => simp [leaves, fold]

/-- A plan with the leaves of some other plans answers their triples. -/
theorem mem_triples_of_leaves_eq {p : Plan} {plans : List Plan} {id : TripleId}
    (h : p.leaves = plans.flatMap leaves) : id ∈ p.triples ↔ ∃ q ∈ plans, id ∈ q.triples := by
  rw [mem_triples, h]
  constructor
  · intro hid
    obtain ⟨leaf, hleaf, hid⟩ := hid
    obtain ⟨q, hq, hleaf⟩ := List.mem_flatMap.1 hleaf
    exact ⟨q, hq, mem_triples.2 ⟨leaf, hleaf, hid⟩⟩
  · intro hid
    obtain ⟨q, hq, hid⟩ := hid
    obtain ⟨leaf, hleaf, hid⟩ := mem_triples.1 hid
    exact ⟨leaf, List.mem_flatMap.2 ⟨q, hq, hleaf⟩, hid⟩

end Plan

/-! ## Plans of nodes -/

theorem Node.leaves_plan (n : Node) : n.plan.leaves = n.members.map .fragment := by
  rw [Node.plan, Plan.leaves_ofAlternatives, Node.members, ← List.map_cons, List.flatMap_map]
  exact List.map_eq_flatMap.symm

namespace JoinGraph

variable {g : JoinGraph} {s : NodeSet} {plan : Plan}

theorem leaves_of_sequencePlan? {sequence : List Nat} (h : g.sequencePlan? sequence = some plan) :
    plan.leaves = (sequence.filterMap g.node?).flatMap fun n => n.members.map .fragment := by
  unfold sequencePlan? at h
  cases hnodes : sequence.filterMap g.node? with
  | nil =>
    rw [hnodes] at h
    cases h
  | cons first others =>
    rw [hnodes] at h
    cases h
    rw [Plan.leaves_foldl_join, ← List.map_cons, List.flatMap_map]
    exact List.flatMap_congr fun n _ => n.leaves_plan

theorem Joins.leaves_perm (h : g.Joins s plan) (triples : TripleSet) :
    plan.leaves.Perm (((JoinComponent.mk s triples).fragments g).map .fragment) := by
  obtain ⟨order, hperm, hplan⟩ := h
  rw [leaves_of_sequencePlan? hplan, JoinComponent.fragments, List.map_flatMap]
  exact (hperm.filterMap g.node?).flatMap_right _

theorem Joins.triples_eq (h : g.Joins s plan) : plan.triples = g.triplesOf s := by
  have hmem := fun leaf => (h.leaves_perm ∅).mem_iff (a := leaf)
  apply OrdSet.ext
  intro id
  rw [Plan.mem_triples, mem_triplesOf]
  simp only [hmem, JoinComponent.fragments, List.mem_map, List.mem_flatMap, mem_nodesOf]
  constructor
  · intro h
    obtain ⟨_, ⟨f, ⟨n, ⟨i, hi, hn⟩, hf⟩, rfl⟩, hid⟩ := h
    refine ⟨i, hi, n, hn, ?_⟩
    rw [Node.triples, ← Node.interface_of_mem_members hf]
    exact hid
  · intro h
    obtain ⟨i, hi, n, hn, hid⟩ := h
    exact ⟨.fragment n.first, ⟨n.first, ⟨n, ⟨i, hi, hn⟩, List.mem_cons_self⟩, rfl⟩, hid⟩

end JoinGraph
end FederatedJoin
