import FederatedJoin.Graph.Subset
import FederatedJoin.JoinOrder.LeftDeep
import FederatedJoin.Proofs.JoinOrder.LeftDeep
import FederatedJoin.Proofs.Plan.Leaves
import Mathlib.Algebra.GroupWithZero.Nat

/-!
# What the left-deep order makes of any set of nodes

The left-deep order is asked for sets that may be empty, name nodes outside the graph or fall apart,
and it shares an interner with requests that were made before, whatever became of them.

* `Interner.Filled` — an interner that holds what requests for nodes and for sets of nodes leave.
* `JoinGraph.LowestFirst` — the sequence in which a set of nodes is joined.
* `JoinOrder.leftDeep_result` — whether the order has a result for a set, and what it is.
-/

namespace FederatedJoin

/-! ## Interners in use -/

/-- The interner is what requests for single nodes and for sets of nodes leave, one after the other
and with or without success. -/
inductive Interner.Filled (g : JoinGraph) : Interner → Prop where
  | empty : Filled g ∅
  | leaf {t : Interner} (filled : Filled g t) (i : Nat) :
    Filled g ((JoinOrder.leaf g i).run.run t).2
  | plan {t : Interner} (filled : Filled g t) (nodes : NodeSet) :
    Filled g ((JoinOrder.leftDeep g nodes).run.run t).2

namespace JoinOrder

variable {g : JoinGraph} {nodes : NodeSet} {root : Nat} {order : List Nat} {plan : Plan}

theorem ends_leaf (g : JoinGraph) (i : Nat) : Ends g (leaf g i) fun _ => True := by
  cases hn : g.node? i with
  | none =>
    rw [leaf_of_node?_eq_none hn]
    exact .throw trivial
  | some n =>
    rw [← bind_pure (leaf g i)]
    exact (yields_leaf hn).bind_ends fun _ _ => .pure trivial

/-- Requests that fail leave no wrong trees behind, either. -/
theorem faithful_of_filled {t : Interner} (h : t.Filled g) : t.Faithful g := by
  induction h with
  | empty => exact Interner.faithful_empty g
  | leaf _ i ih => exact (ends_leaf g i _ ih).1
  | plan _ nodes ih => exact (ends_leftDeep g nodes _ ih).1

end JoinOrder

/-! ## The sequence of a set of nodes -/

namespace JoinGraph

variable {g : JoinGraph} {nodes : NodeSet} {order : List Nat}

/-- The sequence starts with the lowest node of the set, and each further node is the lowest of
those that are left and can be joined with a node before it. -/
structure LowestFirst (g : JoinGraph) (nodes : NodeSet) (order : List Nat) : Prop where
  perm : order.Perm nodes.toList
  head : order.head? = nodes.min?
  next : ∀ before j after, order = before ++ j :: after → before ≠ [] →
    (∃ i ∈ before, g.Adjacent i j) ∧ ∀ k ∈ after, (∃ i ∈ before, g.Adjacent i k) → j < k

theorem lowestFirst_of_attachment {root : Nat}
    (h : JoinOrder.Attachment g {root} (nodes.erase root) order ∅)
    (hroot : nodes.min? = some root) : g.LowestFirst nodes (root :: order) where
  perm := h.perm_toList hroot
  head := hroot.symm
  next before j after heq hbefore := by
    cases before with
    | nil => exact absurd rfl hbefore
    | cons i before =>
      rw [List.cons_append, List.cons.injEq] at heq
      obtain ⟨rfl, heq⟩ := heq
      simpa [OrdSet.mem_singleton] using h.lowest before j after heq

theorem LowestFirst.exists_node? (h : g.LowestFirst nodes order) {root : Nat}
    (hroot : nodes.min? = some root) (known : g.node? root ≠ none) :
    ∀ i ∈ order, ∃ n, g.node? i = some n := by
  intro j hj
  obtain ⟨before, after, heq⟩ := List.append_of_mem hj
  cases before with
  | nil =>
    have hhead := h.head
    rw [heq, hroot] at hhead
    cases hhead
    exact Option.ne_none_iff_exists'.1 known
  | cons i before =>
    obtain ⟨⟨k, -, adjacent⟩, -⟩ := h.next (i :: before) j after heq (List.cons_ne_nil _ _)
    exact JoinGraph.exists_node? adjacent.lt_right

/-- The tree of a sequence joins the plans of its nodes one after the other. -/
theorem exists_nodes_of_sequencePlan? (known : ∀ i ∈ order, ∃ n, g.node? i = some n) {plan : Plan}
    (h : g.sequencePlan? order = some plan) : ∃ first others,
      List.Forall₂ (fun i n => g.node? i = some n) order (first :: others) ∧
        plan = (others.map Node.plan).foldl .join first.plan := by
  have hnodes : List.Forall₂ (fun i n => g.node? i = some n) order (order.filterMap g.node?) := by
    clear h
    induction order with
    | nil => exact .nil
    | cons i order ih =>
      obtain ⟨n, hn⟩ := known i List.mem_cons_self
      rw [List.filterMap_cons_some hn]
      exact .cons hn (ih fun j hj => known j (List.mem_cons_of_mem i hj))
  unfold sequencePlan? at h
  cases heq : order.filterMap g.node? with
  | nil =>
    rw [heq] at h
    cases h
  | cons first others =>
    rw [heq] at h hnodes
    cases h
    exact ⟨first, others, hnodes, rfl⟩

end JoinGraph

theorem Node.joinCount_plan (n : Node) : n.plan.joinCount = 0 := by
  rw [Node.plan]
  cases n.others with
  | nil => rfl
  | cons second others =>
    have fragments : ∀ l : List Fragment,
        ((l.map Plan.fragment).map Plan.joinCount).foldr (· + ·) 0 = 0 := by
      intro l
      induction l with
      | nil => rfl
      | cons f l ih => exact (Nat.zero_add _).trans ih
    exact (Plan.fold_union _ _ _ _ _ _ _).trans (fragments (n.first :: second :: others))

theorem Plan.joinCount_foldl_join (plan : Plan) (plans : List Plan) :
    (plans.foldl .join plan).joinCount =
      plan.joinCount + (plans.map Plan.joinCount).sum + plans.length := by
  induction plans generalizing plan with
  | nil => rfl
  | cons p plans ih =>
    have hjoin : (Plan.join plan p).joinCount = plan.joinCount + p.joinCount + 1 := rfl
    rw [List.foldl_cons, ih, hjoin, List.map_cons, List.sum_cons, List.length_cons]
    omega

/-! ## Results -/

namespace JoinOrder

variable {g : JoinGraph} {nodes : NodeSet} {root : Nat} {result : Except ContractViolation Plan}

private theorem ne_empty_of_min?_eq_some (hroot : nodes.min? = some root) : nodes ≠ ∅ := by
  rintro rfl
  cases hroot

namespace Outcome

theorem eq_emptyNodeSet_iff (h : Outcome g nodes result) :
    result = .error .emptyNodeSet ↔ nodes = ∅ := by
  cases h with
  | empty hempty => exact iff_of_true rfl hempty
  | unknown hroot => exact iff_of_false nofun (ne_empty_of_min?_eq_some hroot)
  | stuck hroot => exact iff_of_false nofun (ne_empty_of_min?_eq_some hroot)
  | tree hroot => exact iff_of_false nofun (ne_empty_of_min?_eq_some hroot)

theorem eq_unknownNode_iff (h : Outcome g nodes result) (i : Nat) :
    result = .error (.unknownNode i) ↔ nodes.min? = some i ∧ g.node? i = none := by
  have known : ∀ {root n}, nodes.min? = some root → g.node? root = some n →
      ¬(nodes.min? = some i ∧ g.node? i = none) := by
    intro root n hroot hnode h
    cases hroot.symm.trans h.1
    cases hnode.symm.trans h.2
  cases h with
  | empty hempty =>
    subst hempty
    exact iff_of_false nofun nofun
  | unknown hroot hnode =>
    constructor
    · rintro ⟨⟩
      exact ⟨hroot, hnode⟩
    · intro h
      cases hroot.symm.trans h.1
      rfl
  | stuck hroot hnode => exact iff_of_false nofun (known hroot hnode)
  | tree hroot hnode => exact iff_of_false nofun (known hroot hnode)

/-- With a lowest node of the graph, the order gets stuck or builds a tree. -/
theorem cases_of_known (h : Outcome g nodes result) (hroot : nodes.min? = some root)
    (known : g.node? root ≠ none) :
    (∃ order rest, Attachment g {root} (nodes.erase root) order rest ∧ rest ≠ ∅ ∧
      result = .error (.disconnectedNodeSet nodes rest)) ∨
    ∃ order plan, Attachment g {root} (nodes.erase root) order ∅ ∧
      g.sequencePlan? (root :: order) = some plan ∧ result = .ok plan := by
  cases h with
  | empty hempty => exact absurd hempty (ne_empty_of_min?_eq_some hroot)
  | unknown hroot' hnode =>
    cases hroot.symm.trans hroot'
    exact absurd hnode known
  | stuck hroot' hnode hattachment hrest =>
    cases hroot.symm.trans hroot'
    exact .inl ⟨_, _, hattachment, hrest, rfl⟩
  | tree hroot' hnode hattachment hplan =>
    cases hroot.symm.trans hroot'
    exact .inr ⟨_, _, hattachment, hplan, rfl⟩

theorem exists_ok_iff (h : Outcome g nodes result) (hroot : nodes.min? = some root)
    (known : g.node? root ≠ none) : (∃ plan, result = .ok plan) ↔ g.isConnected nodes = true := by
  rcases h.cases_of_known hroot known with ⟨order, rest, hattachment, hrest, rfl⟩ |
    ⟨order, plan, hattachment, -, rfl⟩
  · exact iff_of_false (fun ⟨plan, hplan⟩ => nomatch hplan)
      (mt (hattachment.isConnected_iff hroot).1 hrest)
  · exact iff_of_true ⟨plan, rfl⟩ ((hattachment.isConnected_iff hroot).2 rfl)

end Outcome

/-- The left-deep order fails for the empty set, for a set whose lowest node is not in the graph,
and for a set that is not connected, and the error says which nodes are at fault. For any other set
it succeeds with the tree of all nodes, lowest first. What was requested before makes no
difference. -/
theorem leftDeep_result (g : JoinGraph) (nodes : NodeSet) {t : Interner} (filled : t.Filled g) :
    let result := ((leftDeep g nodes).run.run t).1
    (result = .error .emptyNodeSet ↔ nodes = ∅) ∧
    (∀ i, result = .error (.unknownNode i) ↔ nodes.min? = some i ∧ g.node? i = none) ∧
    ∀ root, nodes.min? = some root → g.node? root ≠ none →
      ((∃ plan, result = .ok plan) ↔ g.isConnected nodes = true) ∧
      (∀ plan, result = .ok plan →
        plan.triples = g.triplesOf nodes ∧ plan.joinCount + 1 = nodes.size ∧
        ∃ order first others, g.LowestFirst nodes order ∧
          List.Forall₂ (fun i n => g.node? i = some n) order (first :: others) ∧
          plan = (others.map Node.plan).foldl .join first.plan) ∧
      ∀ e, result = .error e → ∃ pending, e = .disconnectedNodeSet nodes pending ∧
        ∀ j, j ∈ pending ↔ j ∈ nodes ∧ ¬g.Linked nodes root j := by
  intro result
  have outcome : Outcome g nodes result := (ends_leftDeep g nodes t (faithful_of_filled filled)).2
  refine ⟨outcome.eq_emptyNodeSet_iff, outcome.eq_unknownNode_iff, fun root hroot known => ?_⟩
  refine ⟨outcome.exists_ok_iff hroot known, ?_, ?_⟩
  · intro plan hplan
    rcases outcome.cases_of_known hroot known with ⟨_, _, _, _, heq⟩ |
      ⟨order, plan', hattachment, htree, heq⟩
    · cases heq.symm.trans hplan
    · cases heq.symm.trans hplan
      have lowestFirst := JoinGraph.lowestFirst_of_attachment hattachment hroot
      obtain ⟨first, others, hnodes, rfl⟩ := JoinGraph.exists_nodes_of_sequencePlan?
        (lowestFirst.exists_node? hroot known) htree
      have joins : g.Joins nodes ((others.map Node.plan).foldl .join first.plan) :=
        ⟨_, lowestFirst.perm, htree⟩
      refine ⟨joins.triples_eq, ?_, _, first, others, lowestFirst, hnodes, rfl⟩
      have hlength : (first :: others).length = nodes.size :=
        hnodes.length_eq.symm.trans lowestFirst.perm.length_eq
      rw [← hlength, Plan.joinCount_foldl_join, Node.joinCount_plan, List.length_map]
      simp [Function.comp_def, Node.joinCount_plan]
  · intro e he
    rcases outcome.cases_of_known hroot known with ⟨order, rest, hattachment, -, heq⟩ |
      ⟨_, _, _, _, heq⟩
    · cases heq.symm.trans he
      exact ⟨rest, rfl, hattachment.not_linked_min hroot⟩
    · cases heq.symm.trans he

/-- Three nodes, of which the last one is joined with both others. -/
def hinge : JoinGraph :=
  (JoinGraph.edgeless
    [.ofFragment (.ofTriples "left" (.ofList [0])), .ofFragment (.ofTriples "right" (.ofList [1])),
      .ofFragment (.ofTriples "hinge" (.ofList [2]))]).linkAll [(0, 2), (1, 2)]

/-- After a request that got stuck the three nodes are joined nevertheless, and the other way
round. -/
theorem leftDeep_result_hinge :
    let stuck := (leftDeep hinge (.ofList [0, 1])).run.run ∅
    let joined := (leftDeep hinge (.ofList [0, 1, 2])).run.run stuck.2
    (∃ plan, joined.1 = .ok plan ∧ plan.joinCount = 2) ∧
      ∃ pending, ((leftDeep hinge (.ofList [0, 1])).run.run joined.2).1 =
        .error (.disconnectedNodeSet (.ofList [0, 1]) pending) ∧ ∀ j, j ∈ pending → j = 1 := by
  intro stuck joined
  have filled : stuck.2.Filled hinge := .plan .empty _
  obtain ⟨-, -, result⟩ := leftDeep_result hinge (.ofList [0, 1, 2]) filled
  obtain ⟨succeeds, tree, -⟩ := result 0 (by decide) (by decide)
  obtain ⟨plan, hplan⟩ := succeeds.2 (by decide)
  obtain ⟨-, joins, -⟩ := tree plan hplan
  obtain ⟨-, -, result⟩ := leftDeep_result hinge (.ofList [0, 1]) (filled.plan (.ofList [0, 1, 2]))
  obtain ⟨succeeds, -, fails⟩ := result 0 (by decide) (by decide)
  refine ⟨⟨plan, hplan, Nat.succ.inj joins⟩, ?_⟩
  cases hresult : ((leftDeep hinge (.ofList [0, 1])).run.run joined.2).1 with
  | ok plan => exact absurd (succeeds.1 ⟨plan, hresult⟩) (by decide)
  | error e =>
    obtain ⟨pending, rfl, mem_pending⟩ := fails e hresult
    refine ⟨pending, rfl, fun j hj => ?_⟩
    obtain ⟨hmem, unlinked⟩ := (mem_pending j).1 hj
    have hj01 : j = 0 ∨ j = 1 := by simpa using hmem
    rcases hj01 with rfl | rfl
    · exact absurd (.refl hmem) unlinked
    · rfl

end JoinOrder
end FederatedJoin
