import FederatedJoin.Proofs.Plan.Leaves
import Mathlib.Algebra.BigOperators.Group.List.Basic
import Mathlib.Algebra.GroupWithZero.Nat

/-!
# Counting the sub-plans of a plan

All counts are with repetitions: a plan that is used twice counts twice.

* `Plan.subplans` — a plan, its sub-plans, and theirs.
* `Plan.mem_leaves_iff` — the leaves are the sub-plans without sub-plans of their own.
* `Plan.leafCount_eq_countP`, `Plan.joinCount_eq_countP` — what is counted.
* `Plan.leaves_add_eq` — there is one leaf more than the direct sub-plans of all joins and unions,
  less one for each of these.
-/

namespace FederatedJoin
namespace Plan

/-- Whether the plan as a whole is the answers of a fragment. -/
def isFragment : Plan → Bool
  | fragment _ => true
  | _ => false

/-- Whether the plan as a whole is a join. -/
def isJoin : Plan → Bool
  | join _ _ => true
  | _ => false

/-- Whether the plan as a whole is a union. -/
def isUnion : Plan → Bool
  | union _ _ _ => true
  | _ => false

/-! ## Sub-plans -/

/-- The plan and all plans below it. -/
def subplans (p : Plan) : List Plan := (p.preorder 0).map Prod.snd

theorem preorderAll_eq (depth : Nat) (plans : List Plan) :
    preorderAll depth plans = plans.flatMap (preorder depth) := by
  induction plans with
  | nil => rfl
  | cons p plans ih => rw [preorderAll, ih, List.flatMap_cons]

theorem preorder_eq (depth : Nat) (p : Plan) :
    p.preorder depth = (depth, p) :: p.children.flatMap (preorder (depth + 1)) := by
  cases p with
  | fragment f => rfl
  | join left right => simp [preorder, children]
  | union first second others => simp [preorder, children, preorderAll_eq]
  | empty query diagnostics => rfl

/-- Induction from the direct sub-plans of a plan to the plan. -/
theorem induction_children {motive : Plan → Prop}
    (step : ∀ p : Plan, (∀ q ∈ p.children, motive q) → motive p) (p : Plan) : motive p := by
  induction p with
  | fragment f => exact step _ fun _ hq => absurd hq List.not_mem_nil
  | join left right ihl ihr => exact step _ (by simpa [children] using ⟨ihl, ihr⟩)
  | union first second others ih => exact step _ ih
  | empty query diagnostics => exact step _ fun _ hq => absurd hq List.not_mem_nil

theorem map_snd_preorder (depth : Nat) (p : Plan) :
    (p.preorder depth).map Prod.snd = p.subplans := by
  induction p using induction_children generalizing depth with
  | step p ih =>
    rw [subplans, preorder_eq depth, preorder_eq 0, List.map_cons, List.map_cons, List.map_flatMap,
      List.map_flatMap]
    congr 1
    exact List.flatMap_congr fun q hq => (ih q hq _).trans (ih q hq _).symm

theorem subplans_eq (p : Plan) : p.subplans = p :: p.children.flatMap subplans := by
  rw [subplans, preorder_eq, List.map_cons, List.map_flatMap]
  congr 1
  exact List.flatMap_congr fun q _ => map_snd_preorder 1 q

theorem leaves_eq_of_children_ne_nil {p : Plan} (h : p.children ≠ []) :
    p.leaves = p.children.flatMap leaves := by
  cases p with
  | fragment f => exact absurd rfl h
  | join left right => simp [leaves_join, children]
  | union first second others => exact leaves_union first second others
  | empty query diagnostics => exact absurd rfl h

theorem leaves_eq_of_children_eq_nil {p : Plan} (h : p.children = []) : p.leaves = [p] := by
  cases p with
  | fragment f => rfl
  | join left right => cases h
  | union first second others => cases h
  | empty query diagnostics => rfl

/-- The leaves of a plan are the sub-plans that have no sub-plans of their own. -/
theorem mem_leaves_iff {p leaf : Plan} :
    leaf ∈ p.leaves ↔ leaf ∈ p.subplans ∧ leaf.children = [] := by
  induction p using induction_children with
  | step p ih =>
    rw [subplans_eq, List.mem_cons, List.mem_flatMap]
    by_cases hp : p.children = []
    · rw [leaves_eq_of_children_eq_nil hp, hp, List.mem_singleton]
      simp only [List.not_mem_nil, false_and, exists_false, or_false]
      exact ⟨fun h => ⟨h, h ▸ hp⟩, fun h => h.1⟩
    · rw [leaves_eq_of_children_ne_nil hp, List.mem_flatMap]
      constructor
      · rintro ⟨q, hq, hleaf⟩
        obtain ⟨hsub, hnil⟩ := (ih q hq).1 hleaf
        exact ⟨.inr ⟨q, hq, hsub⟩, hnil⟩
      · rintro ⟨rfl | ⟨q, hq, hsub⟩, hnil⟩
        · exact absurd hnil hp
        · exact ⟨q, hq, (ih q hq).2 ⟨hsub, hnil⟩⟩

/-! ## Counts -/

/-- The sum of the weights of all sub-plans. -/
def total (weight : Plan → Nat) (p : Plan) : Nat := (p.subplans.map weight).sum

theorem total_eq (weight : Plan → Nat) (p : Plan) :
    p.total weight = weight p + (p.children.map (total weight)).sum := by
  rw [total, subplans_eq, List.map_cons, List.sum_cons, List.flatMap_def, List.map_flatten,
    List.sum_flatten, List.map_map, List.map_map]
  rfl

/-- What adds a weight of the plan to the values of its direct sub-plans is the sum of the weights
of all sub-plans. -/
theorem eq_total {value weight : Plan → Nat}
    (h : ∀ p : Plan, value p = weight p + (p.children.map value).sum) (p : Plan) :
    value p = p.total weight := by
  induction p using induction_children with
  | step p ih => rw [h, total_eq, List.map_congr_left ih]

theorem countP_subplans (test : Plan → Bool) (p : Plan) :
    p.subplans.countP test = p.total fun q => (test q).toNat := by
  refine @eq_total (fun p => p.subplans.countP test) _ (fun p => ?_) p
  rw [subplans_eq, List.countP_cons, List.countP_flatMap, Nat.add_comm]
  congr 1
  cases test p <;> rfl

/-- Fragments are counted as often as they occur. -/
theorem leafCount_eq_countP (p : Plan) : p.leafCount = p.subplans.countP isFragment := by
  rw [countP_subplans]
  refine eq_total (fun p => ?_) p
  cases p with
  | fragment f => rfl
  | join left right => simp [leafCount, fold, children, isFragment]
  | union first second others =>
    rw [leafCount, fold_union]
    exact (Nat.zero_add _).symm
  | empty query diagnostics => rfl

/-- Joins are counted as often as they occur. -/
theorem joinCount_eq_countP (p : Plan) : p.joinCount = p.subplans.countP isJoin := by
  rw [countP_subplans]
  refine eq_total (fun p => ?_) p
  cases p with
  | fragment f => rfl
  | join left right => simp [joinCount, fold, children, isJoin, Nat.add_comm]
  | union first second others =>
    rw [joinCount, fold_union]
    exact (Nat.zero_add _).symm
  | empty query diagnostics => rfl

theorem two_le_of_isUnion {p : Plan} (h : p.isUnion = true) : 2 ≤ p.children.length := by
  cases p with
  | union first second others => exact Nat.le_add_left 2 others.length
  | fragment f => cases h
  | join left right => cases h
  | empty query diagnostics => cases h

private theorem sum_add_sum_eq {l : List Plan} {a b c d : Plan → Nat}
    (h : ∀ q ∈ l, a q + b q = c q + d q + 1) :
    (l.map a).sum + (l.map b).sum = (l.map c).sum + (l.map d).sum + l.length := by
  induction l with
  | nil => rfl
  | cons q l ih =>
    have hq := h q List.mem_cons_self
    have hl := ih fun r hr => h r (List.mem_cons_of_mem q hr)
    simp only [List.map_cons, List.sum_cons, List.length_cons]
    omega

theorem sum_filter_subplans (test : Plan → Bool) (weight : Plan → Nat) (p : Plan) :
    ((p.subplans.filter test).map weight).sum =
      p.total fun q => if test q then weight q else 0 := by
  rw [total, List.sum_map_ite]
  simp

/-- Every join and every further alternative of a union adds one leaf to the first. -/
theorem leaves_add_eq (p : Plan) :
    p.leafCount + p.subplans.countP isEmpty =
      p.joinCount +
        ((p.subplans.filter isUnion).map fun union => union.children.length - 1).sum + 1 := by
  rw [leafCount_eq_countP, joinCount_eq_countP, countP_subplans, countP_subplans, countP_subplans,
    sum_filter_subplans]
  induction p using induction_children with
  | step p ih =>
    have below := sum_add_sum_eq ih
    have own : p.isFragment.toNat + p.isEmpty.toNat + p.children.length =
        p.isJoin.toNat + (if p.isUnion then p.children.length - 1 else 0) + 1 := by
      cases p <;> simp [isFragment, isEmpty, empty?, isJoin, isUnion, children]
    rw [total_eq, total_eq _ p, total_eq _ p, total_eq _ p]
    omega

end Plan
end FederatedJoin
