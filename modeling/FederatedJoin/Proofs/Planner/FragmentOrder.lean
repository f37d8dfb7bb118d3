import FederatedJoin.Proofs.Decomposition.Order
import FederatedJoin.Proofs.Graph.Renumbering
import FederatedJoin.Proofs.Planner.Isolation
import Mathlib.Data.Finset.Dedup
import Mathlib.Data.List.Perm.Subperm

/-!
# The order of the fragments

The order in which the sources offer their fragments decides on the numbers of the nodes, and so on
the order of the search, on the joins and on which of several interchangeable nodes is kept. It has
no influence on the parts of a query, and none on the number of alternatives for each part.

* `PlanOutcome.alternatives`, `PlanOutcome.leafSets` — what a part of a query is answered with.
* `Planner.PlansParts` — the outcomes of the parts that make up the outcome of a query.
* `Planner.length_keptComponents_congr` — the same fragments lead to as many alternatives.
* `Planner.leafSets_congr` — and to the same ones, if no nodes are interchangeable.
* `Planner.plan_perm` — what a permutation of the fragments leaves as it is.
-/

namespace FederatedJoin

/-! ## Alternatives -/

namespace PlanOutcome

/-- The alternatives of a query that is planned as a whole, one for each of its components. -/
def alternatives (o : PlanOutcome) : List Plan :=
  match o.componentCount with
  | 0 => []
  | 1 => [o.plan]
  | _ => o.plan.children

theorem alternatives_ofAlternatives (first : Plan) (others : List Plan) :
    alternatives ⟨.ofAlternatives first others, others.length + 1⟩ = first :: others := by
  cases others <;> rfl

/-- The alternatives, each as the set of its leaves. -/
def leafSets (o : PlanOutcome) : Finset (Finset Plan) :=
  (o.alternatives.map fun tree => tree.leaves.toFinset).toFinset

theorem mem_leafSets {o : PlanOutcome} {leaves : Finset Plan} :
    leaves ∈ o.leafSets ↔ ∃ tree ∈ o.alternatives, tree.leaves.toFinset = leaves := by
  rw [leafSets, List.mem_toFinset, List.mem_map]

end PlanOutcome

namespace Planner

variable {p : Planner} {u : Universe} {query part : TripleSet} {parts : List TripleSet}
variable {fragments fragments' : List Fragment} {o o' outcome outcome' : PlanOutcome}
variable {os os' : List PlanOutcome}

namespace PartOutcome

theorem forall₂_alternatives (h : p.PartOutcome fragments part o) :
    List.Forall₂ (Alternative (p.partGraph fragments part) part)
      (p.keptComponents fragments part) o.alternatives := by
  cases h with
  | unanswered nothing diagnostics =>
    rw [nothing]
    exact .nil
  | answered alternatives =>
    rw [PlanOutcome.alternatives_ofAlternatives]
    exact alternatives

theorem componentCount_eq (h : p.PartOutcome fragments part o) :
    o.componentCount = (p.keptComponents fragments part).length := by
  cases h with
  | unanswered nothing diagnostics =>
    rw [nothing]
    rfl
  | answered alternatives => exact alternatives.length_eq.symm

theorem isEmpty_iff (h : p.PartOutcome fragments part o) :
    o.plan.isEmpty = true ↔ o.componentCount = 0 := by
  cases h with
  | unanswered nothing diagnostics => exact iff_of_true rfl rfl
  | answered alternatives =>
    refine iff_of_false (fun hempty => ?_) (Nat.succ_ne_zero _)
    obtain ⟨query, diagnostics, heq⟩ := Plan.isEmpty_iff.1 hempty
    exact ofAlternatives_ne_empty alternatives query diagnostics heq

end PartOutcome

/-! ## Outcomes of parts -/

theorem isEmpty_foldl_join (left right : Plan) (others : List Plan) :
    (others.foldl .join (left.join right)).isEmpty = false := by
  induction others generalizing left right with
  | nil => rfl
  | cons second others ih => exact ih (left.join right) second

theorem CombinesParts.isEmpty_iff {plans : List Plan} {plan : Plan}
    (h : CombinesParts query plans plan) :
    plan.isEmpty = true ↔ ∀ q ∈ plans, q.isEmpty = true := by
  constructor
  · intro hempty
    by_contra hanswered
    obtain ⟨first, others, rfl, rfl⟩ := h.join (by simpa using hanswered)
    cases others with
    | nil => exact hanswered fun q hq => List.mem_singleton.1 hq ▸ hempty
    | cons second others =>
      rw [List.foldl_cons, isEmpty_foldl_join] at hempty
      cases hempty
  · intro hall
    obtain ⟨diagnostics, rfl⟩ := h.empty hall
    rfl

/-- The outcomes of the parts that make up the outcome of a query. -/
structure PlansParts (p : Planner) (fragments : List Fragment) (query : TripleSet)
    (parts : List TripleSet) (outcome : PlanOutcome) (os : List PlanOutcome) : Prop where
  planned : List.Forall₂ (fun part o => p.planPart fragments part = .ok o) parts os
  combines : CombinesParts query (os.map PlanOutcome.plan) outcome.plan
  count_eq : outcome.componentCount = (os.map PlanOutcome.componentCount).sum

theorem componentCount_combine {first : PlanOutcome} {others : List PlanOutcome}
    (h : ∀ o ∈ first :: others, o.plan.isEmpty = true → o.componentCount = 0) :
    (combine query first others).componentCount =
      ((first :: others).map PlanOutcome.componentCount).sum := by
  by_cases hanswered : ∃ o ∈ first :: others, o.plan.isEmpty = false
  · rw [combine_of_answered hanswered]
  · have hempty : ∀ o ∈ first :: others, o.plan.isEmpty = true := by simpa using hanswered
    obtain ⟨ds, -, hcombine⟩ : ∃ ds, _ ∧ combine query first others = _ :=
      combine_of_unanswered hempty
    rw [hcombine, List.sum_eq_zero_iff_forall_eq_nat.2]
    · rfl
    · exact List.forall_mem_map.2 fun o ho => h o ho (hempty o ho)

/-- Every outcome is made up of those of the parts. -/
theorem exists_plansParts (identity : p.aggregator = .identity) (leftDeep : p.joinOrder = .leftDeep)
    (divided : p.decomposer = .variableConnected) (h : p.plan u query fragments = .ok outcome) :
    ∃ os, p.PlansParts fragments query
      (mergeSpanned (Decomposer.variableConnected u query) fragments) outcome os := by
  obtain ⟨hparts, rfl, rfl⟩ | ⟨hparts, hpart⟩ | ⟨first, others, rfl, hparts⟩ :=
    plan_cases identity leftDeep divided h
  · refine ⟨[], hparts ▸ .nil, ⟨fun _ => ⟨_, rfl⟩, fun h => ?_⟩, rfl⟩
    obtain ⟨q, hq, -⟩ := h
    cases hq
  · have hwhole := (partOutcome_of_planPart_eq_ok identity leftDeep hpart).plansPart
    rw [hparts]
    exact ⟨[outcome], .cons hpart .nil, combinesParts_singleton hwhole.triples, by simp⟩
  · refine ⟨first :: others, hparts, combinesParts_combine query first others,
      componentCount_combine fun o ho hempty => ?_⟩
    obtain ⟨part, -, hpart⟩ := exists_mem_of_forall₂ hparts ho
    obtain ⟨diagnostics, rfl⟩ := eq_noPlan_of_isEmpty identity leftDeep hpart hempty
    rfl

namespace PlansParts

/-- A query is without an answer exactly if it has no components in any part. -/
theorem isEmpty_iff (identity : p.aggregator = .identity) (leftDeep : p.joinOrder = .leftDeep)
    (h : p.PlansParts fragments query parts outcome os) :
    outcome.plan.isEmpty = true ↔ outcome.componentCount = 0 := by
  rw [h.combines.isEmpty_iff, h.count_eq, List.sum_eq_zero_iff_forall_eq_nat, List.forall_mem_map,
    List.forall_mem_map]
  refine forall₂_congr fun o ho => ?_
  obtain ⟨part, -, hpart⟩ := exists_mem_of_forall₂ h.planned ho
  exact (partOutcome_of_planPart_eq_ok identity leftDeep hpart).isEmpty_iff

/-- What is the same for each part is the same for all parts together. -/
theorem map_eq {β : Type} (identity : p.aggregator = .identity)
    (leftDeep : p.joinOrder = .leftDeep) (h : p.PlansParts fragments query parts outcome os)
    (h' : p.PlansParts fragments' query parts outcome' os') (value : PlanOutcome → β)
    (same : ∀ {part o o'}, p.PartOutcome fragments part o → p.PartOutcome fragments' part o' →
      value o = value o') : os.map value = os'.map value := by
  have hparts := h.planned
  have hparts' := h'.planned
  clear h h'
  induction hparts generalizing os' with
  | nil =>
    cases hparts'
    rfl
  | cons ho _ ih =>
    cases hparts' with
    | cons ho' hparts' =>
      rw [List.map_cons, List.map_cons, ih hparts']
      congr 1
      exact same (partOutcome_of_planPart_eq_ok identity leftDeep ho)
        (partOutcome_of_planPart_eq_ok identity leftDeep ho')

end PlansParts

/-! ## Parts with the same fragments -/

theorem exists_renumbers_partGraph (shared : p.validity = .sharedVariable)
    (same : ∀ f, f ∈ fragments ↔ f ∈ fragments') (part : TripleSet) :
    ∃ place, (p.partGraph fragments part).Renumbers (p.partGraph fragments' part) place := by
  rw [partGraph, partGraph, shared]
  refine JoinGraph.exists_renumbers fun f => ?_
  rw [List.mem_filter, List.mem_filter, same]

/-- Every component that is kept has its place among those that are kept for the same fragments in
another order, with the same representatives. -/
theorem exists_mem_keptComponents_of_renumbers {place : Nat → Nat} {c : JoinComponent}
    (r : (p.partGraph fragments part).Renumbers (p.partGraph fragments' part) place)
    (hc : c ∈ p.keptComponents fragments part) :
    let canonical :=
      JoinGraph.canonicalSet ((p.partGraph fragments' part).canonicalNodes p.alternatives)
    ∃ c' ∈ p.keptComponents fragments' part,
      canonical c'.nodes = canonical (JoinGraph.places place c.nodes) := by
  have hcount := count_canonicalSet (r.answers (answers_of_mem_keptComponents hc).1)
  exact List.mem_map.1 (List.count_pos_iff.1 (hcount ▸ Nat.one_pos))

theorem length_keptComponents_le (shared : p.validity = .sharedVariable)
    (coherent : p.alternatives.Coherent) (same : ∀ f, f ∈ fragments ↔ f ∈ fragments')
    (part : TripleSet) :
    (p.keptComponents fragments part).length ≤ (p.keptComponents fragments' part).length := by
  obtain ⟨place, r⟩ := exists_renumbers_partGraph shared same part
  -- The places of kept components still differ in their representatives, and each of them has the
  -- representatives of a component that is kept on the other side.
  let canonical (s : NodeSet) : NodeSet :=
    JoinGraph.canonicalSet ((p.partGraph fragments' part).canonicalNodes p.alternatives) s
  have hnodup : ((p.keptComponents fragments part).map fun c =>
      canonical (JoinGraph.places place c.nodes)).Nodup := by
    refine List.pairwise_map.2 ((pairwise_distinctBy _ _).imp_of_mem fun {b c} hb hc hne => ?_)
    exact mt (r.canonicalSet_places_eq_iff coherent (answers_of_mem_keptComponents hb).1.known
      (answers_of_mem_keptComponents hc).1.known).1 hne
  have hsubset : ((p.keptComponents fragments part).map fun c =>
      canonical (JoinGraph.places place c.nodes)) ⊆
        (p.keptComponents fragments' part).map fun c => canonical c.nodes := by
    intro key hkey
    obtain ⟨c, hc, rfl⟩ := List.mem_map.1 hkey
    exact List.mem_map.2 (exists_mem_keptComponents_of_renumbers r hc)
  simpa using (hnodup.subperm hsubset).length_le

/-- The same fragments lead to as many alternatives. -/
theorem length_keptComponents_congr (shared : p.validity = .sharedVariable)
    (coherent : p.alternatives.Coherent) (same : ∀ f, f ∈ fragments ↔ f ∈ fragments')
    (part : TripleSet) :
    (p.keptComponents fragments part).length = (p.keptComponents fragments' part).length :=
  Nat.le_antisymm (length_keptComponents_le shared coherent same part)
    (length_keptComponents_le shared coherent (fun f => (same f).symm) part)

theorem leafSets_subset (shared : p.validity = .sharedVariable) (nothing : p.alternatives = .none)
    (same : ∀ f, f ∈ fragments ↔ f ∈ fragments') (h : p.PartOutcome fragments part o)
    (h' : p.PartOutcome fragments' part o') : o.leafSets ⊆ o'.leafSets := by
  obtain ⟨place, r⟩ := exists_renumbers_partGraph shared same part
  intro leaves hleaves
  rw [PlanOutcome.mem_leafSets] at hleaves ⊢
  obtain ⟨tree, htree, rfl⟩ := hleaves
  obtain ⟨c, hc, alternative⟩ := exists_mem_of_forall₂ h.forall₂_alternatives htree
  obtain ⟨c', hc', heq⟩ := exists_mem_keptComponents_of_renumbers r hc
  obtain ⟨tree', htree', alternative'⟩ :=
    exists_mem_of_forall₂ h'.forall₂_alternatives.flip hc'
  rw [nothing, JoinGraph.canonicalSet_none, JoinGraph.canonicalSet_none] at heq
  refine ⟨tree', htree', Finset.ext fun leaf => ?_⟩
  rw [List.mem_toFinset, List.mem_toFinset, alternative'.leaves.mem_iff,
    alternative.leaves.mem_iff, List.mem_map, List.mem_map]
  simp only [r.mem_fragments_iff alternative.answers.known heq]

/-- If no nodes are interchangeable, the same fragments lead to the same alternatives. -/
theorem leafSets_congr (shared : p.validity = .sharedVariable) (nothing : p.alternatives = .none)
    (same : ∀ f, f ∈ fragments ↔ f ∈ fragments') (h : p.PartOutcome fragments part o)
    (h' : p.PartOutcome fragments' part o') : o.leafSets = o'.leafSets :=
  Finset.Subset.antisymm (leafSets_subset shared nothing same h h')
    (leafSets_subset shared nothing (fun f => (same f).symm) h' h)

/-! ## Queries with the same fragments -/

/-- Two results of planning both fail, or else they have as many components, and both or none of
them have an answer. -/
structure SameResult (result result' : Except PlanningError PlanOutcome) : Prop where
  fails_iff : (∃ e, result = .error e) ↔ ∃ e, result' = .error e
  isEmpty_eq : ∀ {o o'}, result = .ok o → result' = .ok o' → o.plan.isEmpty = o'.plan.isEmpty
  count_eq : ∀ {o o'}, result = .ok o → result' = .ok o' → o.componentCount = o'.componentCount

theorem exists_plansParts_congr (identity : p.aggregator = .identity)
    (leftDeep : p.joinOrder = .leftDeep) (divided : p.decomposer = .variableConnected)
    (same : ∀ f, f ∈ fragments ↔ f ∈ fragments') (h : p.plan u query fragments = .ok outcome)
    (h' : p.plan u query fragments' = .ok outcome') :
    let parts := mergeSpanned (Decomposer.variableConnected u query) fragments
    ∃ os os', p.PlansParts fragments query parts outcome os ∧
      p.PlansParts fragments' query parts outcome' os' := by
  obtain ⟨os, hos⟩ := exists_plansParts identity leftDeep divided h
  obtain ⟨os', hos'⟩ := exists_plansParts identity leftDeep divided h'
  rw [← Decomposer.mergeSpanned_congr same] at hos'
  exact ⟨os, os', hos, hos'⟩

theorem sameResult_plan (identity : p.aggregator = .identity) (leftDeep : p.joinOrder = .leftDeep)
    (divided : p.decomposer = .variableConnected) (shared : p.validity = .sharedVariable)
    (coherent : p.alternatives.Coherent) (same : ∀ f, f ∈ fragments ↔ f ∈ fragments')
    (u : Universe) (query : TripleSet) :
    SameResult (p.plan u query fragments) (p.plan u query fragments') := by
  have counts : ∀ {outcome outcome'}, p.plan u query fragments = .ok outcome →
      p.plan u query fragments' = .ok outcome' →
        outcome.componentCount = outcome'.componentCount := by
    intro outcome outcome' h h'
    obtain ⟨os, os', hos, hos'⟩ := exists_plansParts_congr identity leftDeep divided same h h'
    rw [hos.count_eq, hos'.count_eq]
    refine congrArg List.sum (hos.map_eq identity leftDeep hos' _ fun {part o o'} ho ho' => ?_)
    rw [ho.componentCount_eq, ho'.componentCount_eq]
    exact length_keptComponents_congr shared coherent same part
  refine ⟨?_, fun {outcome outcome'} h h' => ?_, counts⟩
  · rw [exists_plan_eq_error_iff identity leftDeep, exists_plan_eq_error_iff identity leftDeep]
    simp only [same]
  · obtain ⟨os, os', hos, hos'⟩ := exists_plansParts_congr identity leftDeep divided same h h'
    rw [Bool.eq_iff_iff, hos.isEmpty_iff identity leftDeep, hos'.isEmpty_iff identity leftDeep,
      counts h h']

/-- The order of the fragments decides neither on whether planning fails nor on whether there is an
answer, nor on the number of components. If no nodes are interchangeable, there are also the same
parts and, for each of them, the same alternatives. -/
theorem plan_perm (config : Config) (u : Universe) (query : TripleSet)
    (fragments fragments' : List Fragment) (perm : fragments.Perm fragments') :
    let p : Planner := { config }
    let q : Planner := { config, alternatives := .none }
    let parts := mergeSpanned (Decomposer.variableConnected u query) fragments
    SameResult (p.plan u query fragments) (p.plan u query fragments') ∧
    SameResult (q.plan u query fragments) (q.plan u query fragments') ∧
    mergeSpanned (Decomposer.variableConnected u query) fragments' = parts ∧
    ∀ outcome outcome', q.plan u query fragments = .ok outcome →
      q.plan u query fragments' = .ok outcome' →
      ∃ os os', q.PlansParts fragments query parts outcome os ∧
        q.PlansParts fragments' query parts outcome' os' ∧
          os.map PlanOutcome.leafSets = os'.map PlanOutcome.leafSets := by
  intro p q parts
  have same : ∀ f, f ∈ fragments ↔ f ∈ fragments' := fun f => perm.mem_iff
  refine ⟨sameResult_plan rfl rfl rfl rfl AlternativeSources.coherent_sameContentSameSources same u
    query, sameResult_plan rfl rfl rfl rfl AlternativeSources.coherent_none same u query,
    (Decomposer.mergeSpanned_congr same u query).symm, fun outcome outcome' h h' => ?_⟩
  obtain ⟨os, os', hos, hos'⟩ := exists_plansParts_congr rfl rfl rfl same h h'
  exact ⟨os, os', hos, hos', hos.map_eq rfl rfl hos' _ (leafSets_congr rfl rfl same)⟩

/-- The sources of the two unlinked patterns can be asked in either order. -/
theorem plan_perm_strangers :
    strangerSources.Perm strangerSources.reverse ∧
      ∃ (outcome outcome' : PlanOutcome) (os os' : List PlanOutcome),
        plan { alternatives := .none } strangers (.ofList [0, 1]) strangerSources = .ok outcome ∧
        plan { alternatives := .none } strangers (.ofList [0, 1]) strangerSources.reverse =
          .ok outcome' ∧
        outcome.plan.isEmpty = outcome'.plan.isEmpty ∧
        outcome.componentCount = outcome'.componentCount ∧
        os.length = 2 ∧ os.map PlanOutcome.leafSets = os'.map PlanOutcome.leafSets := by
  have perm : strangerSources.Perm strangerSources.reverse :=
    (List.reverse_perm strangerSources).symm
  have hviolation : violation? strangers (.ofList [0, 1]) strangerSources.reverse = none :=
    violation?_eq_none_iff.2 ⟨subset_fullSet_strangers, by decide⟩
  obtain ⟨outcome, h⟩ :=
    exists_plan_eq_ok (p := { alternatives := .none }) rfl rfl violation?_strangers
  obtain ⟨outcome', h'⟩ := exists_plan_eq_ok (p := { alternatives := .none }) rfl rfl hviolation
  obtain ⟨-, result, -, halternatives⟩ :=
    plan_perm {} strangers (.ofList [0, 1]) strangerSources strangerSources.reverse perm
  obtain ⟨os, os', hos, hos', hleaves⟩ := halternatives outcome outcome' h h'
  refine ⟨perm, outcome, outcome', os, os', h, h', result.isEmpty_eq h h', result.count_eq h h',
    ?_, hleaves⟩
  rw [← hos.planned.length_eq,
    (Decomposer.mergeSpanned_perm classes_strangers (by decide)).length_eq]
  rfl

end Planner
end FederatedJoin
