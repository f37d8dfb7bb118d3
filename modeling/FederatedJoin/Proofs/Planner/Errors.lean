import FederatedJoin.Proofs.Planner.Part

/-!
# When the planner refuses to plan

With the default aggregator and join order, the only errors are those of callers who break the rules
for queries and fragments. No validity predicate, no choice of interchangeable nodes and no
decomposition leads to another one.

* `Planner.violation?_eq_some_iff` — which rule counts as broken.
* `Planner.exists_plan_eq_ok` — a plan for every caller who keeps the rules.
-/

namespace FederatedJoin
namespace Planner

variable {p : Planner} {u : Universe} {query : TripleSet} {fragments : List Fragment}

/-! ## Rules for callers -/

theorem violation?_eq_none_iff :
    violation? u query fragments = none ↔
      query ⊆ u.fullSet ∧ ∀ f ∈ fragments, f.triples ⊆ query := by
  unfold violation?
  split
  · next h =>
    rw [Option.map_eq_none_iff, List.find?_eq_none, and_iff_right (Universe.containsAll_iff.1 h)]
    simp
  · next h =>
    rw [Universe.containsAll_iff] at h
    simp [h]

/-- The query comes first, and then the first fragment that reaches beyond it. -/
theorem violation?_eq_some_iff {violation : ContractViolation} :
    violation? u query fragments = some violation ↔
      (¬query ⊆ u.fullSet ∧ violation = .queryOutsideUniverse (query \ u.fullSet)) ∨
      (query ⊆ u.fullSet ∧ ∃ before f after, fragments = before ++ f :: after ∧
        (∀ g ∈ before, g.triples ⊆ query) ∧ ¬f.triples ⊆ query ∧
          violation = .fragmentOutsideQuery f.name (f.triples \ query)) := by
  unfold violation?
  split
  · next h =>
    rw [Universe.containsAll_iff] at h
    simp only [h, not_true_eq_false, false_and, true_and, false_or, Option.map_eq_some_iff,
      List.find?_eq_some_iff_append]
    constructor
    · intro hfound
      obtain ⟨f, ⟨hf, before, after, heq, hbefore⟩, rfl⟩ := hfound
      exact ⟨before, f, after, heq, fun g hg => by simpa using hbefore g hg, by simpa using hf, rfl⟩
    · intro hfound
      obtain ⟨before, f, after, heq, hbefore, hf, rfl⟩ := hfound
      exact ⟨f, ⟨by simpa using hf, before, after, heq, fun g hg => by simpa using hbefore g hg⟩,
        rfl⟩
  · next h =>
    rw [Universe.containsAll_iff] at h
    simp only [h, not_false_eq_true, true_and, false_and, or_false, Option.some.injEq]
    exact eq_comm

/-! ## Planning without errors -/

theorem violation?_eq_none_of_plan_eq_ok {outcome : PlanOutcome}
    (h : p.plan u query fragments = .ok outcome) : violation? u query fragments = none := by
  cases hviolation : violation? u query fragments with
  | none => rfl
  | some violation => simp [plan, hviolation] at h

theorem plan_empty (h : violation? u ∅ fragments = none) :
    p.plan u ∅ fragments = .ok (noPlan ∅ ∅) := by
  unfold plan
  rw [h]
  rfl

/-- A query with triples is planned part by part if there are several parts, and else as a whole. -/
theorem exists_plan_of_ne_empty (identity : p.aggregator = .identity)
    (leftDeep : p.joinOrder = .leftDeep) (h : violation? u query fragments = none)
    (hne : query ≠ ∅) :
    let parts := mergeSpanned (p.decomposer u query) fragments
    ∃ outcome, p.plan u query fragments = .ok outcome ∧
      ((parts.length ≤ 1 ∧ p.PlansPart fragments query outcome.plan) ∨
        ∃ first others, outcome = combine query first others ∧
          List.Forall₂ (fun part o => p.planPart fragments part = .ok o ∧
            p.PlansPart fragments part o.plan) parts (first :: others)) := by
  obtain ⟨whole, hwhole, hplans⟩ :=
    exists_planConnected identity leftDeep (violation?_eq_none_iff.1 h).2
  unfold plan
  rw [h]
  dsimp only
  rw [if_neg (mt OrdSet.isEmpty_iff.1 hne)]
  cases mergeSpanned (p.decomposer u query) fragments with
  | nil => exact ⟨whole, hwhole, .inl ⟨Nat.zero_le 1, hplans⟩⟩
  | cons first rest =>
    cases rest with
    | nil => exact ⟨whole, hwhole, .inl ⟨Nat.le_refl 1, hplans⟩⟩
    | cons second others =>
      obtain ⟨outcome, outcomes, hplan, hparts⟩ :=
        exists_planParts identity leftDeep query fragments first (second :: others)
      exact ⟨_, hplan, .inr ⟨outcome, outcomes, rfl, hparts⟩⟩

theorem exists_plan_eq_ok (identity : p.aggregator = .identity)
    (leftDeep : p.joinOrder = .leftDeep) (h : violation? u query fragments = none) :
    ∃ outcome, p.plan u query fragments = .ok outcome := by
  by_cases hne : query = ∅
  · subst hne
    exact ⟨_, plan_empty h⟩
  · obtain ⟨outcome, hplan, -⟩ := exists_plan_of_ne_empty identity leftDeep h hne
    exact ⟨outcome, hplan⟩

theorem plan_eq_error_iff (identity : p.aggregator = .identity)
    (leftDeep : p.joinOrder = .leftDeep) {e : PlanningError} :
    p.plan u query fragments = .error e ↔
      ∃ violation, violation? u query fragments = some violation ∧ e = .contract violation := by
  cases h : violation? u query fragments with
  | none =>
    obtain ⟨outcome, hplan⟩ := exists_plan_eq_ok (p := p) identity leftDeep h
    simp [hplan]
  | some violation =>
    simp [plan, h, eq_comm]

theorem exists_plan_eq_error_iff (identity : p.aggregator = .identity)
    (leftDeep : p.joinOrder = .leftDeep) :
    (∃ e, p.plan u query fragments = .error e) ↔
      ¬(query ⊆ u.fullSet ∧ ∀ f ∈ fragments, f.triples ⊆ query) := by
  rw [← violation?_eq_none_iff, ← ne_eq, Option.ne_none_iff_exists']
  constructor
  · intro h
    obtain ⟨e, he⟩ := h
    obtain ⟨violation, hviolation, -⟩ := (plan_eq_error_iff identity leftDeep).1 he
    exact ⟨violation, hviolation⟩
  · intro h
    obtain ⟨violation, hviolation⟩ := h
    exact ⟨_, (plan_eq_error_iff identity leftDeep).2 ⟨violation, hviolation, rfl⟩⟩

/-- Planning fails exactly if the query has an id that is not in use or a fragment matches a triple
outside the query. The error names the former first, and otherwise the first such fragment. -/
theorem plan_fails_iff (config : Config) (validity : JoinValidity)
    (alternatives : AlternativeSources) (decomposer : Decomposer) (u : Universe)
    (query : TripleSet) (fragments : List Fragment) :
    let result := plan { config, validity, alternatives, decomposer } u query fragments
    ((∃ e, result = .error e) ↔
      (∃ id ∈ query, u.pattern? id = none) ∨ ∃ f ∈ fragments, ∃ id ∈ f.triples, id ∉ query) ∧
    ∀ e, result = .error e ↔
      (∃ missing : TripleSet, missing ≠ ∅ ∧
        (∀ id, id ∈ missing ↔ id ∈ query ∧ u.pattern? id = none) ∧
          e = .contract (.queryOutsideUniverse missing)) ∨
      ((∀ id ∈ query, u.pattern? id ≠ none) ∧
        ∃ before f after, fragments = before ++ f :: after ∧
          (∀ g ∈ before, g.triples ⊆ query) ∧ ∃ outside : TripleSet, outside ≠ ∅ ∧
            (∀ id, id ∈ outside ↔ id ∈ f.triples ∧ id ∉ query) ∧
              e = .contract (.fragmentOutsideQuery f.name outside)) := by
  intro result
  have known : (∀ id ∈ query, id ∈ u.fullSet) ↔ query ⊆ u.fullSet := Iff.rfl
  simp only [← Universe.not_mem_fullSet_iff, OrdSet.exists_beyond_iff, ne_eq, not_not, known]
  constructor
  · rw [exists_plan_eq_error_iff rfl rfl]
    simp only [OrdSet.subset_iff]
    grind
  · intro e
    rw [plan_eq_error_iff rfl rfl]
    simp only [violation?_eq_some_iff]
    constructor
    · intro h
      obtain ⟨violation, ⟨hq, rfl⟩ | ⟨hq, before, f, after, heq, hbefore, hf, rfl⟩, rfl⟩ := h
      · exact .inl ⟨hq, rfl⟩
      · exact .inr ⟨hq, before, f, after, heq, hbefore, hf, rfl⟩
    · intro h
      rcases h with ⟨hq, rfl⟩ | ⟨hq, before, f, after, heq, hbefore, hf, rfl⟩
      · exact ⟨_, .inl ⟨hq, rfl⟩, rfl⟩
      · exact ⟨_, .inr ⟨hq, before, f, after, heq, hbefore, hf, rfl⟩, rfl⟩

end Planner
end FederatedJoin
