import FederatedJoin.Proofs.Decomposition.Classes
import FederatedJoin.Proofs.Planner.WithoutTriples

/-!
# Parts are planned in isolation

A query of several parts is planned as if each part were a query of its own, with the fragments that
lie in it.

* `Planner.plan_part` — a part is planned like a query of its own.
* `Planner.plan_cases` — planning with one part and with several parts.
* `Planner.eq_noPlan_of_isEmpty` — what a part without an answer yields.
-/

namespace FederatedJoin
namespace Planner

variable {p : Planner} {u : Universe} {query part : TripleSet} {fragments : List Fragment}
variable {o : PlanOutcome}

/-- A part is planned like a query of its own, with the fragments that lie in it. -/
theorem plan_part (divided : p.decomposer = .variableConnected) (known : query ⊆ u.fullSet)
    (inside : ∀ f ∈ fragments, f.triples ⊆ query)
    (hpart : part ∈ mergeSpanned (Decomposer.variableConnected u query) fragments) :
    p.plan u part (fragments.filter (·.triples ⊆ part)) = p.planPart fragments part := by
  have hne := (Decomposer.classes_mergeSpanned u query fragments).nonempty part hpart
  have hsub : part ⊆ query := fun id hid =>
    (Decomposer.mem_query_iff fragments).2 ⟨part, hpart, hid⟩
  have hviolation : violation? u part (fragments.filter (·.triples ⊆ part)) = none :=
    violation?_eq_none_iff.2 ⟨fun id hid => known id (hsub id hid), fun f hf =>
      of_decide_eq_true (List.mem_filter.1 hf).2⟩
  rw [plan, hviolation, divided, Decomposer.mergeSpanned_part hpart inside, planPart_eq]
  exact if_neg (mt OrdSet.isEmpty_iff.1 hne)

/-- Planning yields the outcome of the only part, or the combined outcomes of several parts. -/
theorem plan_cases (identity : p.aggregator = .identity) (leftDeep : p.joinOrder = .leftDeep)
    (divided : p.decomposer = .variableConnected) (h : p.plan u query fragments = .ok o) :
    let parts := mergeSpanned (Decomposer.variableConnected u query) fragments
    (parts = [] ∧ query = ∅ ∧ o = noPlan ∅ ∅) ∨
      (parts = [query] ∧ p.planPart fragments query = .ok o) ∨
        ∃ first others, o = combine query first others ∧
          List.Forall₂ (fun part o => p.planPart fragments part = .ok o) parts
            (first :: others) := by
  intro parts
  have hviolation := violation?_eq_none_of_plan_eq_ok h
  obtain ⟨known, inside⟩ := violation?_eq_none_iff.1 hviolation
  by_cases hne : query = ∅
  · subst hne
    cases h.symm.trans (plan_empty hviolation)
    exact .inl ⟨mergeSpanned_nil fragments, rfl, rfl⟩
  · have planned := exists_plan_of_ne_empty identity leftDeep hviolation hne
    rw [divided] at planned
    obtain ⟨_, hplan, ⟨hlength, -⟩ | ⟨first, others, rfl, hparts⟩⟩ := planned
    · cases h.symm.trans hplan
      have hparts : parts = [query] := parts_eq_singleton hlength
        (Decomposer.unions_mergeSpanned_variableConnected u query fragments) hne
      have hquery : query ∈ parts := hparts ▸ List.mem_singleton_self query
      refine .inr (.inl ⟨hparts, ?_⟩)
      rw [← plan_part divided known inside hquery,
        List.filter_eq_self.2 fun f hf => decide_eq_true (inside f hf), h]
    · cases h.symm.trans hplan
      exact .inr (.inr ⟨first, others, rfl, hparts.imp fun _ _ h => h.1⟩)

/-- A part without an answer comes with its diagnostics and with nothing else. -/
theorem eq_noPlan_of_isEmpty (identity : p.aggregator = .identity)
    (leftDeep : p.joinOrder = .leftDeep) (h : p.planPart fragments part = .ok o)
    (hempty : o.plan.isEmpty = true) : ∃ diagnostics, o = noPlan part diagnostics := by
  cases partOutcome_of_planPart_eq_ok identity leftDeep h with
  | unanswered nothing diagnostics => exact ⟨diagnostics, rfl⟩
  | answered alternatives =>
    obtain ⟨query, diagnostics, heq⟩ := Plan.isEmpty_iff.1 hempty
    exact absurd heq (ofAlternatives_ne_empty alternatives query diagnostics)

/-- If a query has several parts, every fragment lies in exactly one of them, and the plan of the
query is the join of the plans that the parts have as queries of their own. If no part has an
answer, the query has none, for the reasons of all parts. -/
theorem plan_joins_parts (config : Config) (validity : JoinValidity)
    (alternatives : AlternativeSources) (u : Universe) (query : TripleSet)
    (fragments : List Fragment) (outcome : PlanOutcome)
    (accepted : Planner.plan { config, validity, alternatives } u query fragments = .ok outcome)
    (several : 1 < (mergeSpanned (Decomposer.variableConnected u query) fragments).length) :
    let p : Planner := { config, validity, alternatives }
    let parts := mergeSpanned (Decomposer.variableConnected u query) fragments
    (∀ f ∈ fragments, f.triples ≠ ∅ → ∃! i : Fin parts.length, f.triples ⊆ parts[i]) ∧
    ∃ first others,
      List.Forall₂ (fun part o =>
        p.plan u part (fragments.filter (·.triples ⊆ part)) = .ok o ∧
          (o.plan.isEmpty = true → ∃ diagnostics, o = noPlan part diagnostics))
        parts (first :: others) ∧
      ((∃ o ∈ first :: others, o.plan.isEmpty = false) →
        outcome = ⟨(others.map PlanOutcome.plan).foldl .join first.plan,
          ((first :: others).map PlanOutcome.componentCount).sum⟩) ∧
      ((∀ o ∈ first :: others, o.plan.isEmpty = true) →
        ∃ ds, List.Forall₂ (fun o d => ∃ part, o.plan = .empty part d) (first :: others) ds ∧
          outcome = noPlan query (ds.foldl Diagnostics.merge ∅)) := by
  intro p parts
  have hviolation := violation?_eq_none_of_plan_eq_ok accepted
  obtain ⟨known, inside⟩ := violation?_eq_none_iff.1 hviolation
  have hne : query ≠ ∅ := by
    rintro rfl
    have hparts : mergeSpanned (Decomposer.variableConnected u ∅) fragments = [] :=
      mergeSpanned_nil fragments
    simp [hparts] at several
  obtain ⟨_, hplan, ⟨hlength, -⟩ | ⟨first, others, rfl, hparts⟩⟩ :=
    exists_plan_of_ne_empty (p := p) rfl rfl hviolation hne
  · exact absurd several (Nat.not_lt.2 hlength)
  · cases accepted.symm.trans hplan
    refine ⟨fun f hf => Decomposer.existsUnique_part inside hf, first, others, ?_,
      combine_of_answered, combine_of_unanswered⟩
    refine ((List.forall₂_and_left _ _).2 ⟨fun part hpart => hpart, hparts⟩).imp fun part o h => ?_
    obtain ⟨hpart, ho, -⟩ := h
    exact ⟨(plan_part rfl known inside hpart).trans ho, eq_noPlan_of_isEmpty rfl rfl ho⟩

/-- Whom a person knows, and what a book is called. -/
def strangers : Universe :=
  .ofPatterns
    [⟨.var "person", .iri "knows", .var "friend"⟩, ⟨.var "book", .iri "title", .var "title"⟩]

/-- One source for each of the two patterns. -/
def strangerSources : List Fragment :=
  [(Fragment.ofTriples "people" (.ofList [0])).withResults (.ofList ["person", "friend"]),
    (Fragment.ofTriples "books" (.ofList [1])).withResults (.ofList ["book", "title"])]

theorem disjoint_vars_strangers : (strangers.vars 0).Disjoint (strangers.vars 1) := by
  rw [strangers, Universe.vars_ofPatterns, Universe.vars_ofPatterns] <;> decide

theorem subset_fullSet_strangers : OrdSet.ofList [0, 1] ⊆ strangers.fullSet := by
  have hsize : strangers.size = 2 := by
    rw [strangers, Universe.size, Universe.patterns_ofPatterns] <;> decide
  intro id hid
  rw [Universe.mem_fullSet, hsize]
  revert id
  decide

theorem violation?_strangers : violation? strangers (.ofList [0, 1]) strangerSources = none :=
  violation?_eq_none_iff.2 ⟨subset_fullSet_strangers, by decide⟩

/-- No variable links the two patterns. -/
theorem classes_apart {sources : List Fragment}
    (apart : ∀ f ∈ sources, 0 ∈ f.triples → 1 ∉ f.triples) :
    Classes (Decomposer.Linked strangers (.ofList [0, 1]) sources) ([0, 1].map ({·})) := by
  have unlinked : ¬Decomposer.Linked strangers (.ofList [0, 1]) sources 0 1 := by
    rintro ⟨-, -, ⟨v, h0, h1⟩ | ⟨f, hf, h0, h1⟩⟩
    · exact disjoint_vars_strangers v h0 h1
    · exact apart f hf h0 h1
  refine Classes.singletons (by decide) fun a ha b hab => ?_
  have hb := OrdSet.mem_ofList.1 hab.2.1
  simp only [List.mem_cons, List.not_mem_nil, or_false] at ha hb
  rcases ha with rfl | rfl <;> rcases hb with rfl | rfl
  · rfl
  · exact absurd hab unlinked
  · exact absurd hab.symm unlinked
  · rfl

theorem classes_strangers :
    Classes (Decomposer.Linked strangers (.ofList [0, 1]) strangerSources) ([0, 1].map ({·})) :=
  classes_apart (by decide)

theorem plan_joins_parts_strangers :
    ∃ outcome parts, Planner.plan {} strangers (.ofList [0, 1]) strangerSources = .ok outcome ∧
      mergeSpanned (Decomposer.variableConnected strangers (.ofList [0, 1])) strangerSources =
        parts ∧ 1 < parts.length ∧
      (∀ f ∈ strangerSources, f.triples ≠ ∅ → ∃! i : Fin parts.length, f.triples ⊆ parts[i]) ∧
      ∀ part ∈ parts, ∃ o,
        Planner.plan {} strangers part (strangerSources.filter (·.triples ⊆ part)) = .ok o := by
  obtain ⟨outcome, accepted⟩ := exists_plan_eq_ok (p := {}) rfl rfl violation?_strangers
  have several : 1 < (mergeSpanned (Decomposer.variableConnected strangers (.ofList [0, 1]))
      strangerSources).length := by
    rw [(Decomposer.mergeSpanned_perm classes_strangers (by decide)).length_eq]
    decide
  obtain ⟨hunique, first, others, hparts, -⟩ := plan_joins_parts {} .sharedVariable
    .sameContentSameSources strangers (.ofList [0, 1]) strangerSources outcome accepted several
  refine ⟨outcome, _, accepted, rfl, several, hunique, fun part hpart => ?_⟩
  obtain ⟨o, -, ho, -⟩ := exists_mem_of_forall₂ hparts.flip hpart
  exact ⟨o, ho⟩

end Planner
end FederatedJoin
