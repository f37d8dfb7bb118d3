import FederatedJoin.Proofs.Graph.Embedding
import FederatedJoin.Proofs.Planner.Isolation

/-!
# More fragments

Whether a query is answered without any gap depends on its parts. One more fragment takes no answer
away from a part, but it makes one part of all the parts that it spans, and this part may be without
an answer.

* `Planner.answered_plan_iff` — a plan is without gaps if each part of the query has an answer.
* `Planner.exists_answers_of_subset` — more fragments take no answer away from a part.
-/

namespace FederatedJoin
namespace Planner

variable {p : Planner} {u : Universe} {query part : TripleSet}
variable {fragments fragments' : List Fragment} {outcome : PlanOutcome}

/-- A plan is without gaps if there is something to answer and each part of it has an answer. -/
theorem answered_plan_iff (identity : p.aggregator = .identity) (leftDeep : p.joinOrder = .leftDeep)
    (divided : p.decomposer = .variableConnected) (h : violation? u query fragments = none)
    (planned : p.plan u query fragments = .ok outcome) :
    outcome.plan.Answered ↔ query ≠ ∅ ∧
      ∀ part ∈ mergeSpanned (Decomposer.variableConnected u query) fragments,
        ∃ t, (p.partGraph fragments part).Answers part t := by
  obtain ⟨_, plans, hplan, hparts, hcombine⟩ :=
    exists_plan_combinesParts identity leftDeep divided h
  cases planned.symm.trans hplan
  by_cases hempty : ∀ q ∈ plans, q.isEmpty = true
  · obtain ⟨diagnostics, heq⟩ := hcombine.empty hempty
    refine iff_of_false (heq ▸ Plan.not_answered_empty) fun hall => ?_
    obtain ⟨id, hid⟩ := OrdSet.exists_mem_of_ne_empty hall.1
    obtain ⟨part, hpart, -⟩ := (Decomposer.mem_query_iff fragments).1 hid
    obtain ⟨q, hq, hplans⟩ := exists_mem_of_forall₂ hparts.flip hpart
    obtain ⟨part', diagnostics', rfl⟩ := Plan.isEmpty_iff.1 (hempty q hq)
    exact Plan.not_answered_empty (hplans.answered_iff.2 (hall.2 part hpart))
  · obtain ⟨first, others, rfl, hjoin⟩ := hcombine.join (by simpa using hempty)
    have hne : query ≠ ∅ := by
      rintro rfl
      have hnil : mergeSpanned (Decomposer.variableConnected u ∅) fragments = [] :=
        mergeSpanned_nil fragments
      rw [hnil] at hparts
      cases hparts
    rw [hjoin, Plan.answered_iff_of_leaves_eq (Plan.leaves_foldl_join first others),
      and_iff_right hne]
    constructor
    · intro hall part hpart
      obtain ⟨q, hq, hplans⟩ := exists_mem_of_forall₂ hparts.flip hpart
      exact hplans.answered_iff.1 (hall q hq)
    · intro hall q hq
      obtain ⟨part, hpart, hplans⟩ := exists_mem_of_forall₂ hparts hq
      exact hplans.answered_iff.2 (hall part hpart)

/-- More fragments take no answer away from a part. -/
theorem exists_answers_of_subset (shared : p.validity = .sharedVariable)
    (more : ∀ f ∈ fragments, f ∈ fragments')
    (h : ∃ t, (p.partGraph fragments part).Answers part t) :
    ∃ t, (p.partGraph fragments' part).Answers part t := by
  obtain ⟨t, ht⟩ := h
  have within : ∀ f ∈ fragments.filter (·.triples ⊆ part),
      f ∈ fragments'.filter (·.triples ⊆ part) := by
    intro f hf
    rw [List.mem_filter] at hf ⊢
    exact hf.imp_left (more f)
  obtain ⟨place, e⟩ := JoinGraph.exists_embeds within
  rw [partGraph, shared] at ht ⊢
  exact ⟨_, e.answers ht⟩

/-- If one more fragment comes to a query that is answered without gaps, it is still answered
without gaps as long as the fragment lies in one of the parts. A fragment that spans several parts
makes one part of them, and then it depends on whether this part has an answer. -/
theorem plan_answered_of_more (config : Config) (alternatives : AlternativeSources) (u : Universe)
    (query : TripleSet) (fragments fragments' : List Fragment) (f : Fragment)
    (outcome : PlanOutcome) (more : ∀ g, g ∈ fragments' ↔ g = f ∨ g ∈ fragments)
    (known : query ⊆ u.fullSet) (inside : ∀ g ∈ fragments', g.triples ⊆ query)
    (planned : Planner.plan { config, alternatives } u query fragments = .ok outcome)
    (answered : outcome.plan.Answered) :
    let p : Planner := { config, alternatives }
    let parts := mergeSpanned (Decomposer.variableConnected u query) fragments
    let joined := merged f.triples parts
    ∃ outcome', p.plan u query fragments' = .ok outcome' ∧
      ((∃ part ∈ parts, f.triples ⊆ part) → outcome'.plan.Answered) ∧
      (f.triples ≠ ∅ →
        (outcome'.plan.Answered ↔ ∃ t, (p.partGraph fragments' joined).Answers joined t)) := by
  intro p parts joined
  have subset : ∀ g ∈ fragments, g ∈ fragments' := fun g hg => (more g).2 (.inr hg)
  have before := violation?_eq_none_iff.2 ⟨known, fun g hg => inside g (subset g hg)⟩
  have after := violation?_eq_none_iff.2 ⟨known, inside⟩
  obtain ⟨outcome', planned'⟩ := exists_plan_eq_ok (p := p) rfl rfl after
  obtain ⟨hne, hparts⟩ := (answered_plan_iff rfl rfl rfl before planned).1 answered
  have still : ∀ part ∈ parts, ∃ t, (p.partGraph fragments' part).Answers part t :=
    fun part hpart => exists_answers_of_subset rfl subset (hparts part hpart)
  have hiff : outcome'.plan.Answered ↔ ∀ part ∈ mergeMeeting f.triples parts,
      ∃ t, (p.partGraph fragments' part).Answers part t := by
    rw [answered_plan_iff rfl rfl rfl after planned', and_iff_right hne]
    simp only [(Decomposer.mergeSpanned_perm_mergeMeeting more).mem_iff]
    rfl
  refine ⟨outcome', planned', fun h => hiff.2 fun part' hpart' => ?_, fun hf => ?_⟩
  · obtain ⟨part, hpart, hsub⟩ := h
    rcases mem_mergeMeeting.1 hpart' with ⟨hpart', -⟩ | ⟨hmeet, rfl⟩
    · exact still part' hpart'
    · rw [(Decomposer.classes_mergeSpanned u query fragments).merged_eq_of_subset hpart hsub hmeet]
      exact still part hpart
  · have hmeet : ∃ part ∈ parts, ¬part.Disjoint f.triples := by
      obtain ⟨id, hid⟩ := OrdSet.exists_mem_of_ne_empty hf
      obtain ⟨part, hpart, hmem⟩ := (Decomposer.mem_query_iff fragments).1
        (inside f ((more f).2 (.inl rfl)) id hid)
      exact ⟨part, hpart, fun hdisjoint => hdisjoint id hmem hid⟩
    rw [hiff]
    refine ⟨fun h => h joined (mem_mergeMeeting.2 (.inr ⟨hmeet, rfl⟩)), fun h part' hpart' => ?_⟩
    rcases mem_mergeMeeting.1 hpart' with ⟨hpart', -⟩ | ⟨-, rfl⟩
    · exact still part' hpart'
    · exact h

/-! ## Strangers with one more source -/

/-- Each of the two unlinked patterns has an answer. -/
theorem exists_answers_strangers :
    ∀ part ∈ mergeSpanned (Decomposer.variableConnected strangers (.ofList [0, 1])) strangerSources,
      ∃ t, (Planner.partGraph {} strangerSources part).Answers part t := by
  intro part hpart
  rw [(Decomposer.mergeSpanned_perm classes_strangers (by decide)).mem_iff] at hpart
  have hpart : part = {0} ∨ part = {1} := by simpa using hpart
  -- the only node of the part answers it
  rcases hpart with rfl | rfl <;>
    exact ⟨{0}, JoinGraph.MinimalCover.answers
      ⟨by decide, by decide, by decide, by decide, by decide⟩ (by decide)⟩

theorem exists_answered_strangers :
    ∃ outcome, Planner.plan {} strangers (.ofList [0, 1]) strangerSources = .ok outcome ∧
      outcome.plan.Answered := by
  obtain ⟨outcome, planned⟩ := exists_plan_eq_ok (p := {}) rfl rfl violation?_strangers
  exact ⟨outcome, planned, (answered_plan_iff rfl rfl rfl violation?_strangers planned).2
    ⟨by decide, exists_answers_strangers⟩⟩

/-- A second source for the first pattern. -/
def registry : Fragment :=
  (Fragment.ofTriples "registry" (.ofList [0])).withResults (.ofList ["person", "friend"])

theorem plan_answered_of_more_registry :
    ∃ before after, Planner.plan {} strangers (.ofList [0, 1]) strangerSources = .ok before ∧
      before.plan.Answered ∧
      Planner.plan {} strangers (.ofList [0, 1]) (strangerSources ++ [registry]) = .ok after ∧
      after.plan.Answered := by
  obtain ⟨before, planned, answered⟩ := exists_answered_strangers
  have more : ∀ g, g ∈ strangerSources ++ [registry] ↔ g = registry ∨ g ∈ strangerSources := by
    intro g
    rw [List.mem_append, List.mem_singleton, or_comm]
  obtain ⟨after, planned', hwithin, -⟩ := plan_answered_of_more {} .sameContentSameSources strangers
    (.ofList [0, 1]) strangerSources (strangerSources ++ [registry]) registry before more
    subset_fullSet_strangers (by decide) planned answered
  refine ⟨before, after, planned, answered, planned', hwithin ⟨{0}, ?_, by decide⟩⟩
  rw [(Decomposer.mergeSpanned_perm classes_strangers (by decide)).mem_iff]
  decide

/-- A source for both patterns that has to know a city. -/
def library : Fragment :=
  ((Fragment.ofTriples "library" (.ofList [0, 1])).withResults
    (.ofList ["person", "friend", "book", "title"])).withInputs (.ofList ["city"])

/-- No source knows a city, and without the library nothing joins the two patterns. -/
theorem not_answers_library (t : NodeSet) :
    ¬(Planner.partGraph {} (strangerSources ++ [library]) (.ofList [0, 1])).Answers
      (.ofList [0, 1]) t := by
  generalize hg : Planner.partGraph {} (strangerSources ++ [library]) (.ofList [0, 1]) = g
  have known : g.allNodes = .ofList [0, 1, 2] := by rw [← hg]; decide
  have waits : ∃ n, g.node? 2 = some n ∧ "city" ∈ n.inputs := by
    rw [← hg]
    exact ⟨_, rfl, by decide⟩
  have unbound : ∀ n ∈ g.nodes.toList, "city" ∉ n.results := by rw [← hg]; decide
  have short : ∀ i ∈ [0, 1], ¬OrdSet.ofList [0, 1] ⊆ g.triplesOf {i} := by rw [← hg]; decide
  have apart : g.isConnected (.ofList [0, 1]) = false := by rw [← hg]; decide
  intro ht
  have only : ∀ i ∈ t, i ∈ [0, 1] := by
    intro i hi
    have hlt : i = 0 ∨ i = 1 ∨ i = 2 := by simpa [known] using ht.known i hi
    rcases hlt with rfl | rfl | rfl
    · decide
    · decide
    · obtain ⟨n, hn, hcity⟩ := waits
      obtain ⟨j, -, -, m, hm, hbinds⟩ := ht.bound 2 hi n hn _ hcity
      have hmem := Array.mem_toList_iff.2 (JoinGraph.mem_nodes_of_node? hm)
      exact absurd hbinds (unbound m hmem)
  have both : ∀ i ∈ t, ¬t ⊆ {i} := by
    intro i hi hsub
    have hcovers := JoinGraph.triplesOf_subset (g := g) hsub
    rw [ht.covers] at hcovers
    exact short i (only i hi) hcovers
  obtain ⟨i, hi⟩ := OrdSet.exists_mem_of_ne_empty ht.nonempty
  obtain ⟨j, hj, hji⟩ := OrdSet.exists_mem_of_not_subset (both i hi)
  have heq : t = .ofList [0, 1] := by
    apply OrdSet.ext
    intro k
    rw [OrdSet.mem_ofList]
    refine ⟨only k, fun hk => ?_⟩
    have hi' := only i hi
    have hj' := only j hj
    grind
  have connected := ht.connected
  rw [heq, apart] at connected
  cases connected

theorem not_answered_of_more_library :
    ∃ before after, Planner.plan {} strangers (.ofList [0, 1]) strangerSources = .ok before ∧
      before.plan.Answered ∧
      Planner.plan {} strangers (.ofList [0, 1]) (strangerSources ++ [library]) = .ok after ∧
      ¬after.plan.Answered := by
  have inside : ∀ f ∈ strangerSources ++ [library], f.triples ⊆ OrdSet.ofList [0, 1] := by decide
  have hviolation := violation?_eq_none_iff.2 ⟨subset_fullSet_strangers, inside⟩
  obtain ⟨before, planned, answered⟩ := exists_answered_strangers
  obtain ⟨after, planned'⟩ := exists_plan_eq_ok (p := {}) rfl rfl hviolation
  refine ⟨before, after, planned, answered, planned', fun hanswered => ?_⟩
  have hparts := ((answered_plan_iff rfl rfl rfl hviolation planned').1 hanswered).2
  have whole : library.triples = .ofList [0, 1] := rfl
  rw [Decomposer.mergeSpanned_eq_singleton (by simp) whole (by decide)] at hparts
  obtain ⟨t, ht⟩ := hparts _ List.mem_cons_self
  exact not_answers_library t ht

end Planner
end FederatedJoin
