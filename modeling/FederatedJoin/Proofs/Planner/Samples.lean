import FederatedJoin.Proofs.Planner.FragmentOrder
import FederatedJoin.Proofs.Search.Forgetting

/-!
# How many samples are kept

A search keeps a limited number of samples of each kind. A query of several parts has the samples of
all parts, so the limit holds for each part and not for the query.

* `Diagnostics.Sampled` — the samples of one search.
* `Planner.exists_unansweredParts` — the samples of a query are those of its parts, one after the
  other.
* `Planner.length_samples_le` — how many samples a query has at most.
-/

namespace FederatedJoin

/-! ## Samples of one search -/

/-- The diagnostics of one search. The near misses are different and lie in the query, and neither
kind of samples exceeds the limit. -/
structure Diagnostics.Sampled (d : Diagnostics) (limits : SampleLimits) (query : TripleSet) :
    Prop where
  nodup : d.nearMisses.Nodup
  nearMisses : ∀ uncovered ∈ d.nearMisses, uncovered ≠ ∅ ∧ uncovered ⊆ query
  length_nearMisses_le : d.nearMisses.length ≤ limits.samples
  length_unbound_le : d.unbound.length ≤ limits.samples

theorem Diagnostics.sampled_ofUnreachable (limits : SampleLimits) (query triples : TripleSet) :
    (ofUnreachable triples).Sampled limits query where
  nodup := List.nodup_nil
  nearMisses := by simp [ofUnreachable]
  length_nearMisses_le := Nat.zero_le _
  length_unbound_le := Nat.zero_le _

theorem Search.sampled_run (s : Search) : s.run.diagnostics.Sampled s.config.limits s.query := by
  by_cases h : s.unreachable = ∅
  · refine ⟨nodup_nearMisses s, fun uncovered hmem => ?_, ?_, ?_⟩
    · obtain ⟨-, t, -, ht⟩ := of_mem_nearMisses hmem
      obtain ⟨covers, -, rfl⟩ := leftUncovered?_eq_some_iff.1 ht
      exact ⟨mt OrdSet.sdiff_eq_empty_iff.1 covers, fun id hid => (OrdSet.mem_sdiff.1 hid).1⟩
    · rw [diagnostics_eq h]
      exact List.length_take_le _ _
    · rw [diagnostics_eq h]
      exact List.length_take_le _ _
  · rw [diagnostics_of_unreachable h]
    exact Diagnostics.sampled_ofUnreachable _ _ _

/-! ## Merged samples -/

namespace Diagnostics

variable {limits : SampleLimits} {parts : List TripleSet} {ds : List Diagnostics}

/-- Near misses of disjoint parts are different, because they are not empty. -/
theorem nodup_flatMap_nearMisses (h : List.Forall₂ (fun part d => d.Sampled limits part) parts ds)
    (disjoint : parts.Pairwise OrdSet.Disjoint) : (ds.flatMap nearMisses).Nodup := by
  induction h with
  | nil => exact List.nodup_nil
  | @cons part d parts ds hd hds ih =>
    obtain ⟨hpart, hparts⟩ := List.pairwise_cons.1 disjoint
    rw [List.flatMap_cons]
    refine hd.nodup.append (ih hparts) fun uncovered hmem hmem' => ?_
    obtain ⟨e, he, hmem'⟩ := List.mem_flatMap.1 hmem'
    obtain ⟨other, hother, hsampled⟩ := exists_mem_of_forall₂ hds he
    obtain ⟨hne, hsub⟩ := hd.nearMisses uncovered hmem
    obtain ⟨id, hid⟩ := OrdSet.exists_mem_of_ne_empty hne
    exact hpart other hother id (hsub id hid) ((hsampled.nearMisses uncovered hmem').2 id hid)

theorem length_flatMap_le {α : Type} {f : Diagnostics → List α} {n : Nat}
    (h : ∀ e ∈ ds, (f e).length ≤ n) : (ds.flatMap f).length ≤ ds.length * n := by
  induction ds with
  | nil => simp
  | cons e ds ih =>
    have first := h e List.mem_cons_self
    have rest := ih fun e' he' => h e' (List.mem_cons_of_mem e he')
    rw [List.flatMap_cons, List.length_append, List.length_cons, Nat.succ_mul]
    omega

end Diagnostics

/-! ## Samples of a plan -/

namespace Planner

variable {p : Planner} {u : Universe} {query part : TripleSet} {fragments : List Fragment}
variable {d : Diagnostics} {outcome : PlanOutcome}

theorem forall₂_comp {α β γ : Type} {r : α → β → Prop} {r' : β → γ → Prop} {l : List α}
    {m : List β} {n : List γ} (h : List.Forall₂ r l m) (h' : List.Forall₂ r' m n) :
    List.Forall₂ (Relation.Comp r r') l n := by
  induction h generalizing n with
  | nil =>
    cases h'
    exact .nil
  | cons hab _ ih =>
    cases h' with
    | cons hbc h' => exact .cons ⟨_, hab, hbc⟩ (ih h')

/-- Planning a part yields nothing but the samples of one search. -/
structure UnansweredPart (p : Planner) (fragments : List Fragment) (part : TripleSet)
    (d : Diagnostics) : Prop where
  planned : p.planPart fragments part = .ok (noPlan part d)
  sampled : d.Sampled p.config.limits part

theorem exists_unansweredPart (identity : p.aggregator = .identity)
    (leftDeep : p.joinOrder = .leftDeep) (h : p.planPart fragments part = .ok outcome)
    (hempty : outcome.plan.isEmpty = true) :
    ∃ d, outcome = noPlan part d ∧ p.UnansweredPart fragments part d := by
  let own := fragments.filter fun f => ¬f.triples.isEmpty ∧ f.triples ⊆ part
  have inside : ∀ f ∈ own, f.triples ⊆ part := fun f hf =>
    (of_decide_eq_true (List.mem_filter.1 hf).2).2
  have hpart := partOutcome_of_planPart_eq_ok identity leftDeep h
  have nothing : p.keptComponents own part = [] := by
    rw [keptComponents, partGraph_filter]
    exact List.eq_nil_of_length_eq_zero
      (hpart.componentCount_eq.symm.trans (hpart.isEmpty_iff.1 hempty))
  obtain ⟨d, hplan, hd⟩ := planConnected_of_keptComponents_eq_nil inside nothing
  refine ⟨d, Except.ok.inj (h.symm.trans hplan), hplan, ?_⟩
  rcases hd with rfl | rfl
  · exact Diagnostics.sampled_ofUnreachable _ _ _
  · exact Search.sampled_run _

/-- If no part has an answer, the samples of the parts are put one after the other. -/
theorem exists_unansweredParts_of_combine (identity : p.aggregator = .identity)
    (leftDeep : p.joinOrder = .leftDeep) {parts : List TripleSet} {first : PlanOutcome}
    {others : List PlanOutcome} (disjoint : parts.Pairwise OrdSet.Disjoint)
    (hparts : List.Forall₂ (fun part o => p.planPart fragments part = .ok o) parts
      (first :: others)) {q : TripleSet}
    (hempty : (combine query first others).plan = .empty q d) :
    ∃ ds, List.Forall₂ (p.UnansweredPart fragments) parts ds ∧
      d.nearMisses = ds.flatMap Diagnostics.nearMisses ∧
        d.unbound = ds.flatMap Diagnostics.unbound := by
  have hall : ∀ o ∈ first :: others, o.plan.isEmpty = true :=
    List.forall_mem_map.1
      ((combinesParts_combine query first others).isEmpty_iff.1 (Plan.isEmpty_iff.2 ⟨_, _, hempty⟩))
  obtain ⟨ds, hds, hcombine⟩ : ∃ ds, _ ∧ combine query first others = _ :=
    combine_of_unanswered hall
  have unanswered : List.Forall₂ (p.UnansweredPart fragments) parts ds := by
    refine (forall₂_comp hparts hds).imp fun part e h => ?_
    obtain ⟨o, ho, other, heq⟩ := h
    obtain ⟨e', rfl, unanswered⟩ :=
      exists_unansweredPart identity leftDeep ho (Plan.isEmpty_iff.2 ⟨other, e, heq⟩)
    cases heq
    exact unanswered
  have hnodup := Diagnostics.nodup_flatMap_nearMisses
    (unanswered.imp fun _ _ h => h.sampled) disjoint
  rw [hcombine] at hempty
  cases hempty
  have hmerge : ds.foldl Diagnostics.merge ∅ = .combined ds := by
    refine Diagnostics.foldl_merge fun e he => ?_
    obtain ⟨part, -, h⟩ := exists_mem_of_forall₂ unanswered he
    exact h.sampled.nodup
  exact ⟨ds, unanswered, hmerge ▸ distinctBy_eq_self hnodup, hmerge ▸ rfl⟩

/-- The samples of a query without an answer are those of its parts, one after the other. -/
theorem exists_unansweredParts (identity : p.aggregator = .identity)
    (leftDeep : p.joinOrder = .leftDeep) (divided : p.decomposer = .variableConnected)
    (h : p.plan u query fragments = .ok outcome) {q : TripleSet}
    (hempty : outcome.plan = .empty q d) :
    ∃ ds, List.Forall₂ (p.UnansweredPart fragments)
        (mergeSpanned (Decomposer.variableConnected u query) fragments) ds ∧
      d.nearMisses = ds.flatMap Diagnostics.nearMisses ∧
        d.unbound = ds.flatMap Diagnostics.unbound := by
  obtain ⟨hparts, rfl, rfl⟩ | ⟨hparts, hpart⟩ | ⟨first, others, rfl, hparts⟩ :=
    plan_cases identity leftDeep divided h
  · cases hempty
    exact ⟨[], hparts ▸ .nil, rfl, rfl⟩
  · obtain ⟨e, rfl, unanswered⟩ :=
      exists_unansweredPart identity leftDeep hpart (Plan.isEmpty_iff.2 ⟨_, _, hempty⟩)
    cases hempty
    rw [hparts]
    exact ⟨[d], .cons unanswered .nil, by simp, by simp⟩
  · exact exists_unansweredParts_of_combine identity leftDeep
      (Decomposer.classes_mergeSpanned u query fragments).disjoint hparts hempty

/-- A query without an answer has the samples of all its parts, and the limit holds for each part.
So a query of one part keeps to the limit, and a query of several parts need not. -/
theorem length_samples_le (config : Config) (validity : JoinValidity)
    (alternatives : AlternativeSources) (u : Universe) (query : TripleSet)
    (fragments : List Fragment) (outcome : PlanOutcome)
    (accepted : Planner.plan { config, validity, alternatives } u query fragments = .ok outcome)
    (q : TripleSet) (d : Diagnostics) (unanswered : outcome.plan = .empty q d) :
    let p : Planner := { config, validity, alternatives }
    let parts := mergeSpanned (Decomposer.variableConnected u query) fragments
    let samples := config.limits.samples
    ∃ ds, List.Forall₂ (fun part e =>
        p.plan u part (fragments.filter (·.triples ⊆ part)) = .ok (noPlan part e) ∧
          e.nearMisses.length ≤ samples ∧ e.unbound.length ≤ samples) parts ds ∧
      d.nearMisses = ds.flatMap Diagnostics.nearMisses ∧
      d.unbound = ds.flatMap Diagnostics.unbound ∧
      d.nearMisses.length ≤ parts.length * samples ∧
      d.unbound.length ≤ parts.length * samples := by
  intro p parts samples
  obtain ⟨known, inside⟩ := violation?_eq_none_iff.1 (violation?_eq_none_of_plan_eq_ok accepted)
  obtain ⟨ds, hds, hnear, hunbound⟩ :=
    exists_unansweredParts (p := p) rfl rfl rfl accepted unanswered
  have limited : ∀ e ∈ ds, e.nearMisses.length ≤ samples ∧ e.unbound.length ≤ samples := by
    intro e he
    obtain ⟨part, -, h⟩ := exists_mem_of_forall₂ hds he
    exact ⟨h.sampled.length_nearMisses_le, h.sampled.length_unbound_le⟩
  refine ⟨ds, ?_, hnear, hunbound, ?_, ?_⟩
  · refine ((List.forall₂_and_left _ _).2 ⟨fun part hpart => hpart, hds⟩).imp fun part e h => ?_
    obtain ⟨hpart, h⟩ := h
    exact ⟨(plan_part rfl known inside hpart).trans h.planned, h.sampled.length_nearMisses_le,
      h.sampled.length_unbound_le⟩
  · rw [hnear, hds.length_eq]
    exact Diagnostics.length_flatMap_le fun e he => (limited e he).1
  · rw [hunbound, hds.length_eq]
    exact Diagnostics.length_flatMap_le fun e he => (limited e he).2

/-- One source for each of the two patterns. Each requires a variable that nothing binds. -/
def lockedSources : List Fragment :=
  [(Fragment.ofTriples "people" (.ofList [0])).withInputs {"token"},
    (Fragment.ofTriples "books" (.ofList [1])).withInputs {"key"}]

/-- The default policies with room for one sample of each kind. -/
def oneSample : Planner := { config := { limits := { samples := 1 } } }

/-- The search for one of the two patterns. -/
def lockedSearch (i : TripleId) : Search :=
  ⟨.build (Node.group (lockedSources.filter (·.triples ⊆ {i}))) oneSample.validity, {i},
    oneSample.config⟩

theorem planPart_locked :
    ∀ i ∈ [0, 1], oneSample.planPart lockedSources {i} =
      .ok (noPlan {i} (lockedSearch i).run.diagnostics) := by
  have hnone : ∀ i ∈ [0, 1], (lockedSearch i).run.components = [] := by
    intro i hi
    rw [Search.components_eq]
    revert i
    decide
  have hown : ∀ i ∈ [0, 1], lockedSources.filter (·.triples ⊆ {i}) ≠ [] := by decide
  intro i hi
  rw [planPart_eq]
  exact planConnected_of_components_eq_nil (hown i hi) (hnone i hi)

theorem length_unbound_locked :
    ∀ i ∈ [0, 1], (lockedSearch i).run.diagnostics.unbound.length = 1 := by
  have hsize : ∀ i ∈ [0, 1], (lockedSearch i).graph.size = 1 := by decide
  intro i hi
  rw [Search.diagnostics_of_room fun k hk => ?_]
  · revert i
    decide
  · rw [Search.level_eq_nil ((hsize i hi).trans_le hk)]
    exact Nat.zero_le _

theorem parts_locked :
    (mergeSpanned (Decomposer.variableConnected strangers (.ofList [0, 1])) lockedSources).Perm
      ([0, 1].map ({·})) :=
  Decomposer.mergeSpanned_perm (classes_apart (by decide)) (by decide)

theorem eq_of_planPart_locked {o : PlanOutcome}
    (hpart : part ∈ mergeSpanned (Decomposer.variableConnected strangers (.ofList [0, 1]))
      lockedSources) (h : oneSample.planPart lockedSources part = .ok o) :
    ∃ i ∈ [0, 1], o = noPlan {i} (lockedSearch i).run.diagnostics := by
  rw [parts_locked.mem_iff] at hpart
  obtain ⟨i, hi, rfl⟩ := List.mem_map.1 hpart
  exact ⟨i, hi, Except.ok.inj (h.symm.trans (planPart_locked i hi))⟩

/-- Neither pattern has an answer, so the query has none. -/
theorem exists_plan_locked :
    ∃ outcome d, oneSample.plan strangers (.ofList [0, 1]) lockedSources = .ok outcome ∧
      outcome.plan = .empty (.ofList [0, 1]) d := by
  have hviolation : violation? strangers (.ofList [0, 1]) lockedSources = none :=
    violation?_eq_none_iff.2 ⟨subset_fullSet_strangers, by decide⟩
  obtain ⟨outcome, accepted⟩ := exists_plan_eq_ok (p := oneSample) rfl rfl hviolation
  obtain ⟨os, hos⟩ := exists_plansParts rfl rfl rfl accepted
  obtain ⟨d, hd⟩ := hos.combines.empty <| List.forall_mem_map.2 fun o ho => by
    obtain ⟨part, hpart, hplanned⟩ := exists_mem_of_forall₂ hos.planned ho
    obtain ⟨i, -, rfl⟩ := eq_of_planPart_locked hpart hplanned
    rfl
  exact ⟨outcome, d, accepted, hd⟩

theorem length_samples_le_locked :
    ∃ outcome d, oneSample.plan strangers (.ofList [0, 1]) lockedSources = .ok outcome ∧
      outcome.plan = .empty (.ofList [0, 1]) d ∧ d.unbound.length ≤ 2 := by
  obtain ⟨outcome, d, accepted, unanswered⟩ := exists_plan_locked
  obtain ⟨ds, -, -, -, -, hunbound⟩ := length_samples_le oneSample.config .sharedVariable
    .sameContentSameSources strangers (.ofList [0, 1]) lockedSources outcome accepted _ d unanswered
  rw [parts_locked.length_eq] at hunbound
  exact ⟨outcome, d, accepted, unanswered, hunbound⟩

/-- With room for one sample of each kind, there are two samples of unbound inputs. -/
theorem not_length_unbound_le_locked :
    ∃ outcome d, oneSample.plan strangers (.ofList [0, 1]) lockedSources = .ok outcome ∧
      outcome.plan = .empty (.ofList [0, 1]) d ∧
        ¬d.unbound.length ≤ oneSample.config.limits.samples := by
  obtain ⟨outcome, d, accepted, unanswered⟩ := exists_plan_locked
  obtain ⟨ds, hds, -, hunbound⟩ := exists_unansweredParts rfl rfl rfl accepted unanswered
  have hlength : ds.length = 2 := hds.length_eq.symm.trans parts_locked.length_eq
  have hone : ∀ e ∈ ds, e.unbound.length = 1 := by
    intro e he
    obtain ⟨part, hpart, h⟩ := exists_mem_of_forall₂ hds he
    obtain ⟨i, hi, heq⟩ := eq_of_planPart_locked hpart h.planned
    cases heq
    exact length_unbound_locked i hi
  have htwo : d.unbound.length = 2 := by
    rw [hunbound, List.length_flatMap, List.map_congr_left hone, List.map_const', hlength]
    rfl
  refine ⟨outcome, d, accepted, unanswered, ?_⟩
  rw [htwo]
  decide

end Planner
end FederatedJoin
