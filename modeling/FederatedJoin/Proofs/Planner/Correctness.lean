import FederatedJoin.Proofs.Decomposition.Order
import FederatedJoin.Proofs.Planner.Errors
import Mathlib.Algebra.GroupWithZero.Nat

/-!
# Correctness of the planner

With the default policies, a plan consists of the plans of the independent parts of the query, and
each of these has one alternative for each class of interchangeable answers.

* `Planner.combine_of_answered`, `Planner.combine_of_unanswered` — what becomes of the plans of the
  parts.
* `Planner.CombinesParts` — how the plans of the parts make up the plan of the query.
* `Planner.exists_plan_combinesParts` — every plan is made up like this.
-/

namespace FederatedJoin
namespace Planner

variable {p : Planner} {u : Universe} {query : TripleSet} {fragments : List Fragment}
variable {parts : List TripleSet} {plans : List Plan} {plan : Plan}
variable {first : PlanOutcome} {others : List PlanOutcome}

/-- Some parts have an answer: all plans are joined, and the components are counted together. -/
theorem combine_of_answered (h : ∃ o ∈ first :: others, o.plan.isEmpty = false) :
    combine query first others =
      ⟨(others.map PlanOutcome.plan).foldl .join first.plan,
        ((first :: others).map PlanOutcome.componentCount).sum⟩ := by
  have hlength :
      ((first :: others).filterMap (·.plan.empty?)).length ≠ (first :: others).length := by
    rw [List.length_filterMap_eq_countP, ne_eq, List.countP_eq_length]
    obtain ⟨o, ho, hanswered⟩ := h
    exact fun hall => by simp [Plan.isEmpty, hall o ho] at hanswered
  rw [combine, if_neg hlength, List.sum_eq_foldr]

/-- No part has an answer: the diagnostics of all parts are merged. -/
theorem combine_of_unanswered (h : ∀ o ∈ first :: others, o.plan.isEmpty = true) :
    ∃ ds, List.Forall₂ (fun o d => ∃ part, o.plan = .empty part d) (first :: others) ds ∧
      combine query first others = noPlan query (ds.foldl Diagnostics.merge ∅) := by
  have hlength :
      ((first :: others).filterMap (·.plan.empty?)).length = (first :: others).length := by
    rw [List.length_filterMap_eq_countP, List.countP_eq_length]
    exact h
  refine ⟨((first :: others).filterMap (·.plan.empty?)).map Prod.snd, ?_, ?_⟩
  · generalize first :: others = outcomes at h
    induction outcomes with
    | nil => exact .nil
    | cons o outcomes ih =>
      obtain ⟨ho, houtcomes⟩ := List.forall_mem_cons.1 h
      obtain ⟨part, d, heq⟩ := Plan.isEmpty_iff.1 ho
      rw [List.filterMap_cons, Plan.empty?_eq_some_iff.2 heq]
      exact .cons ⟨part, heq⟩ (ih houtcomes)
  · rw [combine, if_pos hlength]

/-- How the plans of the parts make up the plan of the query: they are joined, unless all of them
are without an answer. -/
structure CombinesParts (query : TripleSet) (plans : List Plan) (plan : Plan) : Prop where
  empty : (∀ q ∈ plans, q.isEmpty = true) → ∃ diagnostics, plan = .empty query diagnostics
  join : (∃ q ∈ plans, q.isEmpty = false) →
    ∃ first others, plans = first :: others ∧ plan = others.foldl .join first

theorem combinesParts_combine (query : TripleSet) (first : PlanOutcome)
    (others : List PlanOutcome) :
    CombinesParts query ((first :: others).map PlanOutcome.plan)
      (combine query first others).plan where
  empty := by
    intro h
    obtain ⟨ds, -, hcombine⟩ := combine_of_unanswered fun o ho => h o.plan (List.mem_map_of_mem ho)
    exact ⟨_, congrArg PlanOutcome.plan hcombine⟩
  join := by
    intro h
    obtain ⟨q, hq, hanswered⟩ := h
    obtain ⟨o, ho, rfl⟩ := List.mem_map.1 hq
    exact ⟨first.plan, others.map PlanOutcome.plan, rfl,
      congrArg PlanOutcome.plan (combine_of_answered ⟨o, ho, hanswered⟩)⟩

/-- A query that is planned as a whole is its only part. -/
theorem combinesParts_singleton (hplan : plan.triples = query) :
    CombinesParts query [plan] plan where
  empty := by
    intro h
    obtain ⟨part, diagnostics, rfl⟩ := Plan.isEmpty_iff.1 (h plan List.mem_cons_self)
    have : part = query := hplan
    exact ⟨diagnostics, this ▸ rfl⟩
  join := fun _ => ⟨plan, [], rfl, rfl⟩

/-- The plan answers the whole query, because the parts make up the query. -/
theorem CombinesParts.triples_eq (h : CombinesParts query plans plan)
    (hparts : List.Forall₂ (p.PlansPart fragments) parts plans)
    (hunions : OrdSet.unions parts = query) : plan.triples = query := by
  by_cases hempty : ∀ q ∈ plans, q.isEmpty = true
  · obtain ⟨diagnostics, rfl⟩ := h.empty hempty
    rfl
  · obtain ⟨first, others, rfl, rfl⟩ := h.join (by simpa using hempty)
    apply OrdSet.ext
    intro id
    rw [Plan.mem_triples_of_leaves_eq (Plan.leaves_foldl_join first others), ← hunions,
      OrdSet.mem_unions]
    constructor
    · intro hid
      obtain ⟨q, hq, hid⟩ := hid
      obtain ⟨part, hpart, hplans⟩ := exists_mem_of_forall₂ hparts hq
      exact ⟨part, hpart, hplans.triples ▸ hid⟩
    · intro hid
      obtain ⟨part, hpart, hid⟩ := hid
      obtain ⟨q, hq, hplans⟩ := exists_mem_of_forall₂ hparts.flip hpart
      exact ⟨q, hq, hplans.triples.symm ▸ hid⟩

theorem parts_eq_singleton (hlength : parts.length ≤ 1) (hunions : OrdSet.unions parts = query)
    (hne : query ≠ ∅) : parts = [query] := by
  match parts with
  | [] => exact absurd hunions.symm hne
  | [part] =>
    have : part = query := hunions
    rw [this]
  | _ :: _ :: _ =>
    simp only [List.length_cons] at hlength
    omega

/-- Every plan is made up of the plans of the parts. -/
theorem exists_plan_combinesParts (identity : p.aggregator = .identity)
    (leftDeep : p.joinOrder = .leftDeep) (divided : p.decomposer = .variableConnected)
    (h : violation? u query fragments = none) :
    let parts := mergeSpanned (Decomposer.variableConnected u query) fragments
    ∃ outcome plans, p.plan u query fragments = .ok outcome ∧
      List.Forall₂ (p.PlansPart fragments) parts plans ∧
        CombinesParts query plans outcome.plan := by
  intro parts
  have cover : OrdSet.unions parts = query :=
    Decomposer.unions_mergeSpanned_variableConnected u query fragments
  by_cases hne : query = ∅
  · subst hne
    have hparts : parts = [] := mergeSpanned_nil fragments
    refine ⟨_, [], plan_empty h, hparts ▸ .nil, fun _ => ⟨_, rfl⟩, fun h => ?_⟩
    obtain ⟨q, hq, -⟩ := h
    cases hq
  · have planned := exists_plan_of_ne_empty identity leftDeep h hne
    rw [divided] at planned
    obtain ⟨outcome, hplan, ⟨hlength, hpart⟩ | ⟨first, others, rfl, hparts⟩⟩ := planned
    · have hparts : parts = [query] := parts_eq_singleton hlength cover hne
      rw [hparts]
      exact ⟨outcome, [outcome.plan], hplan, .cons hpart .nil,
        combinesParts_singleton hpart.triples⟩
    · exact ⟨_, (first :: others).map PlanOutcome.plan, hplan,
        List.forall₂_map_right_iff.2 (hparts.imp fun _ _ h => h.2),
        combinesParts_combine query first others⟩

/-- A query is answered part by part, and each part by one alternative for each class of
interchangeable sets of nodes that answer it. -/
theorem plan_correct (config : Config) (validity : JoinValidity)
    (alternatives : AlternativeSources) (u : Universe) (query : TripleSet)
    (fragments : List Fragment) (known : query ⊆ u.fullSet)
    (inside : ∀ f ∈ fragments, f.triples ⊆ query) :
    let p : Planner := { config, validity, alternatives }
    let parts := mergeSpanned (Decomposer.variableConnected u query) fragments
    ∃ outcome plans, p.plan u query fragments = .ok outcome ∧ outcome.plan.triples = query ∧
      OrdSet.unions parts = query ∧ List.Forall₂ (p.PlansPart fragments) parts plans ∧
        CombinesParts query plans outcome.plan := by
  intro p parts
  have cover : OrdSet.unions parts = query := by
    rw [unions_mergeSpanned, Decomposer.unions_variableConnected]
  obtain ⟨outcome, plans, hplan, hparts, hcombine⟩ := exists_plan_combinesParts (p := p) rfl rfl rfl
    (violation?_eq_none_iff.2 ⟨known, inside⟩)
  exact ⟨outcome, plans, hplan, hcombine.triples_eq hparts cover, cover, hparts, hcombine⟩

/-! ## Friends and books -/

/-- Whom a person knows, what the friend is called, and the titles of books. -/
def friendsAndBooks : Universe :=
  .ofPatterns
    [⟨.var "person", .iri "knows", .var "friend"⟩, ⟨.var "friend", .iri "name", .var "name"⟩,
      ⟨.var "book", .iri "title", .var "title"⟩]

/-- A source for the first pattern. -/
def people : Fragment :=
  (Fragment.ofTriples "people" (.ofList [0])).withResults (.ofList ["person", "friend"])

/-- A source for the second pattern. -/
def names : Fragment :=
  (Fragment.ofTriples "names" (.ofList [1])).withResults (.ofList ["friend", "name"])

/-- A source for the first two patterns. -/
def directory : Fragment :=
  (Fragment.ofTriples "directory" (.ofList [0, 1])).withResults
    (.ofList ["person", "friend", "name"])

/-- A source for the third pattern. -/
def books : Fragment :=
  (Fragment.ofTriples "books" (.ofList [2])).withResults (.ofList ["book", "title"])

/-- The sources for friends and books. -/
def friendAndBookSources : List Fragment := [people, names, directory, books]

/-- No variable and no source links the friends with the books. -/
theorem not_linked_books {a : TripleId} (ha : a ∈ OrdSet.ofList [0, 1]) :
    ¬Decomposer.Linked friendsAndBooks (.ofList [0, 1, 2]) friendAndBookSources a 2 := by
  have hvars : ∀ a ∈ OrdSet.ofList [0, 1],
      (friendsAndBooks.vars a).Disjoint (friendsAndBooks.vars 2) := by
    intro a ha
    rw [friendsAndBooks, Universe.vars_ofPatterns, Universe.vars_ofPatterns]
    · revert a
      decide
    all_goals decide
  have hsources : ∀ f ∈ friendAndBookSources, 2 ∈ f.triples →
      f.triples.Disjoint (.ofList [0, 1]) := by decide
  rintro ⟨-, -, ⟨v, hv, hv'⟩ | ⟨f, hf, hfa, hf2⟩⟩
  · exact hvars a ha v hv hv'
  · exact hsources f hf hf2 a hfa ha

theorem classes_friendsAndBooks :
    Classes (Decomposer.Linked friendsAndBooks (.ofList [0, 1, 2]) friendAndBookSources)
      [.ofList [0, 1], {2}] := by
  have hquery : ∀ a ∈ OrdSet.ofList [0, 1, 2], a ∈ OrdSet.ofList [0, 1] ∨ a = 2 := by decide
  have hparts : ∀ part ∈ [OrdSet.ofList [0, 1], {2}], part ⊆ OrdSet.ofList [0, 1, 2] ∧
      ∃ f ∈ friendAndBookSources, part ⊆ f.triples := by decide
  constructor
  case nonempty => decide
  case disjoint => decide
  case closed =>
    intro part a b hpart ha hab
    simp only [List.mem_cons, List.not_mem_nil, or_false] at hpart
    rcases hpart with rfl | rfl
    · rcases hquery b hab.2.1 with hb | rfl
      · exact hb
      · exact absurd hab (not_linked_books ha)
    · cases OrdSet.mem_singleton.1 ha
      rcases hquery b hab.2.1 with hb | rfl
      · exact absurd hab.symm (not_linked_books hb)
      · exact ha
  case linked =>
    -- each part is what one of the sources matches
    intro part a b hpart ha hb
    obtain ⟨hsub, f, hf, hpartf⟩ := hparts part hpart
    exact .single ⟨hsub a ha, hsub b hb, .inr ⟨f, hf, hpartf a ha, hpartf b hb⟩⟩

theorem parts_friendsAndBooks :
    mergeSpanned (Decomposer.variableConnected friendsAndBooks (.ofList [0, 1, 2]))
      friendAndBookSources = [.ofList [0, 1], {2}] := by
  refine Decomposer.mergeSpanned_eq classes_friendsAndBooks (by decide) ?_
  refine List.pairwise_pair.2 fun b hb => ⟨0, by decide, ?_⟩
  cases OrdSet.mem_singleton.1 hb
  decide

theorem subset_fullSet_friendsAndBooks : OrdSet.ofList [0, 1, 2] ⊆ friendsAndBooks.fullSet := by
  have hsize : friendsAndBooks.size = 3 := by
    rw [friendsAndBooks, Universe.size, Universe.patterns_ofPatterns] <;> decide
  intro id hid
  rw [Universe.mem_fullSet, hsize]
  revert id
  decide

/-- The graph of the sources for the friends. -/
def friendsGraph : JoinGraph := Planner.partGraph {} friendAndBookSources (.ofList [0, 1])

theorem answers_directory : friendsGraph.Answers (.ofList [0, 1]) {2} :=
  JoinGraph.MinimalCover.answers
    ⟨by decide, by decide, by decide, by decide, by decide⟩ (by decide)

theorem answers_people_names : friendsGraph.Answers (.ofList [0, 1]) (.ofList [0, 1]) :=
  JoinGraph.MinimalCover.answers
    ⟨by decide, by decide, by decide, by decide, by decide⟩ (by decide)

/-- No two sources are interchangeable. -/
theorem canonicalSet_friendsGraph (t : NodeSet) :
    JoinGraph.canonicalSet (friendsGraph.canonicalNodes .sameContentSameSources) t = t := by
  have hcanonical : friendsGraph.canonicalNodes .sameContentSameSources = [0, 1, 2] := by decide
  rw [hcanonical]
  refine JoinGraph.canonicalSet_eq_self (fun i => ?_) t
  match i with
  | 0 | 1 | 2 | _ + 3 => rfl

/-- The friends are found in the directory, or by joining the people with their names. -/
theorem exists_alternatives_friends {plan : Plan}
    (h : Planner.PlansPart {} friendAndBookSources (.ofList [0, 1]) plan) :
    plan.isEmpty = false ∧ ∃ first others, plan = .ofAlternatives first others ∧
      (∃ tree ∈ first :: others, tree.leaves.Perm [.fragment directory]) ∧
      ∃ tree ∈ first :: others, tree.leaves.Perm [.fragment people, .fragment names] := by
  obtain ⟨first, others, hplan, halternative⟩ := h.exists_alternative ⟨_, answers_directory⟩
  have found : ∀ t members, friendsGraph.Answers (.ofList [0, 1]) t →
      (friendsGraph.nodesOf t).flatMap Node.members = members →
      ∃ tree ∈ first :: others, tree.leaves.Perm (members.map .fragment) := by
    rintro t _ ht rfl
    obtain ⟨c, tree, htree, hcanonical, hc⟩ := halternative t ht
    have hnodes : c.nodes = t :=
      (canonicalSet_friendsGraph c.nodes).symm.trans
        (hcanonical.trans (canonicalSet_friendsGraph t))
    exact ⟨tree, htree, hnodes ▸ hc.leaves⟩
  refine ⟨?_, first, others, hplan, found _ [directory] answers_directory (by decide),
    found _ [people, names] answers_people_names (by decide)⟩
  rw [Bool.eq_false_iff, ne_eq, Plan.isEmpty_iff]
  rintro ⟨query, diagnostics, rfl⟩
  exact Plan.not_answered_empty (h.answered_iff.2 ⟨_, answers_directory⟩)

/-- The plan joins the answers of both parts. There are two for the friends: the directory, and the
people joined with their names. -/
theorem plan_correct_friendsAndBooks :
    OrdSet.ofList [0, 1, 2] ⊆ friendsAndBooks.fullSet ∧
      (∀ f ∈ friendAndBookSources, f.triples ⊆ .ofList [0, 1, 2]) ∧
      ∃ outcome first others second,
        Planner.plan {} friendsAndBooks (.ofList [0, 1, 2]) friendAndBookSources = .ok outcome ∧
        outcome.plan.triples = .ofList [0, 1, 2] ∧
        outcome.plan = .join (.ofAlternatives first others) second ∧
        (∃ tree ∈ first :: others, tree.leaves.Perm [.fragment directory]) ∧
        ∃ tree ∈ first :: others, tree.leaves.Perm [.fragment people, .fragment names] := by
  have inside : ∀ f ∈ friendAndBookSources, f.triples ⊆ .ofList [0, 1, 2] := by decide
  obtain ⟨outcome, plans, hplan, htriples, -, hparts, hcombine⟩ :=
    plan_correct {} .sharedVariable .sameContentSameSources friendsAndBooks (.ofList [0, 1, 2])
      friendAndBookSources subset_fullSet_friendsAndBooks inside
  rw [parts_friendsAndBooks] at hparts
  cases hparts with
  | cons hfriends hrest =>
    cases hrest with
    | cons hbooks hnil =>
      cases hnil
      obtain ⟨hsome, first, others, rfl, halone, htogether⟩ := exists_alternatives_friends hfriends
      obtain ⟨q, rest, hplans, hjoin⟩ := hcombine.join ⟨_, List.mem_cons_self, hsome⟩
      cases hplans
      exact ⟨subset_fullSet_friendsAndBooks, inside, outcome, first, others, _, hplan, htriples,
        hjoin, halone, htogether⟩

end Planner
end FederatedJoin
