import FederatedJoin.Planner
import FederatedJoin.Proofs.Graph.Build
import FederatedJoin.Proofs.Graph.Grouping
import FederatedJoin.Proofs.Plan.Leaves
import FederatedJoin.Proofs.Search.Exactness

/-!
# Planning a part of a query

With the default aggregator and join order, planning a query as a whole never fails, and the plan
has one alternative for each class of interchangeable answers.

* `Planner.partGraph`, `Planner.keptComponents` — the graph of a part, and its components that are
  planned.
* `Planner.PlansPart` — what the plan of a part looks like.
* `Planner.PartOutcome` — what planning a part yields.
* `Planner.exists_planConnected` — planning a query as a whole yields such a plan.
-/

namespace FederatedJoin

theorem exists_mem_of_forall₂ {α β : Type} {r : α → β → Prop} {l : List α} {m : List β} {b : β}
    (h : List.Forall₂ r l m) (hb : b ∈ m) : ∃ a ∈ l, r a b := by
  induction h with
  | nil => cases hb
  | @cons a c l m hac _ ih =>
    rcases List.mem_cons.1 hb with rfl | hb
    · exact ⟨a, List.mem_cons_self, hac⟩
    · obtain ⟨d, hd, hdb⟩ := ih hb
      exact ⟨d, List.mem_cons_of_mem a hd, hdb⟩

namespace Planner

variable {p : Planner} {g : JoinGraph} {fragments : List Fragment} {part : TripleSet}

/-! ## Plans of components -/

/-- All components are planned, one after the other, with shared sub-plans. -/
theorem exists_planComponents (leftDeep : p.joinOrder = .leftDeep) (first : JoinComponent)
    (others : List JoinComponent)
    (h : ∀ c ∈ first :: others, ∃ query, g.Answers query c.nodes) :
    ∃ tree trees, p.planComponents g first others =
        .ok ⟨.ofAlternatives tree trees, others.length + 1⟩ ∧
      List.Forall₂ (fun c tree => g.Joins c.nodes tree) (first :: others) (tree :: trees) := by
  have joins : ∀ c ∈ first :: others,
      JoinOrder.Yields g (p.joinOrder g c.nodes) (g.Joins c.nodes) := by
    intro c hc
    obtain ⟨query, answers⟩ := h c hc
    rw [leftDeep]
    exact JoinOrder.yields_leftDeep answers.nonempty answers.known answers.connected
  have planned : JoinOrder.Yields g (do
      let tree ← p.joinOrder g first.nodes
      let trees ← others.mapM fun c => p.joinOrder g c.nodes
      return PlanOutcome.mk (.ofAlternatives tree trees) (others.length + 1)) fun outcome =>
      ∃ tree trees, outcome = ⟨.ofAlternatives tree trees, others.length + 1⟩ ∧
        List.Forall₂ (fun c tree => g.Joins c.nodes tree) (first :: others) (tree :: trees) := by
    refine (joins first List.mem_cons_self).bind fun tree htree => ?_
    have rest := JoinOrder.yields_mapM fun c hc => joins c (List.mem_cons_of_mem first hc)
    refine rest.bind fun trees htrees => ?_
    exact .pure ⟨tree, trees, rfl, .cons htree htrees⟩
  obtain ⟨outcome, t, hrun, -, tree, trees, rfl, htrees⟩ :=
    planned ∅ (Interner.faithful_empty g)
  exact ⟨tree, trees, congrArg Prod.fst hrun, htrees⟩

/-! ## Plans of parts -/

/-- The graph of the fragments that lie in a part of a query. -/
def partGraph (p : Planner) (fragments : List Fragment) (part : TripleSet) : JoinGraph :=
  .build (Node.group (fragments.filter (·.triples ⊆ part))) p.validity

/-- The components of a part that are kept as alternatives. -/
def keptComponents (p : Planner) (fragments : List Fragment) (part : TripleSet) :
    List JoinComponent :=
  let graph := p.partGraph fragments part
  graph.distinctComponents p.alternatives
    (Search.run { graph, query := part, config := p.config }).components

/-- An alternative of a plan answers the query with the nodes of a component: it is their left-deep
tree, and its leaves are the fragments of the nodes. -/
structure Alternative (g : JoinGraph) (query : TripleSet) (c : JoinComponent) (tree : Plan) :
    Prop where
  answers : g.Answers query c.nodes
  joins : g.Joins c.nodes tree
  leaves : tree.leaves.Perm ((c.fragments g).map .fragment)

/-- What the plan of a part looks like. The part is without an answer only if no set of nodes
answers it. Otherwise the plan is the union of one alternative for each component that is kept, and
every set that answers the part has the representatives of exactly one of them. -/
structure PlansPart (p : Planner) (fragments : List Fragment) (part : TripleSet) (plan : Plan) :
    Prop where
  empty_iff : (∃ diagnostics, plan = .empty part diagnostics) ↔
    ¬∃ t, (p.partGraph fragments part).Answers part t
  alternatives : (∃ t, (p.partGraph fragments part).Answers part t) →
    let g := p.partGraph fragments part
    let kept := p.keptComponents fragments part
    let canonical := JoinGraph.canonicalSet (g.canonicalNodes p.alternatives)
    ∃ first others, plan = .ofAlternatives first others ∧
      List.Forall₂ (Alternative g part) kept (first :: others) ∧
        ∀ t, g.Answers part t → (kept.map fun c => canonical c.nodes).count (canonical t) = 1
  triples : plan.triples = part

section Alternatives
variable {query : TripleSet} {components : List JoinComponent} {first : Plan} {others : List Plan}

/-- All leaves of alternatives are fragments. -/
theorem answered_ofAlternatives
    (h : List.Forall₂ (Alternative g query) components (first :: others)) :
    (Plan.ofAlternatives first others).Answered := by
  rw [Plan.answered_iff_of_leaves_eq (Plan.leaves_ofAlternatives first others)]
  intro tree htree leaf hleaf
  obtain ⟨c, -, alternative⟩ := exists_mem_of_forall₂ h htree
  rw [alternative.leaves.mem_iff] at hleaf
  obtain ⟨f, -, rfl⟩ := List.mem_map.1 hleaf
  rfl

theorem ofAlternatives_ne_empty
    (h : List.Forall₂ (Alternative g query) components (first :: others)) (part : TripleSet)
    (diagnostics : Diagnostics) : Plan.ofAlternatives first others ≠ .empty part diagnostics :=
  fun heq => Plan.not_answered_empty (heq ▸ answered_ofAlternatives h)

theorem triples_ofAlternatives
    (h : List.Forall₂ (Alternative g query) components (first :: others)) :
    (Plan.ofAlternatives first others).triples = query := by
  have htree : ∀ tree ∈ first :: others, tree.triples = query := by
    intro tree htree
    obtain ⟨c, -, alternative⟩ := exists_mem_of_forall₂ h htree
    rw [alternative.joins.triples_eq, alternative.answers.covers]
  apply OrdSet.ext
  intro id
  rw [Plan.mem_triples_of_leaves_eq (Plan.leaves_ofAlternatives first others)]
  constructor
  · intro hid
    obtain ⟨tree, hmem, hid⟩ := hid
    exact htree tree hmem ▸ hid
  · intro hid
    exact ⟨first, List.mem_cons_self, (htree first List.mem_cons_self).symm ▸ hid⟩

end Alternatives

theorem plansPart_empty (h : ¬∃ t, (p.partGraph fragments part).Answers part t)
    (diagnostics : Diagnostics) : p.PlansPart fragments part (.empty part diagnostics) where
  empty_iff := iff_of_true ⟨diagnostics, rfl⟩ h
  alternatives := fun answers => absurd answers h
  triples := rfl

theorem PlansPart.answered_iff {plan : Plan} (h : p.PlansPart fragments part plan) :
    plan.Answered ↔ ∃ t, (p.partGraph fragments part).Answers part t := by
  constructor
  · intro answered
    by_contra hnone
    obtain ⟨diagnostics, rfl⟩ := h.empty_iff.2 hnone
    exact Plan.not_answered_empty answered
  · intro answers
    obtain ⟨first, others, rfl, halternatives, -⟩ := h.alternatives answers
    exact answered_ofAlternatives halternatives

/-- Every set that answers a part has an alternative with the same representatives. -/
theorem PlansPart.exists_alternative {plan : Plan} (h : p.PlansPart fragments part plan)
    (answered : ∃ t, (p.partGraph fragments part).Answers part t) :
    let g := p.partGraph fragments part
    let canonical := JoinGraph.canonicalSet (g.canonicalNodes p.alternatives)
    ∃ first others, plan = .ofAlternatives first others ∧ ∀ t, g.Answers part t →
      ∃ c, ∃ tree ∈ first :: others,
        canonical c.nodes = canonical t ∧ Alternative g part c tree := by
  intro g canonical
  obtain ⟨first, others, hplan, halternatives, hcount⟩ := h.alternatives answered
  refine ⟨first, others, hplan, fun t ht => ?_⟩
  have hmem : canonical t ∈ (p.keptComponents fragments part).map fun c => canonical c.nodes := by
    rw [← List.count_pos_iff, hcount t ht]
    exact Nat.one_pos
  obtain ⟨c, hc, hcanonical⟩ := List.mem_map.1 hmem
  obtain ⟨tree, htree, halternative⟩ := exists_mem_of_forall₂ halternatives.flip hc
  exact ⟨c, tree, htree, hcanonical, halternative⟩

/-- The graph of a part matches nothing but the part. -/
theorem triples_subset_of_mem_partGraph {n : Node}
    (hn : n ∈ (p.partGraph fragments part).nodes) : n.triples ⊆ part := by
  rw [partGraph, JoinGraph.nodes_build, List.mem_toArray] at hn
  refine Node.triples_subset_of_mem_group (fun f hf => ?_) hn
  exact of_decide_eq_true (List.mem_filter.1 hf).2

theorem mem_components_partGraph {c : JoinComponent} :
    c ∈ (Search.run ⟨p.partGraph fragments part, part, p.config⟩).components ↔
      (p.partGraph fragments part).Answers part c.nodes ∧
        c.triples = (p.partGraph fragments part).triplesOf c.nodes :=
  Search.mem_components_iff_answers fun _ => triples_subset_of_mem_partGraph

theorem mem_components_of_answers {t : NodeSet}
    (ht : (p.partGraph fragments part).Answers part t) :
    ⟨t, (p.partGraph fragments part).triplesOf t⟩ ∈
      (Search.run ⟨p.partGraph fragments part, part, p.config⟩).components :=
  mem_components_partGraph.2 ⟨ht, rfl⟩

theorem answers_of_mem_keptComponents {c : JoinComponent}
    (h : c ∈ p.keptComponents fragments part) :
    (p.partGraph fragments part).Answers part c.nodes ∧ c.triples = part := by
  obtain ⟨answers, triples⟩ := mem_components_partGraph.1 ((distinctBy_sublist _ _).subset h)
  exact ⟨answers, triples.trans answers.covers⟩

/-- A kept component has the representatives of a set that answers the part, and no two kept
components have the same. -/
theorem count_canonicalSet {t : NodeSet} (ht : (p.partGraph fragments part).Answers part t) :
    let canonical :=
      JoinGraph.canonicalSet ((p.partGraph fragments part).canonicalNodes p.alternatives)
    ((p.keptComponents fragments part).map fun c => canonical c.nodes).count (canonical t) = 1 := by
  intro canonical
  have hnodup : ((p.keptComponents fragments part).map fun c => canonical c.nodes).Nodup :=
    List.pairwise_map.2 (pairwise_distinctBy _ _)
  obtain ⟨c, hc, hcanonical⟩ := exists_mem_distinctBy
    (fun c : JoinComponent => canonical c.nodes) (mem_components_of_answers ht)
  exact hnodup.count.trans (if_pos (List.mem_map.2 ⟨c, hc, hcanonical⟩))

/-- What planning a part yields: nothing but diagnostics if no component is kept, and else one
alternative for each. -/
inductive PartOutcome (p : Planner) (fragments : List Fragment) (part : TripleSet) :
    PlanOutcome → Prop
  | unanswered (nothing : p.keptComponents fragments part = []) (diagnostics : Diagnostics) :
    PartOutcome p fragments part (noPlan part diagnostics)
  | answered {first : Plan} {others : List Plan}
    (alternatives : List.Forall₂ (Alternative (p.partGraph fragments part) part)
      (p.keptComponents fragments part) (first :: others)) :
    PartOutcome p fragments part ⟨.ofAlternatives first others, others.length + 1⟩

/-- The trees of the kept components are alternatives to each other. -/
theorem alternatives_of_joins {trees : List Plan}
    (htrees : List.Forall₂ (fun c tree => (p.partGraph fragments part).Joins c.nodes tree)
      (p.keptComponents fragments part) trees) :
    List.Forall₂ (Alternative (p.partGraph fragments part) part)
      (p.keptComponents fragments part) trees := by
  refine ((List.forall₂_and_left _ _).2
    ⟨fun c hc => answers_of_mem_keptComponents hc, htrees⟩).imp fun c tree h => ?_
  exact ⟨h.1.1, h.2, h.2.leaves_perm c.triples⟩

theorem plansPart_ofAlternatives {first : Plan} {others : List Plan}
    (halternatives : List.Forall₂ (Alternative (p.partGraph fragments part) part)
      (p.keptComponents fragments part) (first :: others)) :
    p.PlansPart fragments part (.ofAlternatives first others) := by
  have answered : ∃ t, (p.partGraph fragments part).Answers part t := by
    obtain ⟨c, -, alternative⟩ := exists_mem_of_forall₂ halternatives List.mem_cons_self
    exact ⟨c.nodes, alternative.answers⟩
  constructor
  · refine iff_of_false (fun hempty => ?_) (fun h => h answered)
    obtain ⟨diagnostics, hempty⟩ := hempty
    exact ofAlternatives_ne_empty halternatives part diagnostics hempty
  · exact fun _ => ⟨first, others, rfl, halternatives, fun t ht => count_canonicalSet ht⟩
  · exact triples_ofAlternatives halternatives

theorem PartOutcome.plansPart {o : PlanOutcome} (h : p.PartOutcome fragments part o) :
    p.PlansPart fragments part o.plan := by
  cases h with
  | unanswered nothing diagnostics =>
    refine plansPart_empty (fun answers => ?_) diagnostics
    obtain ⟨t, ht⟩ := answers
    have hcount := count_canonicalSet ht
    rw [nothing] at hcount
    cases hcount
  | answered alternatives => exact plansPart_ofAlternatives alternatives

theorem PartOutcome.of_partGraph_eq {fragments' : List Fragment} {o : PlanOutcome}
    (h : p.partGraph fragments part = p.partGraph fragments' part)
    (ho : p.PartOutcome fragments part o) : p.PartOutcome fragments' part o := by
  have hkept : p.keptComponents fragments part = p.keptComponents fragments' part := by
    rw [keptComponents, h, keptComponents]
  cases ho with
  | unanswered nothing diagnostics => exact .unanswered (hkept ▸ nothing) diagnostics
  | answered alternatives => exact .answered (hkept ▸ h ▸ alternatives)

/-! ## Planning -/

theorem partGraph_eq (inside : ∀ f ∈ fragments, f.triples ⊆ part) :
    p.partGraph fragments part = .build (Node.group fragments) p.validity := by
  rw [partGraph, List.filter_eq_self.2 fun f hf => decide_eq_true (inside f hf)]

theorem keptComponents_eq_nil_iff :
    p.keptComponents fragments part = [] ↔
      (Search.run ⟨p.partGraph fragments part, part, p.config⟩).components = [] := by
  constructor
  · intro h
    refine List.eq_nil_iff_forall_not_mem.2 fun c hc => ?_
    obtain ⟨b, hb, -⟩ := exists_mem_distinctBy
      (fun c : JoinComponent => JoinGraph.canonicalSet
        ((p.partGraph fragments part).canonicalNodes p.alternatives) c.nodes) hc
    exact List.not_mem_nil (h ▸ hb : b ∈ [])
  · intro h
    rw [keptComponents, h]
    rfl

/-- Without components, the diagnostics are those of the search. -/
theorem planConnected_of_components_eq_nil (hne : fragments ≠ [])
    (h : (Search.run ⟨.build (Node.group fragments) p.validity, part, p.config⟩).components = []) :
    p.planConnected part fragments = .ok (noPlan part
      (Search.run ⟨.build (Node.group fragments) p.validity, part, p.config⟩).diagnostics) := by
  unfold planConnected
  rw [if_neg (mt List.isEmpty_iff.1 hne), Grouping.toList_ofFragments]
  exact if_pos (List.isEmpty_iff.2 h)

theorem planConnected_of_keptComponents_eq_nil (inside : ∀ f ∈ fragments, f.triples ⊆ part)
    (h : p.keptComponents fragments part = []) :
    ∃ d, p.planConnected part fragments = .ok (noPlan part d) ∧ (d = .ofUnreachable part ∨
      d = (Search.run ⟨p.partGraph fragments part, part, p.config⟩).diagnostics) := by
  by_cases hne : fragments = []
  · exact ⟨_, hne ▸ rfl, .inl rfl⟩
  · rw [keptComponents_eq_nil_iff, partGraph_eq inside] at h
    rw [partGraph_eq inside]
    exact ⟨_, planConnected_of_components_eq_nil hne h, .inr rfl⟩

theorem planConnected_of_keptComponents_eq_cons (identity : p.aggregator = .identity)
    (inside : ∀ f ∈ fragments, f.triples ⊆ part) {first : JoinComponent}
    {others : List JoinComponent} (h : p.keptComponents fragments part = first :: others) :
    p.planConnected part fragments =
      (p.planComponents (p.partGraph fragments part) first others).mapError .contract := by
  have hkept : ∀ c ∈ first :: others, (p.partGraph fragments part).Answers part c.nodes ∧
      c.triples = part := fun c hc => answers_of_mem_keptComponents (h ▸ hc)
  have hfind : (first :: others).find? (·.triples ≠ part) = none := by
    simpa using fun c hc => (hkept c hc).2
  have hfragments : ¬fragments.isEmpty = true := by
    intro hempty
    have answers := (hkept first List.mem_cons_self).1
    obtain ⟨i, hi⟩ := OrdSet.exists_mem_of_ne_empty answers.nonempty
    have hlt := answers.minimalCover.lt_size hi
    rw [partGraph_eq inside, JoinGraph.size, JoinGraph.nodes_build,
      List.isEmpty_iff.1 hempty] at hlt
    exact absurd hlt (Nat.not_lt_zero i)
  have hsome := mt keptComponents_eq_nil_iff.2 (h ▸ List.cons_ne_nil first others)
  obtain ⟨config, validity, alternatives, aggregator, joinOrder, decomposer⟩ := p
  subst identity
  unfold planConnected
  rw [if_neg hfragments, Grouping.toList_ofFragments, ← partGraph_eq inside]
  dsimp only [Aggregator.identity]
  rw [if_neg (mt List.isEmpty_iff.1 hsome)]
  rw [keptComponents] at h
  dsimp only at h
  rw [h, hfind]

/-- A query is planned as a whole without an error, if no fragment matches anything else. -/
theorem exists_partOutcome (identity : p.aggregator = .identity)
    (leftDeep : p.joinOrder = .leftDeep) (inside : ∀ f ∈ fragments, f.triples ⊆ part) :
    ∃ outcome, p.planConnected part fragments = .ok outcome ∧
      p.PartOutcome fragments part outcome := by
  cases hkept : p.keptComponents fragments part with
  | nil =>
    obtain ⟨diagnostics, hplan, -⟩ := planConnected_of_keptComponents_eq_nil inside hkept
    exact ⟨_, hplan, .unanswered hkept diagnostics⟩
  | cons first others =>
    obtain ⟨tree, trees, hplan, htrees⟩ := exists_planComponents leftDeep first others fun c hc =>
      ⟨part, (answers_of_mem_keptComponents (hkept ▸ hc)).1⟩
    have hlength : others.length = trees.length := by simpa using htrees.length_eq
    refine ⟨⟨.ofAlternatives tree trees, trees.length + 1⟩, ?_,
      .answered (alternatives_of_joins (hkept ▸ htrees))⟩
    rw [planConnected_of_keptComponents_eq_cons identity inside hkept, hplan, hlength]
    rfl

theorem exists_planConnected (identity : p.aggregator = .identity)
    (leftDeep : p.joinOrder = .leftDeep) (inside : ∀ f ∈ fragments, f.triples ⊆ part) :
    ∃ outcome, p.planConnected part fragments = .ok outcome ∧
      p.PlansPart fragments part outcome.plan := by
  obtain ⟨outcome, hplan, hpart⟩ := exists_partOutcome identity leftDeep inside
  exact ⟨outcome, hplan, hpart.plansPart⟩

/-! ## Several parts -/

/-- Fragments without triples and fragments that reach beyond the part have no influence. -/
theorem partGraph_filter (p : Planner) (fragments : List Fragment) (part : TripleSet) :
    p.partGraph (fragments.filter fun f => ¬f.triples.isEmpty ∧ f.triples ⊆ part) part =
      p.partGraph fragments part := by
  have hfilter : ((fragments.filter fun f => ¬f.triples.isEmpty ∧ f.triples ⊆ part).filter
      (·.triples ⊆ part)) = (fragments.filter (·.triples ⊆ part)).filter fun f =>
        ¬f.triples.isEmpty := by
    rw [List.filter_filter, List.filter_filter]
    refine List.filter_congr fun f _ => ?_
    by_cases hf : f.triples ⊆ part <;> simp [hf]
  rw [partGraph, hfilter, Node.group_filter, partGraph]
  intro f _ hempty
  simpa using hempty

/-- A part is planned without an error. -/
theorem exists_planPart (identity : p.aggregator = .identity) (leftDeep : p.joinOrder = .leftDeep)
    (fragments : List Fragment) (part : TripleSet) :
    ∃ outcome, p.planPart fragments part = .ok outcome ∧
      p.PartOutcome fragments part outcome := by
  have inside : ∀ f ∈ fragments.filter fun f => ¬f.triples.isEmpty ∧ f.triples ⊆ part,
      f.triples ⊆ part := fun f hf => (of_decide_eq_true (List.mem_filter.1 hf).2).2
  obtain ⟨outcome, hplan, hpart⟩ := exists_partOutcome identity leftDeep inside
  exact ⟨outcome, hplan, hpart.of_partGraph_eq (p.partGraph_filter fragments part)⟩

theorem partOutcome_of_planPart_eq_ok (identity : p.aggregator = .identity)
    (leftDeep : p.joinOrder = .leftDeep) {o : PlanOutcome}
    (h : p.planPart fragments part = .ok o) : p.PartOutcome fragments part o := by
  obtain ⟨_, hplan, hpart⟩ := exists_planPart identity leftDeep fragments part
  cases h.symm.trans hplan
  exact hpart

theorem exists_mapM_eq_ok {α β ε : Type} {f : α → Except ε β} {r : α → β → Prop} {l : List α}
    (h : ∀ a ∈ l, ∃ b, f a = .ok b ∧ r a b) : ∃ m, l.mapM f = .ok m ∧ List.Forall₂ r l m := by
  induction l with
  | nil => exact ⟨[], rfl, .nil⟩
  | cons a l ih =>
    obtain ⟨b, hb, hab⟩ := h a List.mem_cons_self
    obtain ⟨m, hm, hlm⟩ := ih fun c hc => h c (List.mem_cons_of_mem a hc)
    refine ⟨b :: m, ?_, .cons hab hlm⟩
    rw [List.mapM_cons, hb, hm]
    rfl

/-- A query is planned in parts without an error, whatever the parts are. -/
theorem exists_planParts (identity : p.aggregator = .identity) (leftDeep : p.joinOrder = .leftDeep)
    (query : TripleSet) (fragments : List Fragment) (first : TripleSet) (others : List TripleSet) :
    ∃ outcome outcomes, p.planParts query fragments first others =
        .ok (combine query outcome outcomes) ∧
      List.Forall₂ (fun part o => p.planPart fragments part = .ok o ∧
        p.PlansPart fragments part o.plan) (first :: others) (outcome :: outcomes) := by
  have planned : ∀ part, ∃ o, p.planPart fragments part = .ok o ∧
      p.planPart fragments part = .ok o ∧ p.PlansPart fragments part o.plan := by
    intro part
    obtain ⟨o, ho, hpart⟩ := exists_planPart identity leftDeep fragments part
    exact ⟨o, ho, ho, hpart.plansPart⟩
  obtain ⟨outcome, hfirst, hpart⟩ := planned first
  obtain ⟨outcomes, hothers, hparts⟩ := exists_mapM_eq_ok fun part (_ : part ∈ others) =>
    planned part
  refine ⟨outcome, outcomes, ?_, .cons hpart hparts⟩
  rw [planParts, hfirst, hothers]
  rfl

end Planner
end FederatedJoin
