import FederatedJoin.Plan.Annotated
import FederatedJoin.Proofs.Plan.Subplans

/-!
# What is known of a plan

The annotations of a plan are worked out from those of its direct sub-plans when the plan is put
together. They are what walking the whole plan gives.

* `AnnotatedPlan.Built` — the plans that are put together in any way.
* `AnnotatedPlan.Built.eq_annotated` — their annotations are those of the finished plan.
* `Plan.mem_triples_iff`, `Plan.mem_vars_iff`, `Plan.isOptional_iff_fragments` — the annotations of
  a finished plan in terms of its fragments and its queries without an answer.
-/

namespace FederatedJoin

/-! ## Fragments and unanswered queries -/

namespace Plan

variable {p leaf : Plan}

theorem eq_of_children_eq_nil (h : p.children = []) :
    (∃ f, p = fragment f) ∨ ∃ query diagnostics, p = empty query diagnostics := by
  cases p with
  | fragment f => exact .inl ⟨f, rfl⟩
  | join left right => cases h
  | union first second others => cases h
  | empty query diagnostics => exact .inr ⟨query, diagnostics, rfl⟩

/-- What holds of a leaf holds of a fragment or of a query without an answer. -/
theorem exists_leaf_iff {q : Plan → Prop} : (∃ leaf ∈ p.leaves, q leaf) ↔
    (∃ f, fragment f ∈ p.subplans ∧ q (fragment f)) ∨
      ∃ query diagnostics, empty query diagnostics ∈ p.subplans ∧ q (empty query diagnostics) := by
  constructor
  · rintro ⟨leaf, hleaf, hq⟩
    obtain ⟨hsub, hnil⟩ := mem_leaves_iff.1 hleaf
    rcases eq_of_children_eq_nil hnil with ⟨f, rfl⟩ | ⟨query, diagnostics, rfl⟩
    · exact .inl ⟨f, hsub, hq⟩
    · exact .inr ⟨query, diagnostics, hsub, hq⟩
  · rintro (⟨f, hsub, hq⟩ | ⟨query, diagnostics, hsub, hq⟩)
    · exact ⟨_, mem_leaves_iff.2 ⟨hsub, rfl⟩, hq⟩
    · exact ⟨_, mem_leaves_iff.2 ⟨hsub, rfl⟩, hq⟩

theorem mem_triples_iff {id : TripleId} : id ∈ p.triples ↔
    (∃ f, fragment f ∈ p.subplans ∧ id ∈ f.triples) ∨
      ∃ query diagnostics, empty query diagnostics ∈ p.subplans ∧ id ∈ query :=
  mem_triples.trans exists_leaf_iff

theorem mem_vars_iff {v : Variable} :
    v ∈ p.vars ↔ ∃ f, fragment f ∈ p.subplans ∧ v ∈ f.vars := by
  refine (mem_vars.trans exists_leaf_iff).trans (or_iff_left ?_)
  rintro ⟨query, diagnostics, -, hv⟩
  exact OrdSet.not_mem_empty hv

theorem isOptional_iff_fragments : p.isOptional = true ↔
    (∀ query diagnostics, empty query diagnostics ∉ p.subplans) ∧
      ∀ f, fragment f ∈ p.subplans → f.optional = true := by
  rw [isOptional_iff]
  constructor
  · intro h
    refine ⟨fun query diagnostics hsub => ?_, fun f hsub => h _ (mem_leaves_iff.2 ⟨hsub, rfl⟩)⟩
    exact Bool.false_ne_true (h _ (mem_leaves_iff.2 ⟨hsub, rfl⟩))
  · rintro ⟨answered, optional⟩ leaf hleaf
    obtain ⟨hsub, hnil⟩ := mem_leaves_iff.1 hleaf
    rcases eq_of_children_eq_nil hnil with ⟨f, rfl⟩ | ⟨query, diagnostics, rfl⟩
    · exact optional f hsub
    · exact absurd hsub (answered query diagnostics)

end Plan

/-! ## Putting plans together -/

namespace AnnotatedPlan

/-- A plan that was put together from plans that were, in one of the four ways. -/
inductive Built : AnnotatedPlan → Prop where
  | fragment (f : Fragment) : Built (fragment f)
  | join {left right : AnnotatedPlan} (hleft : Built left) (hright : Built right) :
    Built (left.join right)
  | alternatives {plans : List AnnotatedPlan} {a : AnnotatedPlan} (parts : ∀ b ∈ plans, Built b)
    (united : ofAlternatives? plans = some a) : Built a
  | empty (query : TripleSet) (diagnostics : Diagnostics) : Built (empty query diagnostics)

theorem ofAlternatives?_annotated (plans : List Plan) :
    ofAlternatives? (plans.map Plan.annotated) =
      (Plan.ofAlternatives? plans).map Plan.annotated := by
  match plans with
  | [] => rfl
  | [only] => rfl
  | first :: second :: others =>
    have triples : (Plan.union first second others).triples =
        .unions ((first :: second :: others).map Plan.triples) := Plan.fold_union _ _ _ _ _ _ _
    have vars : (Plan.union first second others).vars =
        .unions ((first :: second :: others).map Plan.vars) := Plan.fold_union _ _ _ _ _ _ _
    have isOptional : (Plan.union first second others).isOptional =
        ((first :: second :: others).map Plan.isOptional).all id := Plan.fold_union _ _ _ _ _ _ _
    simp [ofAlternatives?, Plan.ofAlternatives?, Plan.ofAlternatives, Plan.annotated, triples, vars,
      isOptional, Function.comp_def]

/-- No annotation is out of date. -/
theorem Built.eq_annotated {a : AnnotatedPlan} (h : a.Built) : a = a.plan.annotated := by
  induction h with
  | fragment f => rfl
  | join hleft hright ihl ihr =>
    rw [ihl, ihr]
    rfl
  | @alternatives plans a parts united ih =>
    have finished : plans = (plans.map plan).map Plan.annotated := by
      rw [List.map_map]
      exact (List.map_id plans).symm.trans (List.map_congr_left ih)
    rw [finished, ofAlternatives?_annotated] at united
    obtain ⟨p, -, rfl⟩ := Option.map_eq_some_iff.1 united
    rfl
  | empty query diagnostics => rfl

/-- Every plan can be put together. -/
theorem built_annotated (p : Plan) : p.annotated.Built := by
  induction p with
  | fragment f => exact .fragment f
  | join left right ihl ihr => exact .join ihl ihr
  | union first second others ih =>
    refine .alternatives ?_ (ofAlternatives?_annotated (first :: second :: others))
    exact List.forall_mem_map.2 ih
  | empty query diagnostics => exact .empty query diagnostics

/-- However a plan was put together, its triples are those of all its fragments and of all its
queries without an answer, its variables are those of its fragments, and it is optional exactly if
it is made of nothing but optional fragments. Its unions have at least two alternatives, and its
leaves are counted by its joins and the further alternatives of its unions. -/
theorem annotations_of_leaves (a : AnnotatedPlan) (built : a.Built) :
    let p := a.plan
    a = p.annotated ∧
    (∀ id, id ∈ a.triples ↔
      (∃ f, .fragment f ∈ p.subplans ∧ id ∈ f.triples) ∨
        ∃ query diagnostics, .empty query diagnostics ∈ p.subplans ∧ id ∈ query) ∧
    (∀ v, v ∈ a.vars ↔ ∃ f, .fragment f ∈ p.subplans ∧ v ∈ f.vars) ∧
    (a.isOptional = true ↔
      (∀ query diagnostics, .empty query diagnostics ∉ p.subplans) ∧
        ∀ f, .fragment f ∈ p.subplans → f.optional = true) ∧
    (∀ q ∈ p.subplans, q.isUnion = true → 2 ≤ q.children.length) ∧
    p.leafCount = p.subplans.countP Plan.isFragment ∧
    p.joinCount = p.subplans.countP Plan.isJoin ∧
    p.leafCount + p.subplans.countP Plan.isEmpty =
      p.joinCount +
        ((p.subplans.filter Plan.isUnion).map fun union => union.children.length - 1).sum + 1 := by
  intro p
  have annotated : a = p.annotated := built.eq_annotated
  rw [annotated]
  refine ⟨rfl, fun id => Plan.mem_triples_iff, fun v => Plan.mem_vars_iff,
    Plan.isOptional_iff_fragments, fun q _ hq => Plan.two_le_of_isUnion hq,
    p.leafCount_eq_countP, p.joinCount_eq_countP, p.leaves_add_eq⟩

/-- A phone book, or a web site that lacks the street, for the people of a register. -/
def directory : Plan :=
  .join (.fragment (.ofTriples "register" (.ofList [0])))
    (.union (.fragment (.ofTriples "phone book" (.ofList [1, 2])))
      (.join (.fragment (.ofTriples "web site" (.ofList [1]))) (.empty (.ofList [2]) ∅)) [])

theorem annotations_of_leaves_directory :
    directory.annotated.Built ∧ 2 ∈ directory.annotated.triples ∧
    directory.annotated.isOptional = false ∧ directory.leafCount = 3 ∧ directory.joinCount = 2 := by
  have built := built_annotated directory
  obtain ⟨-, triples, -, optional, -, leaves, joins, -⟩ :=
    annotations_of_leaves directory.annotated built
  have lacksStreet : .empty (.ofList [2]) ∅ ∈ directory.subplans := by decide
  refine ⟨built, (triples 2).2 (.inr ⟨_, _, lacksStreet, by decide⟩), ?_, leaves.trans (by decide),
    joins.trans (by decide)⟩
  exact Bool.eq_false_iff.2 fun h => (optional.1 h).1 _ _ lacksStreet

end AnnotatedPlan
end FederatedJoin
