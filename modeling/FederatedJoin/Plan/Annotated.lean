import FederatedJoin.Plan.Basic

/-!
# Plans with their properties at hand

A plan is put together from finished plans. What is known of it is worked out at that moment from
what is known of these, and kept, so no plan is walked a second time.

## Main definitions

* `AnnotatedPlan` — a plan with its triples, its variables and whether it is optional.
* `AnnotatedPlan.fragment`, `AnnotatedPlan.join`, `AnnotatedPlan.ofAlternatives?`,
  `AnnotatedPlan.empty` — the ways to put a plan together.
* `Plan.annotated` — the annotations of a finished plan.
-/

namespace FederatedJoin

/-- A plan with what is known of it. -/
structure AnnotatedPlan where
  plan : Plan
  triples : TripleSet
  vars : VariableSet
  isOptional : Bool

namespace AnnotatedPlan

/-- The plan that answers with one fragment. -/
def fragment (f : Fragment) : AnnotatedPlan where
  plan := .fragment f
  triples := f.triples
  vars := f.vars
  isOptional := f.optional

/-- The plan that joins the answers of two plans. -/
def join (left right : AnnotatedPlan) : AnnotatedPlan where
  plan := .join left.plan right.plan
  triples := left.triples ∪ right.triples
  vars := left.vars ∪ right.vars
  isOptional := left.isOptional && right.isOptional

/-- The plan that answers with any of a list of plans, if there is one. A single plan stays as it
is. -/
def ofAlternatives? : List AnnotatedPlan → Option AnnotatedPlan
  | [] => none
  | [only] => some only
  | first :: second :: others =>
    let plans := first :: second :: others
    some
      { plan := .union first.plan second.plan (others.map plan)
        triples := .unions (plans.map triples)
        vars := .unions (plans.map vars)
        isOptional := plans.all isOptional }

/-- The plan without answers to a query. -/
def empty (query : TripleSet) (diagnostics : Diagnostics) : AnnotatedPlan where
  plan := .empty query diagnostics
  triples := query
  vars := ∅
  isOptional := false

end AnnotatedPlan

/-- The plan with what is known of it, worked out by walking the plan. -/
def Plan.annotated (p : Plan) : AnnotatedPlan := ⟨p, p.triples, p.vars, p.isOptional⟩

end FederatedJoin
