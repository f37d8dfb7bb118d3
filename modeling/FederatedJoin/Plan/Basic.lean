import FederatedJoin.Diagnostics
import FederatedJoin.Fragment

/-!
# Plans

A plan says how the fragments are combined to answer a query.

## Main definitions

* `Plan` — fragments, joins, unions of at least two plans, and queries without an answer.
* `Plan.ofAlternatives` — the union of one or more plans.
* `Plan.triples`, `Plan.vars`, `Plan.isOptional`, `Plan.leafCount`, `Plan.joinCount`.
* `Plan.preorder` — all sub-plans with their depth.
-/

namespace FederatedJoin

/-- How a query is answered. -/
inductive Plan where
  /-- The answers of one fragment. -/
  | fragment (fragment : Fragment)
  /-- The joined answers of two plans. -/
  | join (left right : Plan)
  /-- The answers of any of two or more plans. -/
  | union (first second : Plan) (others : List Plan)
  /-- No answers, and why. -/
  | empty (query : TripleSet) (diagnostics : Diagnostics)

namespace Plan

instance : Inhabited Plan := ⟨empty ∅ ∅⟩

/-- The plan that answers with any of one or more plans. -/
def ofAlternatives (first : Plan) : List Plan → Plan
  | [] => first
  | second :: others => .union first second others

/-- The plan that answers with any of a list of plans, if there is one. -/
def ofAlternatives? : List Plan → Option Plan
  | [] => none
  | first :: others => some (ofAlternatives first others)

/-- The direct sub-plans. -/
def children : Plan → List Plan
  | fragment _ => []
  | join left right => [left, right]
  | union first second others => first :: second :: others
  | empty _ _ => []

/-- The query and the diagnostics of a plan without answers. -/
def empty? : Plan → Option (TripleSet × Diagnostics)
  | empty query diagnostics => some (query, diagnostics)
  | _ => none

theorem empty?_eq_some_iff {p : Plan} {query : TripleSet} {diagnostics : Diagnostics} :
    p.empty? = some (query, diagnostics) ↔ p = empty query diagnostics := by
  cases p <;> simp [empty?]

/-- Whether the plan as a whole is without answers. -/
def isEmpty (p : Plan) : Bool := p.empty?.isSome

theorem isEmpty_iff {p : Plan} :
    p.isEmpty = true ↔ ∃ query diagnostics, p = empty query diagnostics := by
  simp only [isEmpty, Option.isSome_iff_exists, Prod.exists, empty?_eq_some_iff]

/-! ## Properties by recursion -/

section Fold
variable {β : Type} (onFragment : Fragment → β) (onJoin : β → β → β) (onUnion : List β → β)
  (onEmpty : TripleSet → Diagnostics → β)

mutual

/-- The value of a plan, from the values of its sub-plans. -/
def fold : Plan → β
  | fragment f => onFragment f
  | join left right => onJoin left.fold right.fold
  | union first second others => onUnion (first.fold :: second.fold :: foldAll others)
  | empty query diagnostics => onEmpty query diagnostics

/-- The values of a list of plans. -/
def foldAll : List Plan → List β
  | [] => []
  | p :: plans => p.fold :: foldAll plans

end

theorem foldAll_eq_map (plans : List Plan) :
    foldAll onFragment onJoin onUnion onEmpty plans =
      plans.map (fold onFragment onJoin onUnion onEmpty) := by
  induction plans with
  | nil => rfl
  | cons p plans ih => rw [foldAll, ih, List.map_cons]

theorem fold_union (first second : Plan) (others : List Plan) :
    fold onFragment onJoin onUnion onEmpty (union first second others) =
      onUnion ((union first second others).children.map
        (fold onFragment onJoin onUnion onEmpty)) := by
  simp [fold, foldAll_eq_map, children]

end Fold

/-- The triples that the plan answers. -/
def triples : Plan → TripleSet := fold Fragment.triples (· ∪ ·) OrdSet.unions fun query _ => query

/-- The variables that occur in the plan. -/
def vars : Plan → VariableSet := fold Fragment.vars (· ∪ ·) OrdSet.unions fun _ _ => ∅

/-- Whether the plan may be left without answers: every leaf is an optional fragment. -/
def isOptional : Plan → Bool := fold Fragment.optional and (·.all id) fun _ _ => false

/-- The number of fragments, with repetitions. -/
def leafCount : Plan → Nat :=
  fold (fun _ => 1) (· + ·) (fun counts => counts.foldr (· + ·) 0) fun _ _ => 0

/-- The number of joins, with repetitions. -/
def joinCount : Plan → Nat :=
  fold (fun _ => 0) (· + · + 1) (fun counts => counts.foldr (· + ·) 0) fun _ _ => 0

/-! ## Sub-plans -/

mutual

/-- All sub-plans with their depth, each before its own sub-plans. -/
def preorder (depth : Nat) : Plan → List (Nat × Plan)
  | join left right =>
    (depth, join left right) :: (preorder (depth + 1) left ++ preorder (depth + 1) right)
  | union first second others =>
    (depth, union first second others) ::
      (preorder (depth + 1) first ++ preorder (depth + 1) second ++
        preorderAll (depth + 1) others)
  | leaf => [(depth, leaf)]

/-- All sub-plans of a list of plans. -/
def preorderAll (depth : Nat) : List Plan → List (Nat × Plan)
  | [] => []
  | p :: plans => preorder depth p ++ preorderAll depth plans

end

/-! ## Equality -/

mutual

/-- Whether two plans are equal. -/
def decEq : (p q : Plan) → Decidable (p = q)
  | fragment f, fragment g =>
    if h : f = g then isTrue (h ▸ rfl) else isFalse fun e => h (Plan.fragment.inj e)
  | join a b, join c d =>
    match decEq a c, decEq b d with
    | isTrue h, isTrue h' => isTrue (h ▸ h' ▸ rfl)
    | isFalse h, _ => isFalse fun e => h (Plan.join.inj e).1
    | _, isFalse h => isFalse fun e => h (Plan.join.inj e).2
  | union a b l, union c d m =>
    match decEq a c, decEq b d, decEqAll l m with
    | isTrue h, isTrue h', isTrue h'' => isTrue (h ▸ h' ▸ h'' ▸ rfl)
    | isFalse h, _, _ => isFalse fun e => h (Plan.union.inj e).1
    | _, isFalse h, _ => isFalse fun e => h (Plan.union.inj e).2.1
    | _, _, isFalse h => isFalse fun e => h (Plan.union.inj e).2.2
  | empty q d, empty r e =>
    if h : q = r ∧ d = e then isTrue (h.1 ▸ h.2 ▸ rfl)
    else isFalse fun eq => h (Plan.empty.inj eq)
  | fragment _, join _ _ | fragment _, union _ _ _ | fragment _, empty _ _
  | join _ _, fragment _ | join _ _, union _ _ _ | join _ _, empty _ _
  | union _ _ _, fragment _ | union _ _ _, join _ _ | union _ _ _, empty _ _
  | empty _ _, fragment _ | empty _ _, join _ _ | empty _ _, union _ _ _ => isFalse nofun

/-- Whether two lists of plans are equal. -/
def decEqAll : (l m : List Plan) → Decidable (l = m)
  | [], [] => isTrue rfl
  | p :: l, q :: m =>
    match decEq p q, decEqAll l m with
    | isTrue h, isTrue h' => isTrue (h ▸ h' ▸ rfl)
    | isFalse h, _ => isFalse fun e => h (List.cons.inj e).1
    | _, isFalse h => isFalse fun e => h (List.cons.inj e).2
  | [], _ :: _ | _ :: _, [] => isFalse nofun

end

instance : DecidableEq Plan := decEq

end Plan
end FederatedJoin
