import FederatedJoin.Plan.Basic

/-!
# The written form of a plan

A plan is written as one line for each sub-plan, two spaces further in than the plan that it
belongs to.

## Main definitions

* `Plan.headline` — the line of a plan, without its sub-plans.
* `Plan.text` — all lines.
-/

namespace FederatedJoin
namespace Plan

/-- The line of a plan, without its sub-plans. -/
def headline : Plan → String
  | fragment f => "Fragment: " ++ f.text ++ if f.optional then " optional" else ""
  | join left right => if (join left right).isOptional then "Join (implicit optional)" else "Join"
  | union _ _ _ => "Union"
  | empty query _ => "Empty: " ++ query.text

/-- The written form: a line for each sub-plan, indented by its depth. -/
def text (p : Plan) : String :=
  "\n".intercalate <| (p.preorder 0).map fun (depth, q) =>
    String.ofList (List.replicate (2 * depth) ' ') ++ q.headline

end Plan
end FederatedJoin
