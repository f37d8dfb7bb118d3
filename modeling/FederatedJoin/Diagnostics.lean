import FederatedJoin.Config
import FederatedJoin.NodeSet
import FederatedJoin.Universe

/-!
# Diagnostics

Why a query, or a part of it, has no plan: triples that nothing matches, triples that dead ends of
the search leave uncovered, and combinations of nodes whose inputs are not all bound.

## Main definitions

* `Diagnostics` — with `Diagnostics.addNearMiss`, `Diagnostics.addUnboundInputs` for one sample and
  `Diagnostics.merge` for all samples of another value.
* `Diagnostics.report` — the report for a reader.
-/

namespace FederatedJoin

/-- A combination of nodes that matches the whole query and needs inputs that none of them binds. -/
structure UnboundInputs where
  nodes : NodeSet
  labels : List String
  missing : VariableSet
  deriving DecidableEq

/-- Samples of the reasons why there is no plan. -/
structure Diagnostics where
  /-- Triples that nothing matches. -/
  unreachable : TripleSet := ∅
  /-- What dead ends of the search leave uncovered. -/
  nearMisses : List TripleSet := []
  /-- Combinations with unbound inputs. -/
  unbound : List UnboundInputs := []
  deriving DecidableEq

namespace Diagnostics

instance : EmptyCollection Diagnostics := ⟨{}⟩

instance : Inhabited Diagnostics := ⟨∅⟩

/-- The diagnostics of a query with triples that nothing matches. -/
def ofUnreachable (triples : TripleSet) : Diagnostics := { unreachable := triples }

/-- Whether there are no samples. -/
def isEmpty (d : Diagnostics) : Bool :=
  d.unreachable.isEmpty && d.nearMisses.isEmpty && d.unbound.isEmpty

/-- Adds what a dead end leaves uncovered, if it is little and new and there is room for it. -/
def addNearMiss (limits : SampleLimits) (d : Diagnostics) (uncovered : TripleSet) : Diagnostics :=
  if uncovered.size ≤ limits.uncovered ∧ d.nearMisses.length < limits.samples ∧
      uncovered ∉ d.nearMisses then
    { d with nearMisses := d.nearMisses ++ [uncovered] }
  else d

/-- Adds a combination with unbound inputs, if there is room for it. -/
def addUnboundInputs (limits : SampleLimits) (d : Diagnostics) (sample : UnboundInputs) :
    Diagnostics :=
  if d.unbound.length < limits.samples then { d with unbound := d.unbound ++ [sample] } else d

/-- Adds a set of triples at the end of a list, unless it is there. -/
def pushNew (l : List TripleSet) (s : TripleSet) : List TripleSet := if s ∈ l then l else l ++ [s]

/-- All samples of `d` and then those of `e`, each near miss once. -/
def merge (d e : Diagnostics) : Diagnostics :=
  { unreachable := d.unreachable ∪ e.unreachable
    nearMisses := e.nearMisses.foldl pushNew d.nearMisses
    unbound := d.unbound ++ e.unbound }

/-! ## The report -/

/-- A set of triples with their patterns. An id that is not in use stands alone. -/
def describeTriples (u : Universe) (s : TripleSet) : String :=
  "; ".intercalate <| s.toList.map fun id =>
    match u.pattern? id with
    | none => id.text
    | some p => id.text ++ ": " ++ p.text

/-- The line of the report for unbound inputs. -/
def describeUnbound (sample : UnboundInputs) : String :=
  "Unbound inputs " ++ ", ".intercalate (sample.missing.toList.map Variable.text) ++ " of [" ++
    ", ".intercalate sample.labels ++ "]"

/-- The report for a reader: one line for each sample. -/
def report (d : Diagnostics) (u : Universe) : String :=
  if d.isEmpty then "No diagnostics available."
  else
    "\n".intercalate <|
      (if d.unreachable.isEmpty then []
        else ["Not matched by any fragment: " ++ describeTriples u d.unreachable]) ++
      d.nearMisses.map (fun s => "Left uncovered: " ++ describeTriples u s) ++
      d.unbound.map describeUnbound

end Diagnostics
end FederatedJoin
