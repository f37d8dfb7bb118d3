import FederatedJoin.Decomposition.Forest
import FederatedJoin.Distinct
import FederatedJoin.Fragment
import Std.Data.HashMap

/-!
# Independent parts of a query

Triples that are not linked by shared variables can be planned on their own. A fragment that
matches triples of several such parts ties them together again.

## Main definitions

* `Decomposer` — how a query is divided into parts.
* `Decomposer.variableConnected` — the parts that are linked by shared variables.
* `mergeSpanned` — the parts with those merged that one fragment spans.
-/

namespace FederatedJoin

/-- Divides a query into parts that are planned on their own. -/
abbrev Decomposer := Universe → TripleSet → List TripleSet

/-- The first position at which each variable was seen, and the classes of the positions. -/
structure VariableLinks (n : Nat) where
  owners : Std.HashMap Variable (Fin n) := ∅
  classes : Forest n := .singletons n

/-- Links a position with the first one at which the variable was seen. -/
def VariableLinks.add {n : Nat} (position : Fin n) (l : VariableLinks n) (v : Variable) :
    VariableLinks n :=
  match l.owners[v]? with
  | some owner => { l with classes := l.classes.merge owner position }
  | none => { l with owners := l.owners.insert v position }

namespace Decomposer

/-- The positions of a list of triples in classes that are linked by shared variables. -/
def links (u : Universe) (triples : List TripleId) : VariableLinks triples.length :=
  (List.finRange triples.length).foldl
    (fun l i => (u.vars triples[i]).toList.foldl (VariableLinks.add i) l) {}

/-- The classes of the positions of a list of triples, in the order in which they appear. -/
def parts (triples : List TripleId) (classes : Forest triples.length) : List TripleSet :=
  let positions := List.finRange triples.length
  (distinctBy id (positions.map classes.root)).map fun root =>
    .ofList ((positions.filter (classes.root · = root)).map fun i => triples[i])

/-- The parts of a query that are linked by shared variables, by their least triple. A triple that
is not in use in the universe is a part of its own. -/
def variableConnected : Decomposer := fun u query =>
  parts query.toList (links u query.toList).classes

end Decomposer

/-- Merges the parts that have triples of a set. The merged part takes the place of the first. -/
def mergeMeeting (triples : TripleSet) (parts : List TripleSet) : List TripleSet :=
  match parts.dropWhile (·.Disjoint triples) with
  | [] => parts
  | first :: rest =>
    parts.takeWhile (·.Disjoint triples) ++
      OrdSet.unions (first :: rest.filter (¬·.Disjoint triples)) ::
        rest.filter (·.Disjoint triples)

/-- Merges the parts that a fragment spans, for every fragment. -/
def mergeSpanned (parts : List TripleSet) (fragments : List Fragment) : List TripleSet :=
  fragments.foldl (fun parts f => mergeMeeting f.triples parts) parts

end FederatedJoin
