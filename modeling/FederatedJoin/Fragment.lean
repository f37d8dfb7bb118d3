import FederatedJoin.Universe

/-!
# Fragments

A fragment is a piece of a query that one source can answer: the triples it matches, the variables
it binds, and the variables that have to be bound before it can be evaluated.

## Main definitions

* `Fragment` — with `Fragment.ofTriples`, `Fragment.ofUniverse`, `Fragment.withResults` and
  `Fragment.withInputs`.
* `Interface` — what matters about a fragment when it is joined with others.
* `Fragment.text` — the written form.
-/

namespace FederatedJoin

/-- The name of a data source. -/
abbrev Source := String

/-- A piece of a query together with the source that answers it. -/
structure Fragment where
  name : String
  triples : TripleSet
  results : VariableSet
  inputs : VariableSet
  optional : Bool
  source : Option Source
  deriving DecidableEq

/-- What matters about a fragment when it is joined with others. Fragments with the same interface
differ in their names and sources only. -/
structure Interface where
  triples : TripleSet
  results : VariableSet
  inputs : VariableSet
  optional : Bool
  deriving DecidableEq, Hashable

/-- The variables that are bound or required. -/
def Interface.vars (i : Interface) : VariableSet := i.results ∪ i.inputs

namespace Fragment

/-- A fragment that matches some triples and has no variables. -/
def ofTriples (name : String) (triples : TripleSet) : Fragment :=
  { name, triples, results := ∅, inputs := ∅, optional := false, source := none }

/-- The fragment with the given variables bound. -/
def withResults (f : Fragment) (vars : VariableSet) : Fragment :=
  { f with results := vars }

/-- The fragment with the given variables required. It no longer binds them. -/
def withInputs (f : Fragment) (vars : VariableSet) : Fragment :=
  { f with inputs := vars, results := f.results \ vars }

/-- The fragment that matches some triples of a universe and binds all their variables. -/
def ofUniverse (u : Universe) (name : String) (triples : TripleSet) : Fragment :=
  (ofTriples name triples).withResults (u.variablesOf triples)

/-- The interface through which the fragment is joined. -/
def interface (f : Fragment) : Interface :=
  { triples := f.triples, results := f.results, inputs := f.inputs, optional := f.optional }

/-- The variables that are bound or required. -/
def vars (f : Fragment) : VariableSet := f.interface.vars

/-- The written form: name, triples, and the source if there is one. -/
def text (f : Fragment) : String :=
  f.name ++ " " ++ TripleSet.text f.triples ++
    match f.source with
    | none => ""
    | some source => " @" ++ source

end Fragment
end FederatedJoin
