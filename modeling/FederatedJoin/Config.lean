/-!
# Configuration

The limits of the planner.
-/

namespace FederatedJoin

/-- How many samples of failed attempts are kept. -/
structure SampleLimits where
  /-- The greatest number of samples of each kind. -/
  samples : Nat := 8
  /-- The greatest number of triples that a near miss leaves uncovered. -/
  uncovered : Nat := 2
  deriving DecidableEq

/-- The limits of the planner. -/
structure Config where
  /-- How many node sets the search remembers. -/
  memoCapacity : Nat := 65536
  /-- How many join components are planned one after the other. More are planned side by side. -/
  parallelThreshold : Nat := 10
  limits : SampleLimits := {}
  deriving DecidableEq

end FederatedJoin
