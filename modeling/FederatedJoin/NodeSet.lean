import FederatedJoin.OrdSet.Merge

/-!
# Sets of node indices

Nodes of a join graph are named by their index. A set of nodes holds indices below `2 ^ 32`; the
operations that take an index from outside the planner answer `none` for a greater one.

## Main definitions

* `NodeSet` — with its written form `NodeSet.text`.
* `NodeSet.ofIndices?`, `NodeSet.insert?`, `NodeSet.erase?` — operations with a range check.
-/

namespace FederatedJoin

/-- A set of node indices. -/
abbrev NodeSet := OrdSet Nat

namespace NodeSet

/-- The written form of a set of nodes. -/
def text (s : NodeSet) : String := "[" ++ ", ".intercalate (s.toList.map Nat.repr) ++ "]"

/-- The number of indices that a set of nodes can hold. -/
def indexLimit : Nat := 4294967296

/-- The set of the given indices, if all are in range. -/
def ofIndices? (l : List Nat) : Option NodeSet :=
  if ∀ n ∈ l, n < indexLimit then some (.ofList l) else none

/-- The set with `n` added, if `n` is in range. -/
def insert? (s : NodeSet) (n : Nat) : Option NodeSet :=
  if n < indexLimit then some (s.insert n) else none

/-- The set without `n`, if `n` is in range. -/
def erase? (s : NodeSet) (n : Nat) : Option NodeSet :=
  if n < indexLimit then some (s.erase n) else none

end NodeSet
end FederatedJoin
