import FederatedJoin.Decomposition.Forest
import Mathlib.Data.PFun

/-!
# Loops over bare parents

The parents of all positions as plain numbers. The numbers may be out of range and the chains of
parents may be circular, so a loop that follows a chain may fail or go on forever. In both cases it
has no result.

## Main definitions

* `Parents` — with `Parents.singletons`, `Parents.find` and `Parents.merge`.
* `Parents.climb`, `Parents.compress` — the two loops of a look-up, each of them a pass that is
  repeated with `Parents.loop`.
* `Forest.Call` — one look-up or one merging, with `Forest.run` and `Parents.run` for sequences.
* `Forest.toParents` — a forest without the promise that its chains end.
-/

namespace FederatedJoin

variable {n : Nat}

/-- A parent for every position. -/
abbrev Parents := Array Nat

/-- The parents of a forest as plain numbers. -/
def Forest.toParents (f : Forest n) : Parents := f.parents.toArray.map Fin.val

namespace Parents

/-- Every position is a class of its own. -/
def singletons (n : Nat) : Parents := Array.range n

/-- Points a position to another one, if it is in range. -/
def point (parents : Parents) (i parent : Nat) : Option Parents :=
  if h : i < parents.size then some (parents.set i parent) else none

/-! ## The loops -/

/-- Repeats a pass. It comes to the result of the loop on the left, or to what the next pass starts
with on the right, unless it reads or writes out of range. -/
def loop {σ ρ : Type} (pass : σ → Option (ρ ⊕ σ)) (start : σ) : Part ρ :=
  PFun.fix (fun s => pass s) start

/-- Stops at a position that is its own parent, and goes on with the parent of any other. -/
def climbPass (parents : Parents) (i : Nat) : Option (Nat ⊕ Nat) := do
  let parent ← parents[i]?
  return if parent = i then .inl i else .inr parent

/-- Follows the parents of a position up to one that is its own parent. -/
def climb (parents : Parents) (i : Nat) : Part Nat := loop parents.climbPass i

/-- Stops at a position with the root as its parent. Points any other position to the root, and goes
on with what was its parent. -/
def compressPass (root : Nat) : Parents × Nat → Option (Parents ⊕ Parents × Nat)
  | (parents, i) => do
    let parent ← parents[i]?
    if parent = root then return .inl parents
    return .inr (← parents.point i root, parent)

/-- Points a position and those above it to the root. -/
def compress (root : Nat) (parents : Parents) (i : Nat) : Part Parents :=
  loop (compressPass root) (parents, i)

/-! ## Look-up and merging -/

/-- The root above a position, and the parents after all positions on the way point to it. -/
def find (parents : Parents) (i : Nat) : Part (Nat × Parents) := do
  let root ← parents.climb i
  return (root, ← parents.compress root i)

/-- Merges the classes of two positions. The smaller root is the root of both. -/
def merge (parents : Parents) (i j : Nat) : Part Parents := do
  let (a, parents) ← parents.find i
  let (b, parents) ← parents.find j
  if a = b then return parents
  parents.point (max a b) (min a b)

end Parents

/-! ## Sequences of calls -/

namespace Forest

/-- A look-up, or a merging of two classes. -/
inductive Call (n : Nat) where
  | find (i : Fin n)
  | merge (i j : Fin n)

/-- The forest after one call. -/
def call (f : Forest n) : Call n → Forest n
  | .find i => (f.find i).2
  | .merge i j => f.merge i j

/-- The forest after some calls. -/
def run (f : Forest n) (calls : List (Call n)) : Forest n := calls.foldl call f

end Forest

namespace Parents

/-- The parents after one call. -/
def call (parents : Parents) : Forest.Call n → Part Parents
  | .find i => Prod.snd <$> parents.find i
  | .merge i j => parents.merge i j

/-- The parents after some calls, if all of them have a result. -/
def run (parents : Parents) (calls : List (Forest.Call n)) : Part Parents :=
  calls.foldlM call parents

end Parents
end FederatedJoin
