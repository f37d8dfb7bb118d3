import FederatedJoin.Fifo
import Std.Data.HashSet

/-!
# The bounded memo of the search

The memo remembers what has been admitted to the search. When it is full, it forgets its oldest
entry, so a forgotten key may be admitted again; nothing is ever refused that was not admitted
before.

## Main definitions

* `Memo` — with `Memo.insert` for one key and `Memo.insertAll` for a list of candidates.
-/

namespace FederatedJoin

/-- A memo of at most `capacity` keys: an index of the remembered keys, and their order. -/
structure Memo (α : Type) [BEq α] [Hashable α] where
  capacity : Nat
  seen : Std.HashSet α := ∅
  order : Fifo α := ∅
  /-- How many keys were refused because they were remembered. -/
  hits : Nat := 0
  /-- How many keys were forgotten. -/
  evictions : Nat := 0

namespace Memo

variable {α : Type} [BEq α] [Hashable α]

/-- The memo without its oldest key. -/
def forgetOldest (m : Memo α) : Memo α :=
  match m.order.pop? with
  | none => m
  | some (oldest, order) =>
    { m with seen := m.seen.erase oldest, order, evictions := m.evictions + 1 }

/-- Remembers a key, and tells whether it was not remembered before. Without capacity nothing is
remembered. -/
def insert (m : Memo α) (key : α) : Memo α × Bool :=
  if key ∈ m.seen then ({ m with hits := m.hits + 1 }, false)
  else if m.capacity = 0 then (m, true)
  else
    let m := if m.capacity ≤ m.seen.size then m.forgetOldest else m
    ({ m with seen := m.seen.insert key, order := m.order.push key }, true)

/-- Remembers the keys of the candidates one after another, and selects the candidates whose key
was not remembered. -/
def insertAll {β : Type} (key : β → α) (m : Memo α) : List β → Memo α × List β
  | [] => (m, [])
  | b :: candidates =>
    let (m, isNew) := m.insert (key b)
    let (m, admitted) := m.insertAll key candidates
    (m, if isNew then b :: admitted else admitted)

end Memo
end FederatedJoin
