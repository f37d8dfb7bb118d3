/-!
# First-in first-out queues

A queue as two lists, so that both ends are reached in constant amortised time. Its view is the
list of its entries, the oldest first.

## Main definitions

* `Fifo` — with `Fifo.toList`, `Fifo.push` and `Fifo.pop?`.
-/

namespace FederatedJoin

/-- A queue: the oldest entries in order, and the newest ones in reverse order. -/
structure Fifo (α : Type) where
  oldest : List α := []
  newest : List α := []

namespace Fifo

variable {α : Type}

instance : EmptyCollection (Fifo α) := ⟨{}⟩

/-- The entries, the oldest first. -/
def toList (q : Fifo α) : List α := q.oldest ++ q.newest.reverse

@[simp] theorem toList_empty : (∅ : Fifo α).toList = [] := rfl

/-- Adds an entry. -/
def push (q : Fifo α) (a : α) : Fifo α := { q with newest := a :: q.newest }

@[simp] theorem toList_push (q : Fifo α) (a : α) : (q.push a).toList = q.toList ++ [a] := by
  simp [push, toList]

/-- Takes the oldest entry out. -/
def pop? (q : Fifo α) : Option (α × Fifo α) :=
  match q.oldest with
  | a :: oldest => some (a, { q with oldest })
  | [] =>
    match q.newest.reverse with
    | a :: oldest => some (a, { oldest })
    | [] => none

theorem pop?_eq_none_iff {q : Fifo α} : q.pop? = none ↔ q.toList = [] := by
  obtain ⟨oldest, newest⟩ := q
  cases oldest <;> cases h : newest.reverse <;> simp [pop?, toList, h]

theorem toList_of_pop?_eq_some {q r : Fifo α} {a : α} (h : q.pop? = some (a, r)) :
    q.toList = a :: r.toList := by
  obtain ⟨oldest, newest⟩ := q
  cases oldest with
  | cons b oldest =>
    simp only [pop?, Option.some.injEq, Prod.mk.injEq] at h
    obtain ⟨rfl, rfl⟩ := h
    rfl
  | nil =>
    cases hn : newest.reverse with
    | nil => simp [pop?, hn] at h
    | cons b rest =>
      simp only [pop?, hn, Option.some.injEq, Prod.mk.injEq] at h
      obtain ⟨rfl, rfl⟩ := h
      simp [toList, hn]

end Fifo
end FederatedJoin
