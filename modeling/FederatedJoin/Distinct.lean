/-!
# First occurrences

## Main definitions

* `distinctBy` — the first entry of a list for each value of a key, in order.
-/

namespace FederatedJoin

variable {α β : Type} [DecidableEq β]

/-- The first entry for each value of `key`, in order. -/
def distinctBy (key : α → β) : List α → List α
  | [] => []
  | a :: l => a :: (distinctBy key l).filter (key · ≠ key a)

theorem distinctBy_sublist (key : α → β) (l : List α) : (distinctBy key l).Sublist l := by
  induction l with
  | nil => exact .slnil
  | cons a l ih => exact (List.filter_sublist.trans ih).cons_cons a

theorem pairwise_distinctBy (key : α → β) (l : List α) :
    (distinctBy key l).Pairwise (key · ≠ key ·) := by
  induction l with
  | nil => exact .nil
  | cons a l ih =>
    refine List.pairwise_cons.2 ⟨fun b hb => ?_, ih.filter _⟩
    exact Ne.symm (by simpa using (List.mem_filter.1 hb).2)

theorem exists_mem_distinctBy (key : α → β) {l : List α} {a : α} (h : a ∈ l) :
    ∃ b ∈ distinctBy key l, key b = key a := by
  induction l with
  | nil => cases h
  | cons c l ih =>
    by_cases hc : key a = key c
    · exact ⟨c, .head _, hc.symm⟩
    · have ha : a ∈ l := (List.mem_cons.1 h).resolve_left fun h => hc (h ▸ rfl)
      obtain ⟨b, hb, hba⟩ := ih ha
      exact ⟨b, .tail _ (List.mem_filter.2 ⟨hb, by simpa [hba] using hc⟩), hba⟩

end FederatedJoin
