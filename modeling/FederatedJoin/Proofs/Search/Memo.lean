import FederatedJoin.Proofs.Distinct
import FederatedJoin.Search.Memo

/-!
# What a bounded memo lets through

Of a batch of candidates, a memo refuses only those whose key it remembers. Whatever it has
forgotten, the first occurrences in the batch are all let through, and in their order. This is
`Memo.distinctBy_insertAll`; it holds for every capacity.
-/

namespace FederatedJoin
namespace Memo

variable {α β : Type} [BEq α] [Hashable α] {key : β → α} {m : Memo α} {k : α}

theorem insert_of_mem (h : k ∈ m.seen) : m.insert k = ({ m with hits := m.hits + 1 }, false) := by
  simp [insert, h]

theorem insert_snd_of_mem (h : k ∈ m.seen) : (m.insert k).2 = false := by
  rw [insert_of_mem h]

theorem insert_snd_of_not_mem (h : k ∉ m.seen) : (m.insert k).2 = true := by
  unfold insert
  split
  · contradiction
  · split <;> rfl

theorem insert_snd_eq_false_iff : (m.insert k).2 = false ↔ k ∈ m.seen := by
  by_cases hk : k ∈ m.seen
  · exact iff_of_true (insert_snd_of_mem hk) hk
  · exact iff_of_false (ne_false_of_eq_true (insert_snd_of_not_mem hk)) hk

@[simp] theorem hits_forgetOldest (m : Memo α) : m.forgetOldest.hits = m.hits := by
  unfold forgetOldest
  split <;> rfl

theorem hits_insert (m : Memo α) (k : α) :
    (m.insert k).1.hits = m.hits + if k ∈ m.seen then 1 else 0 := by
  unfold insert
  split
  · rfl
  · split
    · rfl
    · dsimp only
      split
      · exact hits_forgetOldest m
      · rfl

/-- A candidate is either let through or counted as a hit. -/
theorem hits_insertAll (m : Memo α) (l : List β) :
    (m.insertAll key l).1.hits + (m.insertAll key l).2.length = m.hits + l.length := by
  induction l generalizing m with
  | nil => rfl
  | cons b l ih =>
    have later := ih (m.insert (key b)).1
    rw [hits_insert] at later
    simp only [insertAll, List.length_cons]
    by_cases hb : key b ∈ m.seen
    · rw [insert_snd_of_mem hb, if_neg Bool.false_ne_true]
      rw [if_pos hb] at later
      omega
    · rw [insert_snd_of_not_mem hb, if_pos rfl, List.length_cons]
      rw [if_neg hb] at later
      omega

theorem insertAll_sublist (m : Memo α) (l : List β) : (m.insertAll key l).2.Sublist l := by
  induction l generalizing m with
  | nil => exact .slnil
  | cons b l ih =>
    simp only [insertAll]
    split
    · exact (ih _).cons_cons b
    · exact (ih _).cons b

theorem insertAll_append (m : Memo α) (l l' : List β) :
    m.insertAll key (l ++ l') =
      (((m.insertAll key l).1.insertAll key l').1,
        (m.insertAll key l).2 ++ ((m.insertAll key l).1.insertAll key l').2) := by
  induction l generalizing m with
  | nil => rfl
  | cons b l ih =>
    simp only [List.cons_append, insertAll, ih]
    cases (m.insert (key b)).2 <;> rfl

/-- The last candidate comes to the memo that the others have left. -/
theorem insertAll_concat (m : Memo α) (l : List β) (b : β) :
    m.insertAll key (l ++ [b]) =
      (((m.insertAll key l).1.insert (key b)).1,
        if ((m.insertAll key l).1.insert (key b)).2 then (m.insertAll key l).2 ++ [b]
        else (m.insertAll key l).2) := by
  rw [insertAll_append]
  cases hb : ((m.insertAll key l).1.insert (key b)).2 <;> simp [insertAll, hb]

variable [LawfulBEq α]

theorem mem_seen_forgetOldest {a : α} (h : a ∈ m.forgetOldest.seen) : a ∈ m.seen := by
  unfold forgetOldest at h
  split at h
  · exact h
  · exact (Std.HashSet.mem_erase.1 h).2

theorem mem_seen_insert {a : α} (h : a ∈ (m.insert k).1.seen) : a ∈ m.seen ∨ a = k := by
  unfold insert at h
  split at h
  · exact .inl h
  · split at h
    · exact .inl h
    · dsimp only at h
      rcases Std.HashSet.mem_insert.1 h with hk | ha
      · exact .inr (eq_of_beq hk).symm
      · split at ha
        · exact .inl (mem_seen_forgetOldest ha)
        · exact .inl ha

theorem mem_seen_insertAll {a : α} {l : List β} (h : a ∈ (m.insertAll key l).1.seen) :
    a ∈ m.seen ∨ a ∈ l.map key := by
  induction l generalizing m with
  | nil => exact .inl h
  | cons b l ih =>
    rcases ih h with ha | ha
    · rcases mem_seen_insert ha with ha | rfl
      · exact .inl ha
      · exact .inr List.mem_cons_self
    · exact .inr (List.mem_cons_of_mem _ ha)

variable [DecidableEq α]

/-- What is remembered after `k` was inserted into `m` is remembered by `m`, apart from `k`. -/
private theorem filter_seen_insert (m : Memo α) (k : α) (d : List α) :
    (d.filter fun a => decide (a ∉ (m.insert k).1.seen)).filter
        (fun a => decide (a ∉ m.seen) && decide (a ≠ k)) =
      d.filter fun a => decide (a ∉ m.seen) && decide (a ≠ k) := by
  rw [List.filter_filter]
  refine List.filter_congr fun a _ => ?_
  by_cases ha : a ∈ (m.insert k).1.seen
  · rcases mem_seen_insert ha with ha | rfl
    · simp [ha]
    · simp
  · simp [ha]

/-- A candidate is refused for one of two reasons: its key was remembered from the start, or an
earlier candidate of the batch has the same key. -/
private theorem filter_distinctBy_insertAll (m : Memo α) (l : List β) :
    (distinctBy id ((m.insertAll key l).2.map key)).filter (· ∉ m.seen) =
      (distinctBy id (l.map key)).filter (· ∉ m.seen) := by
  induction l generalizing m with
  | nil => rfl
  | cons b l ih =>
    have later := ih (m.insert (key b)).1
    simp only [insertAll]
    by_cases hb : key b ∈ m.seen
    · rw [insert_of_mem hb] at later ⊢
      simp only [Bool.false_eq_true, if_false, later, List.map_cons, distinctBy, List.filter_cons,
        hb, not_true_eq_false, decide_false, List.filter_filter]
      refine List.filter_congr fun a _ => ?_
      by_cases ha : a = key b
      · simp [ha, hb]
      · simp [ha]
    · rw [insert_snd_of_not_mem hb]
      simp only [if_true, List.map_cons, distinctBy, List.filter_cons, hb, not_false_eq_true,
        decide_true, List.filter_filter, id_eq]
      congr 1
      -- The key of `b`, which is remembered later on, is left out on both sides.
      rw [← filter_seen_insert m (key b), later, filter_seen_insert]

/-- A candidate whose key is not remembered is let through, or an earlier one with its key is. -/
theorem mem_insertAll {b : β} {l : List β} (hb : b ∈ l) (hnew : key b ∉ m.seen) :
    key b ∈ (m.insertAll key l).2.map key := by
  have hmem : key b ∈ (distinctBy id (l.map key)).filter (· ∉ m.seen) :=
    List.mem_filter.2 ⟨mem_distinctBy_id.2 (List.mem_map_of_mem hb), decide_eq_true hnew⟩
  rw [← filter_distinctBy_insertAll] at hmem
  exact mem_distinctBy_id.1 (List.mem_filter.1 hmem).1

/-- If no candidate is remembered from before, the first occurrences of the keys are those of the
whole batch. -/
theorem distinctBy_insertAll {l : List β} (h : ∀ b ∈ l, key b ∉ m.seen) :
    distinctBy id ((m.insertAll key l).2.map key) = distinctBy id (l.map key) := by
  have fresh : ∀ l' : List β, l'.Sublist l →
      (distinctBy id (l'.map key)).filter (· ∉ m.seen) = distinctBy id (l'.map key) := by
    intro l' hl'
    rw [List.filter_eq_self]
    intro a ha
    obtain ⟨b, hb, rfl⟩ := List.mem_map.1 (mem_distinctBy_id.1 ha)
    simpa using h b (hl'.subset hb)
  rw [← fresh _ (insertAll_sublist m l), filter_distinctBy_insertAll, fresh l (List.Sublist.refl l)]

/-- Candidates with different keys are all let through. -/
theorem insertAll_of_nodup {l : List β} (h : ∀ b ∈ l, key b ∉ m.seen) (hl : (l.map key).Nodup) :
    (m.insertAll key l).2.map key = l.map key := by
  have hsub : ((m.insertAll key l).2.map key).Sublist (l.map key) :=
    (insertAll_sublist m l).map key
  rw [← distinctBy_eq_self (hl.sublist hsub), distinctBy_insertAll h, distinctBy_eq_self hl]

end Memo
end FederatedJoin
