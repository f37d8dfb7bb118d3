import FederatedJoin.NodeSet
import FederatedJoin.Proofs.Search.Memo
import Mathlib.Data.List.DropRight
import Mathlib.Data.List.Nodup
import Mathlib.Data.List.Perm.Subperm

/-!
# The memo as a window

A memo remembers the last of the keys that it has let through, as many as it has room for. If a
batch has no more different keys than there is room for, none of its keys is forgotten before the
batch is through.

* `Memo.Remembers` — the keys that a memo remembers, the oldest first.
* `Memo.Window.insertAll` — these are the last keys that it has let through, and the others have
  been forgotten.
* `Memo.Remembers.admitted_eq` — a batch that there is room for is let through without repetitions.
-/

namespace FederatedJoin

/-! ## The end of a list -/

section Rtake
variable {α : Type} {l : List α} {n : Nat}

private theorem rtake_of_length_le (h : l.length ≤ n) : l.rtake n = l := by
  rw [List.rtake, Nat.sub_eq_zero_of_le h, List.drop_zero]

private theorem length_rtake : (l.rtake n).length = min n l.length := by
  rw [List.rtake, List.length_drop]
  omega

private theorem rtake_min_length : l.rtake (min l.length n) = l.rtake n := by
  rw [List.rtake, List.rtake]
  congr 1
  omega

private theorem exists_rtake_succ_eq_cons (h : n < l.length) :
    ∃ oldest, l.rtake (n + 1) = oldest :: l.rtake n := by
  have hlt : l.length - (n + 1) < l.length := by omega
  refine ⟨l[l.length - (n + 1)], ?_⟩
  rw [List.rtake, List.rtake, List.drop_eq_getElem_cons hlt]
  congr 2
  omega

private theorem subset_rtake_of_suffix {batch : List α} (h : batch <:+ l)
    (room : batch.length ≤ n) : batch ⊆ l.rtake n := by
  refine (List.suffix_of_suffix_length_le h (List.drop_suffix _ l) ?_).subset
  have := h.length_le
  rw [List.length_drop]
  omega

end Rtake

namespace Memo

variable {α β : Type} [BEq α] [Hashable α] {key : β → α} {m : Memo α} {k oldest : α}
variable {keys history batch : List α}

/-- The memo remembers exactly these keys, the oldest first. -/
structure Remembers (m : Memo α) (keys : List α) : Prop where
  order_eq : m.order.toList = keys
  nodup : keys.Nodup
  mem_seen : ∀ k, k ∈ m.seen ↔ k ∈ keys
  size_seen : m.seen.size = keys.length

theorem remembers_nil (capacity : Nat) : ({ capacity } : Memo α).Remembers [] where
  order_eq := rfl
  nodup := List.nodup_nil
  mem_seen _ := iff_of_false Std.HashSet.not_mem_empty List.not_mem_nil
  size_seen := Std.HashSet.size_empty

@[simp] theorem capacity_forgetOldest (m : Memo α) : m.forgetOldest.capacity = m.capacity := by
  unfold forgetOldest
  split <;> rfl

@[simp] theorem capacity_insert (m : Memo α) (k : α) : (m.insert k).1.capacity = m.capacity := by
  unfold insert
  split
  · rfl
  · split
    · rfl
    · dsimp only
      split
      · exact capacity_forgetOldest m
      · rfl

@[simp] theorem capacity_insertAll (m : Memo α) (l : List β) :
    (m.insertAll key l).1.capacity = m.capacity := by
  induction l generalizing m with
  | nil => rfl
  | cons b l ih => exact (ih _).trans (capacity_insert m (key b))

namespace Remembers

theorem insert_of_mem (h : m.Remembers keys) (hk : k ∈ m.seen) : (m.insert k).1.Remembers keys := by
  rw [Memo.insert_of_mem hk]
  exact ⟨h.order_eq, h.nodup, h.mem_seen, h.size_seen⟩

theorem evictions_forgetOldest (h : m.Remembers keys) (hne : keys ≠ []) :
    m.forgetOldest.evictions = m.evictions + 1 := by
  unfold Memo.forgetOldest
  split
  · next hpop => exact absurd (h.order_eq.symm.trans (Fifo.pop?_eq_none_iff.1 hpop)) hne
  · rfl

/-- A key is forgotten for every key that is let through when there is no more room. -/
theorem evictions_insert (h : m.Remembers keys) (hk : k ∉ m.seen) (hpos : m.capacity ≠ 0) :
    (m.insert k).1.evictions = m.evictions + if m.capacity ≤ keys.length then 1 else 0 := by
  unfold Memo.insert
  rw [if_neg hk, if_neg hpos]
  dsimp only
  rw [h.size_seen]
  split
  · next full =>
    have hlength : 0 < keys.length := Nat.lt_of_lt_of_le (Nat.pos_of_ne_zero hpos) full
    exact h.evictions_forgetOldest (List.ne_nil_of_length_pos hlength)
  · rfl

/-- A memo without room refuses nothing. -/
theorem insertAll_of_capacity_eq_zero (h : m.Remembers []) (hcapacity : m.capacity = 0)
    (l : List β) : m.insertAll key l = (m, l) := by
  induction l with
  | nil => rfl
  | cons b l ih =>
    have hinsert : m.insert (key b) = (m, true) := by
      rw [Memo.insert, if_neg (mt (h.mem_seen _).1 List.not_mem_nil), if_pos hcapacity]
    simp only [Memo.insertAll, hinsert, ih, if_true]

variable [LawfulBEq α]

theorem forgetOldest (h : m.Remembers (oldest :: keys)) : m.forgetOldest.Remembers keys := by
  obtain ⟨hnot, hnodup⟩ := List.nodup_cons.1 h.nodup
  unfold Memo.forgetOldest
  split
  · next hpop =>
    cases (Fifo.pop?_eq_none_iff.1 hpop).symm.trans h.order_eq
  · next hpop =>
    have horder := (Fifo.toList_of_pop?_eq_some hpop).symm.trans h.order_eq
    obtain ⟨rfl, hkeys⟩ := List.cons.inj horder
    refine ⟨hkeys, hnodup, fun k => ?_, ?_⟩
    · rw [Std.HashSet.mem_erase, h.mem_seen, List.mem_cons]
      grind
    · have hmem := (h.mem_seen _).2 List.mem_cons_self
      rw [Std.HashSet.size_erase, if_pos hmem, h.size_seen, List.length_cons, Nat.add_sub_cancel]

theorem push (h : m.Remembers keys) (hk : k ∉ keys) :
    Remembers { m with seen := m.seen.insert k, order := m.order.push k } (keys ++ [k]) where
  order_eq := by rw [Fifo.toList_push, h.order_eq]
  nodup := by
    rw [← List.concat_eq_append]
    exact h.nodup.concat hk
  mem_seen a := by
    rw [Std.HashSet.mem_insert, h.mem_seen, List.mem_append, List.mem_singleton, beq_iff_eq]
    grind
  size_seen := by
    rw [Std.HashSet.size_insert, if_neg (mt (h.mem_seen k).1 hk), h.size_seen, List.length_append]
    rfl

/-- When a key is let through, the oldest one is forgotten if there is no room for both. -/
theorem insert_of_not_mem (h : m.Remembers (history.rtake m.capacity)) (hk : k ∉ m.seen) :
    (m.insert k).1.Remembers ((history ++ [k]).rtake m.capacity) := by
  have hnew := mt (h.mem_seen k).2 hk
  have hsize := h.size_seen
  rw [length_rtake] at hsize
  unfold Memo.insert
  rw [if_neg hk]
  cases hroom : m.capacity with
  | zero =>
    rw [if_pos rfl, List.rtake_zero]
    rwa [hroom, List.rtake_zero] at h
  | succ room =>
    have hend : (history ++ [k]).rtake m.capacity = history.rtake room ++ [k] := by
      rw [hroom, List.rtake_concat_succ]
    rw [if_neg (Nat.succ_ne_zero room), ← hroom, hend]
    rw [hroom] at h hsize hnew
    by_cases full : m.capacity ≤ m.seen.size
    · obtain ⟨oldest, hcons⟩ := exists_rtake_succ_eq_cons (l := history) (n := room) (by omega)
      rw [hcons] at h hnew
      rw [if_pos full]
      exact h.forgetOldest.push (List.not_mem_of_not_mem_cons hnew)
    · have hshort : history.length ≤ room := by omega
      rw [rtake_of_length_le (Nat.le_succ_of_le hshort)] at h hnew
      rw [if_neg full, rtake_of_length_le hshort]
      exact h.push hnew

end Remembers

/-- The memo remembers the last of the keys `history`, as many as it has room for, and has counted
those that it has forgotten. Without room nothing is remembered and nothing forgotten. -/
structure Window (m : Memo α) (history : List α) : Prop where
  remembers : m.Remembers (history.rtake m.capacity)
  evictions_eq : m.evictions = if m.capacity = 0 then 0 else history.length - m.capacity

theorem window_nil (capacity : Nat) : ({ capacity } : Memo α).Window [] where
  remembers := by
    rw [List.rtake_nil]
    exact remembers_nil capacity
  evictions_eq := by simp

namespace Window

theorem insert_of_mem (h : m.Window history) (hk : k ∈ m.seen) :
    (m.insert k).1.Window history where
  remembers := (capacity_insert m k).symm ▸ h.remembers.insert_of_mem hk
  evictions_eq := by
    rw [capacity_insert, Memo.insert_of_mem hk]
    exact h.evictions_eq

variable [LawfulBEq α]

theorem insert_of_not_mem (h : m.Window history) (hk : k ∉ m.seen) :
    (m.insert k).1.Window (history ++ [k]) where
  remembers := (capacity_insert m k).symm ▸ h.remembers.insert_of_not_mem hk
  evictions_eq := by
    have hevictions := h.evictions_eq
    rw [capacity_insert, List.length_append, List.length_singleton]
    by_cases hpos : m.capacity = 0
    · rw [if_pos hpos] at hevictions ⊢
      unfold Memo.insert
      rw [if_neg hk, if_pos hpos]
      exact hevictions
    · rw [h.remembers.evictions_insert hk hpos, length_rtake, hevictions, if_neg hpos, if_neg hpos]
      split <;> omega

theorem insertAll (h : m.Window history) (l : List β) :
    (m.insertAll key l).1.Window (history ++ (m.insertAll key l).2.map key) := by
  induction l generalizing m history with
  | nil =>
    rw [Memo.insertAll, List.map_nil, List.append_nil]
    exact h
  | cons b l ih =>
    simp only [Memo.insertAll]
    by_cases hb : key b ∈ m.seen
    · rw [insert_snd_of_mem hb, if_neg Bool.false_ne_true]
      exact ih (h.insert_of_mem hb)
    · rw [insert_snd_of_not_mem hb, if_pos rfl, List.map_cons, ← List.singleton_append,
        ← List.append_assoc]
      exact ih (h.insert_of_not_mem hb)

end Window

namespace Remembers
variable [LawfulBEq α] [DecidableEq α]

/-- The keys `batch` were let through last, and the other candidates are not remembered from
before. Their keys are let through once each, because none of them is forgotten meanwhile. -/
theorem admitted_eq {l : List β} (h : m.Remembers (history.rtake m.capacity))
    (hbatch : batch <:+ history) (hnodup : batch.Nodup)
    (fresh : ∀ b ∈ l, key b ∈ m.seen → key b ∈ batch) (hkeys : batch ++ l.map key ⊆ keys)
    (room : keys.length ≤ m.capacity) :
    (m.insertAll key l).2.map key = (distinctBy id (l.map key)).filter (· ∉ batch) := by
  induction l generalizing m history batch with
  | nil => rfl
  | cons b l ih =>
    have hcapacity := capacity_insert m (key b)
    simp only [Memo.insertAll, List.map_cons, distinctBy, List.filter_cons, List.filter_filter]
    by_cases hb : key b ∈ m.seen
    · have hmem : key b ∈ batch := fresh b List.mem_cons_self hb
      have later := ih (hcapacity.symm ▸ h.insert_of_mem hb) hbatch hnodup
        (fun c hc hseen => ?_) (fun a ha => hkeys ?_) (hcapacity.symm ▸ room)
      · rw [insert_snd_of_mem hb, if_neg Bool.false_ne_true, later,
          if_neg (by simpa using hmem)]
        refine List.filter_congr fun a _ => ?_
        by_cases ha : a = key b
        · simp [ha, hmem]
        · simp [ha]
      · rw [Memo.insert_of_mem hb] at hseen
        exact fresh c (List.mem_cons_of_mem b hc) hseen
      · rw [List.map_cons, List.mem_append, List.mem_cons]
        exact (List.mem_append.1 ha).imp_right .inr
    · have hnew : key b ∉ batch := by
        have hlength : batch.length ≤ m.capacity :=
          (List.subperm_of_subset hnodup (List.append_subset.1 hkeys).1).length_le.trans room
        exact fun hmem => hb ((h.mem_seen _).2 (subset_rtake_of_suffix hbatch hlength hmem))
      have later := ih (hcapacity.symm ▸ h.insert_of_not_mem hb)
        (List.suffix_append_self_iff.2 hbatch) (List.concat_eq_append ▸ hnodup.concat hnew)
        (fun c hc hseen => ?_) (by rwa [List.append_assoc, List.singleton_append])
        (hcapacity.symm ▸ room)
      · rw [insert_snd_of_not_mem hb, if_pos rfl, List.map_cons, later, id,
          if_pos (decide_eq_true hnew)]
        congr 1
        refine List.filter_congr fun a _ => ?_
        simp
      · rw [List.mem_append, List.mem_singleton]
        exact (mem_seen_insert hseen).imp_left (fresh c (List.mem_cons_of_mem b hc))

end Remembers

/-- After any sequence of calls, a memo with room remembers the last of the node sets that it has
let through, as many as it has room for, and the next call refuses exactly these. All others have
been forgotten, one by one. Without room nothing is remembered, and nothing is refused. -/
theorem insertAll_slides (capacity : Nat) (calls : List NodeSet) :
    let run := fun calls => ({ capacity } : Memo NodeSet).insertAll id calls
    let memo := (run calls).1
    let admitted := (run calls).2
    let window := admitted.rtake (min admitted.length capacity)
    (∀ k, run (calls ++ [k]) =
      ((memo.insert k).1, if (memo.insert k).2 then admitted ++ [k] else admitted)) ∧
    (capacity ≠ 0 →
      memo.order.toList = window ∧ window.Nodup ∧
      (∀ k, k ∈ memo.seen ↔ k ∈ window) ∧ memo.seen.size = window.length ∧
      memo.evictions = admitted.length - min admitted.length capacity ∧
      ∀ k, (memo.insert k).2 = false ↔ k ∈ window) ∧
    (capacity = 0 →
      memo.order.toList = [] ∧ (∀ k, k ∉ memo.seen) ∧ admitted = calls ∧ memo.evictions = 0 ∧
      ∀ k, (memo.insert k).2 = true) := by
  intro run memo admitted window
  have hcapacity : memo.capacity = capacity := capacity_insertAll _ calls
  have hwindow : memo.Window admitted := by
    have h : memo.Window ([] ++ admitted.map id) := (window_nil capacity).insertAll calls
    rwa [List.map_id, List.nil_append] at h
  have remembers : memo.Remembers window := by
    have h := hwindow.remembers
    rwa [hcapacity, ← rtake_min_length] at h
  have evictions := hwindow.evictions_eq
  rw [hcapacity] at evictions
  refine ⟨insertAll_concat _ calls, fun room => ?_, fun noRoom => ?_⟩
  · rw [if_neg room] at evictions
    refine ⟨remembers.order_eq, remembers.nodup, remembers.mem_seen, remembers.size_seen, ?_,
      fun k => insert_snd_eq_false_iff.trans (remembers.mem_seen k)⟩
    omega
  · rw [if_pos noRoom] at evictions
    have hnil : window = [] := by
      show admitted.rtake (min admitted.length capacity) = []
      rw [noRoom, Nat.min_zero, List.rtake_zero]
    rw [hnil] at remembers
    have unseen : ∀ k, k ∉ memo.seen := fun k => mt (remembers.mem_seen k).1 List.not_mem_nil
    have hrun : run calls = ({ capacity }, calls) :=
      (remembers_nil capacity).insertAll_of_capacity_eq_zero noRoom calls
    exact ⟨remembers.order_eq, unseen, congrArg Prod.snd hrun, evictions,
      fun k => insert_snd_of_not_mem (unseen k)⟩

end Memo
end FederatedJoin
