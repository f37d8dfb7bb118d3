import FederatedJoin.Distinct
import Mathlib.Data.List.Basic
import Mathlib.Data.List.Induction
import Mathlib.Data.List.Nodup

/-!
# First occurrences of combined lists

How `distinctBy` passes through the operations by which lists are put together, and which places of
a list it selects.

* `distinctBy_flatMap` — what the repetitions of an entry lead to has been met before.
* `exists_places_distinctBy` — the places of the entries whose key is new.
* `pairwise_idxOf_distinctBy` — what is selected is listed by its first place.
-/

namespace FederatedJoin

variable {α β : Type} [DecidableEq β]

@[simp] theorem mem_distinctBy_id {l : List β} {b : β} : b ∈ distinctBy id l ↔ b ∈ l := by
  constructor
  · intro h
    exact (distinctBy_sublist id l).subset h
  · intro h
    obtain ⟨c, hc, rfl⟩ := exists_mem_distinctBy id h
    exact hc

/-- A list has no repetitions if an index leads from each entry back to its only place. -/
theorem nodup_of_index {l : List α} {place? : α → Option Nat}
    (h : ∀ a i, place? a = some i ↔ l[i]? = some a) : l.Nodup := by
  rw [List.nodup_iff_getElem?_ne_getElem?]
  intro i j hij hj heq
  have hlast := (h _ j).2 (List.getElem?_eq_getElem hj)
  have hfirst := (h _ i).2 (heq.trans (List.getElem?_eq_getElem hj))
  exact absurd (Option.some.inj (hfirst.symm.trans hlast)) (Nat.ne_of_lt hij)

theorem nodup_distinctBy_id (l : List β) : (distinctBy id l).Nodup :=
  pairwise_distinctBy id l

theorem distinctBy_eq_self_of_nodup_map (key : α → β) {l : List α} (h : (l.map key).Nodup) :
    distinctBy key l = l := by
  induction l with
  | nil => rfl
  | cons a l ih =>
    obtain ⟨ha, hl⟩ := List.nodup_cons.1 h
    rw [distinctBy, ih hl, List.filter_eq_self.2]
    intro b hb
    have : key b ≠ key a := fun hba => ha (hba ▸ List.mem_map_of_mem hb)
    simpa using this

theorem distinctBy_eq_self {l : List β} (h : l.Nodup) : distinctBy id l = l :=
  distinctBy_eq_self_of_nodup_map id (by rwa [List.map_id])

theorem nodup_map_distinctBy (key : α → β) (l : List α) : ((distinctBy key l).map key).Nodup :=
  List.pairwise_map.2 (pairwise_distinctBy key l)

theorem distinctBy_filter (key : α → β) (p : β → Bool) (l : List α) :
    distinctBy key (l.filter fun a => p (key a)) =
      (distinctBy key l).filter fun a => p (key a) := by
  induction l with
  | nil => rfl
  | cons a l ih =>
    by_cases ha : p (key a)
    · simp only [List.filter_cons, ha, if_true, distinctBy, ih, List.filter_filter, Bool.and_comm]
    · simp only [List.filter_cons, ha, Bool.false_eq_true, if_false, distinctBy, ih,
        List.filter_filter]
      refine List.filter_congr fun b _ => ?_
      by_cases hb : key b = key a
      · simp [hb, ha]
      · simp [hb]

theorem distinctBy_append (key : α → β) (l m : List α) :
    distinctBy key (l ++ m) =
      distinctBy key l ++ (distinctBy key m).filter (key · ∉ l.map key) := by
  induction l with
  | nil => simp [distinctBy]
  | cons a l ih =>
    simp only [List.cons_append, distinctBy, ih, List.filter_append, List.filter_filter]
    congr 2
    refine List.filter_congr fun b _ => ?_
    simp [not_or]

theorem distinctBy_append_distinctBy (l m : List β) :
    distinctBy id (l ++ distinctBy id m) = distinctBy id (l ++ m) := by
  rw [distinctBy_append, distinctBy_append, distinctBy_eq_self (nodup_distinctBy_id m)]

/-- The first occurrences in the front part of a list come first. -/
theorem distinctBy_take_isPrefix (key : α → β) (l : List α) (n : Nat) :
    distinctBy key (l.take n) <+: distinctBy key l := by
  have happend := distinctBy_append key (l.take n) (l.drop n)
  rw [List.take_append_drop] at happend
  rw [happend]
  exact List.prefix_append _ _

/-- Lists without a common entry keep their first occurrences when they are put together. -/
theorem distinctBy_flatten {ls : List (List β)} (h : ls.Pairwise fun l m => ∀ b ∈ m, b ∉ l) :
    distinctBy id ls.flatten = (ls.map (distinctBy id)).flatten := by
  induction ls with
  | nil => rfl
  | cons l ls ih =>
    obtain ⟨hl, hls⟩ := List.pairwise_cons.1 h
    rw [List.flatten_cons, distinctBy_append, ih hls, List.map_cons, List.flatten_cons]
    congr 1
    rw [List.filter_eq_self]
    intro b hb
    rw [← ih hls, mem_distinctBy_id] at hb
    obtain ⟨m, hm, hbm⟩ := List.mem_flatten.1 hb
    simpa using hl m hm b hbm

/-- Entries of a list are left out without effect if all that they lead to is left out. -/
private theorem filter_flatMap_filter {γ δ : Type} {f : γ → List δ} {p : γ → Bool} {q : δ → Bool}
    (h : ∀ a, p a = false → ∀ b ∈ f a, q b = false) (l : List γ) :
    ((l.filter p).flatMap f).filter q = (l.flatMap f).filter q := by
  induction l with
  | nil => rfl
  | cons a l ih =>
    by_cases ha : p a
    · simp [ha, ih]
    · have hfa : (f a).filter q = [] := by simpa using h a (by simpa using ha)
      simp [ha, ih, hfa]

theorem distinctBy_flatMap {γ : Type} [DecidableEq γ] (f : β → List γ) (l : List β) :
    distinctBy id (l.flatMap f) = distinctBy id ((distinctBy id l).flatMap f) := by
  induction l with
  | nil => rfl
  | cons a l ih =>
    have skip := filter_flatMap_filter (f := f) (p := fun b => decide (b ≠ a))
      (q := fun b => decide (b ∉ f a)) (by intro b hb; simp_all) (distinctBy id l)
    have filtered := distinctBy_filter id (fun b => decide (b ∉ f a))
    simp only [id_eq] at filtered
    calc distinctBy id ((a :: l).flatMap f)
      _ = distinctBy id (f a) ++ (distinctBy id (l.flatMap f)).filter (· ∉ f a) := by
        simp [distinctBy_append]
      _ = distinctBy id (f a) ++
          (distinctBy id (((distinctBy id l).filter (· ≠ a)).flatMap f)).filter (· ∉ f a) := by
        rw [ih, ← filtered, ← filtered, skip]
      _ = distinctBy id ((distinctBy id (a :: l)).flatMap f) := by
        simp [distinctBy, distinctBy_append]

theorem distinctBy_id_filterMap {γ : Type} [DecidableEq γ] (f : β → Option γ) (l : List β) :
    distinctBy id (l.filterMap f) = distinctBy id ((distinctBy id l).filterMap f) := by
  rw [List.filterMap_eq_flatMap_toList, distinctBy_flatMap, ← List.filterMap_eq_flatMap_toList]

/-- Results that keep their key can be taken before or after the first occurrences. -/
theorem distinctBy_filterMap (key : α → β) {f : β → Option α}
    (h : ∀ b a, f b = some a → key a = b) (l : List β) :
    distinctBy key (l.filterMap f) = (distinctBy id l).filterMap f := by
  induction l with
  | nil => rfl
  | cons b l ih =>
    rw [distinctBy, List.filterMap_cons, List.filterMap_cons]
    cases hb : f b with
    | none =>
      simp only [ih, List.filterMap_filter]
      refine List.filterMap_congr fun c _ => ?_
      by_cases hc : c = b
      · simp [hc, hb]
      · simp [hc]
    | some a =>
      simp only [distinctBy, ih, List.filter_filterMap, List.filterMap_filter]
      congr 1
      refine List.filterMap_congr fun c _ => ?_
      rw [h b a hb]
      cases hc : f c with
      | none => simp
      | some d => simp [Option.filter_some, h c d hc]

/-! ## Places -/

/-- Entry `a` is at place `i`, and no entry before it has the same key. -/
def FirstAt (key : α → β) (l : List α) (i : Nat) (a : α) : Prop :=
  l[i]? = some a ∧ ∀ b ∈ l.take i, key b ≠ key a

section
variable {key : α → β} {l : List α} {a b : α} {i : Nat}
omit [DecidableEq β]

theorem FirstAt.lt_length (h : FirstAt key l i a) : i < l.length :=
  (List.getElem?_eq_some_iff.1 h.1).1

theorem firstAt_append_of_lt {m : List α} (h : i < l.length) :
    FirstAt key (l ++ m) i b ↔ FirstAt key l i b := by
  rw [FirstAt, List.getElem?_append_left h, List.take_append_of_le_length (Nat.le_of_lt h), FirstAt]

theorem firstAt_concat_length :
    FirstAt key (l ++ [a]) l.length b ↔ a = b ∧ ∀ c ∈ l, key c ≠ key b := by
  simp [FirstAt]

theorem exists_firstAt_concat_iff :
    (∃ b, FirstAt key (l ++ [a]) i b) ↔
      (∃ b, FirstAt key l i b) ∨ i = l.length ∧ ∀ c ∈ l, key c ≠ key a := by
  constructor
  · rintro ⟨b, hb⟩
    by_cases hi : i < l.length
    · exact .inl ⟨b, (firstAt_append_of_lt hi).1 hb⟩
    · have hle := hb.lt_length
      rw [List.length_append, List.length_singleton] at hle
      have heq : i = l.length := by omega
      subst heq
      obtain ⟨rfl, hnew⟩ := firstAt_concat_length.1 hb
      exact .inr ⟨rfl, hnew⟩
  · rintro (⟨b, hb⟩ | ⟨rfl, hnew⟩)
    · exact ⟨b, (firstAt_append_of_lt hb.lt_length).2 hb⟩
    · exact ⟨a, firstAt_concat_length.2 ⟨rfl, hnew⟩⟩

/-- The first entry with the same key stands at the same place or before it. -/
theorem exists_firstAt (key : α → β) (h : l[i]? = some a) :
    ∃ j b, j ≤ i ∧ FirstAt key l j b ∧ key b = key a := by
  induction i using Nat.strongRecOn generalizing a with
  | ind i ih =>
    by_cases hnew : ∀ b ∈ l.take i, key b ≠ key a
    · exact ⟨i, a, Nat.le_refl i, ⟨h, hnew⟩, rfl⟩
    · simp only [not_forall, not_not] at hnew
      obtain ⟨b, hb, hkey⟩ := hnew
      obtain ⟨k, hk, hkb⟩ := List.mem_take_iff_getElem.1 hb
      have hki : k < i := Nat.lt_of_lt_of_le hk (Nat.min_le_left i l.length)
      obtain ⟨j, c, hj, hfirst, hc⟩ := ih k hki (List.getElem?_eq_some_iff.2 ⟨_, hkb⟩)
      exact ⟨j, c, Nat.le_trans hj (Nat.le_of_lt hki), hfirst, hc.trans hkey⟩

end

/-- The entries that are selected are those whose key is new, in their order. -/
theorem exists_places_distinctBy (key : α → β) (l : List α) :
    ∃ places : List Nat, places.Pairwise (· < ·) ∧ distinctBy key l = places.filterMap (l[·]?) ∧
      ∀ i, i ∈ places ↔ ∃ a, FirstAt key l i a := by
  induction l using List.reverseRecOn with
  | nil => exact ⟨[], .nil, rfl, by simp [FirstAt]⟩
  | append_singleton l a ih =>
    obtain ⟨places, hsorted, hplaces, hmem⟩ := ih
    have hlt : ∀ i ∈ places, i < l.length := by
      intro i hi
      obtain ⟨b, hb⟩ := (hmem i).1 hi
      exact hb.lt_length
    have hkept : places.filterMap ((l ++ [a])[·]?) = distinctBy key l := by
      rw [hplaces]
      exact List.filterMap_congr fun i hi => List.getElem?_append_left (hlt i hi)
    by_cases hnew : ∀ c ∈ l, key c ≠ key a
    · refine ⟨places ++ [l.length], ?_, ?_, fun i => ?_⟩
      · exact List.pairwise_append.2 ⟨hsorted, List.pairwise_singleton _ _, by simpa using hlt⟩
      · rw [List.filterMap_append, hkept, distinctBy_append]
        simpa [distinctBy] using hnew
      · rw [exists_firstAt_concat_iff, and_iff_left hnew, List.mem_append, List.mem_singleton, hmem]
    · refine ⟨places, hsorted, ?_, fun i => ?_⟩
      · rw [hkept, distinctBy_append]
        simpa [distinctBy] using hnew
      · rw [exists_firstAt_concat_iff, or_iff_left fun h => hnew h.2, hmem]

/-- An entry that is selected comes before all occurrences of those that are selected after it. -/
theorem pairwise_distinctBy_getElem? (l : List β) :
    (distinctBy id l).Pairwise fun b c => ∀ k : Nat, l[k]? = some c → ∃ j < k, l[j]? = some b := by
  obtain ⟨places, hsorted, hplaces, hmem⟩ := exists_places_distinctBy id l
  rw [hplaces]
  refine List.pairwise_filterMap.2 (hsorted.imp_of_mem fun {i j} _ hj hij b hb c hc k hk => ?_)
  refine ⟨i, Nat.not_le.1 fun hki => ?_, hb⟩
  obtain ⟨d, hd, hnew⟩ := (hmem j).1 hj
  cases hd.symm.trans hc
  have hearlier : c ∈ l.take j :=
    List.mem_of_getElem? ((List.getElem?_take_of_lt (Nat.lt_of_le_of_lt hki hij)).trans hk)
  exact hnew c hearlier rfl

theorem pairwise_idxOf_distinctBy (l : List β) :
    (distinctBy id l).Pairwise fun b c => l.idxOf b < l.idxOf c := by
  refine (pairwise_distinctBy_getElem? l).imp_of_mem fun {b c} _ hc h => ?_
  have hlt : l.idxOf c < l.length := List.idxOf_lt_length_of_mem (mem_distinctBy_id.1 hc)
  obtain ⟨j, hj, hb⟩ := h _ (List.getElem?_eq_some_iff.2 ⟨hlt, List.getElem_idxOf hlt⟩)
  obtain ⟨hjl, rfl⟩ := List.getElem?_eq_some_iff.1 hb
  refine Nat.lt_of_le_of_lt (Nat.not_lt.1 fun hgt => ?_) hj
  simpa using List.not_of_lt_findIdx hgt

end FederatedJoin
