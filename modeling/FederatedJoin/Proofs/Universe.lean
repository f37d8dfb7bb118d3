import FederatedJoin.Proofs.Distinct
import FederatedJoin.Universe
import Mathlib.Data.List.Basic
import Mathlib.Data.List.Nodup

/-!
# The numbers of interned patterns

Patterns are interned one after the other, in any order and as often as they occur. Their numbers
are their places among the first occurrences, and no number is ever given to another pattern.

* `Universe.internAll` — the ids that a sequence of patterns gets, and the universe it leads to.
* `Universe.toList_internAll` — the patterns that are numbered after a sequence.
* `Universe.fst_internAll` — the ids that are returned on the way are those of the end.
* `Universe.Numbering` — what a universe says about the sequence that it was made from.
-/

namespace FederatedJoin
namespace Universe

variable {u : Universe} {p : Pattern} {i : TripleId}

/-! ## A universe as a list -/

theorem pattern?_eq (u : Universe) (i : TripleId) : u.pattern? i = u.patterns.toList[i]? :=
  Array.getElem?_toList.symm

theorem id?_eq_some_iff_getElem? (u : Universe) :
    u.id? p = some i ↔ u.patterns.toList[i]? = some p := by
  rw [id?_eq_some_iff, pattern?_eq]

theorem nodup_patterns (u : Universe) : u.patterns.toList.Nodup :=
  nodup_of_index fun _ _ => u.id?_eq_some_iff_getElem?

theorem idxOf_eq_of_id? (h : u.id? p = some i) : u.patterns.toList.idxOf p = i := by
  obtain ⟨hi, rfl⟩ := List.getElem?_eq_some_iff.1 (u.id?_eq_some_iff_getElem?.1 h)
  exact u.nodup_patterns.idxOf_getElem i hi

/-! ## One pattern -/

theorem intern_of_mem (h : p ∈ u.patterns.toList) : (u.intern p).2 = u := by
  obtain ⟨i, hi⟩ := List.mem_iff_getElem?.1 h
  have hid : u.index[p]? = some i := u.id?_eq_some_iff_getElem?.2 hi
  unfold intern
  split
  · rfl
  · next hnone => exact absurd (hid.symm.trans hnone) nofun

theorem toList_intern (u : Universe) (p : Pattern) :
    (u.intern p).2.patterns.toList =
      if p ∈ u.patterns.toList then u.patterns.toList else u.patterns.toList ++ [p] := by
  split
  · next h => rw [intern_of_mem h]
  · next h => rw [patterns_intern_of_not_mem (mt Array.mem_def.1 h), Array.toList_push]

theorem mem_patterns_intern (u : Universe) (p : Pattern) : p ∈ (u.intern p).2.patterns.toList := by
  rw [toList_intern]
  split
  · next h => exact h
  · simp

theorem fst_intern (u : Universe) (p : Pattern) :
    (u.intern p).1 = (u.intern p).2.patterns.toList.idxOf p :=
  (idxOf_eq_of_id? (id?_eq_some_iff.2 (u.pattern?_intern p))).symm

/-! ## A sequence of patterns -/

/-- Interns patterns one after the other. The ids are those that are returned. -/
def internAll (u : Universe) : List Pattern → List TripleId × Universe
  | [] => ([], u)
  | p :: l =>
    let (i, u) := u.intern p
    let (ids, u) := u.internAll l
    (i :: ids, u)

theorem fst_internAll_cons (u : Universe) (p : Pattern) (l : List Pattern) :
    (u.internAll (p :: l)).1 = (u.intern p).1 :: ((u.intern p).2.internAll l).1 := rfl

theorem snd_internAll_cons (u : Universe) (p : Pattern) (l : List Pattern) :
    (u.internAll (p :: l)).2 = ((u.intern p).2.internAll l).2 := rfl

theorem ofPatterns_eq (l : List Pattern) : ofPatterns l = (empty.internAll l).2 := by
  unfold ofPatterns
  generalize empty = u
  induction l generalizing u with
  | nil => rfl
  | cons p l ih => rw [List.foldl_cons, ih, snd_internAll_cons]

/-- The new patterns are numbered after the old ones, in the order of their first occurrences. -/
theorem toList_internAll (u : Universe) (l : List Pattern) :
    (u.internAll l).2.patterns.toList =
      u.patterns.toList ++ (distinctBy id l).filter (· ∉ u.patterns.toList) := by
  induction l generalizing u with
  | nil => simp [internAll, distinctBy]
  | cons p l ih =>
    rw [snd_internAll_cons, ih, toList_intern, distinctBy]
    by_cases h : p ∈ u.patterns.toList
    · rw [if_pos h, List.filter_cons_of_neg (by simpa using h), List.filter_filter]
      congr 1
      refine List.filter_congr fun q _ => ?_
      by_cases hq : q = p <;> simp [hq, h]
    · rw [if_neg h, List.filter_cons_of_pos (by simpa using h), List.filter_filter,
        List.append_assoc, List.singleton_append]
      congr 2
      refine List.filter_congr fun q _ => ?_
      simp

/-- No number is taken back, and no pattern is numbered again. -/
theorem isPrefix_internAll (u : Universe) (l : List Pattern) :
    u.patterns.toList <+: (u.internAll l).2.patterns.toList :=
  toList_internAll u l ▸ List.prefix_append _ _

theorem pattern?_internAll (h : u.pattern? i = some p) (l : List Pattern) :
    (u.internAll l).2.pattern? i = some p := by
  induction l generalizing u with
  | nil => exact h
  | cons q l ih => exact ih (pattern?_intern_of_eq_some h)

/-- What is returned for a pattern denotes it in the end. -/
theorem pattern?_of_mem_zip {l : List Pattern} (h : (p, i) ∈ l.zip (u.internAll l).1) :
    (u.internAll l).2.pattern? i = some p := by
  induction l generalizing u with
  | nil => cases h
  | cons q l ih =>
    rw [fst_internAll_cons, List.zip_cons_cons] at h
    rw [snd_internAll_cons]
    rcases List.mem_cons.1 h with heq | h
    · cases heq
      exact pattern?_internAll (u.pattern?_intern p) l
    · exact ih h

/-- The number that is returned for a pattern is its place in the end, whatever comes after it. -/
theorem fst_internAll (u : Universe) (l : List Pattern) :
    (u.internAll l).1 = l.map (u.internAll l).2.patterns.toList.idxOf := by
  induction l generalizing u with
  | nil => rfl
  | cons p l ih =>
    have hhead := ((u.intern p).2.isPrefix_internAll l).idxOf_eq_of_mem (mem_patterns_intern u p)
    rw [fst_internAll_cons, snd_internAll_cons, List.map_cons, ← ih, fst_intern, hhead]

/-! ## From the empty universe -/

/-- What a universe says about the sequence of patterns that it was made from. -/
structure Numbering (l : List Pattern) (ids : List TripleId) (u : Universe) : Prop where
  /-- The numbered patterns are the first occurrences in the sequence. -/
  patterns_eq : u.patterns.toList = distinctBy id l
  /-- What is returned for a pattern is its place among the first occurrences. -/
  ids_eq : ids = l.map (distinctBy id l).idxOf
  /-- The ids in use are those below the number of distinct patterns. -/
  fullSet_eq : u.fullSet.toList = List.range (distinctBy id l).length
  lt_length : ∀ i ∈ ids, i < (distinctBy id l).length
  /-- The patterns with their ids, in the order in which they were first interned. -/
  entries_eq : u.entries = (List.range (distinctBy id l).length).zip (distinctBy id l)
  ordered : u.patterns.toList.Pairwise fun p q => l.idxOf p < l.idxOf q
  /-- Both directions of the numbering agree. -/
  inverse : ∀ p i, u.id? p = some i ↔ u.pattern? i = some p
  /-- An id that was returned for a pattern belongs to it for good. -/
  stable : ∀ p i, (p, i) ∈ l.zip ids → ∀ more,
    (u.internAll more).2.id? p = some i ∧ (u.internAll more).2.pattern? i = some p
  containsAll_iff : ∀ s : TripleSet, u.containsAll s = true ↔ s ⊆ u.fullSet

theorem toList_internAll_empty (l : List Pattern) :
    (empty.internAll l).2.patterns.toList = distinctBy id l := by
  simp [toList_internAll, empty]

theorem entries_eq_zip (u : Universe) :
    u.entries = (List.range u.size).zip u.patterns.toList :=
  List.ext_getElem (by simp [entries, size]) (by simp [entries])

/-- A sequence of interned patterns numbers its first occurrences, and nothing that is interned
afterwards changes a number. -/
theorem internAll_numbers (l : List Pattern) :
    ofPatterns l = (empty.internAll l).2 ∧
      Numbering l (empty.internAll l).1 (empty.internAll l).2 := by
  have hpatterns := toList_internAll_empty l
  have hids := fst_internAll empty l
  have hsize : (empty.internAll l).2.size = (distinctBy id l).length := by
    rw [← hpatterns]
    rfl
  rw [hpatterns] at hids
  refine ⟨ofPatterns_eq l, ?_⟩
  constructor
  case patterns_eq => exact hpatterns
  case ids_eq => exact hids
  case fullSet_eq => rw [← hsize]; rfl
  case lt_length =>
    rw [hids, List.forall_mem_map]
    intro p hp
    exact List.idxOf_lt_length_of_mem (mem_distinctBy_id.2 hp)
  case entries_eq => rw [entries_eq_zip, hsize, hpatterns]
  case ordered => exact hpatterns ▸ pairwise_idxOf_distinctBy l
  case inverse => exact fun p i => id?_eq_some_iff
  case stable =>
    intro p i hpi more
    have hlater := pattern?_internAll (pattern?_of_mem_zip hpi) more
    exact ⟨id?_eq_some_iff.2 hlater, hlater⟩
  case containsAll_iff => exact fun s => containsAll_iff

end Universe
end FederatedJoin
