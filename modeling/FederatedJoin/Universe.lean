import FederatedJoin.Pattern
import Std.Data.HashMap

/-!
# The universe of triple patterns

A universe numbers the distinct triple patterns of a query densely, in the order in which they are
first seen. All sets of triples in the planner are sets of these numbers.

## Main definitions

* `TripleSet` — a set of triple ids, with its written form `TripleSet.text`.
* `Universe.intern` — the id of a pattern, which is numbered if it is new.
* `Universe.id?`, `Universe.pattern?` — the two directions of the numbering.
* `Universe.fullSet`, `Universe.containsAll` — the ids in use.
* `Universe.variablesOf` — the variables of a set of triples.

`Universe.id?_eq_some_iff` says that the two directions are inverse to each other.
-/

namespace FederatedJoin

/-- The number of a triple pattern in its universe. -/
abbrev TripleId := Nat

/-- A set of triple ids. -/
abbrev TripleSet := OrdSet TripleId

/-- The written form of a triple id. -/
def TripleId.text (id : TripleId) : String := "t" ++ Nat.repr id

/-- The written form of a set of triples. -/
def TripleSet.text (s : TripleSet) : String :=
  "\x7b" ++ ", ".intercalate (s.toList.map TripleId.text) ++ "\x7d"

/-- A numbering of distinct triple patterns: the patterns by id, and the index that leads from a
pattern back to its id. -/
structure Universe where
  patterns : Array Pattern
  index : Std.HashMap Pattern TripleId
  index_eq_some_iff : ∀ (p : Pattern) (id : TripleId),
    index[p]? = some id ↔ patterns[id]? = some p

namespace Universe

/-- The universe without patterns. -/
def empty : Universe := ⟨#[], ∅, by simp⟩

instance : Inhabited Universe := ⟨empty⟩

/-- The number of patterns. -/
def size (u : Universe) : Nat := u.patterns.size

/-- The pattern with the given id. -/
def pattern? (u : Universe) (id : TripleId) : Option Pattern := u.patterns[id]?

/-- The id of a pattern. -/
def id? (u : Universe) (p : Pattern) : Option TripleId := u.index[p]?

theorem id?_eq_some_iff {u : Universe} {p : Pattern} {id : TripleId} :
    u.id? p = some id ↔ u.pattern? id = some p :=
  u.index_eq_some_iff p id

/-- The id of a pattern, and the universe in which it has this id. A pattern that is already
numbered keeps its id, a new one gets the next. -/
def intern (u : Universe) (p : Pattern) : TripleId × Universe :=
  match h : u.index[p]? with
  | some id => (id, u)
  | none =>
    (u.size,
      { patterns := u.patterns.push p
        index := u.index.insert p u.size
        index_eq_some_iff := by
          intro q id
          have hp : ∀ id, u.patterns[id]? ≠ some p := fun id hid => by
            rw [← u.index_eq_some_iff, h] at hid
            exact absurd hid nofun
          rw [Std.HashMap.getElem?_insert, Array.getElem?_push]
          by_cases hpq : p = q
          · subst hpq
            by_cases hid : id = u.patterns.size
            · simp [hid, size]
            · simp [hid, hp id, size, eq_comm]
          · by_cases hid : id = u.patterns.size
            · have : ¬u.index[q]? = some u.patterns.size := by
                simp [u.index_eq_some_iff]
              simp [hid, hpq, this]
            · simp [hid, hpq, u.index_eq_some_iff] })

theorem pattern?_intern (u : Universe) (p : Pattern) :
    (u.intern p).2.pattern? (u.intern p).1 = some p := by
  unfold intern
  split
  · next id h => exact id?_eq_some_iff.1 h
  · simp [pattern?, size]

/-- An id keeps denoting its pattern. -/
theorem pattern?_intern_of_eq_some {u : Universe} {p q : Pattern} {id : TripleId}
    (h : u.pattern? id = some q) : (u.intern p).2.pattern? id = some q := by
  unfold intern
  split
  · exact h
  · have hid : id < u.patterns.size := (Array.getElem?_eq_some_iff.1 h).1
    have : u.patterns[id]? = some q := h
    simp [pattern?, Array.getElem?_push, Nat.ne_of_lt hid, this]

theorem patterns_intern_of_not_mem {u : Universe} {p : Pattern} (h : p ∉ u.patterns) :
    (u.intern p).2.patterns = u.patterns.push p := by
  unfold intern
  split
  · next id hid =>
    exact absurd (Array.mem_of_getElem? ((u.index_eq_some_iff p id).1 hid)) h
  · rfl

theorem patterns_foldl_intern {u : Universe} {l : List Pattern}
    (h : (u.patterns.toList ++ l).Nodup) :
    (l.foldl (fun u p => (u.intern p).2) u).patterns = u.patterns ++ l.toArray := by
  induction l generalizing u with
  | nil => simp
  | cons p l ih =>
    have hp : p ∉ u.patterns := fun hp =>
      (List.nodup_append.1 h).2.2 p (Array.mem_def.1 hp) p List.mem_cons_self rfl
    have hpatterns := patterns_intern_of_not_mem hp
    rw [List.foldl_cons, ih (by simpa [hpatterns] using h), hpatterns]
    simp

/-- The universe of a list of patterns, which may have repetitions. -/
def ofPatterns (l : List Pattern) : Universe := l.foldl (fun u p => (u.intern p).2) empty

/-- Distinct patterns are numbered in their order. -/
theorem patterns_ofPatterns {l : List Pattern} (h : l.Nodup) :
    (ofPatterns l).patterns = l.toArray :=
  (patterns_foldl_intern (u := empty) h).trans (Array.empty_append)

/-- The patterns with their ids, by ascending id. -/
def entries (u : Universe) : List (TripleId × Pattern) :=
  u.patterns.toList.zipIdx.map fun (p, id) => (id, p)

/-- All ids in use. -/
def fullSet (u : Universe) : TripleSet := ⟨List.range u.size, List.pairwise_lt_range⟩

@[simp] theorem mem_fullSet {u : Universe} {id : TripleId} : id ∈ u.fullSet ↔ id < u.size :=
  List.mem_range

/-- Whether every id of a set is in use. The ids are dense, so the greatest one decides. -/
def containsAll (u : Universe) (s : TripleSet) : Bool :=
  match s.max? with
  | none => true
  | some greatest => greatest < u.size

theorem containsAll_iff {u : Universe} {s : TripleSet} :
    u.containsAll s = true ↔ s ⊆ u.fullSet := by
  unfold containsAll
  split
  · next h =>
    refine iff_of_true rfl fun id hid => ?_
    rw [List.getLast?_eq_none_iff.1 h] at hid
    cases hid
  · next greatest h =>
    obtain ⟨hmem, hle⟩ := OrdSet.max?_eq_some_iff.1 h
    rw [decide_eq_true_eq]
    constructor
    · intro hlt id hid
      exact mem_fullSet.2 (Nat.lt_of_le_of_lt (hle id hid) hlt)
    · intro hsub
      exact mem_fullSet.1 (hsub greatest hmem)

/-- The ids that are not in use are those without a pattern. -/
theorem not_mem_fullSet_iff {u : Universe} {id : TripleId} :
    id ∉ u.fullSet ↔ u.pattern? id = none := by
  rw [mem_fullSet, pattern?, Array.getElem?_eq_none_iff]
  exact Nat.not_lt

/-- The variables of the triple with the given id. -/
def vars (u : Universe) (id : TripleId) : VariableSet :=
  match u.pattern? id with
  | none => ∅
  | some p => .ofList p.vars

theorem vars_ofPatterns {l : List Pattern} (h : l.Nodup) (id : TripleId) :
    (ofPatterns l).vars id =
      match l[id]? with
      | none => ∅
      | some p => .ofList p.vars := by
  rw [vars, pattern?, patterns_ofPatterns h, List.getElem?_toArray]

/-- The variables of a set of triples. Ids that are not in use add nothing. -/
def variablesOf (u : Universe) (s : TripleSet) : VariableSet :=
  .unions (s.toList.map u.vars)

end Universe
end FederatedJoin
