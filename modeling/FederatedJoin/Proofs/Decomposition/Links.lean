import FederatedJoin.Decomposition.Basic
import Mathlib.Data.List.FinRange
import Mathlib.Logic.Relation

/-!
# Positions that are linked by variables

Every variable links a position only with the first one at which it was seen. The classes are
nevertheless those of all positions that have a variable in common.

* `Forest.root_merge_eq_iff` — merging joins the classes of two positions and no others.
* `VariableLinks.Tracks` — what holds after some occurrences of variables have been seen.
* `Decomposer.root_links_eq_iff` — which positions are in the same class in the end.
-/

namespace FederatedJoin

theorem Forest.root_merge_eq_iff {n : Nat} (f : Forest n) (i j k l : Fin n) :
    (f.merge i j).root k = (f.merge i j).root l ↔
      f.root k = f.root l ∨ (f.root k = f.root i ∧ f.root l = f.root j) ∨
        (f.root k = f.root j ∧ f.root l = f.root i) := by
  rw [root_merge, root_merge]
  grind

namespace VariableLinks

variable {n : Nat} {l : VariableLinks n} {seen : List (Fin n × Variable)} {i : Fin n}
variable {v : Variable}

/-- Two positions have an occurrence of the same variable. -/
def Sharing (seen : List (Fin n × Variable)) (i j : Fin n) : Prop :=
  ∃ v, (i, v) ∈ seen ∧ (j, v) ∈ seen

theorem Sharing.symm {i j : Fin n} (h : Sharing seen i j) : Sharing seen j i := by
  obtain ⟨v, hi, hj⟩ := h
  exact ⟨v, hj, hi⟩

theorem Sharing.mono {seen' : List (Fin n × Variable)} (h : seen ⊆ seen') {i j : Fin n}
    (hij : Sharing seen i j) : Sharing seen' i j := by
  obtain ⟨v, hi, hj⟩ := hij
  exact ⟨v, h hi, h hj⟩

/-- What holds after some occurrences of variables have been seen: each variable has an owner, in
whose class all its occurrences are, and positions of one class are linked by variables. -/
structure Tracks (l : VariableLinks n) (seen : List (Fin n × Variable)) : Prop where
  owner_mem : ∀ {v i}, l.owners[v]? = some i → (i, v) ∈ seen
  exists_owner : ∀ {v i}, (i, v) ∈ seen →
    ∃ j, l.owners[v]? = some j ∧ l.classes.root j = l.classes.root i
  linked : ∀ {i j}, l.classes.root i = l.classes.root j →
    Relation.ReflTransGen (Sharing seen) i j

theorem tracks_nil : ({} : VariableLinks n).Tracks [] where
  owner_mem h := by simp at h
  exists_owner h := absurd h List.not_mem_nil
  linked {i j} h := by
    have hij : i = j := by simpa [Forest.root_singletons] using h
    exact hij ▸ .refl

/-- The owner of the variable and the new occurrence come into one class. -/
theorem Tracks.add (h : l.Tracks seen) (i : Fin n) (v : Variable) :
    (l.add i v).Tracks (seen ++ [(i, v)]) := by
  have hsub : seen ⊆ seen ++ [(i, v)] := List.subset_append_left _ _
  have hnew : (i, v) ∈ seen ++ [(i, v)] := List.mem_append_right _ List.mem_cons_self
  have prior : ∀ {j k}, l.classes.root j = l.classes.root k →
      Relation.ReflTransGen (Sharing (seen ++ [(i, v)])) j k := fun hjk =>
    Relation.ReflTransGen.mono (fun _ _ => Sharing.mono hsub) _ _ (h.linked hjk)
  unfold VariableLinks.add
  cases howner : l.owners[v]? with
  | some owner =>
    have hlink : Sharing (seen ++ [(i, v)]) owner i := ⟨v, hsub (h.owner_mem howner), hnew⟩
    constructor
    · exact fun hw => hsub (h.owner_mem hw)
    · intro w k hk
      rcases List.mem_append.1 hk with hk | hk
      · obtain ⟨j, hj, hroot⟩ := h.exists_owner hk
        exact ⟨j, hj, (Forest.root_merge_eq_iff _ _ _ _ _).2 (.inl hroot)⟩
      · cases List.mem_singleton.1 hk
        exact ⟨owner, howner, (Forest.root_merge_eq_iff _ _ _ _ _).2 (.inr (.inl ⟨rfl, rfl⟩))⟩
    · intro j k hjk
      rcases (Forest.root_merge_eq_iff _ _ _ _ _).1 hjk with hjk | ⟨hj, hk⟩ | ⟨hj, hk⟩
      · exact prior hjk
      · exact ((prior hj).tail hlink).trans (prior hk.symm)
      · exact ((prior hj).tail hlink.symm).trans (prior hk.symm)
  | none =>
    have hother : ∀ {w k}, l.owners[w]? = some k → v ≠ w := by
      rintro w k hw rfl
      rw [howner] at hw
      cases hw
    constructor
    · intro w k hw
      rw [Std.HashMap.getElem?_insert] at hw
      split at hw
      · next hvw =>
        cases hw
        cases eq_of_beq hvw
        exact hnew
      · exact hsub (h.owner_mem hw)
    · intro w k hk
      rcases List.mem_append.1 hk with hk | hk
      · obtain ⟨j, hj, hroot⟩ := h.exists_owner hk
        refine ⟨j, ?_, hroot⟩
        simpa [Std.HashMap.getElem?_insert, hother hj] using hj
      · cases List.mem_singleton.1 hk
        exact ⟨i, Std.HashMap.getElem?_insert_self, rfl⟩
    · exact prior

theorem Tracks.foldl (h : l.Tracks seen) (more : List (Fin n × Variable)) :
    (more.foldl (fun l o => l.add o.1 o.2) l).Tracks (seen ++ more) := by
  induction more generalizing l seen with
  | nil => rwa [List.append_nil]
  | cons o more ih =>
    rw [List.foldl_cons, List.append_cons]
    exact ih (h.add o.1 o.2)

/-- Positions of one class are exactly those that are linked by variables. -/
theorem Tracks.root_eq_iff (h : l.Tracks seen) {i j : Fin n} :
    l.classes.root i = l.classes.root j ↔ Relation.ReflTransGen (Sharing seen) i j := by
  refine ⟨h.linked, fun path => ?_⟩
  induction path with
  | refl => rfl
  | tail _ hjk ih =>
    obtain ⟨v, hj, hk⟩ := hjk
    obtain ⟨a, ha, hroot⟩ := h.exists_owner hj
    obtain ⟨b, hb, hroot'⟩ := h.exists_owner hk
    cases ha.symm.trans hb
    rw [ih, ← hroot, hroot']

end VariableLinks

namespace Decomposer

/-- The occurrences of variables in a list of triples, with their positions. -/
def occurrences (u : Universe) (triples : List TripleId) :
    List (Fin triples.length × Variable) :=
  (List.finRange triples.length).flatMap fun i =>
    (u.vars (triples.get i)).toList.map (i, ·)

variable {u : Universe} {triples : List TripleId} {i j : Fin triples.length} {v : Variable}

theorem mem_occurrences : (i, v) ∈ occurrences u triples ↔ v ∈ u.vars (triples.get i) := by
  simp [occurrences]

theorem tracks_links (u : Universe) (triples : List TripleId) :
    (links u triples).Tracks (occurrences u triples) := by
  have hlinks : links u triples = (occurrences u triples).foldl (fun l o => l.add o.1 o.2) {} := by
    rw [links, occurrences, List.foldl_flatMap]
    simp only [List.foldl_map]
    rfl
  rw [hlinks]
  exact VariableLinks.tracks_nil.foldl _

theorem root_links_eq_iff :
    (links u triples).classes.root i = (links u triples).classes.root j ↔
      Relation.ReflTransGen
        (fun k l : Fin triples.length =>
          ∃ v, v ∈ u.vars (triples.get k) ∧ v ∈ u.vars (triples.get l)) i j := by
  have hsharing : VariableLinks.Sharing (occurrences u triples) =
      fun k l => ∃ v, v ∈ u.vars (triples.get k) ∧ v ∈ u.vars (triples.get l) := by
    funext k l
    simp only [VariableLinks.Sharing, mem_occurrences]
  rw [(tracks_links u triples).root_eq_iff, hsharing]

end Decomposer
end FederatedJoin
