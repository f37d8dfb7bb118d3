import FederatedJoin.Decomposition.Parents
import FederatedJoin.Proofs.Decomposition.Links
import Mathlib.Order.Bounds.Basic

/-!
# The loops over the parents of a forest

On the parents of a forest both loops of a look-up end, because they go on to a smaller position
each time, and they leave the parents of a forest behind.

* `Forest.find_eq_find_setParent` — a look-up as one write and a look-up of the next position.
* `Parents.find_toParents`, `Parents.merge_toParents` — bare parents keep in step with the forest.
* `Forest.GeneratedBy` — the equivalence that the classes are, kept by one call and by a run.
* `Parents.run_generates_classes` — what holds after any sequence of calls.
-/

namespace FederatedJoin

open Relation (EqvGen)

variable {n : Nat}

/-! ## What a look-up writes -/

namespace Forest

variable {f : Forest n} {i j r s : Fin n}

theorem ext_parent {f g : Forest n} (h : ∀ k, f.parent k = g.parent k) : f = g := by
  obtain ⟨ps, _⟩ := f
  obtain ⟨qs, _⟩ := g
  congr
  exact Vector.ext fun i hi => h ⟨i, hi⟩

theorem setParent_eq_self (h : j ≤ i) (hj : f.parent i = j) : f.setParent i j h = f := by
  apply ext_parent
  grind [parent_setParent]

theorem setParent_comm (f : Forest n) (hi : r ≤ i) (hj : s ≤ j) (hij : i ≠ j) :
    (f.setParent i r hi).setParent j s hj = (f.setParent j s hj).setParent i r hi := by
  apply ext_parent
  grind [parent_setParent]

theorem parent_setParent_of_lt (h : r ≤ i) (hj : j < i) :
    (f.setParent i r h).parent j = f.parent j := by
  rw [parent_setParent, if_neg (Fin.ne_of_lt hj)]

theorem root_setParent_of_lt (h : r ≤ i) (hj : j < i) :
    (f.setParent i r h).root j = f.root j := by
  fun_induction root f j with
  | case1 j hroot => exact root_of_parent_eq ((parent_setParent_of_lt h hj).trans hroot)
  | case2 j hne hlt ih =>
    rw [← root_parent, parent_setParent_of_lt h hj]
    exact ih (Fin.lt_trans hlt hj)

theorem find_of_parent_eq (h : f.parent i = i) : (f.find i).2 = f := by
  rw [find, dif_pos h]

theorem find_of_parent_ne (h : f.parent i ≠ i) :
    (f.find i).2 = (f.find (f.parent i)).2.setParent i (f.root i) (f.root_le i) := by
  have hroot : (f.find (f.parent i)).1.val = f.root i := (find_fst f _).trans (f.root_parent i)
  rw [find, dif_neg h]
  simp only [hroot]

/-- A look-up neither reads nor writes the parent of a greater position. -/
theorem find_setParent_of_lt (h : r ≤ i) (hj : j < i) :
    ((f.setParent i r h).find j).2 = (f.find j).2.setParent i r h := by
  fun_induction root f j with
  | case1 j hroot =>
    rw [find_of_parent_eq hroot, find_of_parent_eq ((parent_setParent_of_lt h hj).trans hroot)]
  | case2 j hne hlt ih =>
    have hparent : (f.setParent i r h).parent j = f.parent j := parent_setParent_of_lt h hj
    have hroot : (f.setParent i r h).root j = f.root j := root_setParent_of_lt h hj
    rw [find_of_parent_ne (hparent ▸ hne), find_of_parent_ne hne]
    simp only [hroot]
    rw [hparent, ih (Fin.lt_trans hlt hj)]
    exact setParent_comm _ _ _ (Fin.ne_of_gt hj)

/-- The position can be pointed to its root before the position above it is looked up. -/
theorem find_eq_find_setParent (h : f.parent i ≠ i) :
    (f.find i).2 = ((f.setParent i (f.root i) (f.root_le i)).find (f.parent i)).2 := by
  rw [find_of_parent_ne h, find_setParent_of_lt _ (parent_lt h)]

theorem find_of_parent_eq_root (h : f.parent i = f.root i) : (f.find i).2 = f := by
  by_cases hi : f.parent i = i
  · exact find_of_parent_eq hi
  · have hparent : f.parent (f.parent i) = f.parent i := h ▸ f.parent_root i
    rw [find_of_parent_ne hi, find_of_parent_eq hparent, setParent_eq_self _ h]

theorem merge_eq (f : Forest n) (i j : Fin n) :
    let g := ((f.find i).2.find j).2
    f.merge i j =
      if h : f.root i ≤ f.root j then g.setParent (f.root j) (f.root i) h
      else g.setParent (f.root i) (f.root j) (Fin.le_of_lt (Fin.not_le.1 h)) := by
  have hi : (f.find i).1.val = f.root i := find_fst f i
  have hj : ((f.find i).2.find j).1.val = f.root j := (find_fst _ j).trans (root_find f i j)
  simp only [merge, hi, hj]

end Forest

namespace Parents

/-! ## One pass of a loop -/

section Passes
variable {σ ρ : Type} {pass : σ → Option (ρ ⊕ σ)} {s t : σ} {result : ρ}
variable {parents changed merged : Parents} {i j p root a b : Nat}

theorem loop_of_stop (h : pass s = some (.inl result)) : loop pass s = Part.some result :=
  Part.eq_some_iff.2 (PFun.fix_stop (by simp [h]))

theorem loop_of_next (h : pass s = some (.inr t)) : loop pass s = loop pass t :=
  PFun.fix_fwd_eq (by simp [h])

theorem climb_of_eq (h : parents[i]? = some i) : parents.climb i = Part.some i :=
  loop_of_stop (by simp [climbPass, h])

theorem climb_of_ne (h : parents[i]? = some p) (hne : p ≠ i) :
    parents.climb i = parents.climb p :=
  loop_of_next (by simp [climbPass, h, hne])

theorem compress_of_eq (h : parents[i]? = some root) :
    parents.compress root i = Part.some parents :=
  loop_of_stop (by simp [compressPass, h])

theorem compress_of_ne (h : parents[i]? = some p) (hne : p ≠ root)
    (hpoint : parents.point i root = some changed) :
    parents.compress root i = changed.compress root p :=
  loop_of_next (by simp [compressPass, h, hne, hpoint])

theorem merge_of_find (hi : parents.find i = Part.some (a, changed))
    (hj : changed.find j = Part.some (b, merged)) :
    parents.merge i j =
      if a = b then Part.some merged else merged.point (max a b) (min a b) := by
  simp [merge, hi, hj]

end Passes

/-! ## In step with a forest -/

variable (f : Forest n) (i j : Fin n)

theorem toParents_singletons : (Forest.singletons n).toParents = singletons n := by
  apply Array.ext
  · simp [Forest.toParents, singletons]
  · simp [Forest.toParents, singletons, Forest.singletons]

theorem getElem?_toParents : f.toParents[i.val]? = some (f.parent i).val := by
  simp [Forest.toParents, Forest.parent]

theorem point_toParents {f : Forest n} {i j : Fin n} (h : j ≤ i) :
    f.toParents.point i j = some (f.setParent i j h).toParents := by
  simp [point, Forest.toParents, Forest.setParent]

theorem climb_toParents : f.toParents.climb i = Part.some (f.root i).val := by
  fun_induction Forest.root f i with
  | case1 i h => exact climb_of_eq ((getElem?_toParents f i).trans (by rw [h]))
  | case2 i h hlt ih => rw [climb_of_ne (getElem?_toParents f i) (Fin.val_ne_of_ne h), ih]

theorem compress_toParents :
    f.toParents.compress (f.root i) i = Part.some (f.find i).2.toParents := by
  -- The parents change from one pass to the next, so the induction is over all forests.
  induction i using WellFoundedLT.induction generalizing f with
  | ind i ih =>
    by_cases h : f.parent i = f.root i
    · rw [Forest.find_of_parent_eq_root h]
      exact compress_of_eq (h ▸ getElem?_toParents f i)
    · have hne : f.parent i ≠ i := fun hi => h (by rw [Forest.root_of_parent_eq hi, hi])
      have hlt : f.parent i < i := Forest.parent_lt hne
      have hroot := (Forest.root_setParent_of_lt (f.root_le i) hlt).trans (f.root_parent i)
      have later := ih _ hlt (f.setParent i (f.root i) (f.root_le i))
      rw [hroot] at later
      rw [compress_of_ne (getElem?_toParents f i) (Fin.val_ne_of_ne h)
        (point_toParents (f.root_le i)), later, Forest.find_eq_find_setParent hne]

theorem find_toParents :
    f.toParents.find i = Part.some ((f.root i).val, (f.find i).2.toParents) := by
  simp [find, climb_toParents, compress_toParents]

theorem merge_toParents : f.toParents.merge i j = Part.some (f.merge i j).toParents := by
  have hroot : (f.find i).2.root j = f.root j := f.root_find i j
  have hparent : ((f.find i).2.find j).2.parent (f.root j) = f.root j := by
    rw [← hroot, ← Forest.root_find _ j, Forest.parent_root]
  rw [merge_of_find (find_toParents f i) (find_toParents _ j), hroot, Forest.merge_eq]
  rcases lt_trichotomy (f.root i) (f.root j) with h | h | h
  · have hle : f.root i ≤ f.root j := Fin.le_of_lt h
    rw [if_neg (Nat.ne_of_lt h), dif_pos hle, Nat.max_eq_right hle, Nat.min_eq_left hle,
      point_toParents hle]
    rfl
  · -- The forest points the root to itself here, and the bare parents stay as they are.
    rw [if_pos (congrArg Fin.val h), dif_pos (Fin.le_of_eq h), Forest.setParent_eq_self]
    exact hparent.trans h.symm
  · have hle : f.root j ≤ f.root i := Fin.le_of_lt h
    rw [if_neg (Nat.ne_of_gt h), dif_neg (Fin.not_le.2 h), Nat.max_eq_left hle,
      Nat.min_eq_right hle, point_toParents hle]
    rfl

theorem call_toParents (c : Forest.Call n) :
    f.toParents.call c = Part.some (f.call c).toParents := by
  cases c with
  | find i => simp [call, find_toParents, Forest.call]
  | merge i j => exact merge_toParents f i j

theorem run_toParents (calls : List (Forest.Call n)) :
    f.toParents.run calls = Part.some (f.run calls).toParents := by
  induction calls generalizing f with
  | nil => rfl
  | cons c calls ih =>
    rw [run, List.foldlM_cons, call_toParents, Part.bind_eq_bind, Part.bind_some]
    exact ih (f.call c)

end Parents

/-! ## The classes after some calls -/

namespace Forest

variable {f : Forest n} {r : Fin n → Fin n → Prop} {calls : List (Call n)} {i j : Fin n}

/-- One of the calls merges the two positions. -/
def MergedBy (calls : List (Call n)) (i j : Fin n) : Prop := .merge i j ∈ calls

/-- The classes are those of the equivalence that a relation generates. -/
structure GeneratedBy (f : Forest n) (r : Fin n → Fin n → Prop) : Prop where
  joined : ∀ {i j}, r i j → f.root i = f.root j
  linked : ∀ {i j}, f.root i = f.root j → EqvGen r i j

theorem GeneratedBy.root_eq_iff (h : f.GeneratedBy r) : f.root i = f.root j ↔ EqvGen r i j := by
  refine ⟨h.linked, fun hij => ?_⟩
  induction hij with
  | rel i j hij => exact h.joined hij
  | refl i => rfl
  | symm i j _ ih => exact ih.symm
  | trans i j k _ _ ih ih' => exact ih.trans ih'

theorem GeneratedBy.isLeast_root (h : f.GeneratedBy r) (i : Fin n) :
    IsLeast {j | EqvGen r i j} (f.root i) := by
  refine ⟨h.linked (f.root_root i).symm, fun j hj => ?_⟩
  exact (h.root_eq_iff.2 hj).trans_le (f.root_le j)

theorem generatedBy_singletons : (singletons n).GeneratedBy (MergedBy []) where
  joined h := absurd h List.not_mem_nil
  linked {i j} h := by
    rw [root_singletons, root_singletons] at h
    exact h ▸ .refl i

/-- A look-up changes no root, and a merging joins two classes. -/
theorem GeneratedBy.call (h : f.GeneratedBy (MergedBy calls)) (c : Call n) :
    (f.call c).GeneratedBy (MergedBy (calls ++ [c])) := by
  have prior : ∀ {k l}, f.root k = f.root l → EqvGen (MergedBy (calls ++ [c])) k l := fun hkl =>
    EqvGen.mono (fun _ _ => List.mem_append_left [c]) _ _ (h.linked hkl)
  have hmem : ∀ {k l}, MergedBy (calls ++ [c]) k l → f.root k = f.root l ∨ c = .merge k l :=
    fun hkl => (List.mem_append.1 hkl).imp h.joined fun hc => (List.mem_singleton.1 hc).symm
  cases c with
  | find i =>
    constructor
    · intro k l hkl
      rw [Forest.call, root_find, root_find]
      exact (hmem hkl).resolve_right (by simp)
    · intro k l hkl
      rw [Forest.call, root_find, root_find] at hkl
      exact prior hkl
  | merge i j =>
    have hlink : EqvGen (MergedBy (calls ++ [.merge i j])) i j :=
      .rel i j (List.mem_append_right calls List.mem_cons_self)
    constructor
    · intro k l hkl
      rw [Forest.call, root_merge_eq_iff]
      rcases hmem hkl with hkl | hkl
      · exact .inl hkl
      · cases hkl
        exact .inr (.inl ⟨rfl, rfl⟩)
    · intro k l hkl
      rw [Forest.call, root_merge_eq_iff] at hkl
      rcases hkl with hkl | ⟨hk, hl⟩ | ⟨hk, hl⟩
      · exact prior hkl
      · exact ((prior hk).trans _ _ _ hlink).trans _ _ _ (prior hl.symm)
      · exact ((prior hk).trans _ _ _ hlink.symm).trans _ _ _ (prior hl.symm)

theorem GeneratedBy.run (h : f.GeneratedBy (MergedBy calls)) (later : List (Call n)) :
    (f.run later).GeneratedBy (MergedBy (calls ++ later)) := by
  induction later generalizing f calls with
  | nil => rwa [List.append_nil]
  | cons c later ih =>
    rw [List.append_cons]
    exact ih (h.call c)

end Forest

/-- After any sequence of look-ups and mergings of singletons, every position has a parent that is
not greater. Both loops of a further look-up end, it finds the least position of the class, and no
root changes. Two positions are in one class if and only if the merged pairs make them
equivalent. -/
theorem Parents.run_generates_classes (n : Nat) (calls : List (Forest.Call n)) :
    let forest := (Forest.singletons n).run calls
    let parents := forest.toParents
    let Same := EqvGen (Forest.MergedBy calls)
    (singletons n).run calls = Part.some parents ∧
    (∀ i : Fin n, ∃ p : Fin n, parents[i.val]? = some p.val ∧ p ≤ i) ∧
    (∀ i : Fin n, parents.climb i = Part.some (forest.root i).val ∧
      IsLeast {j | Same i j} (forest.root i)) ∧
    (∀ i : Fin n, ∃ compressed : Forest n,
      parents.compress (forest.root i) i = Part.some compressed.toParents ∧
      parents.find i = Part.some ((forest.root i).val, compressed.toParents) ∧
      forest.find i = (⟨forest.root i, forest.root_le i⟩, compressed) ∧
      ∀ k, compressed.root k = forest.root k) ∧
    ∀ i j, forest.root i = forest.root j ↔ Same i j := by
  intro forest parents Same
  have generated : forest.GeneratedBy (Forest.MergedBy calls) :=
    Forest.generatedBy_singletons.run calls
  refine ⟨?_, fun i => ?_, fun i => ?_, fun i => ?_, fun i j => generated.root_eq_iff⟩
  · rw [← toParents_singletons]
    exact run_toParents _ calls
  · exact ⟨forest.parent i, getElem?_toParents forest i, forest.parent_le i⟩
  · exact ⟨climb_toParents forest i, generated.isLeast_root i⟩
  · exact ⟨(forest.find i).2, compress_toParents forest i, find_toParents forest i,
      Prod.ext (Subtype.ext (forest.find_fst i)) rfl, forest.root_find i⟩

end FederatedJoin
