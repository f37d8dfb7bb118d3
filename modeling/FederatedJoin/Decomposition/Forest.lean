/-!
# Disjoint classes

The positions below `n` divided into disjoint classes, as a forest in which every position points
to a position of its class that is not greater. The root of a tree is the least position of its
class.

## Main definitions

* `Forest` — with `Forest.singletons`, `Forest.root`, `Forest.find` and `Forest.merge`.

The view of a forest is `Forest.root`. The main statements are `Forest.root_find`, that a look-up
changes no root, and `Forest.root_merge`.
-/

namespace FederatedJoin

/-- A parent for every position below `n`. Parents are not greater than their children, so every
chain of parents ends. -/
structure Forest (n : Nat) where
  parents : Vector (Fin n) n
  parent_le : ∀ i : Fin n, parents[i] ≤ i

namespace Forest

variable {n : Nat}

/-- Every position is a class of its own. -/
def singletons (n : Nat) : Forest n := ⟨Vector.ofFn id, by simp⟩

/-- The parent of a position. -/
def parent (f : Forest n) (i : Fin n) : Fin n := f.parents[i]

theorem parent_lt {f : Forest n} {i : Fin n} (h : f.parent i ≠ i) : f.parent i < i :=
  Std.lt_of_le_of_ne (f.parent_le i) h

/-! ## Roots -/

/-- The root above a position. -/
def root (f : Forest n) (i : Fin n) : Fin n :=
  if h : f.parent i = i then i
  else
    have := parent_lt h
    f.root (f.parent i)
termination_by i.val

theorem root_of_parent_eq {f : Forest n} {i : Fin n} (h : f.parent i = i) : f.root i = i := by
  rw [root, dif_pos h]

theorem root_parent (f : Forest n) (i : Fin n) : f.root (f.parent i) = f.root i := by
  by_cases h : f.parent i = i
  · rw [h]
  · conv => rhs; rw [root, dif_neg h]

theorem parent_root (f : Forest n) (i : Fin n) : f.parent (f.root i) = f.root i := by
  fun_induction root f i with
  | case1 i h => exact h
  | case2 i h hlt ih => exact ih

theorem root_singletons (i : Fin n) : (singletons n).root i = i :=
  root_of_parent_eq (by simp [parent, singletons])

theorem root_root (f : Forest n) (i : Fin n) : f.root (f.root i) = f.root i :=
  root_of_parent_eq (f.parent_root i)

theorem root_le (f : Forest n) (i : Fin n) : f.root i ≤ i := by
  fun_induction root f i with
  | case1 i h => exact Fin.le_refl i
  | case2 i h hlt ih => exact Fin.le_trans ih (Fin.le_of_lt hlt)

/-! ## Changing a parent -/

/-- Points a position to another one that is not greater. -/
def setParent (f : Forest n) (i j : Fin n) (h : j ≤ i) : Forest n :=
  { parents := f.parents.set i j
    parent_le := fun k => by
      by_cases hk : i = k
      · subst hk
        simpa using h
      · have : ¬i.val = k.val := fun h => hk (Fin.ext h)
        simpa [Vector.getElem_set, this] using f.parent_le k }

theorem parent_setParent (f : Forest n) {i j : Fin n} (h : j ≤ i) (k : Fin n) :
    (f.setParent i j h).parent k = if k = i then j else f.parent k := by
  by_cases hk : k = i
  · simp [parent, setParent, hk]
  · have : ¬i.val = k.val := fun h => hk (Fin.ext h.symm)
    simp [parent, setParent, this, hk]

/-- Pointing a position to its root changes no root. -/
theorem root_setParent_root {f : Forest n} {i r : Fin n} (h : r ≤ i) (hr : f.root i = r)
    (k : Fin n) : (f.setParent i r h).root k = f.root k := by
  fun_induction root (f.setParent i r h) k with
  | case1 k hk =>
    rw [parent_setParent] at hk
    split at hk
    · next e => rw [e, hr, hk, e]
    · exact (root_of_parent_eq hk).symm
  | case2 k hk hlt ih =>
    rw [ih, parent_setParent]
    split
    · next e => rw [e, hr, ← hr, root_root]
    · exact root_parent f k

/-- Pointing a root to a smaller root joins the two trees. -/
theorem root_setParent_of_isRoot {f : Forest n} {i r : Fin n} (h : r ≤ i) (hi : f.parent i = i)
    (hr : f.parent r = r) (k : Fin n) :
    (f.setParent i r h).root k = if f.root k = i then r else f.root k := by
  fun_induction root (f.setParent i r h) k with
  | case1 k hk =>
    rw [parent_setParent] at hk
    split at hk
    · next e => subst e hk; simp [root_of_parent_eq hi]
    · next e => rw [root_of_parent_eq hk, if_neg e]
  | case2 k hk hlt ih =>
    rw [ih, parent_setParent]
    split
    · next e => simp [e, root_of_parent_eq hr, root_of_parent_eq hi]
    · rw [root_parent]

/-! ## Look-up and merging -/

/-- The root above a position, and the forest in which all positions on the way point to it. -/
def find (f : Forest n) (i : Fin n) : { root : Fin n // root ≤ i } × Forest n :=
  if h : f.parent i = i then (⟨i, Fin.le_refl i⟩, f)
  else
    have := parent_lt h
    let (root, g) := f.find (f.parent i)
    have hi : root.val ≤ i := Fin.le_trans root.property (Fin.le_of_lt this)
    (⟨root, hi⟩, g.setParent i root hi)
termination_by i.val

theorem find_fst (f : Forest n) (i : Fin n) : (f.find i).1.val = f.root i := by
  fun_induction root f i with
  | case1 i h => rw [find, dif_pos h]
  | case2 i h hlt ih => rw [find, dif_neg h]; exact ih

theorem root_find (f : Forest n) (i : Fin n) : ∀ k, (f.find i).2.root k = f.root k := by
  fun_induction find f i with
  | case1 i h => exact fun _ => rfl
  | case2 i h hlt root g hfind hi ih =>
    rw [hfind] at ih
    have hroot : root.val = f.root i := by
      rw [← root_parent f i, ← find_fst f (f.parent i), hfind]
    intro k
    rw [root_setParent_root hi ((ih i).trans hroot.symm), ih k]

/-- Merges the classes of two positions. The smaller root is the root of both. -/
def merge (f : Forest n) (i j : Fin n) : Forest n :=
  let (⟨a, _⟩, f) := f.find i
  let (⟨b, _⟩, f) := f.find j
  if h : a ≤ b then f.setParent b a h else f.setParent a b (Fin.le_of_lt (Fin.not_le.1 h))

theorem root_merge (f : Forest n) (i j k : Fin n) :
    (f.merge i j).root k =
      if f.root i ≤ f.root j then if f.root k = f.root j then f.root i else f.root k
      else if f.root k = f.root i then f.root j else f.root k := by
  have hi : (f.find i).1.val = f.root i := find_fst f i
  have hj : ((f.find i).2.find j).1.val = f.root j := (find_fst _ j).trans (root_find f i j)
  have hroot : ∀ m, ((f.find i).2.find j).2.root m = f.root m := fun m =>
    (root_find _ j m).trans (root_find f i m)
  have hparent : ∀ m, ((f.find i).2.find j).2.parent (f.root m) = f.root m := fun m =>
    hroot m ▸ parent_root _ m
  unfold merge
  dsimp only
  split
  · next h =>
    have hle : f.root i ≤ f.root j := hi ▸ hj ▸ h
    rw [root_setParent_of_isRoot h (hj ▸ hparent j) (hi ▸ hparent i), if_pos hle, hroot, hi, hj]
  · next h =>
    have hle : ¬f.root i ≤ f.root j := hi ▸ hj ▸ h
    rw [root_setParent_of_isRoot _ (hi ▸ hparent i) (hj ▸ hparent j), if_neg hle, hroot, hi, hj]

end Forest
end FederatedJoin
