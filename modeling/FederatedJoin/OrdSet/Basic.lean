/-!
# Finite sets as ascending lists

A finite set over a linear order, kept as the strictly ascending list of its members. Equal sets
are equal values, so sets can be compared, hashed and used as keys, and every walk over a set is
in ascending order.

## Main definitions

* `OrdSet` — a strictly ascending list; `OrdSet.toList` is its view.
* `OrdSet.filter`, `OrdSet.erase` — selections of members.
* `OrdSet.min?`, `OrdSet.max?` — the least and the greatest member.

The main statement is `OrdSet.ext`: a set is determined by its members.
-/

namespace FederatedJoin

/-- A finite set, as the strictly ascending list of its members. -/
structure OrdSet (α : Type) [LT α] where
  toList : List α
  ascending : toList.Pairwise (· < ·)
  deriving DecidableEq

namespace OrdSet

variable {α : Type} [LT α]

instance : Membership α (OrdSet α) := ⟨fun s a => a ∈ s.toList⟩

@[simp, grind =] theorem mem_toList {s : OrdSet α} {a : α} : a ∈ s.toList ↔ a ∈ s := Iff.rfl

instance [DecidableEq α] (s : OrdSet α) (a : α) : Decidable (a ∈ s) :=
  inferInstanceAs (Decidable (a ∈ s.toList))

instance [Hashable α] : Hashable (OrdSet α) := ⟨fun s => hash s.toList⟩

/-! ## Sets without and with one member -/

/-- The set without members. -/
protected def empty : OrdSet α := ⟨[], .nil⟩

instance : EmptyCollection (OrdSet α) := ⟨OrdSet.empty⟩

instance : Inhabited (OrdSet α) := ⟨∅⟩

@[simp] theorem toList_empty : (∅ : OrdSet α).toList = [] := rfl

@[simp, grind .] theorem not_mem_empty {a : α} : a ∉ (∅ : OrdSet α) := List.not_mem_nil

instance : Singleton α (OrdSet α) := ⟨fun a => ⟨[a], List.pairwise_singleton _ a⟩⟩

@[simp, grind =] theorem mem_singleton {a b : α} : a ∈ ({b} : OrdSet α) ↔ a = b :=
  List.mem_singleton

/-- The number of members. -/
def size (s : OrdSet α) : Nat := s.toList.length

/-- Whether there is no member. -/
def isEmpty (s : OrdSet α) : Bool := s.toList.isEmpty

@[simp] theorem isEmpty_iff {s : OrdSet α} : s.isEmpty = true ↔ s = ∅ := by
  obtain ⟨l, h⟩ := s
  cases l <;> simp [isEmpty, EmptyCollection.emptyCollection, OrdSet.empty]

@[simp] theorem isEmpty_eq_false_iff {s : OrdSet α} : s.isEmpty = false ↔ s ≠ ∅ := by
  rw [← Bool.not_eq_true, ne_eq, isEmpty_iff]

theorem exists_mem_of_ne_empty {s : OrdSet α} (h : s ≠ ∅) : ∃ a, a ∈ s := by
  obtain ⟨l, hl⟩ := s
  cases l with
  | nil => exact absurd rfl h
  | cons a l => exact ⟨a, List.mem_cons_self⟩

/-! ## Inclusion and disjointness -/

instance : HasSubset (OrdSet α) := ⟨fun s t => ∀ a ∈ s.toList, a ∈ t⟩

@[grind =] theorem subset_iff {s t : OrdSet α} : s ⊆ t ↔ ∀ a ∈ s, a ∈ t := Iff.rfl

theorem exists_mem_of_not_subset {s t : OrdSet α} (h : ¬s ⊆ t) : ∃ a ∈ s, a ∉ t := by
  obtain ⟨a, ha⟩ := Classical.not_forall.1 h
  exact ⟨a, Classical.not_imp.1 ha⟩

/-- No member in common. -/
def Disjoint (s t : OrdSet α) : Prop := ∀ a ∈ s.toList, a ∉ t

@[grind =] theorem disjoint_iff {s t : OrdSet α} : s.Disjoint t ↔ ∀ a ∈ s, a ∉ t := Iff.rfl

instance : Std.Symm (@OrdSet.Disjoint α _) := ⟨fun _ _ h a ht hs => h a hs ht⟩

theorem disjoint_comm {s t : OrdSet α} : s.Disjoint t ↔ t.Disjoint s :=
  ⟨fun h a ht hs => h a hs ht, fun h a hs ht => h a ht hs⟩

theorem exists_mem_of_not_disjoint {s t : OrdSet α} (h : ¬s.Disjoint t) : ∃ a ∈ s, a ∈ t := by
  obtain ⟨a, ha⟩ := Classical.not_forall.1 h
  exact ⟨a, (Classical.not_imp.1 ha).imp_right Classical.not_not.1⟩

theorem not_disjoint_of_mem {s t : OrdSet α} {a : α} (hs : a ∈ s) (ht : a ∈ t) : ¬s.Disjoint t :=
  fun h => h a hs ht

theorem not_disjoint_of_subset {s s' t : OrdSet α} (hsub : s ⊆ s') (h : ¬s.Disjoint t) :
    ¬s'.Disjoint t :=
  fun hdisjoint => h fun a ha => hdisjoint a (hsub a ha)

/-! ## Selections -/

/-- The members that satisfy `p`. -/
def filter (p : α → Bool) (s : OrdSet α) : OrdSet α := ⟨s.toList.filter p, s.ascending.filter p⟩

@[simp, grind =] theorem mem_filter {p : α → Bool} {s : OrdSet α} {a : α} :
    a ∈ s.filter p ↔ a ∈ s ∧ p a = true := List.mem_filter

/-- The set without the member `a`. -/
def erase [DecidableEq α] (s : OrdSet α) (a : α) : OrdSet α := s.filter (· ≠ a)

@[simp, grind =] theorem mem_erase [DecidableEq α] {s : OrdSet α} {a b : α} :
    a ∈ s.erase b ↔ a ∈ s ∧ a ≠ b := by
  simp [erase]

theorem size_erase_lt [DecidableEq α] {s : OrdSet α} {a : α} (h : a ∈ s) :
    (s.erase a).size < s.size :=
  List.length_filter_lt_length_iff_exists.2 ⟨a, h, by simp⟩

/-! ## Least and greatest member -/

omit [LT α] in
/-- What is found first in an ordered list comes before all else that could be found. -/
theorem rel_of_find?_eq_some {r : α → α → Prop} {l : List α} {p : α → Bool} {a b : α}
    (ordered : l.Pairwise r) (found : l.find? p = some a) (hb : b ∈ l) (hp : p b = true) :
    b = a ∨ r a b := by
  obtain ⟨-, before, after, rfl, hbefore⟩ := List.find?_eq_some_iff_append.1 found
  rcases List.mem_append.1 hb with hb | hb
  · have hnot := hbefore b hb
    rw [hp] at hnot
    cases hnot
  · have hlater := (List.pairwise_append.1 ordered).2.1
    exact (List.mem_cons.1 hb).imp_right ((List.pairwise_cons.1 hlater).1 b)

/-- The least member. -/
def min? (s : OrdSet α) : Option α := s.toList.head?

/-- The greatest member. -/
def max? (s : OrdSet α) : Option α := s.toList.getLast?

variable [LE α] [Std.IsLinearOrder α] [Std.LawfulOrderLT α]

theorem min?_eq_some_iff {s : OrdSet α} {a : α} :
    s.min? = some a ↔ a ∈ s ∧ ∀ b ∈ s, a ≤ b := by
  obtain ⟨l, h⟩ := s
  cases l with
  | nil => exact ⟨nofun, fun h => absurd h.1 List.not_mem_nil⟩
  | cons c l =>
    have hc := (List.pairwise_cons.1 h).1
    simp only [min?, List.head?_cons, Option.some.injEq, Membership.mem]
    constructor
    · rintro rfl
      refine ⟨.head _, fun b hb => ?_⟩
      rcases List.mem_cons.1 hb with rfl | hb
      · exact Std.le_refl _
      · exact Std.le_of_lt (hc b hb)
    · rintro ⟨ha, hle⟩
      rcases List.mem_cons.1 ha with rfl | ha
      · rfl
      · exact absurd (hc a ha) (Std.not_lt.2 (hle c (.head _)))

theorem max?_eq_some_iff {s : OrdSet α} {a : α} :
    s.max? = some a ↔ a ∈ s ∧ ∀ b ∈ s, b ≤ a := by
  obtain ⟨l, h⟩ := s
  rcases List.eq_nil_or_concat l with rfl | ⟨l, c, hlc⟩
  · exact ⟨nofun, fun h => absurd h.1 List.not_mem_nil⟩
  · rw [List.concat_eq_append] at hlc
    subst hlc
    have hc : ∀ b ∈ l, b < c := fun b hb =>
      (List.pairwise_append.1 h).2.2 b hb c (by simp)
    simp only [max?, List.getLast?_append, List.getLast?_singleton, Option.some_or,
      Option.some.injEq]
    constructor
    · rintro rfl
      refine ⟨List.mem_append_right _ (.head _), fun b hb => ?_⟩
      rcases List.mem_append.1 hb with hb | hb
      · exact Std.le_of_lt (hc b hb)
      · rw [List.mem_singleton.1 hb]; exact Std.le_refl _
    · rintro ⟨ha, hle⟩
      rcases List.mem_append.1 ha with ha | ha
      · exact absurd (hc a ha) (Std.not_lt.2 (hle c (List.mem_append_right _ (.head _))))
      · exact (List.mem_singleton.1 ha).symm

/-- The members are searched in ascending order. -/
theorem find?_toList_eq_some_iff {s : OrdSet α} {p : α → Bool} {a : α} :
    s.toList.find? p = some a ↔ (a ∈ s ∧ p a = true) ∧ ∀ b ∈ s, p b = true → a ≤ b := by
  constructor
  · intro found
    refine ⟨⟨List.mem_of_find?_eq_some found, List.find?_some found⟩, fun b hb hp => ?_⟩
    rcases rel_of_find?_eq_some s.ascending found hb hp with rfl | hlt
    · exact Std.le_refl _
    · exact Std.le_of_lt hlt
  · rintro ⟨⟨ha, hp⟩, least⟩
    cases found : s.toList.find? p with
    | none => exact absurd hp (List.find?_eq_none.1 found a ha)
    | some b =>
      have hle := least b (List.mem_of_find?_eq_some found) (List.find?_some found)
      rcases rel_of_find?_eq_some s.ascending found ha hp with rfl | hlt
      · rfl
      · exact absurd hlt (Std.not_lt.2 hle)

/-! ## Extensionality -/

omit [Std.IsLinearOrder α] in
theorem nodup_toList (s : OrdSet α) : s.toList.Nodup := by
  refine s.ascending.imp fun {a b} (hab : a < b) => ?_
  rintro rfl
  exact Std.lt_irrefl hab

private theorem eq_of_mem_iff {l m : List α} (hl : l.Pairwise (· < ·)) (hm : m.Pairwise (· < ·))
    (h : ∀ a, a ∈ l ↔ a ∈ m) : l = m := by
  induction l generalizing m with
  | nil => cases m with
    | nil => rfl
    | cons b m => exact absurd ((h b).2 (.head _)) List.not_mem_nil
  | cons a l ih => cases m with
    | nil => exact absurd ((h a).1 (.head _)) List.not_mem_nil
    | cons b m =>
      obtain ⟨ha, hl'⟩ := List.pairwise_cons.1 hl
      obtain ⟨hb, hm'⟩ := List.pairwise_cons.1 hm
      have hab : a = b := by
        rcases List.mem_cons.1 ((h a).1 (.head _)) with hab | hab
        · exact hab
        rcases List.mem_cons.1 ((h b).2 (.head _)) with hba | hba
        · exact hba.symm
        · exact absurd (Std.lt_trans (hb a hab) (ha b hba)) Std.lt_irrefl
      subst hab
      refine congrArg _ (ih hl' hm' fun c => ⟨fun hc => ?_, fun hc => ?_⟩)
      · rcases List.mem_cons.1 ((h c).1 (.tail _ hc)) with rfl | hc'
        · exact absurd (ha c hc) Std.lt_irrefl
        · exact hc'
      · rcases List.mem_cons.1 ((h c).2 (.tail _ hc)) with rfl | hc'
        · exact absurd (hb c hc) Std.lt_irrefl
        · exact hc'

/-- A set is determined by its members. -/
theorem ext {s t : OrdSet α} (h : ∀ a, a ∈ s ↔ a ∈ t) : s = t := by
  cases s; cases t
  exact congr_mk (eq_of_mem_iff ‹_› ‹_› h)
where congr_mk {l m : List α} {hl : l.Pairwise (· < ·)} {hm : m.Pairwise (· < ·)} (h : l = m) :
    OrdSet.mk l hl = OrdSet.mk m hm := by subst h; rfl

theorem eq_iff_subset {s t : OrdSet α} : s = t ↔ s ⊆ t ∧ t ⊆ s := by
  constructor
  · rintro rfl
    exact ⟨fun _ h => h, fun _ h => h⟩
  · intro h
    exact ext fun a => ⟨h.1 a, h.2 a⟩

private theorem eq_filter_of_subset [DecidableEq α] {s t : OrdSet α} (h : s ⊆ t) :
    s = t.filter (· ∈ s) :=
  ext fun a => by simpa using h a

theorem size_le_of_subset [DecidableEq α] {s t : OrdSet α} (h : s ⊆ t) : s.size ≤ t.size := by
  rw [eq_filter_of_subset h]
  exact List.length_filter_le _ _

theorem size_lt_of_subset [DecidableEq α] {s t : OrdSet α} {a : α} (h : s ⊆ t) (ht : a ∈ t)
    (hs : a ∉ s) : s.size < t.size := by
  rw [eq_filter_of_subset h]
  exact List.length_filter_lt_length_iff_exists.2 ⟨a, ht, by simpa using hs⟩

theorem eq_of_subset_of_size_le [DecidableEq α] {s t : OrdSet α} (h : s ⊆ t)
    (hsize : t.size ≤ s.size) : s = t := by
  apply ext
  intro a
  refine ⟨h a, fun ha => ?_⟩
  by_cases has : a ∈ s
  · exact has
  · exact absurd (size_lt_of_subset h ha has) (Nat.not_lt.2 hsize)

end OrdSet
end FederatedJoin
