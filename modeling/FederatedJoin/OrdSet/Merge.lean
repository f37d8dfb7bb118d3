import FederatedJoin.OrdSet.Basic

/-!
# Operations that merge ascending lists

Each operation walks its arguments once, and has one lemma that says what its members are.

## Main definitions

* `OrdSet.insert`, `OrdSet.ofList` — one more member, and the members of a list.
* `OrdSet.unions`, and the operators `∪`, `∩` and `\`.

Inclusion and disjointness are decided by `OrdSet.sdiff_eq_empty_iff` and
`OrdSet.inter_eq_empty_iff`.
-/

namespace FederatedJoin
namespace OrdSet

variable {α : Type} [LT α]

/-! ## Cuts of ascending lists -/

section Cuts
variable {l : List α} {p : α → Bool}

/-- In an ascending list, a property that passes to smaller entries holds up to some place. -/
private theorem mem_takeWhile (hl : l.Pairwise (· < ·)) (hp : ∀ a b, a < b → p b → p a) {a : α} :
    a ∈ l.takeWhile p ↔ a ∈ l ∧ p a := by
  induction l with
  | nil => simp
  | cons b l ih =>
    obtain ⟨hb, hl⟩ := List.pairwise_cons.1 hl
    by_cases hpb : p b
    · rw [List.takeWhile_cons_of_pos hpb, List.mem_cons, List.mem_cons, ih hl, or_and_right]
      exact or_congr_left ⟨fun h => ⟨h, h ▸ hpb⟩, And.left⟩
    · rw [List.takeWhile_cons_of_neg hpb]
      refine ⟨fun h => absurd h List.not_mem_nil, fun ⟨ha, hpa⟩ => absurd ?_ hpb⟩
      rcases List.mem_cons.1 ha with rfl | ha
      · exact hpa
      · exact hp b a (hb a ha) hpa

private theorem mem_dropWhile (hl : l.Pairwise (· < ·)) (hp : ∀ a b, a < b → p b → p a) {a : α} :
    a ∈ l.dropWhile p ↔ a ∈ l ∧ ¬p a := by
  induction l with
  | nil => simp
  | cons b l ih =>
    obtain ⟨hb, hl⟩ := List.pairwise_cons.1 hl
    by_cases hpb : p b
    · rw [List.dropWhile_cons_of_pos hpb, List.mem_cons, ih hl]
      exact ⟨fun ⟨h, ha⟩ => ⟨.inr h, ha⟩,
        fun ⟨h, ha⟩ => ⟨h.resolve_left fun h => ha (h ▸ hpb), ha⟩⟩
    · rw [List.dropWhile_cons_of_neg hpb]
      refine ⟨fun h => ⟨h, ?_⟩, And.left⟩
      rcases List.mem_cons.1 h with rfl | h
      · exact hpb
      · exact fun ha => hpb (hp b a (hb a h) ha)

end Cuts

variable [LE α] [Std.IsLinearOrder α] [Std.LawfulOrderLT α]
variable [DecidableLT α]

private theorem mem_takeWhile_lt {a b : α} {l : List α} (hl : l.Pairwise (· < ·)) :
    b ∈ l.takeWhile (· < a) ↔ b ∈ l ∧ b < a := by
  simpa using mem_takeWhile hl (p := fun b => b < a) fun c d hcd hda => by
    simpa using Std.lt_trans hcd (by simpa using hda)

private theorem mem_dropWhile_lt {a b : α} {l : List α} (hl : l.Pairwise (· < ·)) :
    b ∈ l.dropWhile (· < a) ↔ b ∈ l ∧ ¬b < a := by
  simpa using mem_dropWhile hl (p := fun b => b < a) fun c d hcd hda => by
    simpa using Std.lt_trans hcd (by simpa using hda)

private theorem mem_dropWhile_not_lt {a b : α} {l : List α} (hl : l.Pairwise (· < ·)) :
    b ∈ l.dropWhile (fun c => ¬a < c) ↔ b ∈ l ∧ a < b := by
  simpa using mem_dropWhile hl (p := fun c => ¬a < c) fun c d hcd hda => by
    simpa using fun hac => absurd (Std.lt_trans hac hcd) (by simpa using hda)

private theorem head?_dropWhile_lt {a : α} {l : List α} (hl : l.Pairwise (· < ·)) :
    (l.dropWhile (· < a)).head? = some a ↔ a ∈ l := by
  have hmem := @mem_dropWhile_lt _ _ _ _ _ _ a
  constructor
  · exact fun h => ((hmem hl).1 (List.mem_of_head? h)).1
  · intro h
    have ha := (hmem (b := a) hl).2 ⟨h, Std.lt_irrefl⟩
    have hl' := hl.sublist (List.dropWhile_sublist (· < a))
    cases hd : l.dropWhile (· < a) with
    | nil => simp [hd] at ha
    | cons b m =>
      have hb := ((hmem (b := b) hl).1 (hd ▸ .head _)).2
      rw [hd] at ha hl'
      rcases List.mem_cons.1 ha with hab | ham
      · rw [hab]; rfl
      · exact absurd ((List.pairwise_cons.1 hl').1 a ham) hb

/-! ## Adding a member -/

private def insertAscending (a : α) : List α → List α
  | [] => [a]
  | b :: l => if a < b then a :: b :: l else if b < a then b :: insertAscending a l else b :: l

private theorem mem_insertAscending {a b : α} {l : List α} :
    b ∈ insertAscending a l ↔ b = a ∨ b ∈ l := by
  fun_induction insertAscending a l with
  | case1 => simp
  | case2 c l h => simp
  | case3 c l h h' ih => simp only [List.mem_cons, ih, or_left_comm]
  | case4 c l h h' =>
    have : a = c := Std.le_antisymm (Std.not_lt.1 h') (Std.not_lt.1 h)
    simp [this]

private theorem pairwise_insertAscending {a : α} {l : List α} (hl : l.Pairwise (· < ·)) :
    (insertAscending a l).Pairwise (· < ·) := by
  fun_induction insertAscending a l with
  | case1 => exact List.pairwise_singleton _ _
  | case2 c l h =>
    refine List.pairwise_cons.2 ⟨fun b hb => ?_, hl⟩
    rcases List.mem_cons.1 hb with rfl | hb
    · exact h
    · exact Std.lt_trans h ((List.pairwise_cons.1 hl).1 b hb)
  | case3 c l h h' ih =>
    obtain ⟨hc, hl⟩ := List.pairwise_cons.1 hl
    refine List.pairwise_cons.2 ⟨fun b hb => ?_, ih hl⟩
    rcases mem_insertAscending.1 hb with rfl | hb
    · exact h'
    · exact hc b hb
  | case4 c l h h' => exact hl

/-- The set with the member `a` added. -/
def insert (s : OrdSet α) (a : α) : OrdSet α :=
  ⟨insertAscending a s.toList, pairwise_insertAscending s.ascending⟩

@[simp, grind =] theorem mem_insert {s : OrdSet α} {a b : α} : a ∈ s.insert b ↔ a = b ∨ a ∈ s :=
  mem_insertAscending

private theorem length_insertAscending {a : α} {l : List α} (h : a ∉ l) :
    (insertAscending a l).length = l.length + 1 := by
  fun_induction insertAscending a l with
  | case1 => rfl
  | case2 c l hac => rfl
  | case3 c l hac hca ih =>
    simp only [List.length_cons]
    rw [ih fun ha => h (List.mem_cons_of_mem c ha)]
  | case4 c l hac hca =>
    have : a = c := Std.le_antisymm (Std.not_lt.1 hca) (Std.not_lt.1 hac)
    exact absurd (this ▸ List.mem_cons_self) h

theorem size_insert {s : OrdSet α} {a : α} (h : a ∉ s) : (s.insert a).size = s.size + 1 :=
  length_insertAscending h

theorem erase_insert [DecidableEq α] {s : OrdSet α} {a : α} (h : a ∉ s) :
    (s.insert a).erase a = s := by
  apply ext
  intro b
  rw [mem_erase, mem_insert]
  constructor
  · rintro ⟨rfl | hb, hba⟩
    · exact absurd rfl hba
    · exact hb
  · intro hb
    exact ⟨.inr hb, fun hba => h (hba ▸ hb)⟩

theorem insert_erase [DecidableEq α] {s : OrdSet α} {a : α} (h : a ∈ s) :
    (s.erase a).insert a = s := by
  apply ext
  intro b
  rw [mem_insert, mem_erase]
  constructor
  · rintro (rfl | ⟨hb, -⟩)
    · exact h
    · exact hb
  · intro hb
    by_cases hba : b = a
    · exact .inl hba
    · exact .inr ⟨hb, hba⟩

theorem toList_insert_perm {s : OrdSet α} {a : α} (h : a ∉ s) :
    (s.insert a).toList.Perm (a :: s.toList) := by
  rw [List.perm_ext_iff_of_nodup (nodup_toList _) (List.nodup_cons.2 ⟨h, nodup_toList s⟩)]
  intro b
  rw [List.mem_cons]
  exact mem_insert

theorem toList_perm_cons_erase [DecidableEq α] {s : OrdSet α} {a : α} (h : a ∈ s) :
    s.toList.Perm (a :: (s.erase a).toList) := by
  have hnot : a ∉ s.erase a := fun ha => (mem_erase.1 ha).2 rfl
  have hperm := toList_insert_perm hnot
  rwa [insert_erase h] at hperm

/-- The set of the members of a list, in any order and with any repetitions. -/
def ofList (l : List α) : OrdSet α := l.foldr (fun a s => s.insert a) ∅

@[simp, grind =] theorem mem_ofList {l : List α} {a : α} : a ∈ ofList l ↔ a ∈ l := by
  induction l with
  | nil => simp [ofList]
  | cons b l ih =>
    have : ofList (b :: l) = (ofList l).insert b := rfl
    rw [this, mem_insert, ih, List.mem_cons]

/-! ## Union -/

/-- Merges two ascending lists. A member of both is kept once. -/
private def mergeAscending : List α → List α → List α
  | [], m => m
  | a :: l, m => m.takeWhile (· < a) ++ a :: mergeAscending l (m.dropWhile fun b => ¬a < b)

private theorem mem_mergeAscending {l m : List α} (hm : m.Pairwise (· < ·)) {b : α} :
    b ∈ mergeAscending l m ↔ b ∈ l ∨ b ∈ m := by
  induction l generalizing m with
  | nil => simp [mergeAscending]
  | cons a l ih =>
    simp only [mergeAscending, List.mem_append, List.mem_cons,
      ih (hm.sublist (List.dropWhile_sublist _)), mem_takeWhile_lt hm, mem_dropWhile_not_lt hm]
    constructor
    · rintro (⟨h, -⟩ | h | h | ⟨h, -⟩)
      · exact .inr h
      · exact .inl (.inl h)
      · exact .inl (.inr h)
      · exact .inr h
    · rintro ((h | h) | h)
      · exact .inr (.inl h)
      · exact .inr (.inr (.inl h))
      · rcases Std.lt_trichotomy b a with hba | hba | hba
        · exact .inl ⟨h, hba⟩
        · exact .inr (.inl hba)
        · exact .inr (.inr (.inr ⟨h, hba⟩))

private theorem pairwise_mergeAscending {l m : List α} (hl : l.Pairwise (· < ·))
    (hm : m.Pairwise (· < ·)) : (mergeAscending l m).Pairwise (· < ·) := by
  induction l generalizing m with
  | nil => exact hm
  | cons a l ih =>
    obtain ⟨ha, hl⟩ := List.pairwise_cons.1 hl
    have hm' : (m.dropWhile fun b => ¬a < b).Pairwise (· < ·) :=
      hm.sublist (List.dropWhile_sublist _)
    have habove : ∀ b ∈ mergeAscending l (m.dropWhile fun b => ¬a < b), a < b := fun b hb =>
      (mem_mergeAscending hm').1 hb |>.elim (ha b) fun h => ((mem_dropWhile_not_lt hm).1 h).2
    refine List.pairwise_append.2 ⟨hm.sublist (List.takeWhile_sublist _),
      List.pairwise_cons.2 ⟨habove, ih hl hm'⟩, fun b hb c hc => ?_⟩
    have hba := ((mem_takeWhile_lt hm).1 hb).2
    rcases List.mem_cons.1 hc with rfl | hc
    · exact hba
    · exact Std.lt_trans hba (habove c hc)

instance : Union (OrdSet α) :=
  ⟨fun s t => ⟨mergeAscending s.toList t.toList, pairwise_mergeAscending s.ascending t.ascending⟩⟩

@[simp, grind =] theorem mem_union {s t : OrdSet α} {a : α} : a ∈ s ∪ t ↔ a ∈ s ∨ a ∈ t :=
  mem_mergeAscending t.ascending

/-- The union of a list of sets. -/
def unions (l : List (OrdSet α)) : OrdSet α := l.foldl (· ∪ ·) ∅

theorem mem_unions {l : List (OrdSet α)} {a : α} : a ∈ unions l ↔ ∃ s ∈ l, a ∈ s := by
  suffices ∀ t : OrdSet α, a ∈ l.foldl (· ∪ ·) t ↔ a ∈ t ∨ ∃ s ∈ l, a ∈ s by
    simpa [unions] using this ∅
  induction l with
  | nil => simp
  | cons s l ih => intro t; simp [ih, or_assoc]

@[simp] theorem unions_singleton (s : OrdSet α) : unions [s] = s := by
  apply ext
  simp [mem_unions]

theorem mem_unions_cons {s : OrdSet α} {l : List (OrdSet α)} {a : α} :
    a ∈ unions (s :: l) ↔ a ∈ s ∨ a ∈ unions l := by
  simp only [mem_unions, List.mem_cons, or_and_right, exists_or, exists_eq_left]

theorem mem_unions_append {l m : List (OrdSet α)} {a : α} :
    a ∈ unions (l ++ m) ↔ a ∈ unions l ∨ a ∈ unions m := by
  simp only [mem_unions, List.mem_append, or_and_right, exists_or]

theorem mem_unions_filter (p : OrdSet α → Bool) {l : List (OrdSet α)} {a : α} :
    a ∈ unions l ↔ a ∈ unions (l.filter fun s => !p s) ∨ a ∈ unions (l.filter p) := by
  simp only [mem_unions, List.mem_filter]
  grind

/-! ## Intersection and difference -/

variable [DecidableEq α]

/-- The entries of an ascending list that occur in another one, or those that do not. -/
private def selectAscending (occurring : Bool) : List α → List α → List α
  | [], _ => []
  | a :: l, m =>
    let m := m.dropWhile (· < a)
    if decide (m.head? = some a) = occurring then a :: selectAscending occurring l m
    else selectAscending occurring l m

private theorem selectAscending_eq_filter {occurring : Bool} {l m : List α}
    (hl : l.Pairwise (· < ·)) (hm : m.Pairwise (· < ·)) :
    selectAscending occurring l m = l.filter fun a => decide (a ∈ m) = occurring := by
  induction l generalizing m with
  | nil => rfl
  | cons a l ih =>
    obtain ⟨ha, hl⟩ := List.pairwise_cons.1 hl
    have hrest : selectAscending occurring l (m.dropWhile (· < a)) =
        l.filter fun b => decide (b ∈ m) = occurring := by
      rw [ih hl (hm.sublist (List.dropWhile_sublist _))]
      refine List.filter_congr fun b hb => ?_
      have : b ∈ m.dropWhile (· < a) ↔ b ∈ m := by
        rw [mem_dropWhile_lt hm]
        exact and_iff_left fun h => Std.lt_irrefl (Std.lt_trans h (ha b hb))
      simp only [this]
    simp only [selectAscending, head?_dropWhile_lt hm, hrest, List.filter_cons]
    by_cases h : decide (a ∈ m) = occurring <;> simp [h]

private theorem pairwise_selectAscending {occurring : Bool} {l m : List α}
    (hl : l.Pairwise (· < ·)) (hm : m.Pairwise (· < ·)) :
    (selectAscending occurring l m).Pairwise (· < ·) :=
  selectAscending_eq_filter hl hm ▸ hl.filter _

instance : Inter (OrdSet α) :=
  ⟨fun s t => ⟨selectAscending true s.toList t.toList,
    pairwise_selectAscending s.ascending t.ascending⟩⟩

@[simp, grind =] theorem mem_inter {s t : OrdSet α} {a : α} : a ∈ s ∩ t ↔ a ∈ s ∧ a ∈ t := by
  show a ∈ selectAscending true s.toList t.toList ↔ _
  simp [selectAscending_eq_filter s.ascending t.ascending]

instance : SDiff (OrdSet α) :=
  ⟨fun s t => ⟨selectAscending false s.toList t.toList,
    pairwise_selectAscending s.ascending t.ascending⟩⟩

@[simp, grind =] theorem mem_sdiff {s t : OrdSet α} {a : α} : a ∈ s \ t ↔ a ∈ s ∧ a ∉ t := by
  show a ∈ selectAscending false s.toList t.toList ↔ _
  simp [selectAscending_eq_filter s.ascending t.ascending]

theorem sdiff_eq_empty_iff {s t : OrdSet α} : s \ t = ∅ ↔ s ⊆ t := by
  constructor
  · intro h a ha
    refine Decidable.by_contra fun hat => ?_
    exact not_mem_empty (h ▸ mem_sdiff.2 ⟨ha, hat⟩)
  · exact fun h => ext fun a => by simpa using h a

/-- What holds of the members that one set has beyond another, if there are any. -/
theorem exists_beyond_iff {s t : OrdSet α} {p : OrdSet α → Prop} :
    (∃ r : OrdSet α, r ≠ ∅ ∧ (∀ a, a ∈ r ↔ a ∈ s ∧ a ∉ t) ∧ p r) ↔ ¬s ⊆ t ∧ p (s \ t) := by
  constructor
  · intro h
    obtain ⟨r, hne, hmem, hr⟩ := h
    have hrs : r = s \ t := ext fun a => (hmem a).trans mem_sdiff.symm
    subst hrs
    exact ⟨mt sdiff_eq_empty_iff.2 hne, hr⟩
  · intro h
    exact ⟨s \ t, mt sdiff_eq_empty_iff.1 h.1, fun _ => mem_sdiff, h.2⟩

theorem inter_eq_empty_iff {s t : OrdSet α} : s ∩ t = ∅ ↔ s.Disjoint t := by
  constructor
  · intro h a ha hat
    exact not_mem_empty (h ▸ mem_inter.2 ⟨ha, hat⟩)
  · exact fun h => ext fun a => by simpa using h a

instance (s t : OrdSet α) : Decidable (s ⊆ t) := decidable_of_iff _ sdiff_eq_empty_iff

instance (s t : OrdSet α) : Decidable (s.Disjoint t) := decidable_of_iff _ inter_eq_empty_iff

end OrdSet
end FederatedJoin
