import FederatedJoin.Proofs.Decomposition.Classes

/-!
# The order of the parts of a query

The parts are listed by their least triples, and a merged part takes the place of the first one that
it is made of. The list of parts depends on the links between the triples only, and not on the order
of the fragments that are responsible for them.

* `OrdSet.Before`, `OrdSet.LeastLt` — one set starts before another one.
* `Decomposer.pairwise_variableConnected` — the parts of a query are listed in this order.
* `KeepsPlace` — the orders that merging keeps, with `KeepsPlace.pairwise_mergeSpanned`.
* `StartsBefore` — the order of merged parts by the parts that they are made of.
* `DisjointParts.pairwise_findIdx` — merged parts are listed in this order.
* `DisjointParts.mergeSpanned_congr` — the same fragments lead to the same list of parts.
* `Decomposer.mergeSpanned_eq` — which list of parts it is.
-/

namespace FederatedJoin

/-! ## Sets by their least members -/

namespace OrdSet

variable {s t t' : TripleSet}

/-- Below every member of `t` there is a member of `s`. -/
def Before (s t : TripleSet) : Prop := ∀ b ∈ t, ∃ a ∈ s, a < b

theorem Before.mono_left (h : Before s t) (hs : s ⊆ t') : Before t' t := by
  intro b hb
  obtain ⟨a, ha, hlt⟩ := h b hb
  exact ⟨a, hs a ha, hlt⟩

theorem before_unions {parts : List TripleSet} (h : ∀ part ∈ parts, Before s part) :
    Before s (unions parts) := by
  intro b hb
  obtain ⟨part, hpart, hb⟩ := mem_unions.1 hb
  exact h part hpart b hb

/-- Both sets have members, and the least member of one is below that of the other. -/
def LeastLt (s t : TripleSet) : Prop :=
  ∃ a b, s.min? = some a ∧ t.min? = some b ∧ a < b

theorem exists_min?_eq_some (h : s ≠ ∅) : ∃ a, s.min? = some a := by
  obtain ⟨b, hb⟩ := exists_mem_of_ne_empty h
  cases hmin : s.min? with
  | none => exact absurd (List.head?_eq_none_iff.1 hmin ▸ hb : b ∈ []) List.not_mem_nil
  | some a => exact ⟨a, rfl⟩

theorem Before.asymm (h : Before s t) (hs : s ≠ ∅) : ¬Before t s := by
  intro h'
  obtain ⟨a, ha⟩ := exists_min?_eq_some hs
  obtain ⟨hmem, hle⟩ := min?_eq_some_iff.1 ha
  obtain ⟨b, hb, hba⟩ := h' a hmem
  obtain ⟨c, hc, hcb⟩ := h b hb
  exact Nat.not_lt.2 (hle c hc) (Nat.lt_trans hcb hba)

theorem leastLt_iff_before (hs : s ≠ ∅) (ht : t ≠ ∅) : LeastLt s t ↔ Before s t := by
  constructor
  · rintro ⟨a, b, ha, hb, hab⟩ c hc
    exact ⟨a, (min?_eq_some_iff.1 ha).1, Nat.lt_of_lt_of_le hab ((min?_eq_some_iff.1 hb).2 c hc)⟩
  · intro h
    obtain ⟨a, ha⟩ := exists_min?_eq_some hs
    obtain ⟨b, hb⟩ := exists_min?_eq_some ht
    obtain ⟨c, hc, hcb⟩ := h b (min?_eq_some_iff.1 hb).1
    exact ⟨a, b, ha, hb, Nat.lt_of_le_of_lt ((min?_eq_some_iff.1 ha).2 c hc) hcb⟩

theorem pairwise_leastLt_iff {l : List TripleSet} (h : ∀ s ∈ l, s ≠ ∅) :
    l.Pairwise LeastLt ↔ l.Pairwise Before :=
  List.Pairwise.iff_of_mem fun {s t} hs ht => leastLt_iff_before (h s hs) (h t ht)

end OrdSet

/-! ## Dividing -/

namespace Decomposer

/-- Classes that appear earlier have a lesser triple. -/
theorem pairwise_parts {l : List TripleId} (hl : l.Pairwise (· < ·)) (classes : Forest l.length) :
    (Decomposer.parts l classes).Pairwise OrdSet.Before := by
  refine List.pairwise_map.2 ((pairwise_distinctBy_getElem? _).imp fun {r s} h b hb => ?_)
  obtain ⟨k, hk, rfl⟩ := List.mem_map.1 (OrdSet.mem_ofList.1 hb)
  have hroot : classes.root k = s := by simpa using (List.mem_filter.1 hk).2
  obtain ⟨j, hj, hjr⟩ := h k (by simp [hroot])
  have hjl : j < l.length := Nat.lt_trans hj k.isLt
  refine ⟨l[j], OrdSet.mem_ofList.2 (List.mem_map.2 ⟨⟨j, hjl⟩, ?_, rfl⟩), ?_⟩
  · simpa [hjl] using hjr
  · exact List.pairwise_iff_getElem.1 hl j k hjl k.isLt hj

theorem pairwise_variableConnected (u : Universe) (query : TripleSet) :
    (variableConnected u query).Pairwise OrdSet.Before :=
  pairwise_parts query.ascending _

end Decomposer

/-! ## Merging -/

/-- Merging keeps an order of sets if a set that comes first may grow, and the sets after it may be
put together. -/
structure KeepsPlace (R : TripleSet → TripleSet → Prop) : Prop where
  grow : ∀ {s s' t}, R s t → s ⊆ s' → R s' t
  unions : ∀ {s l}, (∀ t ∈ l, R s t) → R s (OrdSet.unions l)

theorem keepsPlace_before : KeepsPlace OrdSet.Before := ⟨.mono_left, OrdSet.before_unions⟩

namespace KeepsPlace

variable {R : TripleSet → TripleSet → Prop} {parts : List TripleSet}

/-- The merged part takes the place of the first part that it is made of. -/
theorem pairwise_mergeMeeting (hR : KeepsPlace R) (h : parts.Pairwise R) (triples : TripleSet) :
    (mergeMeeting triples parts).Pairwise R := by
  unfold mergeMeeting
  split
  · exact h
  · next first rest hdrop =>
    have hparts : parts = parts.takeWhile (·.Disjoint triples) ++ first :: rest := by
      rw [← hdrop, List.takeWhile_append_dropWhile]
    generalize parts.takeWhile (·.Disjoint triples) = before at hparts ⊢
    rw [hparts] at h
    obtain ⟨hbefore, hrest, hcross⟩ := List.pairwise_append.1 h
    obtain ⟨hfirst, hrest⟩ := List.pairwise_cons.1 hrest
    refine List.pairwise_append.2 ⟨hbefore, List.pairwise_cons.2 ⟨fun part hpart => ?_,
      hrest.filter _⟩, fun part hpart other hother => ?_⟩
    · refine hR.grow (hfirst part (List.mem_filter.1 hpart).1) fun a ha => ?_
      exact OrdSet.mem_unions.2 ⟨first, List.mem_cons_self, ha⟩
    · rcases List.mem_cons.1 hother with rfl | hother
      · refine hR.unions fun other hother => hcross part hpart other ?_
        rcases List.mem_cons.1 hother with rfl | hother
        · exact List.mem_cons_self
        · exact List.mem_cons_of_mem first (List.mem_filter.1 hother).1
      · exact hcross part hpart other (List.mem_cons_of_mem first (List.mem_filter.1 hother).1)

theorem pairwise_mergeSpanned (hR : KeepsPlace R) (h : parts.Pairwise R)
    (fragments : List Fragment) : (mergeSpanned parts fragments).Pairwise R := by
  unfold mergeSpanned
  induction fragments generalizing parts with
  | nil => exact h
  | cons f fragments ih => exact ih (hR.pairwise_mergeMeeting h f.triples)

end KeepsPlace

/-! ## The places of merged parts -/

/-- Ahead of every listed part that the second set meets, there is one that the first set meets. -/
def StartsBefore (parts : List TripleSet) (s t : TripleSet) : Prop :=
  ∀ (j : Nat) (q : TripleSet), parts[j]? = some q → ¬q.Disjoint t →
    ∃ i < j, ∃ p : TripleSet, parts[i]? = some p ∧ ¬p.Disjoint s

variable {parts : List TripleSet} {s t : TripleSet}

theorem keepsPlace_startsBefore (parts : List TripleSet) : KeepsPlace (StartsBefore parts) where
  grow {s s' t} h hs j q hq hmeets := by
    obtain ⟨i, hi, p, hp, hmeets⟩ := h j q hq hmeets
    obtain ⟨a, hap, has⟩ := OrdSet.exists_mem_of_not_disjoint hmeets
    exact ⟨i, hi, p, hp, OrdSet.not_disjoint_of_mem hap (hs a has)⟩
  unions {s l} h j q hq hmeets := by
    obtain ⟨a, ha, hmem⟩ := OrdSet.exists_mem_of_not_disjoint hmeets
    obtain ⟨t, ht, hat⟩ := OrdSet.mem_unions.1 hmem
    exact h t ht j q hq (OrdSet.not_disjoint_of_mem ha hat)

/-- Two triples are in one part. -/
def SamePart (parts : List TripleSet) (a b : TripleId) : Prop :=
  ∃ part ∈ parts, a ∈ part ∧ b ∈ part

/-- Two triples are in one part, or a fragment has them both. -/
def Joined (parts : List TripleSet) (fragments : List Fragment) (a b : TripleId) : Prop :=
  SamePart parts a b ∨ ∃ f ∈ fragments, Tied f.triples parts a b

/-- Parts that have triples, and none in common. -/
structure DisjointParts (parts : List TripleSet) : Prop where
  nonempty : ∀ part ∈ parts, part ≠ ∅
  disjoint : parts.Pairwise OrdSet.Disjoint

theorem Classes.disjointParts {r : TripleId → TripleId → Prop} (h : Classes r parts) :
    DisjointParts parts := ⟨h.nonempty, h.disjoint⟩

namespace DisjointParts

variable {p : TripleSet} {a : TripleId} {fragments fragments' : List Fragment}

theorem classes (h : DisjointParts parts) : Classes (SamePart parts) parts where
  nonempty := h.nonempty
  disjoint := h.disjoint
  closed {part a b} hpart ha hab := by
    obtain ⟨other, hother, hao, hbo⟩ := hab
    have heq : part = other := by
      by_contra hne
      exact h.disjoint.forall hpart hother hne a ha hao
    exact heq ▸ hbo
  linked hpart ha hb := .single ⟨_, hpart, ha, hb⟩

theorem classes_mergeSpanned (h : DisjointParts parts) (fragments : List Fragment) :
    Classes (Joined parts fragments) (mergeSpanned parts fragments) :=
  h.classes.mergeSpanned fragments

theorem not_disjoint_self (h : DisjointParts parts) (hp : p ∈ parts) : ¬p.Disjoint p := by
  obtain ⟨a, ha⟩ := OrdSet.exists_mem_of_ne_empty (h.nonempty p hp)
  exact OrdSet.not_disjoint_of_mem ha ha

theorem pairwise_startsBefore (h : DisjointParts parts) :
    parts.Pairwise (StartsBefore parts) := by
  refine List.pairwise_iff_getElem.2 fun i k hi hk hik j q hq hmeets => ?_
  obtain ⟨hj, rfl⟩ := List.getElem?_eq_some_iff.1 hq
  obtain ⟨a, haj, hak⟩ := OrdSet.exists_mem_of_not_disjoint hmeets
  have heq := h.classes.eq_of_mem (List.getElem_mem hj) (List.getElem_mem hk) haj hak
  have hjk : j = k := (List.Nodup.getElem_inj_iff h.classes.nodup).1 heq
  exact ⟨i, hjk ▸ hik, parts[i], List.getElem?_eq_getElem hi,
    h.not_disjoint_self (List.getElem_mem hi)⟩

theorem exists_mem_part (hs : s ∈ mergeSpanned parts fragments) (ha : a ∈ s) :
    ∃ p ∈ parts, a ∈ p :=
  OrdSet.mem_unions.1 (unions_mergeSpanned parts fragments ▸ OrdSet.mem_unions.2 ⟨s, hs, ha⟩)

/-- A part that a merged part meets is one of those that it is made of. -/
theorem subset_of_meets (h : DisjointParts parts) (hp : p ∈ parts)
    (hs : s ∈ mergeSpanned parts fragments) (hmeets : ¬p.Disjoint s) : p ⊆ s := by
  obtain ⟨a, hap, has⟩ := OrdSet.exists_mem_of_not_disjoint hmeets
  exact fun b hb => (h.classes_mergeSpanned fragments).closed hs has (.inl ⟨p, hp, hap, hb⟩)

theorem exists_part_subset (h : DisjointParts parts)
    (hs : s ∈ mergeSpanned parts fragments) : ∃ p ∈ parts, p ⊆ s := by
  obtain ⟨a, ha⟩ :=
    OrdSet.exists_mem_of_ne_empty ((h.classes_mergeSpanned fragments).nonempty s hs)
  obtain ⟨p, hp, hap⟩ := exists_mem_part hs ha
  exact ⟨p, hp, h.subset_of_meets hp hs (OrdSet.not_disjoint_of_mem hap ha)⟩

/-- Merged parts are listed by the first of the parts that each of them is made of. -/
theorem pairwise_findIdx (h : DisjointParts parts) (fragments : List Fragment) :
    (mergeSpanned parts fragments).Pairwise fun s t =>
      parts.findIdx (· ⊆ s) < parts.findIdx (· ⊆ t) := by
  refine ((keepsPlace_startsBefore parts).pairwise_mergeSpanned h.pairwise_startsBefore
    fragments).imp_of_mem fun {s t} hs ht hst => ?_
  obtain ⟨p, hp, hpt⟩ := h.exists_part_subset ht
  have hlt : parts.findIdx (· ⊆ t) < parts.length :=
    List.findIdx_lt_length_of_exists ⟨p, hp, decide_eq_true hpt⟩
  have hfirst : parts[parts.findIdx (· ⊆ t)] ⊆ t := by
    simpa using List.findIdx_getElem (w := hlt)
  -- the first part that `t` is made of has a part ahead of it that `s` meets, and so contains
  obtain ⟨i, hi, q, hq, hmeets⟩ := hst _ _ (List.getElem?_eq_getElem hlt) fun hapart =>
    h.not_disjoint_self (List.getElem_mem hlt) fun a ha _ => hapart a ha (hfirst a ha)
  obtain ⟨hil, rfl⟩ := List.getElem?_eq_some_iff.1 hq
  have hsub : parts[i] ⊆ s := h.subset_of_meets (List.getElem_mem hil) hs hmeets
  have hle : parts.findIdx (· ⊆ s) ≤ i := by
    refine Nat.not_lt.1 fun hgt => ?_
    simpa [hsub] using List.not_of_lt_findIdx hgt
  exact Nat.lt_of_le_of_lt hle hi

/-- The order and the repetition of the fragments have no influence on the parts. -/
theorem mergeSpanned_congr (h : DisjointParts parts)
    (same : ∀ f, f ∈ fragments ↔ f ∈ fragments') :
    mergeSpanned parts fragments = mergeSpanned parts fragments' := by
  have h' : Classes (Joined parts fragments) (mergeSpanned parts fragments') :=
    (h.classes_mergeSpanned fragments').congr fun a b => by simp only [Joined, same]
  have hunions : OrdSet.unions (mergeSpanned parts fragments) =
      OrdSet.unions (mergeSpanned parts fragments') := by
    rw [unions_mergeSpanned, unions_mergeSpanned]
  have hperm := (h.classes_mergeSpanned fragments).perm_of_unions_eq h' hunions
  exact hperm.eq_of_pairwise (fun _ _ _ _ hlt hgt => absurd hlt (Nat.lt_asymm hgt))
    (h.pairwise_findIdx fragments) (h.pairwise_findIdx fragments')

end DisjointParts

theorem Decomposer.mergeSpanned_congr {fragments fragments' : List Fragment}
    (same : ∀ f, f ∈ fragments ↔ f ∈ fragments') (u : Universe) (query : TripleSet) :
    mergeSpanned (variableConnected u query) fragments =
      mergeSpanned (variableConnected u query) fragments' :=
  (classes_variableConnected u query).disjointParts.mergeSpanned_congr same

/-- The parts are the classes of linked triples, and are listed by their least triples. -/
theorem Decomposer.mergeSpanned_eq {fragments : List Fragment}
    (h : Classes (Linked u query fragments) parts) (hunions : OrdSet.unions parts = query)
    (ordered : parts.Pairwise OrdSet.Before) :
    mergeSpanned (variableConnected u query) fragments = parts := by
  have hpairwise := keepsPlace_before.pairwise_mergeSpanned (pairwise_variableConnected u query)
    fragments
  refine (mergeSpanned_perm h hunions).eq_of_pairwise (fun s t _ ht hst hts => ?_)
    hpairwise ordered
  exact absurd hst (hts.asymm (h.nonempty t ht))

end FederatedJoin
