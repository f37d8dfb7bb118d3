import FederatedJoin.Proofs.Decomposition.Cover
import FederatedJoin.Proofs.Decomposition.Links
import FederatedJoin.Proofs.Distinct
import Mathlib.Data.List.Pairwise
import Mathlib.Data.List.TakeWhile

/-!
# The parts of a query are classes of linked triples

Two triples are in the same part exactly if they are linked: by a variable that they share, or, once
spanned parts are merged, by a fragment that matches both.

* `Classes` — disjoint parts, each of them linked in itself and with no link out of it.
* `Classes.perm_of_unions_eq` — the links determine the parts.
* `Decomposer.classes_variableConnected` — a query is divided into classes.
* `Classes.mergeSpanned` — merging parts adds the links of the fragments.
* `Decomposer.mergeSpanned_part` — a part with its own fragments is not divided any further.
* `Decomposer.existsUnique_part` — no fragment falls between two parts.
-/

namespace FederatedJoin

open Relation (ReflTransGen)

/-- Disjoint parts, each of which is one class of linked triples. -/
structure Classes (r : TripleId → TripleId → Prop) (parts : List TripleSet) : Prop where
  nonempty : ∀ part ∈ parts, part ≠ ∅
  disjoint : parts.Pairwise OrdSet.Disjoint
  closed : ∀ {part a b}, part ∈ parts → a ∈ part → r a b → b ∈ part
  linked : ∀ {part a b}, part ∈ parts → a ∈ part → b ∈ part → ReflTransGen r a b

variable {r r' : TripleId → TripleId → Prop} {parts parts' : List TripleSet}
variable {part other triples : TripleSet} {a b : TripleId}

namespace Classes

theorem eq_of_mem (h : Classes r parts) (hpart : part ∈ parts) (hother : other ∈ parts)
    (ha : a ∈ part) (ha' : a ∈ other) : part = other := by
  by_contra hne
  exact h.disjoint.forall hpart hother hne a ha ha'

theorem mem_of_reflTransGen (h : Classes r parts) (hpart : part ∈ parts) (ha : a ∈ part)
    (path : ReflTransGen r a b) : b ∈ part := by
  induction path with
  | refl => exact ha
  | tail _ hbc ih => exact h.closed hpart ih hbc

theorem nodup (h : Classes r parts) : parts.Nodup := by
  refine h.disjoint.imp_of_mem fun {s t} hs _ hst heq => ?_
  obtain ⟨c, hc⟩ := OrdSet.exists_mem_of_ne_empty (h.nonempty s hs)
  exact hst c hc (heq ▸ hc)

theorem perm (h : Classes r parts) (hperm : parts.Perm parts') : Classes r parts' where
  nonempty part hpart := h.nonempty part (hperm.mem_iff.2 hpart)
  disjoint := (hperm.pairwise_iff symm).1 h.disjoint
  closed hpart := h.closed (hperm.mem_iff.2 hpart)
  linked hpart := h.linked (hperm.mem_iff.2 hpart)

theorem congr (h : Classes r parts) (hr : ∀ a b, r a b ↔ r' a b) : Classes r' parts := by
  have : r = r' := by
    funext a b
    exact propext (hr a b)
  exact this ▸ h

/-- A set of triples is the only part if they are all linked and no link leads out. -/
theorem singleton (hne : part ≠ ∅) (closed : ∀ a ∈ part, ∀ b, r a b → b ∈ part)
    (linked : ∀ a ∈ part, ∀ b ∈ part, ReflTransGen r a b) : Classes r [part] where
  nonempty := List.forall_mem_singleton.2 hne
  disjoint := List.pairwise_singleton _ _
  closed {other a b} hother ha hab := by
    cases List.mem_singleton.1 hother
    exact closed a ha b hab
  linked {other a b} hother ha hb := by
    cases List.mem_singleton.1 hother
    exact linked a ha b hb

/-- Triples that are not linked with others are parts of their own. -/
theorem singletons {l : List TripleId} (hl : l.Nodup) (hr : ∀ a ∈ l, ∀ b, r a b → a = b) :
    Classes r (l.map ({·})) where
  nonempty := by
    refine List.forall_mem_map.2 fun a _ hempty => ?_
    exact OrdSet.not_mem_empty (hempty ▸ OrdSet.mem_singleton.2 rfl : a ∈ (∅ : TripleSet))
  disjoint := by
    refine List.pairwise_map.2 (hl.imp fun {a b} hab c ha hb => hab ?_)
    exact (OrdSet.mem_singleton.1 ha).symm.trans (OrdSet.mem_singleton.1 hb)
  closed {part a b} hpart ha hab := by
    obtain ⟨c, hc, rfl⟩ := List.mem_map.1 hpart
    cases OrdSet.mem_singleton.1 ha
    exact hr a hc b hab ▸ ha
  linked {part a b} hpart ha hb := by
    obtain ⟨c, -, rfl⟩ := List.mem_map.1 hpart
    rw [OrdSet.mem_singleton.1 ha, OrdSet.mem_singleton.1 hb]

/-- Every part of one division is a part of the other, because each is what is linked with any of
its triples. -/
theorem mem_of_mem (h : Classes r parts) (h' : Classes r parts')
    (hunions : OrdSet.unions parts = OrdSet.unions parts') (hpart : part ∈ parts) :
    part ∈ parts' := by
  obtain ⟨c, hc⟩ := OrdSet.exists_mem_of_ne_empty (h.nonempty part hpart)
  have hmem : c ∈ OrdSet.unions parts' := hunions ▸ OrdSet.mem_unions.2 ⟨part, hpart, hc⟩
  obtain ⟨other, hother, hc'⟩ := OrdSet.mem_unions.1 hmem
  have heq : part = other := by
    apply OrdSet.ext
    intro d
    constructor
    · exact fun hd => h'.mem_of_reflTransGen hother hc' (h.linked hpart hc hd)
    · exact fun hd => h.mem_of_reflTransGen hpart hc (h'.linked hother hc' hd)
  exact heq ▸ hother

theorem perm_of_unions_eq (h : Classes r parts) (h' : Classes r parts')
    (hunions : OrdSet.unions parts = OrdSet.unions parts') : parts.Perm parts' :=
  (List.perm_ext_iff_of_nodup h.nodup h'.nodup).2 fun _ =>
    ⟨h.mem_of_mem h' hunions, h'.mem_of_mem h hunions.symm⟩

end Classes

/-! ## Dividing -/

namespace Decomposer

variable {u : Universe} {query : TripleSet}

/-- Two triples of a query have a variable in common. -/
def SharesVariable (u : Universe) (query : TripleSet) (a b : TripleId) : Prop :=
  a ∈ query ∧ b ∈ query ∧ ∃ v, v ∈ u.vars a ∧ v ∈ u.vars b

variable {l : List TripleId} {classes : Forest l.length}

/-- A part has the triples of all positions of one class. -/
theorem exists_root_of_mem_parts (h : part ∈ Decomposer.parts l classes) :
    ∃ i, ∀ c, c ∈ part ↔ ∃ j, classes.root j = classes.root i ∧ l.get j = c := by
  obtain ⟨root, hroot, rfl⟩ := List.mem_map.1 h
  obtain ⟨i, -, rfl⟩ := List.mem_map.1 (mem_distinctBy_id.1 hroot)
  refine ⟨i, fun c => ?_⟩
  simp

theorem pairwise_disjoint_parts (hl : l.Nodup) :
    (Decomposer.parts l classes).Pairwise OrdSet.Disjoint := by
  refine List.pairwise_map.2 ((nodup_distinctBy_id _).imp fun {s t} hst c hs ht => hst ?_)
  obtain ⟨i, hi, rfl⟩ := List.mem_map.1 (OrdSet.mem_ofList.1 hs)
  obtain ⟨j, hj, heq⟩ := List.mem_map.1 (OrdSet.mem_ofList.1 ht)
  have hij : j = i := Fin.ext ((List.Nodup.getElem_inj_iff hl).1 heq)
  rw [← of_decide_eq_true (List.mem_filter.1 hi).2, ← of_decide_eq_true (List.mem_filter.1 hj).2,
    hij]

/-- The parts of a query are the classes of triples that are linked by variables. -/
theorem classes_variableConnected (u : Universe) (query : TripleSet) :
    Classes (SharesVariable u query) (variableConnected u query) where
  nonempty part hpart hempty := by
    obtain ⟨i, hi⟩ := exists_root_of_mem_parts hpart
    exact OrdSet.not_mem_empty (hempty ▸ (hi _).2 ⟨i, rfl, rfl⟩)
  disjoint := pairwise_disjoint_parts query.nodup_toList
  closed {part a b} hpart ha hab := by
    obtain ⟨i, hi⟩ := exists_root_of_mem_parts hpart
    obtain ⟨j, hj, rfl⟩ := (hi a).1 ha
    obtain ⟨-, hb, hshared⟩ := hab
    obtain ⟨k, hk, rfl⟩ := List.getElem_of_mem (OrdSet.mem_toList.2 hb)
    exact (hi _).2 ⟨⟨k, hk⟩, (root_links_eq_iff.2 (.single hshared)).symm.trans hj, rfl⟩
  linked {part a b} hpart ha hb := by
    obtain ⟨i, hi⟩ := exists_root_of_mem_parts hpart
    obtain ⟨j, hj, rfl⟩ := (hi a).1 ha
    obtain ⟨k, hk, rfl⟩ := (hi b).1 hb
    have path := root_links_eq_iff.1 (hj.trans hk.symm)
    exact path.lift (fun p => query.toList[p]) fun p q hpq =>
      ⟨List.getElem_mem p.isLt, List.getElem_mem q.isLt, hpq⟩

end Decomposer

/-! ## Merging -/

/-- The parts that have triples of the set, in one. -/
def merged (triples : TripleSet) (parts : List TripleSet) : TripleSet :=
  OrdSet.unions (parts.filter (¬·.Disjoint triples))

theorem mem_merged :
    a ∈ merged triples parts ↔ ∃ part ∈ parts, ¬part.Disjoint triples ∧ a ∈ part := by
  simp [merged, OrdSet.mem_unions, and_assoc]

theorem mergeMeeting_eq_self (h : ∀ part ∈ parts, part.Disjoint triples) :
    mergeMeeting triples parts = parts := by
  have hdrop : parts.dropWhile (·.Disjoint triples) = [] :=
    List.dropWhile_eq_nil_iff.2 fun part hpart => decide_eq_true (h part hpart)
  rw [mergeMeeting, hdrop]

/-- The parts that have no triple of the set stay, and the others make up one part. -/
theorem mergeMeeting_perm (h : ∃ part ∈ parts, ¬part.Disjoint triples) :
    (mergeMeeting triples parts).Perm
      (merged triples parts :: parts.filter (·.Disjoint triples)) := by
  unfold mergeMeeting
  split
  · next hdrop =>
    obtain ⟨part, hpart, hmeets⟩ := h
    exact absurd (of_decide_eq_true (List.dropWhile_eq_nil_iff.1 hdrop part hpart)) hmeets
  · next first rest hdrop =>
    have hparts : parts = parts.takeWhile (·.Disjoint triples) ++ first :: rest := by
      rw [← hdrop, List.takeWhile_append_dropWhile]
    have hbefore : ∀ part ∈ parts.takeWhile (·.Disjoint triples), part.Disjoint triples :=
      fun part hpart => by simpa using List.mem_takeWhile_imp hpart
    have hfirst : ¬first.Disjoint triples := by
      have := List.head_dropWhile_not (fun part => decide (part.Disjoint triples)) (l := parts)
        (hdrop ▸ List.cons_ne_nil first rest)
      simpa [hdrop] using this
    generalize parts.takeWhile (·.Disjoint triples) = before at hparts hbefore ⊢
    have hmeet : before.filter (¬·.Disjoint triples) = [] := by simpa using hbefore
    have hapart : before.filter (·.Disjoint triples) = before := by simpa using hbefore
    rw [hparts, merged, List.filter_append, List.filter_append, hmeet, hapart, List.nil_append,
      List.filter_cons_of_pos (by simpa using hfirst),
      List.filter_cons_of_neg (by simpa using hfirst)]
    exact List.perm_middle

theorem mem_mergeMeeting :
    part ∈ mergeMeeting triples parts ↔ part ∈ parts ∧ part.Disjoint triples ∨
      (∃ other ∈ parts, ¬other.Disjoint triples) ∧ part = merged triples parts := by
  by_cases hmeet : ∃ other ∈ parts, ¬other.Disjoint triples
  · rw [(mergeMeeting_perm hmeet).mem_iff, List.mem_cons, List.mem_filter, decide_eq_true_eq,
      and_iff_right hmeet, or_comm]
  · rw [or_iff_left fun h => hmeet h.1]
    simp only [not_exists, not_and, not_not] at hmeet
    rw [mergeMeeting_eq_self hmeet]
    exact ⟨fun hpart => ⟨hpart, hmeet part hpart⟩, And.left⟩

/-- Two triples that are both in a set, and both in some part. -/
def Tied (triples : TripleSet) (parts : List TripleSet) (a b : TripleId) : Prop :=
  a ∈ triples ∩ OrdSet.unions parts ∧ b ∈ triples ∩ OrdSet.unions parts

theorem mem_merged_of_mem_inter (h : a ∈ triples ∩ OrdSet.unions parts) :
    a ∈ merged triples parts := by
  obtain ⟨ha, hparts⟩ := OrdSet.mem_inter.1 h
  obtain ⟨part, hpart, hmem⟩ := OrdSet.mem_unions.1 hparts
  exact mem_merged.2 ⟨part, hpart, OrdSet.not_disjoint_of_mem hmem ha, hmem⟩

namespace Classes

theorem merged_ne_empty (h : Classes r parts) (hmeet : ∃ part ∈ parts, ¬part.Disjoint triples) :
    merged triples parts ≠ ∅ := by
  obtain ⟨part, hpart, hmeets⟩ := hmeet
  obtain ⟨c, hc⟩ := OrdSet.exists_mem_of_ne_empty (h.nonempty part hpart)
  exact fun hempty => OrdSet.not_mem_empty (hempty ▸ mem_merged.2 ⟨part, hpart, hmeets, hc⟩)

/-- A set within a part merges no other part with it. -/
theorem merged_eq_of_subset (h : Classes r parts) (hpart : part ∈ parts) (hsub : triples ⊆ part)
    (hmeet : ∃ other ∈ parts, ¬other.Disjoint triples) : merged triples parts = part := by
  have only : ∀ other ∈ parts, ¬other.Disjoint triples → other = part := by
    intro other hother hmeets
    obtain ⟨c, hc, htriples⟩ := OrdSet.exists_mem_of_not_disjoint hmeets
    exact h.eq_of_mem hother hpart hc (hsub c htriples)
  apply OrdSet.ext
  intro a
  rw [mem_merged]
  constructor
  · rintro ⟨other, hother, hmeets, ha⟩
    exact only other hother hmeets ▸ ha
  · intro ha
    obtain ⟨other, hother, hmeets⟩ := hmeet
    exact ⟨other, hother, hmeets, (only other hother hmeets).symm ▸ ha⟩

theorem disjoint_merged (h : Classes r parts) (hother : other ∈ parts)
    (hapart : other.Disjoint triples) : (merged triples parts).Disjoint other := by
  intro a ha hmem
  obtain ⟨part, hpart, hmeets, ha⟩ := mem_merged.1 ha
  exact hmeets (h.eq_of_mem hpart hother ha hmem ▸ hapart)

theorem linked_mono (h : Classes r parts) (hr : ∀ a b, r a b → r' a b) (hpart : part ∈ parts)
    (ha : a ∈ part) (hb : b ∈ part) : ReflTransGen r' a b :=
  ReflTransGen.mono hr _ _ (h.linked hpart ha hb)

/-- The way leads to a triple of the set, from there into the other part, and on in that part. -/
theorem linked_merged (h : Classes r parts) (ha : a ∈ merged triples parts)
    (hb : b ∈ merged triples parts) :
    ReflTransGen (fun a b => r a b ∨ Tied triples parts a b) a b := by
  obtain ⟨s, hs, hsmeets, ha⟩ := mem_merged.1 ha
  obtain ⟨t, ht, htmeets, hb⟩ := mem_merged.1 hb
  obtain ⟨c, hcs, hc⟩ := OrdSet.exists_mem_of_not_disjoint hsmeets
  obtain ⟨d, hdt, hd⟩ := OrdSet.exists_mem_of_not_disjoint htmeets
  have htied : Tied triples parts c d :=
    ⟨OrdSet.mem_inter.2 ⟨hc, OrdSet.mem_unions.2 ⟨s, hs, hcs⟩⟩,
      OrdSet.mem_inter.2 ⟨hd, OrdSet.mem_unions.2 ⟨t, ht, hdt⟩⟩⟩
  have weaken : ∀ a b, r a b → r a b ∨ Tied triples parts a b := fun _ _ => .inl
  exact ((h.linked_mono weaken hs ha hcs).tail (.inr htied)).trans (h.linked_mono weaken ht hdt hb)

/-- Merging the parts that have triples of a set links all its triples. -/
theorem mergeMeeting (h : Classes r parts) (triples : TripleSet) :
    Classes (fun a b => r a b ∨ Tied triples parts a b) (mergeMeeting triples parts) := by
  by_cases hmeet : ∃ part ∈ parts, ¬part.Disjoint triples
  case neg =>
    simp only [not_exists, not_and, not_not] at hmeet
    rw [mergeMeeting_eq_self hmeet]
    refine h.congr fun a b => (or_iff_left fun htied => ?_).symm
    obtain ⟨part, hpart, hmeets, -⟩ := mem_merged.1 (mem_merged_of_mem_inter htied.1)
    exact hmeets (hmeet part hpart)
  case pos =>
    refine Classes.perm ?_ (mergeMeeting_perm hmeet).symm
    have hapart : ∀ part ∈ parts.filter (·.Disjoint triples),
        part ∈ parts ∧ part.Disjoint triples := fun part hpart =>
      (List.mem_filter.1 hpart).imp_right of_decide_eq_true
    constructor
    · exact List.forall_mem_cons.2 ⟨h.merged_ne_empty hmeet, fun part hpart =>
        h.nonempty part (hapart part hpart).1⟩
    · exact List.pairwise_cons.2 ⟨fun part hpart =>
        h.disjoint_merged (hapart part hpart).1 (hapart part hpart).2, h.disjoint.filter _⟩
    · intro part a b hpart ha hab
      rcases List.mem_cons.1 hpart with rfl | hpart
      · rcases hab with hab | htied
        · obtain ⟨part, hpart, hmeets, ha⟩ := mem_merged.1 ha
          exact mem_merged.2 ⟨part, hpart, hmeets, h.closed hpart ha hab⟩
        · exact mem_merged_of_mem_inter htied.2
      · obtain ⟨hpart, hdisjoint⟩ := hapart part hpart
        rcases hab with hab | htied
        · exact h.closed hpart ha hab
        · exact absurd (OrdSet.mem_inter.1 htied.1).1 (hdisjoint a ha)
    · intro part a b hpart ha hb
      rcases List.mem_cons.1 hpart with rfl | hpart
      · exact h.linked_merged ha hb
      · exact h.linked_mono (fun _ _ => Or.inl) (hapart part hpart).1 ha hb

/-- Merging the parts that fragments span links the triples of each fragment. -/
theorem mergeSpanned (h : Classes r parts) (fragments : List Fragment) :
    Classes (fun a b => r a b ∨ ∃ f ∈ fragments, Tied f.triples parts a b)
      (mergeSpanned parts fragments) := by
  unfold FederatedJoin.mergeSpanned
  induction fragments generalizing r parts with
  | nil => exact h.congr fun a b => by simp
  | cons f fragments ih =>
    refine (ih (h.mergeMeeting f.triples)).congr fun a b => ?_
    simp only [Tied, unions_mergeMeeting, List.mem_cons, or_assoc, exists_eq_or_imp]

end Classes

/-! ## The parts that are planned -/

namespace Decomposer

variable {u : Universe} {query : TripleSet} {fragments : List Fragment}

/-- Two triples of a query have a variable in common, or a fragment matches both. -/
def Linked (u : Universe) (query : TripleSet) (fragments : List Fragment) (a b : TripleId) : Prop :=
  a ∈ query ∧ b ∈ query ∧
    ((∃ v, v ∈ u.vars a ∧ v ∈ u.vars b) ∨ ∃ f ∈ fragments, a ∈ f.triples ∧ b ∈ f.triples)

theorem Linked.symm (h : Linked u query fragments a b) : Linked u query fragments b a := by
  obtain ⟨ha, hb, ⟨v, hva, hvb⟩ | ⟨f, hf, hfa, hfb⟩⟩ := h
  · exact ⟨hb, ha, .inl ⟨v, hvb, hva⟩⟩
  · exact ⟨hb, ha, .inr ⟨f, hf, hfb, hfa⟩⟩

theorem classes_mergeSpanned (u : Universe) (query : TripleSet) (fragments : List Fragment) :
    Classes (Linked u query fragments) (mergeSpanned (variableConnected u query) fragments) := by
  refine ((classes_variableConnected u query).mergeSpanned fragments).congr fun a b => ?_
  simp only [SharesVariable, Tied, Linked, unions_variableConnected, OrdSet.mem_inter]
  grind

theorem mergeSpanned_perm (h : Classes (Linked u query fragments) parts)
    (hunions : OrdSet.unions parts = query) :
    (mergeSpanned (variableConnected u query) fragments).Perm parts := by
  refine (classes_mergeSpanned u query fragments).perm_of_unions_eq h ?_
  rw [unions_mergeSpanned_variableConnected, hunions]

/-- One more fragment, wherever it stands, merges the parts that it spans. -/
theorem mergeSpanned_perm_mergeMeeting {fragments' : List Fragment} {f : Fragment}
    (more : ∀ g, g ∈ fragments' ↔ g = f ∨ g ∈ fragments) :
    (mergeSpanned (variableConnected u query) fragments').Perm
      (mergeMeeting f.triples (mergeSpanned (variableConnected u query) fragments)) := by
  have hunions := unions_mergeSpanned_variableConnected u query fragments
  refine mergeSpanned_perm ?_ ((unions_mergeMeeting _ _).trans hunions)
  refine ((classes_mergeSpanned u query fragments).mergeMeeting f.triples).congr fun a b => ?_
  simp only [Linked, Tied, hunions, OrdSet.mem_inter, more, or_and_right, exists_or,
    exists_eq_left]
  grind

/-- A fragment that matches the whole query leaves it in one part. -/
theorem mergeSpanned_eq_singleton {f : Fragment} (hf : f ∈ fragments) (whole : f.triples = query)
    (hne : query ≠ ∅) : mergeSpanned (variableConnected u query) fragments = [query] := by
  refine List.perm_singleton.1 (mergeSpanned_perm ?_ (OrdSet.unions_singleton query))
  refine Classes.singleton hne (fun a _ b hab => hab.2.1) fun a ha b hb => ?_
  exact .single ⟨ha, hb, .inr ⟨f, hf, whole.symm ▸ ha, whole.symm ▸ hb⟩⟩

/-- What a part is linked by lies in it, so it is still one class when it is divided on its own. -/
theorem classes_singleton
    (hpart : part ∈ mergeSpanned (variableConnected u query) fragments)
    (inside : ∀ f ∈ fragments, f.triples ⊆ query) :
    Classes (Linked u part (fragments.filter (·.triples ⊆ part))) [part] := by
  have h := classes_mergeSpanned u query fragments
  refine Classes.singleton (h.nonempty part hpart) (fun a _ b hab => hab.2.1) fun a ha b hb => ?_
  have path := h.linked hpart ha hb
  clear hb
  -- the induction carries along that the path has not left the part
  refine And.right (a := b ∈ part) ?_
  induction path with
  | refl => exact ⟨ha, .refl⟩
  | @tail b c _ hbc ih =>
    obtain ⟨hb, path⟩ := ih
    have hc := h.closed hpart hb hbc
    refine ⟨hc, path.tail ⟨hb, hc, hbc.2.2.imp_right fun hspan => ?_⟩⟩
    obtain ⟨f, hf, hbf, hcf⟩ := hspan
    have hsub : f.triples ⊆ part := fun d hd =>
      h.closed hpart hb ⟨hbc.1, inside f hf d hd, .inr ⟨f, hf, hbf, hd⟩⟩
    exact ⟨f, List.mem_filter.2 ⟨hf, decide_eq_true hsub⟩, hbf, hcf⟩

/-- A part with its own fragments is not divided any further. -/
theorem mergeSpanned_part (hpart : part ∈ mergeSpanned (variableConnected u query) fragments)
    (inside : ∀ f ∈ fragments, f.triples ⊆ query) :
    mergeSpanned (variableConnected u part) (fragments.filter (·.triples ⊆ part)) = [part] :=
  List.perm_singleton.1
    (mergeSpanned_perm (classes_singleton hpart inside) (OrdSet.unions_singleton part))

/-- No fragment falls between two parts. -/
theorem existsUnique_part {f : Fragment} (inside : ∀ f ∈ fragments, f.triples ⊆ query)
    (hf : f ∈ fragments) (hne : f.triples ≠ ∅) :
    let parts := mergeSpanned (variableConnected u query) fragments
    ∃! i : Fin parts.length, f.triples ⊆ parts.get i := by
  intro parts
  have h := classes_mergeSpanned u query fragments
  obtain ⟨c, hc⟩ := OrdSet.exists_mem_of_ne_empty hne
  obtain ⟨part, hpart, hmem⟩ := (mem_query_iff fragments).1 (inside f hf c hc)
  obtain ⟨i, hi, rfl⟩ := List.getElem_of_mem hpart
  refine ⟨⟨i, hi⟩, fun d hd => ?_, fun j hj => ?_⟩
  · exact h.closed hpart hmem ⟨inside f hf c hc, inside f hf d hd, .inr ⟨f, hf, hc, hd⟩⟩
  · have heq := h.eq_of_mem (List.getElem_mem j.isLt) hpart (hj c hc) hmem
    exact Fin.ext ((List.Nodup.getElem_inj_iff h.nodup).1 heq)

end Decomposer
end FederatedJoin
