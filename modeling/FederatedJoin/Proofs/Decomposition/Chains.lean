import FederatedJoin.Proofs.Decomposition.Order

/-!
# Chains of triples and of parts

A query is divided along the chains of triples that share variables. Merging spanned parts puts
together the parts that are linked by chains of fragments, and no others.

* `Universe.ShareVariable` — when two triples have a variable in common.
* `Decomposer.variableConnected_chains` — what the parts of a query are.
* `Separation` — unions of parts such that no fragment spans two of them.
* `mergeSpanned_finest` — merging spanned parts leads to the finest separation.
-/

namespace FederatedJoin

open Relation (ReflTransGen)

/-! ## Triples that share variables -/

section Variables
variable {p : Pattern} {u : Universe} {a b : TripleId} {v : Variable}

/-- One of the terms of the pattern is the variable. -/
def Pattern.Mentions (p : Pattern) (v : Variable) : Prop :=
  p.subject = .var v ∨ p.predicate = .var v ∨ p.object = .var v

theorem Term.var?_eq_some_iff {t : Term} : t.var? = some v ↔ t = .var v := by
  cases t <;> simp [Term.var?]

theorem Predicate.var?_eq_some_iff {q : Predicate} : q.var? = some v ↔ q = .var v := by
  cases q <;> simp [Predicate.var?]

theorem Pattern.mem_vars : v ∈ p.vars ↔ p.Mentions v := by
  simp [vars, Mentions, @eq_comm _ (some v), Term.var?_eq_some_iff, Predicate.var?_eq_some_iff]

namespace Universe

/-- The patterns of two triples have a variable in common. -/
def ShareVariable (u : Universe) (a b : TripleId) : Prop :=
  ∃ p q v, u.pattern? a = some p ∧ u.pattern? b = some q ∧ p.Mentions v ∧ q.Mentions v

theorem mem_vars : v ∈ u.vars a ↔ ∃ p, u.pattern? a = some p ∧ p.Mentions v := by
  unfold vars
  split
  · next h => simp [h]
  · next p h => simp [h, Pattern.mem_vars]

theorem shareVariable_iff : u.ShareVariable a b ↔ ∃ v, v ∈ u.vars a ∧ v ∈ u.vars b := by
  simp only [mem_vars]
  constructor
  · rintro ⟨p, q, v, hp, hq, hpv, hqv⟩
    exact ⟨v, ⟨p, hp, hpv⟩, q, hq, hqv⟩
  · rintro ⟨v, ⟨p, hp, hpv⟩, q, hq, hqv⟩
    exact ⟨p, q, v, hp, hq, hpv, hqv⟩

end Universe
end Variables

theorem Classes.exists_mem_iff {r : TripleId → TripleId → Prop} {parts : List TripleSet}
    {a b : TripleId} (h : Classes r parts) (ha : a ∈ OrdSet.unions parts) :
    (∃ part ∈ parts, a ∈ part ∧ b ∈ part) ↔ ReflTransGen r a b := by
  constructor
  · rintro ⟨part, hpart, ha, hb⟩
    exact h.linked hpart ha hb
  · intro path
    obtain ⟨part, hpart, ha⟩ := OrdSet.mem_unions.1 ha
    exact ⟨part, hpart, ha, h.mem_of_reflTransGen hpart ha path⟩

namespace Decomposer

variable {u : Universe} {query : TripleSet} {a : TripleId}

theorem sharesVariable_eq : SharesVariable u query =
    fun a b => a ∈ query ∧ b ∈ query ∧ u.ShareVariable a b := by
  funext a b
  simp only [SharesVariable, Universe.shareVariable_iff]

/-- A triple that is not in use shares no variables, so no chain leads away from it. -/
theorem singleton_mem_variableConnected (ha : a ∈ query) (unused : u.pattern? a = none) :
    {a} ∈ variableConnected u query := by
  have h := classes_variableConnected u query
  obtain ⟨part, hpart, hmem⟩ := OrdSet.mem_unions.1 (unions_variableConnected u query ▸ ha)
  have only : ∀ b ∈ part, b = a := by
    intro b hb
    rcases ReflTransGen.cases_head (h.linked hpart hmem hb) with heq | ⟨c, hac, -⟩
    · exact heq.symm
    · rw [sharesVariable_eq] at hac
      obtain ⟨-, -, p, q, v, hp, -⟩ := hac
      rw [unused] at hp
      cases hp
  have hpart_eq : part = {a} := OrdSet.ext fun b =>
    ⟨fun hb => OrdSet.mem_singleton.2 (only b hb), fun hb => OrdSet.mem_singleton.1 hb ▸ hmem⟩
  exact hpart_eq ▸ hpart

/-- A query is divided into disjoint parts, by their least triples. Two triples are in the same part
if a chain of triples of the query leads from one to the other in which consecutive ones have a
variable in common. Triples that are not in use are parts of their own. -/
theorem variableConnected_chains (u : Universe) (query : TripleSet) :
    let parts := variableConnected u query
    (∀ part ∈ parts, part ≠ ∅) ∧ parts.Pairwise OrdSet.Disjoint ∧ OrdSet.unions parts = query ∧
      parts.Pairwise OrdSet.LeastLt ∧
      (∀ a ∈ query, ∀ b ∈ query, (∃ part ∈ parts, a ∈ part ∧ b ∈ part) ↔
        ReflTransGen (fun a b => a ∈ query ∧ b ∈ query ∧ u.ShareVariable a b) a b) ∧
      ∀ a ∈ query, u.pattern? a = none → {a} ∈ parts := by
  intro parts
  have h : Classes (SharesVariable u query) parts := classes_variableConnected u query
  have hunions : OrdSet.unions parts = query := unions_variableConnected u query
  refine ⟨h.nonempty, h.disjoint, hunions, ?_, fun a ha b _ => ?_, fun a ha unused =>
    singleton_mem_variableConnected ha unused⟩
  · exact (OrdSet.pairwise_leastLt_iff h.nonempty).2 (pairwise_variableConnected u query)
  · rw [← sharesVariable_eq]
    exact h.exists_mem_iff (hunions.symm ▸ ha)

end Decomposer

/-! ## Parts that fragments span -/

/-- One fragment has triples of both parts. -/
def Spanned (parts : List TripleSet) (fragments : List Fragment) (p q : TripleSet) : Prop :=
  p ∈ parts ∧ q ∈ parts ∧ ∃ f ∈ fragments, ¬p.Disjoint f.triples ∧ ¬q.Disjoint f.triples

/-- Unions of parts that have each part in one of them, such that no fragment has triples of two of
them. -/
structure Separation (parts : List TripleSet) (fragments : List Fragment)
    (sets : List TripleSet) : Prop where
  unions : ∀ s ∈ sets, s = OrdSet.unions (parts.filter (· ⊆ s))
  cover : ∀ part ∈ parts, ∃ s ∈ sets, part ⊆ s
  apart : ∀ f ∈ fragments, ∀ s ∈ sets, ∀ t ∈ sets,
    ¬s.Disjoint f.triples → ¬t.Disjoint f.triples → s = t

section Spans
variable {parts sets : List TripleSet} {fragments : List Fragment} {p q s : TripleSet}

/-- No chain of parts leads out of a set of a separation. -/
theorem Separation.subset_of_chain (h : Separation parts fragments sets) (hs : s ∈ sets)
    (hp : p ⊆ s) (chain : ReflTransGen (Spanned parts fragments) p q) : q ⊆ s := by
  induction chain with
  | refl => exact hp
  | @tail p q _ hspanned ih =>
    obtain ⟨-, hq, f, hf, hpf, hqf⟩ := hspanned
    obtain ⟨t, ht, hqt⟩ := h.cover q hq
    have heq : s = t := h.apart f hf s hs t ht (OrdSet.not_disjoint_of_subset ih hpf)
      (OrdSet.not_disjoint_of_subset hqt hqf)
    exact heq ▸ hqt

namespace DisjointParts

theorem separation_mergeSpanned (h : DisjointParts parts) (fragments : List Fragment) :
    Separation parts fragments (mergeSpanned parts fragments) where
  unions s hs := by
    apply OrdSet.ext
    intro a
    rw [OrdSet.mem_unions]
    constructor
    · intro ha
      obtain ⟨p, hp, hap⟩ := exists_mem_part hs ha
      have hps : p ⊆ s := h.subset_of_meets hp hs (OrdSet.not_disjoint_of_mem hap ha)
      exact ⟨p, List.mem_filter.2 ⟨hp, decide_eq_true hps⟩, hap⟩
    · rintro ⟨p, hp, hap⟩
      exact of_decide_eq_true (List.mem_filter.1 hp).2 a hap
  cover p hp := by
    obtain ⟨a, ha⟩ := OrdSet.exists_mem_of_ne_empty (h.nonempty p hp)
    have hmem : a ∈ OrdSet.unions (mergeSpanned parts fragments) :=
      (unions_mergeSpanned parts fragments).symm ▸ OrdSet.mem_unions.2 ⟨p, hp, ha⟩
    obtain ⟨s, hs, has⟩ := OrdSet.mem_unions.1 hmem
    exact ⟨s, hs, h.subset_of_meets hp hs (OrdSet.not_disjoint_of_mem ha has)⟩
  apart f hf s hs t ht hsf htf := by
    have hclasses := h.classes_mergeSpanned fragments
    obtain ⟨a, has, haf⟩ := OrdSet.exists_mem_of_not_disjoint hsf
    obtain ⟨b, hbt, hbf⟩ := OrdSet.exists_mem_of_not_disjoint htf
    have htied : Tied f.triples parts a b :=
      ⟨OrdSet.mem_inter.2 ⟨haf, OrdSet.mem_unions.2 (exists_mem_part hs has)⟩,
        OrdSet.mem_inter.2 ⟨hbf, OrdSet.mem_unions.2 (exists_mem_part ht hbt)⟩⟩
    exact hclasses.eq_of_mem hs ht (hclasses.closed hs has (.inr ⟨f, hf, htied⟩)) hbt

/-- The parts of linked triples are linked by a chain of fragments. -/
theorem chain_of_joined (h : DisjointParts parts) {a b : TripleId} (hp : p ∈ parts) (ha : a ∈ p)
    (path : ReflTransGen (Joined parts fragments) a b) (hq : q ∈ parts) (hb : b ∈ q) :
    ReflTransGen (Spanned parts fragments) p q := by
  -- the last part of the chain is any part that has the last triple of the path
  induction path generalizing q with
  | refl => exact h.classes.eq_of_mem hp hq ha hb ▸ .refl
  | @tail b c _ hbc ih =>
    rcases hbc with ⟨part, hpart, hbpart, hc⟩ | ⟨f, hf, hbf, hcf⟩
    · exact h.classes.eq_of_mem hpart hq hc hb ▸ ih hpart hbpart
    · obtain ⟨hbf, hbparts⟩ := OrdSet.mem_inter.1 hbf
      obtain ⟨part, hpart, hbpart⟩ := OrdSet.mem_unions.1 hbparts
      exact (ih hpart hbpart).tail ⟨hpart, hq, f, hf, OrdSet.not_disjoint_of_mem hbpart hbf,
        OrdSet.not_disjoint_of_mem hb (OrdSet.mem_inter.1 hcf).1⟩

theorem chain_of_subset (h : DisjointParts parts) (hp : p ∈ parts) (hq : q ∈ parts)
    (hs : s ∈ mergeSpanned parts fragments) (hps : p ⊆ s) (hqs : q ⊆ s) :
    ReflTransGen (Spanned parts fragments) p q := by
  obtain ⟨a, ha⟩ := OrdSet.exists_mem_of_ne_empty (h.nonempty p hp)
  obtain ⟨b, hb⟩ := OrdSet.exists_mem_of_ne_empty (h.nonempty q hq)
  have path := (h.classes_mergeSpanned fragments).linked hs (hps a ha) (hqs b hb)
  exact h.chain_of_joined hp ha path hq hb

/-- Two parts are merged if and only if a chain of fragments links them. -/
theorem exists_subset_iff (h : DisjointParts parts) (hp : p ∈ parts) (hq : q ∈ parts) :
    (∃ s ∈ mergeSpanned parts fragments, p ⊆ s ∧ q ⊆ s) ↔
      ReflTransGen (Spanned parts fragments) p q := by
  constructor
  · rintro ⟨s, hs, hps, hqs⟩
    exact h.chain_of_subset hp hq hs hps hqs
  · intro chain
    have hseparation := h.separation_mergeSpanned fragments
    obtain ⟨s, hs, hps⟩ := hseparation.cover p hp
    exact ⟨s, hs, hps, hseparation.subset_of_chain hs hps chain⟩

/-- Every separation has merged parts in one set, since their parts are linked by chains. -/
theorem exists_superset (h : DisjointParts parts) (hsets : Separation parts fragments sets)
    (hs : s ∈ mergeSpanned parts fragments) : ∃ t ∈ sets, s ⊆ t := by
  obtain ⟨p, hp, hps⟩ := h.exists_part_subset hs
  obtain ⟨t, ht, hpt⟩ := hsets.cover p hp
  refine ⟨t, ht, fun a ha => ?_⟩
  obtain ⟨q, hq, haq⟩ := exists_mem_part hs ha
  have hqs : q ⊆ s := h.subset_of_meets hq hs (OrdSet.not_disjoint_of_mem haq ha)
  exact hsets.subset_of_chain ht hpt (h.chain_of_subset hp hq hs hps hqs) a haq

end DisjointParts
end Spans

/-- Merging spanned parts leads to the finest unions of parts such that no fragment has triples of
two of them. They are in the order of the first parts that they are made of, whatever the order and
the repetition of the fragments. -/
theorem mergeSpanned_finest {parts : List TripleSet} (nonempty : ∀ part ∈ parts, part ≠ ∅)
    (disjoint : parts.Pairwise OrdSet.Disjoint) (fragments : List Fragment) :
    let merged := mergeSpanned parts fragments
    (∀ s ∈ merged, s ≠ ∅) ∧ merged.Pairwise OrdSet.Disjoint ∧
      Separation parts fragments merged ∧
      (∀ sets, Separation parts fragments sets → ∀ s ∈ merged, ∃ t ∈ sets, s ⊆ t) ∧
      (∀ p ∈ parts, ∀ q ∈ parts, (∃ s ∈ merged, p ⊆ s ∧ q ⊆ s) ↔
        ReflTransGen (Spanned parts fragments) p q) ∧
      merged.Pairwise (fun s t => parts.findIdx (· ⊆ s) < parts.findIdx (· ⊆ t)) ∧
      (parts.Pairwise OrdSet.LeastLt → merged.Pairwise OrdSet.LeastLt) ∧
      ∀ fragments' : List Fragment, (∀ f, f ∈ fragments' ↔ f ∈ fragments) →
        mergeSpanned parts fragments' = merged := by
  intro merged
  have h : DisjointParts parts := ⟨nonempty, disjoint⟩
  have hclasses : Classes (Joined parts fragments) merged := h.classes_mergeSpanned fragments
  refine ⟨hclasses.nonempty, hclasses.disjoint, h.separation_mergeSpanned fragments,
    fun sets hsets s hs => h.exists_superset hsets hs, fun p hp q hq => h.exists_subset_iff hp hq,
    h.pairwise_findIdx fragments, fun hleast => ?_, fun fragments' same =>
    h.mergeSpanned_congr same⟩
  rw [OrdSet.pairwise_leastLt_iff hclasses.nonempty]
  exact keepsPlace_before.pairwise_mergeSpanned
    ((OrdSet.pairwise_leastLt_iff nonempty).1 hleast) fragments

/-- Four parts, the first of which has triples on both sides of the second. -/
def crossroads : List TripleSet := [.ofList [0, 2], {1}, {3}, {4}]

/-- One fragment leads from the second part to the last one, the other from the first to the second.
It also has a triple of no part. -/
def crossings : List Fragment :=
  [.ofTriples "far" (.ofList [1, 4]), .ofTriples "near" (.ofList [0, 1, 7])]

/-- The first part and the last one have no fragment in common, but there is a chain. -/
theorem mergeSpanned_finest_crossroads :
    (∀ part ∈ crossroads, part ≠ ∅) ∧ crossroads.Pairwise OrdSet.Disjoint ∧
      mergeSpanned crossroads crossings = [.ofList [0, 1, 2, 4], {3}] ∧
      ReflTransGen (Spanned crossroads crossings) (.ofList [0, 2]) {4} ∧
      mergeSpanned crossroads crossings.reverse = mergeSpanned crossroads crossings := by
  have nonempty : ∀ part ∈ crossroads, part ≠ ∅ := by decide
  have disjoint : crossroads.Pairwise OrdSet.Disjoint := by decide
  have hmerged : mergeSpanned crossroads crossings = [.ofList [0, 1, 2, 4], {3}] := by decide
  obtain ⟨-, -, -, -, chains, -, -, congr⟩ := mergeSpanned_finest nonempty disjoint crossings
  refine ⟨nonempty, disjoint, hmerged, ?_, congr _ fun f => List.mem_reverse⟩
  refine (chains _ (by decide) _ (by decide)).1 ⟨.ofList [0, 1, 2, 4], ?_, by decide, by decide⟩
  exact hmerged ▸ List.mem_cons_self

end FederatedJoin
