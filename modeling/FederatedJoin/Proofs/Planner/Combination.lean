import FederatedJoin.Proofs.Planner.Correctness
import FederatedJoin.Proofs.Search.Forgetting

/-!
# Merging the diagnostics of several parts

It makes no difference which neighbours are merged first. None of the diagnostics that planning
leads to has a near miss twice, and merging keeps it so.

* `Diagnostics.Obtained` — the diagnostics that planning leads to.
* `Diagnostics.Bracketing` — the ways to merge a list of diagnostics.
* `Diagnostics.Bracketing.value_eq` — what all of them come to.
* `Diagnostics.merge_laws` — merging as an operation on these diagnostics.
-/

namespace FederatedJoin
namespace Diagnostics

/-- Diagnostics without samples, with unreachable triples, of a search, or merged from such. -/
inductive Obtained : Diagnostics → Prop where
  | empty : Obtained ∅
  | unreachable (triples : TripleSet) : Obtained (ofUnreachable triples)
  | search (s : Search) : Obtained s.run.diagnostics
  | merge {d e : Diagnostics} (hd : Obtained d) (he : Obtained e) : Obtained (d.merge e)

theorem Obtained.nodup {d : Diagnostics} (h : d.Obtained) : d.nearMisses.Nodup := by
  induction h with
  | empty => exact List.nodup_nil
  | unreachable triples => exact List.nodup_nil
  | search s => exact Search.nodup_nearMisses s
  | @merge d e hd he ihd ihe =>
    rw [nearMisses_merge ihd]
    exact nodup_distinctBy_id _

/-! ## Bracketings -/

/-- A way to merge diagnostics, two at a time. -/
inductive Bracketing where
  | nothing
  | single (d : Diagnostics)
  | both (left right : Bracketing)

namespace Bracketing

/-- The diagnostics that are merged, in order. -/
def parts : Bracketing → List Diagnostics
  | nothing => []
  | single d => [d]
  | both left right => left.parts ++ right.parts

/-- What merging them comes to. -/
def value : Bracketing → Diagnostics
  | nothing => ∅
  | single d => d
  | both left right => left.value.merge right.value

variable {b c : Bracketing}

theorem value_eq (h : ∀ d ∈ b.parts, d.Obtained) : b.value = combined b.parts := by
  induction b with
  | nothing => rfl
  | single d => exact (combined_singleton (h d List.mem_cons_self).nodup).symm
  | both left right ihl ihr =>
    obtain ⟨hleft, hright⟩ := List.forall_mem_append.1 h
    rw [value, ihl hleft, ihr hright, merge_combined, parts]

/-- Only the parts and their order make a difference. -/
theorem value_congr (hparts : b.parts = c.parts) (h : ∀ d ∈ b.parts, d.Obtained) :
    b.value = c.value := by
  rw [value_eq h, value_eq (hparts ▸ h), hparts]

theorem value_eq_foldl (h : ∀ d ∈ b.parts, d.Obtained) : b.value = b.parts.foldl merge ∅ := by
  rw [value_eq h, foldl_merge fun d hd => (h d hd).nodup]

end Bracketing
end Diagnostics

/-! ## Parts without an answer -/

/-- The outcome has no plan, for the reasons that the diagnostics give. -/
def PlanOutcome.FailsWith (o : PlanOutcome) (d : Diagnostics) : Prop :=
  ∃ part, o.plan = .empty part d

theorem PlanOutcome.rightUnique_failsWith : Relator.RightUnique PlanOutcome.FailsWith := by
  intro o d e hd he
  obtain ⟨part, hd⟩ := hd
  obtain ⟨part', he⟩ := he
  cases hd.symm.trans he
  rfl

theorem Planner.combine_of_failsWith {first : PlanOutcome} {others : List PlanOutcome}
    {ds : List Diagnostics} (h : List.Forall₂ PlanOutcome.FailsWith (first :: others) ds)
    (query : TripleSet) :
    combine query first others = noPlan query (ds.foldl Diagnostics.merge ∅) := by
  have hempty : ∀ o ∈ first :: others, o.plan.isEmpty = true := by
    intro o ho
    obtain ⟨d, -, part, hplan⟩ := exists_mem_of_forall₂ h.flip ho
    exact Plan.isEmpty_iff.2 ⟨part, d, hplan⟩
  obtain ⟨es, hes, hcombine⟩ := combine_of_unanswered hempty
  rw [hcombine, List.right_unique_forall₂' PlanOutcome.rightUnique_failsWith h hes]

/-! ## The laws of merging -/

namespace Diagnostics
namespace Obtained

variable {d e f : Diagnostics}

theorem merge_assoc (hd : d.Obtained) (he : e.Obtained) (hf : f.Obtained) :
    (d.merge e).merge f = d.merge (e.merge f) := by
  let left : Bracketing := .both (.both (.single d) (.single e)) (.single f)
  let right : Bracketing := .both (.single d) (.both (.single e) (.single f))
  have obtained : ∀ part ∈ [d, e, f], part.Obtained := by simp [hd, he, hf]
  exact Bracketing.value_congr (b := left) (c := right) rfl obtained

theorem empty_merge (hd : d.Obtained) : (∅ : Diagnostics).merge d = d :=
  Bracketing.value_congr (b := .both .nothing (.single d)) (c := .single d) rfl
    (List.forall_mem_singleton.2 hd)

theorem merge_empty (hd : d.Obtained) : d.merge ∅ = d :=
  Bracketing.value_congr (b := .both (.single d) .nothing) (c := .single d) rfl
    (List.forall_mem_singleton.2 hd)

end Obtained

/-- Diagnostics that planning leads to have each near miss once, and merging them is associative
with the diagnostics without samples as its identity. Merging unites the unreachable triples, keeps
the first occurrences of the near misses and puts the unbound inputs one after the other. However
the merging of some diagnostics is bracketed, the value is that of merging them from the first to
the last, which is what a query is reported with if none of its parts has an answer. -/
theorem merge_laws (d e f : Diagnostics) (hd : d.Obtained) (he : e.Obtained) (hf : f.Obtained) :
    d.nearMisses.Nodup ∧
    (d.merge e).merge f = d.merge (e.merge f) ∧
    (∅ : Diagnostics).merge d = d ∧ d.merge ∅ = d ∧
    (d.merge e).nearMisses = distinctBy id (d.nearMisses ++ e.nearMisses) ∧
    (d.merge e).unbound = d.unbound ++ e.unbound ∧
    (∀ id, id ∈ (d.merge e).unreachable ↔ id ∈ d.unreachable ∨ id ∈ e.unreachable) ∧
    ∀ b : Bracketing, (∀ part ∈ b.parts, part.Obtained) →
      b.value = b.parts.foldl merge ∅ ∧
      ∀ query first others, List.Forall₂ PlanOutcome.FailsWith (first :: others) b.parts →
        Planner.combine query first others = Planner.noPlan query b.value := by
  refine ⟨hd.nodup, hd.merge_assoc he hf, hd.empty_merge, hd.merge_empty,
    nearMisses_merge hd.nodup e, rfl, fun id => OrdSet.mem_union, fun b hb => ?_⟩
  have hvalue : b.value = b.parts.foldl merge ∅ := Bracketing.value_eq_foldl hb
  exact ⟨hvalue, fun query first others h => hvalue ▸ Planner.combine_of_failsWith h query⟩

/-- Two sources for one triple each, with nothing in common. -/
def apart (i j : TripleId) : Search :=
  ⟨.edgeless [.ofFragment (.ofTriples "one" {i}), .ofFragment (.ofTriples "other" {j})],
    .ofList [i, j], {}⟩

/-- Each of the sources leaves the triple of the other one uncovered. -/
theorem nearMisses_apart :
    ∀ p ∈ [(0, 1), (1, 0)], (apart p.1 p.2).run.diagnostics.nearMisses = [{p.2}, {p.1}] := by
  have hlevel : ∀ p ∈ [(0, 1), (1, 0)], (apart p.1 p.2).level 1 = [] := by decide
  have hdiagnosis : ∀ p ∈ [(0, 1), (1, 0)],
      (apart p.1 p.2).diagnosis.nearMisses = [{p.2}, {p.1}] := by decide
  intro p hp
  have room : ∀ k, 0 < k → ((apart p.1 p.2).level k).length ≤ 65536 := by
    rintro (_ | _ | k) hk
    · cases hk
    · rw [hlevel p hp]
      exact Nat.zero_le _
    · rw [Search.level_eq_nil (Nat.le_add_left 2 k)]
      exact Nat.zero_le _
  rw [Search.diagnostics_of_room room, hdiagnosis p hp]

/-- Two searches with the same near misses in different orders, and a triple that nothing
matches. -/
theorem merge_laws_apart :
    let d := (apart 0 1).run.diagnostics
    let e := (apart 1 0).run.diagnostics
    let f := ofUnreachable {5}
    d.Obtained ∧ e.Obtained ∧ f.Obtained ∧
    d.nearMisses = [{1}, {0}] ∧ e.nearMisses = [{0}, {1}] ∧
    (d.merge e).nearMisses = [{1}, {0}] ∧ (d.merge e).merge f = d.merge (e.merge f) ∧
    (Bracketing.both (.single f) (.both (.both .nothing (.single d)) (.single e))).value =
      [f, d, e].foldl merge ∅ := by
  intro d e f
  have hd : d.Obtained := .search _
  have he : e.Obtained := .search _
  have hf : f.Obtained := .unreachable _
  have hdNear : d.nearMisses = [{1}, {0}] := nearMisses_apart (0, 1) (by decide)
  have heNear : e.nearMisses = [{0}, {1}] := nearMisses_apart (1, 0) (by decide)
  obtain ⟨-, assoc, -, -, nearMisses, -, -, bracketings⟩ := merge_laws d e f hd he hf
  refine ⟨hd, he, hf, hdNear, heNear, ?_, assoc, (bracketings _ ?_).1⟩
  · rw [nearMisses, hdNear, heNear]
    decide
  · have obtained : ∀ part ∈ [f, d, e], part.Obtained := by simp [hd, he, hf]
    exact obtained

end Diagnostics
end FederatedJoin
