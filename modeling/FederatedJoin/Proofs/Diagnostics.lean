import FederatedJoin.Diagnostics
import FederatedJoin.Proofs.Distinct

/-!
# Which samples are kept

Samples are added one at a time and as long as there is room. What is kept of a whole list is told
at once here, and so is what becomes of diagnostics that are merged.

* `Diagnostics.foldl_addUnboundInputs` — of the combinations with unbound inputs, the first ones.
* `Diagnostics.foldl_addNearMiss` — of what dead ends leave uncovered, the first distinct sets that
  are small enough.
* `Diagnostics.combined` — the samples of a list of diagnostics, with `Diagnostics.merge_combined`.
-/

namespace FederatedJoin
namespace Diagnostics

variable {limits : SampleLimits}

@[simp] theorem nearMisses_empty : (∅ : Diagnostics).nearMisses = [] := rfl

@[simp] theorem unbound_empty : (∅ : Diagnostics).unbound = [] := rfl

theorem foldl_addUnboundInputs (d : Diagnostics) (l : List UnboundInputs) :
    l.foldl (addUnboundInputs limits) d =
      { d with unbound := d.unbound ++ l.take (limits.samples - d.unbound.length) } := by
  induction l generalizing d with
  | nil => simp
  | cons sample l ih =>
    rw [List.foldl_cons, ih, addUnboundInputs]
    split
    · next room =>
      have hroom : limits.samples - d.unbound.length =
          limits.samples - (d.unbound.length + 1) + 1 := by omega
      simp [hroom]
    · next full =>
      have hfull : limits.samples - d.unbound.length = 0 := by omega
      simp [hfull]

theorem foldl_addNearMiss (d : Diagnostics) (l : List TripleSet) :
    l.foldl (addNearMiss limits) d =
      { d with
        nearMisses := d.nearMisses ++
          ((distinctBy id (l.filter (·.size ≤ limits.uncovered))).filter
            (· ∉ d.nearMisses)).take (limits.samples - d.nearMisses.length) } := by
  induction l generalizing d with
  | nil => simp [distinctBy]
  | cons s l ih =>
    rw [List.foldl_cons, ih, addNearMiss]
    by_cases small : s.size ≤ limits.uncovered
    · by_cases room : d.nearMisses.length < limits.samples
      · have hroom : limits.samples - d.nearMisses.length =
            limits.samples - (d.nearMisses.length + 1) + 1 := by omega
        by_cases known : s ∈ d.nearMisses
        · -- A set that is known already is left out on both sides.
          have hknown : ∀ t, (!decide (t ∈ d.nearMisses) && !decide (t = s)) =
              !decide (t ∈ d.nearMisses) := by
            intro t
            by_cases hts : t = s <;> simp [hts, known]
          simp [small, known, distinctBy, List.filter_filter, hknown]
        · simp [small, room, known, distinctBy, hroom, List.filter_filter]
      · have hfull : limits.samples - d.nearMisses.length = 0 := by omega
        simp [room, hfull]
    · simp [small]

/-! ## Merging -/

variable {d : Diagnostics} {ds : List Diagnostics}

theorem pushNew_distinctBy (l : List TripleSet) (s : TripleSet) :
    pushNew (distinctBy id l) s = distinctBy id (l ++ [s]) := by
  rw [pushNew, distinctBy_append]
  by_cases h : s ∈ l <;> simp [h, distinctBy]

theorem foldl_pushNew (l m : List TripleSet) :
    m.foldl pushNew (distinctBy id l) = distinctBy id (l ++ m) := by
  induction m generalizing l with
  | nil => rw [List.append_nil, List.foldl_nil]
  | cons s m ih => rw [List.foldl_cons, pushNew_distinctBy, ih, ← List.append_cons]

theorem nearMisses_merge (h : d.nearMisses.Nodup) (e : Diagnostics) :
    (d.merge e).nearMisses = distinctBy id (d.nearMisses ++ e.nearMisses) := by
  rw [← foldl_pushNew, distinctBy_eq_self h, merge]

/-- The samples of some diagnostics, one after the other, with each near miss once. -/
def combined (ds : List Diagnostics) : Diagnostics :=
  { unreachable := .unions (ds.map unreachable)
    nearMisses := distinctBy id (ds.flatMap nearMisses)
    unbound := ds.flatMap unbound }

theorem combined_singleton (h : d.nearMisses.Nodup) : combined [d] = d := by
  simp [combined, distinctBy_eq_self h]

theorem merge_combined (ds es : List Diagnostics) :
    (combined ds).merge (combined es) = combined (ds ++ es) := by
  have unreachable : OrdSet.unions (ds.map unreachable) ∪ OrdSet.unions (es.map unreachable) =
      OrdSet.unions ((ds ++ es).map unreachable) := by
    apply OrdSet.ext
    simp [OrdSet.mem_unions_append]
  have nearMisses : (distinctBy id (es.flatMap nearMisses)).foldl pushNew
      (distinctBy id (ds.flatMap nearMisses)) = distinctBy id ((ds ++ es).flatMap nearMisses) := by
    rw [foldl_pushNew, distinctBy_append_distinctBy, List.flatMap_append]
  simp [merge, combined, unreachable, nearMisses]

theorem foldl_merge (h : ∀ d ∈ ds, d.nearMisses.Nodup) : ds.foldl merge ∅ = combined ds := by
  induction ds using List.reverseRecOn with
  | nil => rfl
  | append_singleton ds d ih =>
    obtain ⟨hds, hd⟩ := List.forall_mem_append.1 h
    rw [List.foldl_concat, ih hds, ← merge_combined,
      combined_singleton (hd d List.mem_cons_self)]

end Diagnostics
end FederatedJoin
