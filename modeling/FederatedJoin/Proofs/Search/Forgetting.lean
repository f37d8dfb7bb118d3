import FederatedJoin.Proofs.Search.Explanations
import FederatedJoin.Proofs.Search.Window

/-!
# What a forgetful search reports

A set of nodes that the memo has forgotten is taken up again when it is reached again. This changes
neither the components nor the near misses, but unbound inputs are reported each time.

* `Search.walks` — the sets of nodes that are taken up if nothing is remembered.
* `Search.takenUp_of_room` — with room for every level, no set is taken up twice.
* `Search.diagnostics_memoCapacity` — how far the diagnostics depend on the capacity of the memo.
-/

namespace FederatedJoin
namespace Search

variable {s : Search} {memo : Memo NodeSet} {paths : List JoinPath} {k : Nat}

/-! ## What is taken up, round by round -/

section Steps
variable {sets : Nat → List NodeSet} {kept : Memo NodeSet → Prop}

/-- If the memo keeps what it has to and round `k` takes up the sets `sets k`, then round `k + 1`
takes up the sets `sets (k + 1)`. -/
def TakesUp (s : Search) (kept : Memo NodeSet → Prop) (sets : Nat → List NodeSet) : Prop :=
  ∀ k memo paths, s.RoundStart k memo paths → kept memo → paths.map JoinPath.nodes = sets k →
    let next := memo.insertAll JoinPath.nodes ((paths.map s.expand).flatMap Expansion.successors)
    kept next.1 ∧ next.2.map JoinPath.nodes = sets (k + 1)

theorem TakesUp.rounds_eq (step : s.TakesUp kept sets) (h : s.RoundStart k memo paths)
    (hkept : kept memo) (hpaths : paths.map JoinPath.nodes = sets k) (n : Nat) :
    (s.rounds n memo paths).1.map (fun round => round.map fun e => e.path.nodes) =
      (List.range' k n).map sets := by
  induction n generalizing k memo paths with
  | zero => rfl
  | succ n ih =>
    obtain ⟨hkept', hnext⟩ := step k memo paths h hkept hpaths
    rw [fst_rounds_succ, List.map_cons, ih h.next hkept' hnext, List.range'_succ, List.map_cons,
      ← hpaths, List.map_map]
    simp only [Function.comp_def, path_expand]

/-- The seeds are different sets of nodes, so all of them are taken up in any case. -/
theorem TakesUp.takenUp_eq (step : s.TakesUp kept sets) (hzero : sets 0 = s.level 0)
    (hkept : kept (Memo.insertAll JoinPath.nodes { capacity := s.config.memoCapacity } s.seeds).1) :
    s.takenUp = (List.range s.graph.size).flatMap sets := by
  have hseeds : (Memo.insertAll JoinPath.nodes { capacity := s.config.memoCapacity }
      s.seeds).2.map JoinPath.nodes = sets 0 := by
    rw [Memo.insertAll_of_nodup (fun _ _ => Std.HashSet.not_mem_empty), nodes_seeds, hzero]
    rw [nodes_seeds]
    exact nodup_level s 0
  have hrounds := step.rounds_eq (roundStart_seeds s s.config.memoCapacity) hkept hseeds
    s.graph.size
  rw [takenUp, List.map_flatten, List.flatMap_def, List.range_eq_range', ← hrounds]
  rfl

end Steps

/-- With room for every level after the first one, no set of nodes is taken up twice: what the memo
forgets when a level is reached belongs to the levels before. -/
theorem takenUp_of_room (room : ∀ k, 0 < k → (s.level k).length ≤ s.config.memoCapacity) :
    s.takenUp = s.reached := by
  have step : s.TakesUp (fun memo => memo.capacity = s.config.memoCapacity ∧
      ∃ history : List NodeSet, memo.Window history) s.level := by
    rintro k memo paths h ⟨hcapacity, history, hmemo⟩ -
    have hbatch : ∀ t ∈ ((paths.map s.expand).flatMap Expansion.successors).map JoinPath.nodes,
        t ∈ s.level (k + 1) := by
      intro t ht
      rwa [← h.distinctBy_batch, mem_distinctBy_id]
    have hadmitted := hmemo.remembers.admitted_eq List.nil_suffix List.nodup_nil
      (fun q hq remembered => absurd remembered (h.fresh q hq)) hbatch
      (hcapacity ▸ room (k + 1) k.succ_pos)
    refine ⟨⟨(Memo.capacity_insertAll memo _).trans hcapacity, _, hmemo.insertAll _⟩, ?_⟩
    rw [hadmitted, h.distinctBy_batch]
    simp
  exact step.takenUp_eq rfl ⟨Memo.capacity_insertAll _ _, _, (Memo.window_nil _).insertAll _⟩

/-- The sets of `k + 1` nodes that the search comes to, as often as there are ways to do so. -/
def walks (s : Search) : Nat → List NodeSet
  | 0 => s.level 0
  | k + 1 => (s.walks k).flatMap s.successorSets

/-- A memo without room lets everything through. -/
theorem takenUp_of_capacity_eq_zero (hcapacity : s.config.memoCapacity = 0) :
    s.takenUp = (List.range s.graph.size).flatMap s.walks := by
  have step : s.TakesUp (fun memo => memo.Remembers [] ∧ memo.capacity = 0) s.walks := by
    rintro k memo paths h ⟨hmemo, hzero⟩ hpaths
    dsimp only
    rw [hmemo.insertAll_of_capacity_eq_zero hzero, h.nodes_batch, hpaths, walks]
    exact ⟨⟨hmemo, hzero⟩, rfl⟩
  refine step.takenUp_eq rfl ?_
  rw [(Memo.remembers_nil _).insertAll_of_capacity_eq_zero hcapacity]
  exact ⟨Memo.remembers_nil _, hcapacity⟩

/-! ## What is reported -/

/-- The samples that a search gains when it takes up these sets of nodes. -/
def samplesOf (s : Search) (sets : List NodeSet) : Diagnostics :=
  { nearMisses :=
      (distinctBy id ((sets.filterMap s.leftUncovered?).filter
        (·.size ≤ s.config.limits.uncovered))).take s.config.limits.samples
    unbound := (sets.filterMap s.unboundSample?).take s.config.limits.samples }

/-- The diagnostics of a search that takes up every set of nodes that it reaches once. -/
def diagnosis (s : Search) : Diagnostics :=
  if s.unreachable.isEmpty then s.samplesOf s.reached else .ofUnreachable s.unreachable

theorem diagnosis_eq (h : s.unreachable = ∅) : s.diagnosis = s.samplesOf s.reached :=
  if_pos (OrdSet.isEmpty_iff.2 h)

/-- A query with triples that nothing matches is not searched. -/
theorem diagnosis_of_unreachable (h : s.unreachable ≠ ∅) : s.diagnosis = s.run.diagnostics := by
  rw [diagnosis, if_neg (mt OrdSet.isEmpty_iff.1 h), diagnostics_of_unreachable h]

theorem diagnostics_eq_samplesOf (h : s.unreachable = ∅) :
    s.run.diagnostics = s.samplesOf s.takenUp :=
  diagnostics_eq h

theorem distinctBy_takenUp (s : Search) : distinctBy id s.takenUp = s.reached :=
  distinctBy_allRounds s

/-- What a dead end leaves uncovered is recorded once, however often the dead end is come to. -/
theorem nearMisses_eq_diagnosis (h : s.unreachable = ∅) :
    s.run.diagnostics.nearMisses = s.diagnosis.nearMisses := by
  rw [diagnostics_eq_samplesOf h, diagnosis_eq h, samplesOf, samplesOf, List.filter_filterMap,
    List.filter_filterMap, distinctBy_id_filterMap, distinctBy_takenUp]

/-- The different samples of unbound inputs, each for the first time that it is come to. -/
theorem distinctBy_unboundSamples (s : Search) :
    distinctBy UnboundInputs.nodes (s.takenUp.filterMap s.unboundSample?) =
      s.reached.filterMap s.unboundSample? := by
  rw [distinctBy_filterMap UnboundInputs.nodes fun t sample hsample => ?_, distinctBy_takenUp]
  obtain ⟨-, -, -, rfl⟩ := unboundSample?_eq_some_iff.1 hsample
  rfl

theorem nodup_unbound_diagnosis (s : Search) :
    (s.diagnosis.unbound.map UnboundInputs.nodes).Nodup := by
  by_cases h : s.unreachable = ∅
  · rw [diagnosis_eq h, samplesOf, ← distinctBy_unboundSamples]
    exact (nodup_map_distinctBy _ _).sublist ((List.take_sublist _ _).map _)
  · rw [diagnosis_of_unreachable h, diagnostics_of_unreachable h]
    exact List.nodup_nil

theorem distinctBy_unbound_isPrefix (h : s.unreachable = ∅) :
    distinctBy UnboundInputs.nodes s.run.diagnostics.unbound <+: s.diagnosis.unbound := by
  rw [diagnostics_eq_samplesOf h, diagnosis_eq h, samplesOf, samplesOf,
    ← distinctBy_unboundSamples, List.prefix_take_iff]
  refine ⟨distinctBy_take_isPrefix _ _ _, ?_⟩
  exact (distinctBy_sublist _ _).length_le.trans (List.length_take_le _ _)

theorem length_unbound_diagnosis_le (h : s.unreachable = ∅) :
    s.diagnosis.unbound.length ≤ s.run.diagnostics.unbound.length := by
  rw [diagnostics_eq_samplesOf h, diagnosis_eq h, samplesOf, samplesOf,
    ← distinctBy_unboundSamples, List.length_take, List.length_take]
  have := (distinctBy_sublist UnboundInputs.nodes (s.takenUp.filterMap s.unboundSample?)).length_le
  omega

/-- Repeated samples of unbound inputs are all that can be different. -/
theorem diagnostics_eq_diagnosis_iff (h : s.unreachable = ∅) :
    s.run.diagnostics = s.diagnosis ↔
      (s.run.diagnostics.unbound.map UnboundInputs.nodes).Nodup := by
  constructor
  · intro heq
    exact heq ▸ nodup_unbound_diagnosis s
  · intro hnodup
    have hprefix := distinctBy_unbound_isPrefix h
    rw [distinctBy_eq_self_of_nodup_map _ hnodup] at hprefix
    have hunbound := hprefix.eq_of_length_le (length_unbound_diagnosis_le h)
    have hnear := nearMisses_eq_diagnosis h
    rw [diagnostics_eq_samplesOf h, diagnosis_eq h] at hunbound hnear ⊢
    exact congrArg₂ (Diagnostics.mk ∅) hnear hunbound

theorem diagnosis_config (s : Search) (capacity : Nat) :
    ({ s with config := { s.config with memoCapacity := capacity } } : Search).diagnosis =
      s.diagnosis := by
  unfold diagnosis reached
  rw [funext (level_config s { s.config with memoCapacity := capacity })]
  rfl

theorem unreachable_diagnosis (s : Search) : s.diagnosis.unreachable = s.unreachable := by
  by_cases h : s.unreachable = ∅
  · rw [diagnosis_eq h, h]
    rfl
  · rw [diagnosis_of_unreachable h, unreachable_diagnostics]

theorem diagnostics_of_room (room : ∀ k, 0 < k → (s.level k).length ≤ s.config.memoCapacity) :
    s.run.diagnostics = s.diagnosis := by
  by_cases h : s.unreachable = ∅
  · rw [diagnostics_eq_samplesOf h, diagnosis_eq h, takenUp_of_room room]
  · exact (diagnosis_of_unreachable h).symm

/-- The capacity of the memo has no influence on the triples that nothing matches and on the near
misses. Of the combinations with unbound inputs, those that are reported are the first ones in any
case, but a combination can be reported repeatedly. The diagnostics are the same unless one is, and
a memo with room for each level after the first one keeps this from happening. -/
theorem diagnostics_memoCapacity (g : JoinGraph) (query : TripleSet) (config : Config) :
    ∃ d : Diagnostics, (d.unbound.map UnboundInputs.nodes).Nodup ∧ ∀ capacity,
      let s : Search := ⟨g, query, { config with memoCapacity := capacity }⟩
      let d' := s.run.diagnostics
      d'.unreachable = d.unreachable ∧ d'.nearMisses = d.nearMisses ∧
      distinctBy UnboundInputs.nodes d'.unbound <+: d.unbound ∧
      (d' = d ↔ (d'.unbound.map UnboundInputs.nodes).Nodup) ∧
      ((∀ k, 0 < k → (s.level k).length ≤ capacity) → d' = d) := by
  refine ⟨(⟨g, query, config⟩ : Search).diagnosis, ?_, fun capacity => ?_⟩
  · exact nodup_unbound_diagnosis _
  · intro s d'
    have hdiagnosis : (⟨g, query, config⟩ : Search).diagnosis = s.diagnosis :=
      (diagnosis_config ⟨g, query, config⟩ capacity).symm
    rw [hdiagnosis]
    by_cases h : s.unreachable = ∅
    · exact ⟨(unreachable_diagnostics s).trans (unreachable_diagnosis s).symm,
        nearMisses_eq_diagnosis h, distinctBy_unbound_isPrefix h, diagnostics_eq_diagnosis_iff h,
        diagnostics_of_room⟩
    · have heq : s.diagnosis = d' := diagnosis_of_unreachable h
      have hnodup := nodup_unbound_diagnosis s
      rw [heq] at hnodup ⊢
      have hdistinct := distinctBy_eq_self_of_nodup_map _ hnodup
      exact ⟨rfl, rfl, hdistinct.symm ▸ List.prefix_rfl, iff_of_true rfl hnodup, fun _ => rfl⟩

/-- Without a memo the two nodes are reported twice, once for each of them that comes first. -/
theorem repeated_unbound_waiting :
    let d := waitingSearch.run.diagnostics
    let d' := (Search.run ⟨waiting, .ofList [0, 1], { memoCapacity := 0 }⟩).diagnostics
    d' ≠ d ∧ d'.unbound.map UnboundInputs.nodes = [.ofList [0, 1], .ofList [0, 1]] := by
  intro d d'
  have hd : d.unbound.map UnboundInputs.nodes = [.ofList [0, 1]] := by
    have room : ∀ k, 0 < k → (waitingSearch.level k).length ≤ 65536 := by
      rintro (_ | _ | k) hk
      · cases hk
      · decide
      · rw [level_eq_nil (Nat.le_add_left 2 k)]
        exact Nat.zero_le _
    rw [show d = waitingSearch.diagnosis from diagnostics_of_room room]
    decide
  have hd' : d'.unbound.map UnboundInputs.nodes = [.ofList [0, 1], .ofList [0, 1]] := by
    rw [show d' = _ from diagnostics_eq_samplesOf (by decide), takenUp_of_capacity_eq_zero rfl]
    decide
  refine ⟨fun heq => ?_, hd'⟩
  rw [heq, hd] at hd'
  cases hd'

end Search
end FederatedJoin
