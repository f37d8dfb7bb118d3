import FederatedJoin.Decomposition.Basic
import Mathlib.Data.List.FinRange

/-!
# The parts of a query cover it

No triple is lost or added when a query is divided into parts and the parts that a fragment spans
are merged.

* `Decomposer.unions_variableConnected` — the parts of a query make up the query.
* `unions_mergeSpanned` — merged parts make up what the parts made up before.
* `Decomposer.unions_mergeSpanned_variableConnected` — both together.
-/

namespace FederatedJoin

variable {parts : List TripleSet} {triples : TripleSet} {id : TripleId}

/-! ## Dividing -/

namespace Decomposer

/-- Every triple is in the part of the root of its position. -/
theorem mem_unions_parts {l : List TripleId} {classes : Forest l.length} :
    id ∈ OrdSet.unions (Decomposer.parts l classes) ↔ id ∈ l := by
  simp only [OrdSet.mem_unions, Decomposer.parts, List.mem_map]
  constructor
  · intro h
    obtain ⟨_, ⟨root, -, rfl⟩, hid⟩ := h
    obtain ⟨i, -, rfl⟩ := List.mem_map.1 (OrdSet.mem_ofList.1 hid)
    exact List.getElem_mem i.isLt
  · intro h
    obtain ⟨i, hi, rfl⟩ := List.getElem_of_mem h
    let position : Fin l.length := ⟨i, hi⟩
    have hroot : classes.root position ∈ (List.finRange l.length).map classes.root :=
      List.mem_map_of_mem (List.mem_finRange position)
    obtain ⟨root, hmem, heq⟩ := exists_mem_distinctBy id hroot
    refine ⟨_, ⟨root, hmem, rfl⟩, OrdSet.mem_ofList.2 (List.mem_map.2 ⟨position, ?_, rfl⟩)⟩
    exact List.mem_filter.2 ⟨List.mem_finRange position, decide_eq_true heq.symm⟩

theorem unions_variableConnected (u : Universe) (query : TripleSet) :
    OrdSet.unions (variableConnected u query) = query := by
  apply OrdSet.ext
  intro id
  exact mem_unions_parts

end Decomposer

/-! ## Merging -/

theorem unions_mergeMeeting (triples : TripleSet) (parts : List TripleSet) :
    OrdSet.unions (mergeMeeting triples parts) = OrdSet.unions parts := by
  unfold mergeMeeting
  split
  · rfl
  · next first rest hdrop =>
    have hparts : parts = parts.takeWhile (·.Disjoint triples) ++ first :: rest := by
      rw [← hdrop, List.takeWhile_append_dropWhile]
    apply OrdSet.ext
    intro id
    calc id ∈ OrdSet.unions (parts.takeWhile (·.Disjoint triples) ++
          OrdSet.unions (first :: rest.filter (¬·.Disjoint triples)) ::
            rest.filter (·.Disjoint triples))
      _ ↔ id ∈ OrdSet.unions (parts.takeWhile (·.Disjoint triples)) ∨ id ∈ first ∨
            id ∈ OrdSet.unions rest := by
        rw [OrdSet.mem_unions_append, OrdSet.mem_unions_cons, OrdSet.mem_unions_cons, or_assoc,
          OrdSet.mem_unions_filter (fun part => decide (part.Disjoint triples)) (l := rest)]
        simp only [decide_not]
      _ ↔ id ∈ OrdSet.unions parts := by
        conv => rhs; rw [hparts]
        rw [OrdSet.mem_unions_append, OrdSet.mem_unions_cons]

theorem mergeSpanned_nil (fragments : List Fragment) : mergeSpanned [] fragments = [] := by
  unfold mergeSpanned
  induction fragments with
  | nil => rfl
  | cons f fragments ih => exact ih

theorem unions_mergeSpanned (parts : List TripleSet) (fragments : List Fragment) :
    OrdSet.unions (mergeSpanned parts fragments) = OrdSet.unions parts := by
  unfold mergeSpanned
  induction fragments generalizing parts with
  | nil => rfl
  | cons f fragments ih => rw [List.foldl_cons, ih, unions_mergeMeeting]

theorem Decomposer.unions_mergeSpanned_variableConnected (u : Universe) (query : TripleSet)
    (fragments : List Fragment) :
    OrdSet.unions (mergeSpanned (variableConnected u query) fragments) = query := by
  rw [unions_mergeSpanned, unions_variableConnected]

/-- The triples of a query are those of its parts. -/
theorem Decomposer.mem_query_iff {u : Universe} {query : TripleSet} (fragments : List Fragment) :
    id ∈ query ↔ ∃ part ∈ mergeSpanned (variableConnected u query) fragments, id ∈ part := by
  rw [← OrdSet.mem_unions, unions_mergeSpanned_variableConnected]

end FederatedJoin
