import FederatedJoin.Proofs.Decomposition.Classes
import FederatedJoin.Proofs.Planner.Correctness
import FederatedJoin.Proofs.Search.Explanations

/-!
# Fragments without triples

A fragment that matches no triple keeps every rule for callers, ties no parts together and belongs
to no node. Such fragments may be offered anywhere and in any number without effect.

* `Search.run_of_size_eq_zero` — what a search finds in a graph without nodes.
* `Planner.planConnected_filter`, `Planner.planPart_filter`, `Planner.plan_filter` — planning
  without such fragments.
* `Padded` — a list with such fragments put in.
-/

namespace FederatedJoin

/-! ## Graphs without nodes -/

/-- A graph without nodes is searched in vain, and no triple of the query is reachable. -/
theorem Search.run_of_size_eq_zero {s : Search} (h : s.graph.size = 0) :
    s.run = { diagnostics := .ofUnreachable s.query } := by
  have hnodes : s.graph.nodes = #[] := Array.eq_empty_of_size_eq_zero h
  have hunreachable : s.unreachable = s.query := by
    apply OrdSet.ext
    intro id
    rw [mem_unreachable, hnodes]
    simp
  unfold run
  rw [hunreachable]
  split
  · next hempty =>
    -- Nothing is asked for, so there is a search, but it has nowhere to start.
    have hquery : s.query = ∅ := OrdSet.isEmpty_iff.1 hempty
    have hseeds : s.seeds = [] := by simp [seeds, JoinGraph.allNodes, h]
    simp only [allRounds, hseeds, h, rounds, Memo.insertAll, diagnose, hquery]
    rfl
  · rfl

/-! ## The stages of planning -/

section

variable {fragments : List Fragment} {keep : Fragment → Bool}

theorem mergeSpanned_filter (parts : List TripleSet)
    (h : ∀ f ∈ fragments, keep f = false → f.triples = ∅) :
    mergeSpanned parts (fragments.filter keep) = mergeSpanned parts fragments := by
  induction fragments generalizing parts with
  | nil => rfl
  | cons f fragments ih =>
    obtain ⟨hf, hfragments⟩ := List.forall_mem_cons.1 h
    by_cases hkeep : keep f
    · rw [List.filter_cons_of_pos hkeep]
      exact ih (mergeMeeting f.triples parts) hfragments
    · have hapart : ∀ part ∈ parts, part.Disjoint f.triples := by
        intro part _ id _ hid
        exact OrdSet.not_mem_empty (hf (Bool.eq_false_iff.2 hkeep) ▸ hid)
      have hstep : mergeSpanned parts (f :: fragments) =
          mergeSpanned (mergeMeeting f.triples parts) fragments := rfl
      rw [List.filter_cons_of_neg hkeep, ih parts hfragments, hstep, mergeMeeting_eq_self hapart]

namespace Planner

variable {p : Planner} {u : Universe} {query part : TripleSet}

theorem violation?_filter (h : ∀ f ∈ fragments, keep f = false → f.triples = ∅) :
    violation? u query (fragments.filter keep) = violation? u query fragments := by
  have hfind : (fragments.filter keep).find? (¬·.triples ⊆ query) =
      fragments.find? (¬·.triples ⊆ query) := by
    rw [List.find?_filter]
    refine List.find?_congr fun f hf => ?_
    by_cases hkeep : keep f
    · simp [hkeep]
    · have hsub : f.triples ⊆ query := by
        intro id hid
        exact absurd (h f hf (Bool.eq_false_iff.2 hkeep) ▸ hid) OrdSet.not_mem_empty
      simp [hsub]
  rw [violation?, violation?, hfind]

/-- A query for which there are no nodes is not matched at all. -/
theorem planConnected_of_group_eq_nil (h : Node.group fragments = []) :
    p.planConnected query fragments = .ok (noPlan query (.ofUnreachable query)) := by
  by_cases hne : fragments = []
  · subst hne
    rfl
  · have hsize : (JoinGraph.build (Node.group fragments) p.validity).size = 0 := by
      rw [JoinGraph.size, JoinGraph.nodes_build, h]
      rfl
    have hrun : Search.run ⟨.build (Node.group fragments) p.validity, query, p.config⟩ =
        { diagnostics := .ofUnreachable query } := Search.run_of_size_eq_zero hsize
    rw [planConnected_of_components_eq_nil hne (congrArg SearchOutcome.components hrun), hrun]

theorem planConnected_filter (h : ∀ f ∈ fragments, keep f = false → f.triples = ∅) :
    p.planConnected query (fragments.filter keep) = p.planConnected query fragments := by
  have hgroup := Node.group_filter keep h
  by_cases hnil : Node.group fragments = []
  · rw [planConnected_of_group_eq_nil (hgroup.trans hnil), planConnected_of_group_eq_nil hnil]
  · have nonempty : ∀ l : List Fragment, Node.group l ≠ [] → ¬l.isEmpty = true := by
      intro l hl hempty
      exact hl (List.isEmpty_iff.1 hempty ▸ rfl)
    rw [planConnected, planConnected, if_neg (nonempty _ (hgroup ▸ hnil)),
      if_neg (nonempty _ hnil), Grouping.toList_ofFragments, Grouping.toList_ofFragments, hgroup]

theorem planPart_eq :
    p.planPart fragments part = p.planConnected part (fragments.filter (·.triples ⊆ part)) := by
  have hfilter : (fragments.filter fun f => ¬f.triples.isEmpty ∧ f.triples ⊆ part) =
      (fragments.filter (·.triples ⊆ part)).filter fun f => ¬f.triples.isEmpty := by
    rw [List.filter_filter]
    exact List.filter_congr fun f _ => by simp
  rw [planPart, hfilter, planConnected_filter]
  simp

theorem planPart_filter (h : ∀ f ∈ fragments, keep f = false → f.triples = ∅) :
    p.planPart (fragments.filter keep) part = p.planPart fragments part := by
  rw [planPart_eq, planPart_eq, List.filter_filter]
  simp only [Bool.and_comm, ← List.filter_filter]
  exact planConnected_filter fun f hf => h f (List.mem_of_mem_filter hf)

/-- Fragments without triples have no influence. -/
theorem plan_filter (h : ∀ f ∈ fragments, keep f = false → f.triples = ∅) :
    p.plan u query (fragments.filter keep) = p.plan u query fragments := by
  have hpart : p.planPart (fragments.filter keep) = p.planPart fragments :=
    funext fun part => planPart_filter h
  simp only [plan, planParts, violation?_filter h, mergeSpanned_filter _ h, planConnected_filter h,
    hpart]

end Planner
end

/-! ## Putting in fragments -/

/-- The second list is the first one with any number of fragments put in that match no triple. -/
inductive Padded : List Fragment → List Fragment → Prop
  | nil : Padded [] []
  | keep (f : Fragment) {fragments padded : List Fragment} :
      Padded fragments padded → Padded (f :: fragments) (f :: padded)
  | insert (f : Fragment) {fragments padded : List Fragment} :
      f.triples = ∅ → Padded fragments padded → Padded fragments (f :: padded)

variable {fragments padded : List Fragment}

/-- Both lists have the same fragments with triples. -/
theorem Padded.filter_eq (h : Padded fragments padded) :
    padded.filter (!·.triples.isEmpty) = fragments.filter (!·.triples.isEmpty) := by
  induction h with
  | nil => rfl
  | keep f _ ih => rw [List.filter_cons, List.filter_cons, ih]
  | insert f hf _ ih => rw [List.filter_cons_of_neg (by simp [hf]), ih]

namespace Planner

/-- Fragments without triples may be put in anywhere. Without any fragment, the outcome is the one
of a search among no nodes. -/
theorem plan_padded (p : Planner) (u : Universe) (query : TripleSet)
    (fragments padded : List Fragment) (h : Padded fragments padded) :
    p.plan u query padded = p.plan u query fragments ∧
      let nowhere : Search := ⟨.build [] p.validity, query, p.config⟩
      nowhere.run.components = [] ∧
        p.planConnected query [] = .ok (noPlan query nowhere.run.diagnostics) := by
  have hkeep (l : List Fragment) :
      ∀ f ∈ l, (!f.triples.isEmpty) = false → f.triples = ∅ := by simp
  refine ⟨?_, ?_⟩
  · calc
      p.plan u query padded = p.plan u query (padded.filter (!·.triples.isEmpty)) :=
        (plan_filter (hkeep padded)).symm
      _ = p.plan u query (fragments.filter (!·.triples.isEmpty)) := by rw [h.filter_eq]
      _ = p.plan u query fragments := plan_filter (hkeep fragments)
  · intro nowhere
    have hrun : nowhere.run = { diagnostics := .ofUnreachable query } :=
      Search.run_of_size_eq_zero rfl
    rw [hrun]
    exact ⟨rfl, rfl⟩

/-- Whom a person knows, and what the friend is called. -/
def friends : Universe :=
  .ofPatterns
    [⟨.var "person", .iri "knows", .var "friend"⟩, ⟨.var "friend", .iri "name", .var "name"⟩]

/-- Two sources that answer both patterns. -/
def friendSources : List Fragment :=
  [.ofUniverse friends "left" friends.fullSet, .ofUniverse friends "right" friends.fullSet]

/-- The sources of `friendSources` between others that match no triple. -/
def paddedFriendSources : List Fragment :=
  .ofTriples "first" ∅ :: .ofUniverse friends "left" friends.fullSet ::
    .ofTriples "between" ∅ :: .ofTriples "between" ∅ ::
      .ofUniverse friends "right" friends.fullSet :: [.ofTriples "last" ∅]

theorem plan_padded_friends :
    Padded friendSources paddedFriendSources ∧
      ∃ outcome, Planner.plan {} friends friends.fullSet friendSources = .ok outcome ∧
        Planner.plan {} friends friends.fullSet paddedFriendSources = .ok outcome := by
  have padded : Padded friendSources paddedFriendSources :=
    .insert _ rfl (.keep _ (.insert _ rfl (.insert _ rfl (.keep _ (.insert _ rfl .nil)))))
  have inside : ∀ f ∈ friendSources, f.triples ⊆ friends.fullSet :=
    List.forall_mem_cons.2 ⟨fun _ h => h, List.forall_mem_singleton.2 fun _ h => h⟩
  obtain ⟨outcome, hplan⟩ := exists_plan_eq_ok (p := {}) (u := friends) rfl rfl
    (violation?_eq_none_iff.2 ⟨fun _ h => h, inside⟩)
  obtain ⟨heq, -⟩ := plan_padded {} friends friends.fullSet _ _ padded
  exact ⟨padded, outcome, hplan, heq.trans hplan⟩

end Planner
end FederatedJoin
