import FederatedJoin.Alternatives
import FederatedJoin.Proofs.Distinct
import FederatedJoin.Proofs.Search.Rounds

/-!
# One component for each set of representatives

Of the components that have the same representatives, the first one is kept. A search finds
components with fewer nodes first, so that one is among the smallest.

* `JoinGraph.exists_earlier_of_not_first` — what a component is dropped in favour of.
* `JoinGraph.distinctComponents_representatives` — which components are kept.
-/

namespace FederatedJoin
namespace JoinGraph

variable {g : JoinGraph} {interchangeable : AlternativeSources} {components : List JoinComponent}
variable {c : JoinComponent} {i : Nat}

/-- The representatives of the nodes of a component. -/
def representatives (g : JoinGraph) (interchangeable : AlternativeSources) (c : JoinComponent) :
    NodeSet :=
  canonicalSet (g.canonicalNodes interchangeable) c.nodes

theorem distinctComponents_ne_nil (h : components ≠ []) :
    g.distinctComponents interchangeable components ≠ [] := by
  obtain ⟨c, hc⟩ := List.exists_mem_of_ne_nil components h
  obtain ⟨d, hd, -⟩ := exists_mem_distinctBy (g.representatives interchangeable) hc
  exact List.ne_nil_of_mem hd

theorem distinctComponents_distinctComponents :
    g.distinctComponents interchangeable (g.distinctComponents interchangeable components) =
      g.distinctComponents interchangeable components :=
  distinctBy_eq_self_of_nodup_map _ (nodup_map_distinctBy _ components)

/-- A component that is not the first with its representatives follows one that is. If a search
found both, that one has no more nodes. -/
theorem exists_earlier_of_not_first (hc : components[i]? = some c)
    (later : ¬∃ d, FirstAt (g.representatives interchangeable) components i d) :
    ∃ j < i, ∃ d, FirstAt (g.representatives interchangeable) components j d ∧
      g.representatives interchangeable d = g.representatives interchangeable c ∧
      ((∃ s : Search, components = s.run.components) → d.nodes.size ≤ c.nodes.size) := by
  obtain ⟨j, d, hj, hfirst, hsame⟩ := exists_firstAt (g.representatives interchangeable) hc
  have hlt : j < i := by
    refine Std.lt_of_le_of_ne hj fun heq => later ?_
    exact ⟨d, heq ▸ hfirst⟩
  refine ⟨j, hlt, d, hfirst, hsame, ?_⟩
  rintro ⟨s, rfl⟩
  obtain ⟨hjl, rfl⟩ := List.getElem?_eq_some_iff.1 hfirst.1
  obtain ⟨hil, rfl⟩ := List.getElem?_eq_some_iff.1 hc
  exact List.pairwise_iff_getElem.1 s.pairwise_size_components j i hjl hil hlt

/-- Of any list of components those are kept whose representatives differ from the representatives
of every earlier one, in their order. Each of the others has an earlier one that is kept and has the
same representatives, and no more nodes if a search found the components. -/
theorem distinctComponents_representatives (g : JoinGraph)
    (interchangeable : AlternativeSources) (components : List JoinComponent) :
    let key := g.representatives interchangeable
    let kept := g.distinctComponents interchangeable components
    (∃ places : List Nat, places.Pairwise (· < ·) ∧ kept = places.filterMap (components[·]?) ∧
      (∀ i, i ∈ places ↔
        ∃ c, components[i]? = some c ∧ ∀ d ∈ components.take i, key d ≠ key c) ∧
      ∀ i c, components[i]? = some c → i ∉ places →
        ∃ j ∈ places, j < i ∧ ∃ d, components[j]? = some d ∧ key d = key c ∧
          ((∃ s : Search, components = s.run.components) → d.nodes.size ≤ c.nodes.size)) ∧
      (kept.map key).Nodup ∧ (components ≠ [] → kept ≠ []) ∧
      g.distinctComponents interchangeable kept = kept := by
  intro key kept
  obtain ⟨places, hsorted, hkept, hplaces⟩ := exists_places_distinctBy key components
  refine ⟨⟨places, hsorted, hkept, hplaces, fun i c hc hi => ?_⟩, nodup_map_distinctBy key _,
    distinctComponents_ne_nil, distinctComponents_distinctComponents⟩
  obtain ⟨j, hj, d, hfirst, hsame, hsize⟩ :=
    exists_earlier_of_not_first (g := g) hc fun h => hi ((hplaces i).2 h)
  exact ⟨j, (hplaces j).2 ⟨d, hfirst⟩, hj, d, hfirst.1, hsame, hsize⟩

end JoinGraph
end FederatedJoin
