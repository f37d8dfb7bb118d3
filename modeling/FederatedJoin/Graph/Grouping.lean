import FederatedJoin.Graph.Node
import Std.Data.HashMap

/-!
# Grouping with an index

Fragments are grouped in one pass. An index leads from an interface to the position of its node, so
no node has to be searched for.

## Main definitions

* `Grouping` — the nodes so far, in step with the index of their positions.
* `Grouping.add`, `Grouping.ofFragments` — one more fragment, and all of a list.

The pass leads to the nodes of `Node.group`, which is the form to reason about.
-/

namespace FederatedJoin

/-- Nodes of distinct interfaces, and the index of their positions. -/
structure Grouping where
  nodes : Array Node
  index : Std.HashMap Interface Nat
  index_eq_some_iff : ∀ (i : Interface) (position : Nat),
    index[i]? = some position ↔ nodes[position]?.map Node.interface = some i

namespace Grouping

/-- Nothing is grouped yet. -/
def empty : Grouping := ⟨#[], ∅, by simp⟩

theorem exists_node (g : Grouping) {i : Interface} {position : Nat}
    (h : g.index[i]? = some position) :
    ∃ known : position < g.nodes.size, i = g.nodes[position].interface := by
  obtain ⟨n, hn, rfl⟩ := Option.map_eq_some_iff.1 ((g.index_eq_some_iff i position).1 h)
  obtain ⟨known, rfl⟩ := Array.getElem?_eq_some_iff.1 hn
  exact ⟨known, rfl⟩

/-- Adds a fragment to the node of its interface, or as a new last node. -/
def add (g : Grouping) (f : Fragment) : Grouping :=
  match h : g.index[f.interface]? with
  | some position =>
    have known := (g.exists_node h).1
    { nodes := g.nodes.set position (g.nodes[position].add f (g.exists_node h).2)
      index := g.index
      index_eq_some_iff := by
        intro i k
        rw [g.index_eq_some_iff, Array.getElem?_set]
        split
        · next hk =>
          subst hk
          simp [known, Node.interface, Node.add]
        · rfl }
  | none =>
    { nodes := g.nodes.push (.ofFragment f)
      index := g.index.insert f.interface g.nodes.size
      index_eq_some_iff := by
        intro i k
        have hnew : g.nodes[k]?.map Node.interface ≠ some f.interface := fun hk => by
          rw [← g.index_eq_some_iff, h] at hk
          cases hk
        have hend : g.index[i]? ≠ some g.nodes.size := fun hi => by
          obtain ⟨known, -⟩ := g.exists_node hi
          exact absurd known (Nat.lt_irrefl _)
        rw [Std.HashMap.getElem?_insert, Array.getElem?_push]
        by_cases hi : f.interface = i
        · subst hi
          by_cases hk : k = g.nodes.size
          · simp [hk, Node.interface, Node.ofFragment]
          · simp [hk, hnew, eq_comm]
        · by_cases hk : k = g.nodes.size
          · simp [hk, hi, hend, Node.interface, Node.ofFragment]
          · simp [hk, hi, g.index_eq_some_iff] }

/-- Groups the fragments of a list that match some triple. -/
def ofFragments (fragments : List Fragment) : Grouping :=
  fragments.foldl (fun g f => if f.triples.isEmpty then g else g.add f) empty

end Grouping
end FederatedJoin
