import FederatedJoin.Graph.Connectivity
import FederatedJoin.Graph.Subset
import Std.Data.HashMap

/-!
# Join paths

A join path is a connected set of nodes that the search builds up one node at a time, with the
triples that its nodes match.

## Main definitions

* `JoinPath` — with `JoinPath.single` and `JoinPath.extend`.
* `JoinPath.redundantNode?` — a node that the path can do without.
* `JoinPath.dominatedNode?` — a redundant node that no further node can make necessary again.
-/

namespace FederatedJoin

/-- A set of nodes with the triples that they match. -/
structure JoinPath where
  nodes : NodeSet
  matched : TripleSet
  /-- How many of the nodes match a triple, for the triples that are counted. -/
  tally : Std.HashMap TripleId Nat

namespace JoinPath

/-- The path without nodes. -/
def empty : JoinPath := ⟨∅, ∅, ∅⟩

instance : Inhabited JoinPath := ⟨empty⟩

/-- How many nodes match a triple. Triples that are not counted have no occurrences. -/
def occurrences (p : JoinPath) (id : TripleId) : Nat := p.tally.getD id 0

/-- Counts one more occurrence of a triple. -/
def count (tally : Std.HashMap TripleId Nat) (id : TripleId) : Std.HashMap TripleId Nat :=
  tally.insert id (tally.getD id 0 + 1)

/-- The path with node `i` added. The triples below `width` are counted. A node outside the graph
adds nothing. -/
def add (g : JoinGraph) (width : Nat) (p : JoinPath) (i : Nat) : JoinPath :=
  match g.node? i with
  | none => p
  | some n =>
    { nodes := p.nodes.insert i
      matched := p.matched ∪ n.triples
      tally := (n.triples.toList.filter (· < width)).foldl count p.tally }

theorem nodes_add {g : JoinGraph} {width i : Nat} {n : Node} (p : JoinPath)
    (h : g.node? i = some n) : (p.add g width i).nodes = p.nodes.insert i := by
  simp [add, h]

theorem matched_add {g : JoinGraph} {width i : Nat} {n : Node} (p : JoinPath)
    (h : g.node? i = some n) : (p.add g width i).matched = p.matched ∪ n.triples := by
  simp [add, h]

private theorem getD_foldl_count {l : List TripleId} (hl : l.Nodup)
    (tally : Std.HashMap TripleId Nat) (id : TripleId) :
    (l.foldl count tally).getD id 0 = tally.getD id 0 + if id ∈ l then 1 else 0 := by
  induction l generalizing tally with
  | nil => simp
  | cons a l ih =>
    obtain ⟨ha, hl⟩ := List.nodup_cons.1 hl
    rw [List.foldl_cons, ih hl]
    grind [count]

theorem occurrences_add {g : JoinGraph} {width i : Nat} {n : Node} (p : JoinPath)
    (h : g.node? i = some n) (id : TripleId) :
    (p.add g width i).occurrences id =
      p.occurrences id + if id < width ∧ id ∈ n.triples then 1 else 0 := by
  have hn : n.triples.toList.Nodup := n.triples.ascending.imp Nat.ne_of_lt
  simp only [add, h, occurrences, getD_foldl_count (hn.filter _)]
  simp [and_comm]

/-- The path that consists of node `i`. -/
def single (g : JoinGraph) (width i : Nat) : JoinPath := empty.add g width i

/-- Whether the path matches every triple of the query. -/
def covers (p : JoinPath) (query : TripleSet) : Bool := query ⊆ p.matched

/-- Whether the path can do without node `i`: other nodes match its triples as well, and they stay
connected. -/
def isRedundant (g : JoinGraph) (p : JoinPath) (i : Nat) : Bool :=
  match g.node? i with
  | none => false
  | some n =>
    n.triples.toList.all (fun id => 1 < p.occurrences id) && g.isConnected (p.nodes.erase i)

/-- The first node that the path can do without. -/
def redundantNode? (g : JoinGraph) (p : JoinPath) : Option Nat :=
  p.nodes.toList.find? (p.isRedundant g)

/-- The first redundant node that has no neighbours outside the path. Such a node never becomes a
link to further nodes, so every extension of the path can do without it, too. -/
def dominatedNode? (g : JoinGraph) (p : JoinPath) : Option Nat :=
  p.nodes.toList.find? fun i => g.neighbors i ⊆ p.nodes && p.isRedundant g i

/-- The path with node `i` added, unless a node of it is dominated then. -/
def extend (g : JoinGraph) (width : Nat) (p : JoinPath) (i : Nat) : Except Nat JoinPath :=
  let next := p.add g width i
  match next.dominatedNode? g with
  | some node => .error node
  | none => .ok next

end JoinPath
end FederatedJoin
