import FederatedJoin.Fragment

/-!
# Nodes of the join graph

A node stands for one way to answer a part of the query: the fragments with one and the same
interface. A node with several fragments is answered by the union of them.

## Main definitions

* `Node` — one or more fragments of one interface.
* `Node.group` — the nodes of a list of fragments.
-/

namespace FederatedJoin

/-- One or more fragments of one interface. -/
structure Node where
  first : Fragment
  others : List Fragment
  interface_eq : ∀ f ∈ others, f.interface = first.interface
  deriving DecidableEq

namespace Node

/-- The node of a single fragment. -/
def ofFragment (f : Fragment) : Node := ⟨f, [], nofun⟩

instance : Inhabited Node := ⟨ofFragment (.ofTriples "" ∅)⟩

/-- The interface of all members. -/
def interface (n : Node) : Interface := n.first.interface

/-- The fragments of the node. -/
def members (n : Node) : List Fragment := n.first :: n.others

theorem interface_of_mem_members {n : Node} {f : Fragment} (h : f ∈ n.members) :
    f.interface = n.interface :=
  (List.mem_cons.1 h).elim (congrArg _) (n.interface_eq f)

/-- The triples that the node matches. -/
def triples (n : Node) : TripleSet := n.interface.triples

/-- The variables that the node binds. -/
def results (n : Node) : VariableSet := n.interface.results

/-- The variables that have to be bound before the node is evaluated. -/
def inputs (n : Node) : VariableSet := n.interface.inputs

/-- The variables that are bound or required. -/
def vars (n : Node) : VariableSet := n.interface.vars

/-- The sources of the members that have one. -/
def sources (n : Node) : OrdSet Source := .ofList (n.members.filterMap Fragment.source)

/-- The names of the members, with a bar between them. -/
def label (n : Node) : String := "|".intercalate (n.members.map Fragment.name)

/-! ## Grouping -/

/-- The node with a fragment of its interface added. -/
def add (n : Node) (f : Fragment) (h : f.interface = n.interface) : Node :=
  { first := n.first
    others := n.others ++ [f]
    interface_eq := fun g hg =>
      (List.mem_append.1 hg).elim (n.interface_eq g) fun hg => List.mem_singleton.1 hg ▸ h }

/-- Adds a fragment to the first node of its interface, or as a new last node. -/
def groupInto (f : Fragment) : List Node → List Node
  | [] => [ofFragment f]
  | n :: nodes =>
    if h : f.interface = n.interface then n.add f h :: nodes else n :: groupInto f nodes

/-- The nodes of a list of fragments, one for each interface, in the order in which the interfaces
appear. Fragments without triples cannot contribute to an answer and are left out. -/
def group (fragments : List Fragment) : List Node :=
  (fragments.filter fun f => !f.triples.isEmpty).foldl (fun nodes f => groupInto f nodes) []

end Node
end FederatedJoin
