import FederatedJoin.Graph.Grouping
import FederatedJoin.Proofs.Distinct
import Mathlib.Data.List.Induction
import Mathlib.Data.List.Nodup
import Mathlib.Data.List.Perm.Basic

/-!
# Grouping fragments into nodes

* `Node.members_group_perm` — the nodes of a list of fragments have exactly the fragments with
  triples as members, with their multiplicity.
* `Node.interfaces_group` — there is one node for each interface.
* `Node.members_eq_filter` — the members of a node are all fragments of its interface, in order.
* `Grouping.toList_ofFragments` — one pass with an index leads to the same nodes.
-/

namespace FederatedJoin
namespace Node

variable {f : Fragment} {fragments : List Fragment} {nodes : List Node} {n : Node}

theorem members_add (n : Node) (f : Fragment) (h : f.interface = n.interface) :
    (n.add f h).members = n.members ++ [f] := rfl

theorem members_groupInto_perm (f : Fragment) (nodes : List Node) :
    ((groupInto f nodes).flatMap members).Perm (f :: nodes.flatMap members) := by
  induction nodes with
  | nil => exact .refl _
  | cons n nodes ih =>
    unfold groupInto
    split
    · next h =>
      rw [List.flatMap_cons, List.flatMap_cons, members_add, List.append_assoc]
      exact List.perm_middle
    · rw [List.flatMap_cons, List.flatMap_cons]
      exact (ih.append_left n.members).trans List.perm_middle

theorem members_group_perm (fragments : List Fragment) :
    ((group fragments).flatMap members).Perm (fragments.filter fun f => !f.triples.isEmpty) := by
  have step : ∀ (l : List Fragment) (nodes : List Node),
      ((l.foldl (fun nodes f => groupInto f nodes) nodes).flatMap members).Perm
        (nodes.flatMap members ++ l) := by
    intro l
    induction l with
    | nil => intro nodes; simp
    | cons f l ih =>
      intro nodes
      refine (ih (groupInto f nodes)).trans ?_
      refine ((members_groupInto_perm f nodes).append_right l).trans ?_
      exact List.perm_middle.symm
  exact step _ []

theorem triples_subset_of_mem_group {query : TripleSet} (h : ∀ f ∈ fragments, f.triples ⊆ query)
    (hn : n ∈ group fragments) : n.triples ⊆ query := by
  have hmem : n.first ∈ (group fragments).flatMap members :=
    List.mem_flatMap.2 ⟨n, hn, List.mem_cons_self⟩
  rw [(members_group_perm fragments).mem_iff] at hmem
  exact h n.first (List.mem_filter.1 hmem).1

/-- Fragments without triples may be left out beforehand. -/
theorem group_filter (p : Fragment → Bool) (h : ∀ f ∈ fragments, p f = false → f.triples = ∅) :
    group (fragments.filter p) = group fragments := by
  unfold group
  rw [List.filter_filter]
  congr 1
  refine List.filter_congr fun f hf => ?_
  cases hp : p f with
  | true => rw [Bool.and_true]
  | false => simp [h f hf hp]

theorem interfaces_groupInto (f : Fragment) (nodes : List Node) :
    (groupInto f nodes).map interface =
      if f.interface ∈ nodes.map interface then nodes.map interface
      else nodes.map interface ++ [f.interface] := by
  induction nodes with
  | nil => rfl
  | cons n nodes ih =>
    unfold groupInto
    split
    · next h =>
      rw [if_pos (by simp [h])]
      rfl
    · next h =>
      rw [List.map_cons, ih, List.map_cons]
      by_cases hmem : f.interface ∈ nodes.map interface
      · rw [if_pos hmem, if_pos (List.mem_cons.2 (.inr hmem))]
      · rw [if_neg hmem, if_neg fun hmem' => (List.mem_cons.1 hmem').elim h hmem]
        rfl

theorem interfaces_foldl_groupInto (l : List Fragment) :
    (l.foldl (fun nodes f => groupInto f nodes) []).map interface =
      distinctBy id (l.map Fragment.interface) := by
  induction l using List.reverseRecOn with
  | nil => rfl
  | append_singleton l f ih =>
    rw [List.foldl_append, List.foldl_cons, List.foldl_nil, interfaces_groupInto, ih,
      List.map_append, distinctBy_append]
    have hnew : distinctBy id ([f].map Fragment.interface) = [f.interface] := rfl
    rw [hnew, List.filter_singleton]
    by_cases hmem : f.interface ∈ l.map Fragment.interface <;> simp [hmem]

/-- The interfaces of the nodes are those of the fragments with triples, in the order in which they
appear. -/
theorem interfaces_group (fragments : List Fragment) :
    (group fragments).map interface =
      distinctBy id ((fragments.filter fun f => !f.triples.isEmpty).map Fragment.interface) :=
  interfaces_foldl_groupInto _

theorem nodup_interfaces_group (fragments : List Fragment) :
    ((group fragments).map interface).Nodup :=
  interfaces_group fragments ▸ nodup_distinctBy_id _

theorem mem_interfaces_group {i : Interface} :
    i ∈ (group fragments).map interface ↔
      ∃ f ∈ fragments, f.triples ≠ ∅ ∧ f.interface = i := by
  rw [interfaces_group, mem_distinctBy_id]
  simp [and_assoc]

/-- The members of a node are all fragments of its interface. -/
theorem mem_members_group (hn : n ∈ group fragments) :
    f ∈ n.members ↔ f ∈ fragments ∧ f.triples ≠ ∅ ∧ f.interface = n.interface := by
  have hmem : f ∈ (group fragments).flatMap members ↔ f ∈ fragments ∧ f.triples ≠ ∅ := by
    rw [(members_group_perm fragments).mem_iff]
    simp
  rw [← and_assoc, ← hmem, List.mem_flatMap]
  constructor
  · intro hf
    exact ⟨⟨n, hn, hf⟩, interface_of_mem_members hf⟩
  · rintro ⟨⟨m, hm, hf⟩, hinterface⟩
    have hmn : m.interface = n.interface := (interface_of_mem_members hf).symm.trans hinterface
    exact List.inj_on_of_nodup_map (nodup_interfaces_group fragments) hm hn hmn ▸ hf

theorem eq_of_interface_eq {i j : Nat} {m : Node} (hn : (group fragments)[i]? = some n)
    (hm : (group fragments)[j]? = some m) (h : n.interface = m.interface) : i = j := by
  have hi : i < (group fragments).length := (List.getElem?_eq_some_iff.1 hn).1
  refine (List.getElem?_inj ?_ (nodup_interfaces_group fragments)).1 ?_
  · rwa [List.length_map]
  · rw [List.getElem?_map, List.getElem?_map, hn, hm, Option.map_some, Option.map_some, h]

/-- More fragments lead to nodes of the same interfaces, and maybe of others. -/
theorem exists_mem_group_of_subset {fragments' : List Fragment}
    (more : ∀ f ∈ fragments, f ∈ fragments') (hn : n ∈ group fragments) :
    ∃ m ∈ group fragments', m.interface = n.interface := by
  obtain ⟨f, hf, hne, hinterface⟩ := mem_interfaces_group.1 (List.mem_map_of_mem hn)
  exact List.mem_map.1 (mem_interfaces_group.2 ⟨f, more f hf, hne, hinterface⟩)

/-! ## The order of the nodes and of their members -/

/-- Grouping one more fragment adds it at the end of the node of its interface, or makes a new node
of it. All other nodes stay as they are. -/
theorem mem_groupInto (distinct : (nodes.map interface).Nodup) (hn : n ∈ groupInto f nodes) :
    (n ∈ nodes ∧ f.interface ≠ n.interface) ∨
    (∃ m ∈ nodes, m.interface = f.interface ∧ n.interface = f.interface ∧
      n.members = m.members ++ [f]) ∨
    (f.interface ∉ nodes.map interface ∧ n = ofFragment f) := by
  induction nodes with
  | nil => exact .inr (.inr ⟨List.not_mem_nil, List.mem_singleton.1 hn⟩)
  | cons m nodes ih =>
    obtain ⟨hm, distinct⟩ := List.nodup_cons.1 distinct
    unfold groupInto at hn
    split at hn
    · next h =>
      rcases List.mem_cons.1 hn with rfl | hn
      · exact .inr (.inl ⟨m, List.mem_cons_self, h.symm, h.symm, members_add m f h⟩)
      · refine .inl ⟨List.mem_cons_of_mem m hn, fun heq => hm ?_⟩
        exact h ▸ heq ▸ List.mem_map_of_mem hn
    · next h =>
      rcases List.mem_cons.1 hn with rfl | hn
      · exact .inl ⟨List.mem_cons_self, h⟩
      · rcases ih distinct hn with ⟨hmem, hne⟩ | ⟨k, hk, hold⟩ | ⟨hnew, rfl⟩
        · exact .inl ⟨List.mem_cons_of_mem m hmem, hne⟩
        · exact .inr (.inl ⟨k, List.mem_cons_of_mem m hk, hold⟩)
        · refine .inr (.inr ⟨?_, rfl⟩)
          rw [List.map_cons, List.mem_cons]
          exact not_or.2 ⟨h, hnew⟩

theorem members_of_mem_foldl_groupInto {l : List Fragment}
    (hn : n ∈ l.foldl (fun nodes f => groupInto f nodes) []) :
    n.members = l.filter (·.interface = n.interface) := by
  induction l using List.reverseRecOn generalizing n with
  | nil => cases hn
  | append_singleton l f ih =>
    rw [List.foldl_append, List.foldl_cons, List.foldl_nil] at hn
    have distinct : ((l.foldl (fun nodes f => groupInto f nodes) []).map interface).Nodup :=
      interfaces_foldl_groupInto l ▸ nodup_distinctBy_id _
    rw [List.filter_append, List.filter_singleton]
    rcases mem_groupInto distinct hn with ⟨hold, hne⟩ | ⟨m, hm, hmf, hnf, hmembers⟩ | ⟨hnew, rfl⟩
    · simp [ih hold, hne]
    · simp [hmembers, ih hm, hmf, hnf]
    · rw [interfaces_foldl_groupInto, mem_distinctBy_id] at hnew
      have hnone : l.filter (·.interface = f.interface) = [] :=
        List.filter_eq_nil_iff.2 fun g hg heq =>
          hnew (of_decide_eq_true heq ▸ List.mem_map_of_mem hg)
      have hinterface : (ofFragment f).interface = f.interface := rfl
      rw [hinterface, hnone]
      simp [ofFragment, members]

/-- The members of a node are the fragments of its interface in their order, as often as they
occur. -/
theorem members_eq_filter (hn : n ∈ group fragments) :
    n.members = fragments.filter fun f => f.triples ≠ ∅ ∧ f.interface = n.interface := by
  rw [members_of_mem_foldl_groupInto hn, List.filter_filter]
  refine List.filter_congr fun f _ => ?_
  rw [Bool.eq_iff_iff]
  simp [and_comm]

/-- Nodes are listed by the first fragment of their interface. -/
theorem pairwise_idxOf_group (fragments : List Fragment) :
    (group fragments).Pairwise fun m n =>
      (fragments.map Fragment.interface).idxOf m.interface <
        (fragments.map Fragment.interface).idxOf n.interface := by
  have hfilter : (fragments.filter fun f => !f.triples.isEmpty).map Fragment.interface =
      (fragments.map Fragment.interface).filter fun i => !i.triples.isEmpty := by
    rw [List.filter_map]
    rfl
  have hsublist : ((group fragments).map interface).Sublist
      (distinctBy id (fragments.map Fragment.interface)) := by
    have hselected := distinctBy_filter id (fun i : Interface => !i.triples.isEmpty)
      (fragments.map Fragment.interface)
    rw [interfaces_group, hfilter]
    exact hselected ▸ List.filter_sublist
  have hordered := (pairwise_idxOf_distinctBy _).sublist hsublist
  rwa [List.pairwise_map] at hordered

/-! ## Grouping with an index -/

/-- A fragment of a new interface becomes the last node. -/
theorem groupInto_eq_append (h : f.interface ∉ nodes.map interface) :
    groupInto f nodes = nodes ++ [ofFragment f] := by
  induction nodes with
  | nil => rfl
  | cons n nodes ih =>
    obtain ⟨hn, hnodes⟩ := List.ne_and_not_mem_of_not_mem_cons h
    rw [groupInto, dif_neg hn, ih hnodes, List.cons_append]

/-- If the interfaces are distinct, a fragment of a known one is added where this one is. -/
theorem groupInto_eq_set (distinct : (nodes.map interface).Nodup) {position : Nat}
    (known : position < nodes.length) (h : f.interface = (nodes.get ⟨position, known⟩).interface) :
    groupInto f nodes = nodes.set position ((nodes.get ⟨position, known⟩).add f h) := by
  induction nodes generalizing position with
  | nil => cases known
  | cons n nodes ih =>
    obtain ⟨hn, distinct⟩ := List.nodup_cons.1 distinct
    cases position with
    | zero =>
      have hfn : f.interface = n.interface := h
      rw [groupInto, dif_pos hfn]
      rfl
    | succ position =>
      have known : position < nodes.length := Nat.lt_of_succ_lt_succ known
      have hfn : f.interface ≠ n.interface := fun heq =>
        hn (heq ▸ h ▸ List.mem_map_of_mem (List.get_mem nodes ⟨position, known⟩))
      rw [groupInto, dif_neg hfn, ih distinct known h]
      rfl

end Node

namespace Grouping

theorem getElem?_interfaces (g : Grouping) (i : Interface) (position : Nat) :
    (g.nodes.toList.map Node.interface)[position]? = some i ↔ g.index[i]? = some position := by
  rw [List.getElem?_map, Array.getElem?_toList, g.index_eq_some_iff]

theorem nodup_interfaces (g : Grouping) : (g.nodes.toList.map Node.interface).Nodup :=
  nodup_of_index fun i position => (g.getElem?_interfaces i position).symm

/-- Adding through the index is adding to the node of the interface, wherever it is. -/
theorem toList_add (g : Grouping) (f : Fragment) :
    (g.add f).nodes.toList = Node.groupInto f g.nodes.toList := by
  unfold add
  split
  · next position h =>
    obtain ⟨known, hf⟩ := g.exists_node h
    rw [Node.groupInto_eq_set g.nodup_interfaces known hf]
    exact Array.toList_set (h := known) ..
  · next h =>
    have hnew : f.interface ∉ g.nodes.toList.map Node.interface := by
      intro hmem
      obtain ⟨k, hk⟩ := List.mem_iff_getElem?.1 hmem
      rw [g.getElem?_interfaces, h] at hk
      cases hk
    rw [Node.groupInto_eq_append hnew]
    exact Array.toList_push

/-- The pass with an index leads to the same nodes as searching for the node of each fragment. -/
theorem toList_ofFragments (fragments : List Fragment) :
    (ofFragments fragments).nodes.toList = Node.group fragments := by
  have step : ∀ (l : List Fragment) (g : Grouping),
      (l.foldl (fun g f => if f.triples.isEmpty then g else g.add f) g).nodes.toList =
        (l.filter fun f => !f.triples.isEmpty).foldl (fun nodes f => Node.groupInto f nodes)
          g.nodes.toList := by
    intro l
    induction l with
    | nil => exact fun g => rfl
    | cons f l ih =>
      intro g
      by_cases hf : f.triples.isEmpty
      · rw [List.foldl_cons, if_pos hf, ih, List.filter_cons_of_neg (by simp [hf])]
      · rw [List.foldl_cons, if_neg hf, ih, List.filter_cons_of_pos (by simp [hf]), List.foldl_cons,
          toList_add]
  exact step fragments empty

end Grouping

namespace Node

/-- Grouping loses no fragment and doubles none, whether nodes are found by search or through an
index. Each interface has one node, at the place of its first appearance, and the members of a node
are the fragments of its interface that match some triple. All of them offer what the node offers.
-/
theorem group_partitions (fragments : List Fragment) :
    let interfaces := fragments.map Fragment.interface
    (Grouping.ofFragments fragments).nodes.toList = group fragments ∧
    ((group fragments).map interface).Nodup ∧
    ((group fragments).Pairwise fun m n =>
      interfaces.idxOf m.interface < interfaces.idxOf n.interface) ∧
    (∀ f ∈ fragments, f.triples ≠ ∅ → ∃ n ∈ group fragments, f ∈ n.members) ∧
    (∀ f, f.triples = ∅ → ∀ n ∈ group fragments, f ∉ n.members) ∧
    ∀ n ∈ group fragments,
      n.members ≠ [] ∧
      n.members = fragments.filter (fun f => f.triples ≠ ∅ ∧ f.interface = n.interface) ∧
      ∀ f ∈ n.members, n.triples = f.triples ∧ n.results = f.results ∧ n.inputs = f.inputs ∧
        n.vars = f.vars ∧ n.interface.optional = f.optional := by
  refine ⟨Grouping.toList_ofFragments fragments, nodup_interfaces_group fragments,
    pairwise_idxOf_group fragments, fun f hf hne => ?_, fun f hempty n hn hf => ?_, fun n hn => ?_⟩
  · obtain ⟨n, hn, hinterface⟩ :=
      List.mem_map.1 (mem_interfaces_group.2 ⟨f, hf, hne, rfl⟩)
    exact ⟨n, hn, (mem_members_group hn).2 ⟨hf, hne, hinterface.symm⟩⟩
  · exact ((mem_members_group hn).1 hf).2.1 hempty
  · refine ⟨List.cons_ne_nil _ _, members_eq_filter hn, fun f hf => ?_⟩
    have hinterface : n.interface = f.interface := (interface_of_mem_members hf).symm
    exact ⟨congrArg Interface.triples hinterface, congrArg Interface.results hinterface,
      congrArg Interface.inputs hinterface, congrArg Interface.vars hinterface,
      congrArg Interface.optional hinterface⟩

end Node

end FederatedJoin
