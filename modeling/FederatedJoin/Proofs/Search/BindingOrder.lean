import FederatedJoin.Proofs.Graph.Build
import FederatedJoin.Proofs.Search.Exactness
import Mathlib.Data.List.Nodup

/-!
# Orders in which inputs are bound

The nodes of a component bind each other's inputs. This does not mean that they can be evaluated
one after the other: three nodes can wait for each other in a circle. That some nodes wait for each
other is the only obstacle, and two nodes that can be joined never do.

* `JoinGraph.BindsInOrder`, `JoinGraph.Evaluable` — a sequence of nodes in which inputs are bound
  beforehand, and a set of nodes that has such a sequence.
* `JoinGraph.Deadlock` — nodes of a set that wait for each other.
* `JoinGraph.evaluable_iff` — a set can be evaluated unless some of its nodes wait for each other.
-/

namespace FederatedJoin
namespace JoinGraph

variable {g : JoinGraph} {t d : NodeSet} {order : List Nat} {i j : Nat}

/-- Every node of a sequence has its inputs bound by the nodes that are listed before it. -/
def BindsInOrder (g : JoinGraph) (order : List Nat) : Prop :=
  ∀ before i after, order = before ++ i :: after → ∀ n, g.node? i = some n → ∀ v ∈ n.inputs,
    ∃ j ∈ before, ∃ m, g.node? j = some m ∧ v ∈ m.results

/-- The nodes of a set can be listed such that inputs are bound beforehand. -/
def Evaluable (g : JoinGraph) (t : NodeSet) : Prop :=
  ∃ order : List Nat, order.Perm t.toList ∧ g.BindsInOrder order

/-- Some nodes of a set wait for each other: each has an input that no other node of the set
binds. -/
structure Deadlock (g : JoinGraph) (t d : NodeSet) : Prop where
  subset : d ⊆ t
  nonempty : d ≠ ∅
  waits : ∀ i ∈ d, ∃ n, g.node? i = some n ∧ ∃ v ∈ n.inputs, v ∉ g.resultsOf (t \ d)

/-! ## Listing nodes -/

theorem bindsInOrder_nil : g.BindsInOrder [] := by
  intro before i after h
  simp at h

/-- A node can be listed next if its inputs are bound by the nodes that are listed already. -/
theorem BindsInOrder.concat (h : g.BindsInOrder order)
    (hi : ∀ n, g.node? i = some n → ∀ v ∈ n.inputs,
      ∃ j ∈ order, ∃ m, g.node? j = some m ∧ v ∈ m.results) :
    g.BindsInOrder (order ++ [i]) := by
  intro before k after hsplit
  rcases List.eq_nil_or_concat after with rfl | ⟨rest, l, rfl⟩
  · obtain ⟨rfl, hik⟩ := List.append_inj' hsplit rfl
    cases hik
    exact hi
  · have hrest : order ++ [i] = (before ++ k :: rest) ++ [l] := by simpa using hsplit
    exact h before k rest (List.append_inj' hrest rfl).1

/-- Unless they all wait for each other, one of some nodes has its inputs bound by the others. -/
theorem exists_ready (free : ¬∃ d, g.Deadlock t d) (hd : d ⊆ t) (hne : d ≠ ∅) :
    ∃ i ∈ d, ∀ n, g.node? i = some n → n.inputs ⊆ g.resultsOf (t \ d) := by
  by_contra! hnone
  refine free ⟨d, hd, hne, fun i hi => ?_⟩
  obtain ⟨n, hn, hunbound⟩ := hnone i hi
  exact ⟨n, hn, OrdSet.exists_mem_of_not_subset hunbound⟩

/-- A sequence of some nodes is continued until all nodes are listed. -/
theorem BindsInOrder.evaluable (free : ¬∃ d, g.Deadlock t d) (h : g.BindsInOrder order)
    (hnodup : order.Nodup) (hsub : ∀ i ∈ order, i ∈ t) : g.Evaluable t := by
  -- The induction is on the number of nodes that are not listed yet.
  induction hn : (t \ .ofList order).size using Nat.strongRecOn generalizing order with
  | ind n ih =>
    by_cases hall : t ⊆ .ofList order
    · refine ⟨order, (List.perm_ext_iff_of_nodup hnodup (OrdSet.nodup_toList t)).2 fun i => ?_, h⟩
      exact ⟨hsub i, fun hi => OrdSet.mem_ofList.1 (hall i hi)⟩
    · have hne : t \ .ofList order ≠ ∅ := mt OrdSet.sdiff_eq_empty_iff.1 hall
      obtain ⟨i, hi, ready⟩ := exists_ready free (fun j hj => (OrdSet.mem_sdiff.1 hj).1) hne
      obtain ⟨hit, hilisted⟩ := OrdSet.mem_sdiff.1 hi
      rw [OrdSet.mem_ofList] at hilisted
      have hnext : g.BindsInOrder (order ++ [i]) := by
        refine h.concat fun n hn v hv => ?_
        obtain ⟨j, hj, m, hm, hvm⟩ := mem_resultsOf.1 (ready n hn v hv)
        refine ⟨j, ?_, m, hm, hvm⟩
        grind
      have hlt : (t \ .ofList (order ++ [i])).size < n := by
        rw [← hn]
        refine OrdSet.size_lt_of_subset (a := i) ?_ hi ?_ <;> grind
      refine ih _ hlt hnext ?_ ?_ rfl
      · exact List.nodup_append.2 ⟨hnodup, List.nodup_singleton i, by grind⟩
      · grind

/-- The first listed node of those that wait for each other has nothing to wait for. -/
theorem Deadlock.not_evaluable (hd : g.Deadlock t d) : ¬g.Evaluable t := by
  rintro ⟨order, hperm, binds⟩
  obtain ⟨j, hj⟩ := OrdSet.exists_mem_of_ne_empty hd.nonempty
  have hmem : j ∈ order := hperm.mem_iff.2 (hd.subset j hj)
  obtain ⟨i, hfind⟩ := Option.isSome_iff_exists.1
    (List.find?_isSome.2 ⟨j, hmem, decide_eq_true hj⟩ : (order.find? (· ∈ d)).isSome)
  obtain ⟨hi, before, after, rfl, hbefore⟩ := List.find?_eq_some_iff_append.1 hfind
  obtain ⟨n, hn, v, hv, hunbound⟩ := hd.waits i (of_decide_eq_true hi)
  obtain ⟨k, hk, m, hm, hvm⟩ := binds before i after rfl n hn v hv
  have hkt : k ∈ t := hperm.mem_iff.1 (List.mem_append_left _ hk)
  have hkd : k ∉ d := by simpa using hbefore k hk
  exact hunbound (mem_resultsOf.2 ⟨k, OrdSet.mem_sdiff.2 ⟨hkt, hkd⟩, m, hm, hvm⟩)

theorem evaluable_iff : g.Evaluable t ↔ ¬∃ d, g.Deadlock t d := by
  constructor
  · intro h hd
    obtain ⟨d, hd⟩ := hd
    exact hd.not_evaluable h
  · intro free
    exact bindsInOrder_nil.evaluable free List.nodup_nil fun i hi => absurd hi List.not_mem_nil

/-! ## Sets that bind each other's inputs -/

/-- A node that waits for others has an input that one of them binds. -/
theorem Deadlock.exists_binder (hd : g.Deadlock t d) (bound : g.unboundInputs t = ∅)
    (hi : i ∈ d) :
    ∃ n, g.node? i = some n ∧ ∃ v ∈ n.inputs, ∃ j ∈ d, j ≠ i ∧
      ∃ m, g.node? j = some m ∧ v ∈ m.results := by
  obtain ⟨n, hn, v, hv, hunbound⟩ := hd.waits i hi
  obtain ⟨j, hjt, hji, m, hm, hvm⟩ :=
    unboundInputs_eq_empty_iff.1 bound i (hd.subset i hi) n hn v hv
  have hjd : j ∈ d := by
    by_contra hjd
    exact hunbound (mem_resultsOf.2 ⟨j, OrdSet.mem_sdiff.2 ⟨hjt, hjd⟩, m, hm, hvm⟩)
  exact ⟨n, hn, v, hv, j, hjd, hji, m, hm, hvm⟩

theorem Deadlock.exists_ne (hd : g.Deadlock t d) (bound : g.unboundInputs t = ∅) :
    ∃ i ∈ d, ∃ j ∈ d, i ≠ j := by
  obtain ⟨i, hi⟩ := OrdSet.exists_mem_of_ne_empty hd.nonempty
  obtain ⟨-, -, -, -, j, hj, hji, -⟩ := hd.exists_binder bound hi
  exact ⟨i, hi, j, hj, hji.symm⟩

theorem size_pair (hij : i ≠ j) : (OrdSet.ofList [i, j]).size = 2 := by
  have hnot : i ∉ OrdSet.ofList [j] := by simpa using hij
  exact OrdSet.size_insert hnot

theorem Deadlock.one_lt_size (hd : g.Deadlock t d) (bound : g.unboundInputs t = ∅) :
    1 < d.size := by
  obtain ⟨i, hi, j, hj, hij⟩ := hd.exists_ne bound
  have hpair : OrdSet.ofList [i, j] ⊆ d := by grind
  have hle := OrdSet.size_le_of_subset hpair
  rw [size_pair hij] at hle
  exact hle

/-- Nodes that can be joined do not both require a variable that the other one binds. -/
theorem disjoint_of_adjacent_sharedVariable {nodes : List Node}
    (adjacent : (build nodes .sharedVariable).Adjacent i j) :
    ∃ a b, nodes[i]? = some a ∧ nodes[j]? = some b ∧
      (a.inputs.Disjoint b.results ∨ b.inputs.Disjoint a.results) := by
  obtain ⟨-, a, b, ha, hb, accepted⟩ :=
    (adjacent_build_of_symm JoinValidity.sharedVariable_comm).1 adjacent
  exact ⟨a, b, ha, hb, (of_decide_eq_true accepted).2⟩

theorem Deadlock.not_adjacent {nodes : List Node}
    (hd : (build nodes .sharedVariable).Deadlock t (.ofList [i, j]))
    (bound : (build nodes .sharedVariable).unboundInputs t = ∅) :
    ¬(build nodes .sharedVariable).Adjacent i j := by
  intro adjacent
  obtain ⟨a, b, ha, hb, hdisjoint⟩ := disjoint_of_adjacent_sharedVariable adjacent
  have waits : ∀ k l, k ∈ OrdSet.ofList [i, j] → (∀ m ∈ OrdSet.ofList [i, j], m ≠ k → m = l) →
      ∀ n m, nodes[k]? = some n → nodes[l]? = some m → ¬n.inputs.Disjoint m.results := by
    intro k l hk other n m hn hm hdisjoint
    obtain ⟨n', hn', v, hv, l', hl', hne, m', hm', hvm⟩ := hd.exists_binder bound hk
    obtain rfl := other l' hl' hne
    rw [node?_build] at hn' hm'
    cases hn.symm.trans hn'
    cases hm.symm.trans hm'
    exact hdisjoint v hv hvm
  rcases hdisjoint with hdisjoint | hdisjoint
  · exact waits i j (by simp) (by simp) a b ha hb hdisjoint
  · exact waits j i (by simp) (by simp) b a hb ha hdisjoint

/-- Two connected nodes can be joined with each other. -/
theorem adjacent_of_isConnected_pair (hij : i ≠ j)
    (connected : g.isConnected (.ofList [i, j]) = true) : g.Adjacent i j := by
  have linked := isConnected_iff.1 connected i (by simp) j (by simp)
  cases linked with
  | refl _ => exact absurd rfl hij
  | @step k _ path adjacent _ =>
    have hk : k = i ∨ k = j := by simpa using path.mem_right
    rcases hk with rfl | rfl
    · exact adjacent
    · exact absurd rfl adjacent.ne

/-- At most two nodes that are connected and bind each other's inputs can always be evaluated. -/
theorem evaluable_of_size_le_two {nodes : List Node}
    (connected : (build nodes .sharedVariable).isConnected t = true)
    (bound : (build nodes .sharedVariable).unboundInputs t = ∅) (hsize : t.size ≤ 2) :
    (build nodes .sharedVariable).Evaluable t := by
  refine evaluable_iff.2 fun hd => ?_
  obtain ⟨d, hd⟩ := hd
  obtain ⟨i, hi, j, hj, hij⟩ := hd.exists_ne bound
  have hpair : OrdSet.ofList [i, j] ⊆ d := by grind
  have hle := OrdSet.size_le_of_subset hd.subset
  have hde : OrdSet.ofList [i, j] = d :=
    OrdSet.eq_of_subset_of_size_le hpair (by rw [size_pair hij]; omega)
  have hte : d = t := OrdSet.eq_of_subset_of_size_le hd.subset (by
    rw [← hde, size_pair hij]
    exact hsize)
  subst hte
  subst hde
  exact hd.not_adjacent bound (adjacent_of_isConnected_pair hij connected)

end JoinGraph

namespace Search

/-- The nodes of a component can be listed such that inputs are bound beforehand, unless some of
them wait for each other. These are more than one node, and no two nodes that can be joined. A
component of at most two nodes can always be evaluated. -/
theorem evaluable_components (nodes : List Node) (query : TripleSet) (config : Config) :
    let s : Search := ⟨.build nodes .sharedVariable, query, config⟩
    ∀ c ∈ s.run.components,
      (s.graph.Evaluable c.nodes ↔ ¬∃ d, s.graph.Deadlock c.nodes d) ∧
      (∀ d, s.graph.Deadlock c.nodes d → 1 < d.size) ∧
      (∀ i j, s.graph.Adjacent i j → ¬s.graph.Deadlock c.nodes (.ofList [i, j])) ∧
      (c.nodes.size ≤ 2 → s.graph.Evaluable c.nodes) := by
  intro s c hc
  have bound := unboundInputs_of_mem_components hc
  refine ⟨JoinGraph.evaluable_iff, fun d hd => hd.one_lt_size bound, ?_, ?_⟩
  · intro i j adjacent hd
    exact hd.not_adjacent bound adjacent
  · exact JoinGraph.evaluable_of_size_le_two (isConnected_of_mem_components hc) bound

/-- A node that matches one triple, binds one variable and requires another one. -/
def relay (name : String) (id : TripleId) (binds requires : Variable) : Node :=
  .ofFragment (((Fragment.ofTriples name {id}).withResults {binds}).withInputs {requires})

/-- Two nodes, the second of which requires the variable that the first one binds. -/
def chain : JoinGraph :=
  .build [.ofFragment ((Fragment.ofTriples "first" {0}).withResults {"x"}),
    relay "second" 1 "y" "x"] .sharedVariable

theorem evaluable_components_chain :
    ⟨.ofList [0, 1], .ofList [0, 1]⟩ ∈ (Search.run ⟨chain, .ofList [0, 1], {}⟩).components ∧
      chain.Evaluable (.ofList [0, 1]) := by
  have inside : ∀ n ∈ chain.nodes, n.triples ⊆ .ofList [0, 1] := by decide
  have answers : chain.Answers (.ofList [0, 1]) (.ofList [0, 1]) :=
    { nonempty := by decide
      known := by decide
      connected := by decide
      covers := by decide
      minimal := by decide
      bound := JoinGraph.unboundInputs_eq_empty_iff.1 (by decide) }
  have hmem : ⟨.ofList [0, 1], .ofList [0, 1]⟩ ∈
      (Search.run ⟨chain, .ofList [0, 1], {}⟩).components :=
    (mem_components_iff_answers inside).2 ⟨answers, by decide⟩
  exact ⟨hmem, (evaluable_components _ _ _ _ hmem).2.2.2 (by decide)⟩

/-- Three nodes in a circle, each of which requires the variable that the one before it binds. -/
def circle : JoinGraph :=
  .build [relay "first" 0 "x" "z", relay "second" 1 "y" "x", relay "third" 2 "z" "y"]
    .sharedVariable

/-- The three nodes are a component although each of them waits for another one. -/
theorem not_evaluable_circle :
    (∀ n ∈ circle.nodes, n.triples ⊆ .ofList [0, 1, 2]) ∧
      ∃ c ∈ (Search.run ⟨circle, .ofList [0, 1, 2], {}⟩).components,
        ¬circle.Evaluable c.nodes := by
  have inside : ∀ n ∈ circle.nodes, n.triples ⊆ .ofList [0, 1, 2] := by decide
  have answers : circle.Answers (.ofList [0, 1, 2]) (.ofList [0, 1, 2]) :=
    { nonempty := by decide
      known := by decide
      connected := by decide
      covers := by decide
      minimal := by decide
      bound := JoinGraph.unboundInputs_eq_empty_iff.1 (by decide) }
  have requires : ∀ n ∈ circle.nodes, n.inputs ≠ ∅ := by decide
  have deadlock : circle.Deadlock (.ofList [0, 1, 2]) (.ofList [0, 1, 2]) := by
    refine ⟨fun _ h => h, by decide, fun i hi => ?_⟩
    obtain ⟨n, hn⟩ := JoinGraph.exists_node? (JoinGraph.mem_allNodes.1 (answers.known i hi))
    obtain ⟨v, hv⟩ :=
      OrdSet.exists_mem_of_ne_empty (requires n (JoinGraph.mem_nodes_of_node? hn))
    exact ⟨n, hn, v, hv, by simp [JoinGraph.mem_resultsOf]⟩
  exact ⟨inside, ⟨.ofList [0, 1, 2], .ofList [0, 1, 2]⟩,
    (mem_components_iff_answers inside).2 ⟨answers, by decide⟩, deadlock.not_evaluable⟩

end Search
end FederatedJoin
