import FederatedJoin.Graph.Subset
import FederatedJoin.JoinOrder.LeftDeep
import FederatedJoin.Proofs.Graph.Connected
import Mathlib.Data.List.Forall2
import Mathlib.Data.List.Induction

/-!
# What the left-deep order yields

Shared sub-plans do not change what is planned: whatever an interner holds is the left-deep tree of
the sequence that it is registered under, so it makes no difference whether a tree is built or
looked up.

* `JoinGraph.sequencePlan?`, `JoinGraph.Joins` — the left-deep tree of a sequence of nodes, and of
  a set of them in some order.
* `Interner.Faithful` — an interner that holds such trees only.
* `JoinOrder.Attachment` — how far the pending nodes are attached, lowest first.
* `JoinOrder.ends_leftDeep` — the left-deep order of any set ends with the tree of all its nodes, or
  with the error that names what is wrong with them.
* `JoinOrder.yields_leftDeep` — for a connected set it yields the tree of a sequence of its nodes.
-/

namespace FederatedJoin

/-! ## Trees of sequences -/

/-- The left-deep tree of a sequence of nodes. -/
def JoinGraph.sequencePlan? (g : JoinGraph) (sequence : List Nat) : Option Plan :=
  match sequence.filterMap g.node? with
  | [] => none
  | first :: others => some ((others.map Node.plan).foldl .join first.plan)

/-- The plan is the left-deep tree of the nodes of `s`, in some order. -/
def JoinGraph.Joins (g : JoinGraph) (s : NodeSet) (plan : Plan) : Prop :=
  ∃ order : List Nat, order.Perm s.toList ∧ g.sequencePlan? order = some plan

section SequencePlan
variable {g : JoinGraph} {sequence : List Nat} {tree : Plan} {i : Nat} {n : Node}

theorem JoinGraph.sequencePlan?_singleton (hn : g.node? i = some n) :
    g.sequencePlan? [i] = some n.plan := by
  simp [sequencePlan?, hn]

theorem JoinGraph.sequencePlan?_concat (h : g.sequencePlan? sequence = some tree)
    (hn : g.node? i = some n) : g.sequencePlan? (sequence ++ [i]) = some (.join tree n.plan) := by
  unfold sequencePlan? at h ⊢
  cases hnodes : sequence.filterMap g.node? with
  | nil =>
    rw [hnodes] at h
    cases h
  | cons first others =>
    rw [hnodes] at h
    cases h
    simp [List.filterMap_append, hnodes, hn]

end SequencePlan

/-- Every plan that is registered for a sequence is the left-deep tree of the sequence. -/
def Interner.Faithful (g : JoinGraph) (t : Interner) : Prop :=
  ∀ sequence plan, t.plan? sequence = some plan → g.sequencePlan? sequence = some plan

theorem Interner.plan?_empty (sequence : List Nat) : (∅ : Interner).plan? sequence = none :=
  Std.HashMap.getElem?_empty

theorem Interner.faithful_empty (g : JoinGraph) : Faithful g ∅ := by
  intro sequence plan h
  rw [plan?_empty] at h
  cases h

theorem Interner.Faithful.canonicalize {g : JoinGraph} {t : Interner} {sequence : List Nat}
    {tree : Plan} (ht : t.Faithful g) (h : g.sequencePlan? sequence = some tree) :
    (t.canonicalize sequence tree).1 = tree ∧ (t.canonicalize sequence tree).2.Faithful g := by
  unfold Interner.canonicalize
  split
  · next plan hplan =>
    have := ht sequence plan hplan
    rw [h, Option.some.injEq] at this
    exact ⟨this.symm, ht⟩
  · refine ⟨rfl, fun other plan hother => ?_⟩
    by_cases heq : sequence = other
    · subst heq
      simp only [plan?, Std.HashMap.getElem?_insert_self, Option.some.injEq] at hother
      exact hother ▸ h
    · refine ht other plan ?_
      simpa [plan?, Std.HashMap.getElem?_insert, heq] using hother

namespace JoinOrder

/-! ## Computations that share sub-plans -/

section Yields
variable {g : JoinGraph} {α β : Type} {x : JoinPlanning α} {post : α → Prop}

/-- On every faithful interner, the computation comes to a result with the given property and
leaves the interner faithful. -/
def Yields (g : JoinGraph) (x : JoinPlanning α) (post : α → Prop) : Prop :=
  ∀ t, Interner.Faithful g t → ∃ a t', x.run.run t = (.ok a, t') ∧ t'.Faithful g ∧ post a

theorem Yields.pure {a : α} (h : post a) : Yields g (pure a) post :=
  fun t ht => ⟨a, t, rfl, ht, h⟩

theorem Yields.bind {post' : β → Prop} {f : α → JoinPlanning β} (hx : Yields g x post)
    (hf : ∀ a, post a → Yields g (f a) post') : Yields g (x >>= f) post' := by
  intro t ht
  obtain ⟨a, t', hrun, ht', ha⟩ := hx t ht
  obtain ⟨b, t'', hrun', ht'', hb⟩ := hf a ha t' ht'
  refine ⟨b, t'', ?_, ht'', hb⟩
  rw [ExceptT.run_bind, Interning.run_bind, hrun]
  exact hrun'

/-- The results of a list of computations, each with the property that belongs to it. -/
theorem yields_mapM {f : α → JoinPlanning β} {post : α → β → Prop} {l : List α}
    (h : ∀ a ∈ l, Yields g (f a) (post a)) : Yields g (l.mapM f) (List.Forall₂ post l) := by
  induction l with
  | nil => exact .pure .nil
  | cons a l ih =>
    rw [List.mapM_cons]
    refine (h a List.mem_cons_self).bind fun b hb => ?_
    refine (ih fun c hc => h c (List.mem_cons_of_mem a hc)).bind fun bs hbs => ?_
    exact .pure (.cons hb hbs)

theorem yields_canonicalize {sequence : List Nat} {tree : Plan}
    (h : g.sequencePlan? sequence = some tree) :
    Yields g (Interning.canonicalize sequence tree) (· = tree) := by
  intro t ht
  obtain ⟨heq, ht'⟩ := ht.canonicalize h
  exact ⟨_, _, rfl, ht', heq⟩

end Yields

/-! ## Computations that may break off -/

section Ends
variable {g : JoinGraph} {α β : Type} {x : JoinPlanning α} {f : α → JoinPlanning β}
variable {post post' : Except ContractViolation α → Prop}

/-- On every faithful interner, the computation ends like this and leaves the interner faithful. -/
def Ends (g : JoinGraph) (x : JoinPlanning α) (post : Except ContractViolation α → Prop) : Prop :=
  ∀ t, Interner.Faithful g t → (x.run.run t).2.Faithful g ∧ post (x.run.run t).1

theorem Ends.pure {a : α} (h : post (.ok a)) : Ends g (pure a) post := fun _ ht => ⟨ht, h⟩

theorem Ends.throw {e : ContractViolation} (h : post (.error e)) : Ends g (throw e) post :=
  fun _ ht => ⟨ht, h⟩

theorem Ends.mono (hx : Ends g x post) (h : ∀ result, post result → post' result) :
    Ends g x post' :=
  fun t ht => (hx t ht).imp_right (h _)

theorem Yields.bind_ends {pre : α → Prop} {post : Except ContractViolation β → Prop}
    (hx : Yields g x pre) (hf : ∀ a, pre a → Ends g (f a) post) : Ends g (x >>= f) post := by
  intro t ht
  obtain ⟨a, t', hrun, ht', ha⟩ := hx t ht
  rw [ExceptT.run_bind, Interning.run_bind, hrun]
  exact hf a ha t' ht'

end Ends

/-! ## The left-deep order -/

variable {g : JoinGraph} {included pending nodes : NodeSet} {sequence : List Nat} {tree : Plan}
variable {i : Nat} {n : Node}

theorem leaf_of_node?_eq_none (hn : g.node? i = none) : leaf g i = throw (.unknownNode i) := by
  simp [leaf, hn]

theorem yields_leaf (hn : g.node? i = some n) : Yields g (leaf g i) (· = n.plan) := by
  unfold leaf
  rw [hn]
  exact yields_canonicalize (JoinGraph.sequencePlan?_singleton hn)

theorem lowest_of_nextNode?_eq_some (h : nextNode? g included pending = some i) :
    (∃ j ∈ included, g.Adjacent j i) ∧
      ∀ k ∈ pending, k ≠ i → (∃ j ∈ included, g.Adjacent j k) → i < k := by
  have adjacent_iff : ∀ k, included.toList.any (fun j => g.Adjacent j k) = true ↔
      ∃ j ∈ included, g.Adjacent j k := by
    intro k
    simp
  have hi := List.find?_some (p := fun k => included.toList.any fun j => g.Adjacent j k) h
  refine ⟨(adjacent_iff i).1 hi, fun k hk hki hadjacent => ?_⟩
  exact (OrdSet.rel_of_find?_eq_some pending.ascending h hk
    ((adjacent_iff k).2 hadjacent)).resolve_left hki

theorem not_adjacent_of_nextNode?_eq_none (h : nextNode? g included pending = none) :
    ∀ k ∈ pending, ∀ j ∈ included, ¬g.Adjacent j k := by
  intro k hk j hj adjacent
  have hnot := List.find?_eq_none.1 h k hk
  exact hnot (List.any_eq_true.2 ⟨j, hj, decide_eq_true adjacent⟩)

/-- How far the nodes of `pending` are attached to those of `included`: the nodes of `order` are,
one after the other, and the nodes of `rest` are not. Each attached node is the lowest one that can
be joined with a node before it, and none of the others can be joined with any of them. -/
structure Attachment (g : JoinGraph) (included pending : NodeSet) (order : List Nat)
    (rest : NodeSet) : Prop where
  perm : (order ++ rest.toList).Perm pending.toList
  lowest : ∀ before j after, order = before ++ j :: after →
    (∃ i, (i ∈ included ∨ i ∈ before) ∧ g.Adjacent i j) ∧
      ∀ k, k ∈ after ∨ k ∈ rest → (∃ i, (i ∈ included ∨ i ∈ before) ∧ g.Adjacent i k) → j < k
  stuck : ∀ k ∈ rest, ∀ i, i ∈ included ∨ i ∈ order → ¬g.Adjacent i k

namespace Attachment

variable {order : List Nat} {rest : NodeSet}

theorem mem_pending (h : Attachment g included pending order rest) {j : Nat} :
    j ∈ pending ↔ j ∈ order ∨ j ∈ rest := by
  rw [← OrdSet.mem_toList, ← h.perm.mem_iff, List.mem_append, OrdSet.mem_toList]

theorem nil (h : nextNode? g included pending = none) :
    Attachment g included pending [] pending where
  perm := .refl _
  lowest before j after heq := by simp at heq
  stuck k hk j hj := not_adjacent_of_nextNode?_eq_none h k hk j (by simpa using hj)

/-- The next node is attached first, and then those that are attached with it. -/
theorem cons (hnext : nextNode? g included pending = some i)
    (h : Attachment g (included.insert i) (pending.erase i) order rest) :
    Attachment g included pending (i :: order) rest where
  perm := (h.perm.cons i).trans
    (OrdSet.toList_perm_cons_erase (mem_of_nextNode?_eq_some hnext)).symm
  lowest before j after heq := by
    obtain ⟨hadjacent, hlowest⟩ := lowest_of_nextNode?_eq_some hnext
    cases before with
    | nil =>
      obtain ⟨rfl, rfl⟩ := List.cons.inj heq
      simp only [List.not_mem_nil, or_false]
      refine ⟨hadjacent, fun k hk => ?_⟩
      obtain ⟨hkp, hki⟩ := OrdSet.mem_erase.1 (h.mem_pending.2 hk)
      exact hlowest k hkp hki
    | cons b before =>
      rw [List.cons_append, List.cons.injEq] at heq
      obtain ⟨rfl, heq⟩ := heq
      have hmem : ∀ m, (m ∈ included.insert i ∨ m ∈ before) ↔ (m ∈ included ∨ m ∈ i :: before) := by
        grind
      simpa only [hmem] using h.lowest before j after heq
  stuck k hk j hj := h.stuck k hk j (by grind)

/-- What is attached is linked to the nodes that it was attached to. -/
theorem linked (h : Attachment g included pending order rest) :
    ∀ j ∈ order, ∃ i ∈ included, g.Linked (included ∪ pending) i j := by
  -- the induction is on the part of the sequence up to the node
  suffices ∀ before after, order = before ++ after →
      ∀ j ∈ before, ∃ i ∈ included, g.Linked (included ∪ pending) i j from
    this order [] (List.append_nil order).symm
  intro before
  induction before using List.reverseRecOn with
  | nil => exact fun _ _ j hj => absurd hj List.not_mem_nil
  | append_singleton before j ih =>
    intro after heq k hk
    rw [List.append_assoc, List.singleton_append] at heq
    have hpending : j ∈ included ∪ pending := by
      refine OrdSet.mem_union.2 (.inr (h.mem_pending.2 (.inl ?_)))
      simp [heq]
    rcases List.mem_append.1 hk with hk | hk
    · exact ih (j :: after) heq k hk
    · cases List.mem_singleton.1 hk
      obtain ⟨⟨i, hi | hi, adjacent⟩, -⟩ := h.lowest before j after heq
      · exact ⟨i, hi, .step (.refl (OrdSet.mem_union.2 (.inl hi))) adjacent hpending⟩
      · obtain ⟨m, hm, path⟩ := ih (j :: after) heq i hi
        exact ⟨m, hm, .step path adjacent hpending⟩

/-- No path leads from the nodes before to those that are not attached. -/
theorem not_linked (h : Attachment g included pending order rest)
    (apart : included.Disjoint pending) (hi : i ∈ included) :
    ∀ k ∈ rest, ¬g.Linked (included ∪ pending) i k := by
  have stays : ∀ k, g.Linked (included ∪ pending) i k → k ∈ included ∨ k ∈ order := by
    intro k path
    induction path with
    | refl _ => exact .inl hi
    | step _ adjacent mem ih =>
      rcases OrdSet.mem_union.1 mem with hk | hk
      · exact .inl hk
      · exact .inr ((h.mem_pending.1 hk).resolve_right fun hrest => h.stuck _ hrest _ ih adjacent)
  intro k hk path
  rcases stays k path with hk' | hk'
  · exact apart k hk' (h.mem_pending.2 (.inr hk))
  · have hnodup := (h.perm.nodup_iff.2 pending.nodup_toList)
    exact (List.nodup_append.1 hnodup).2.2 k hk' k hk rfl

end Attachment

theorem ends_attach (htree : g.sequencePlan? sequence = some tree) :
    Ends g (attach g included pending sequence tree) fun result =>
      ∃ order rest, Attachment g included pending order rest ∧
        ((rest = ∅ ∧ ∃ plan, result = .ok plan ∧ g.sequencePlan? (sequence ++ order) = some plan) ∨
          (rest ≠ ∅ ∧ result = .error (.disconnectedNodeSet (included ∪ pending) rest))) := by
  induction hsize : pending.size using Nat.strongRecOn generalizing included pending sequence tree
    with
  | ind size ih =>
    rw [attach]
    split
    · next hnone =>
      by_cases hempty : pending = ∅
      · rw [if_pos (OrdSet.isEmpty_iff.2 hempty)]
        refine .pure ⟨[], pending, .nil hnone, .inl ⟨hempty, tree, rfl, ?_⟩⟩
        rw [List.append_nil, htree]
      · rw [if_neg (mt OrdSet.isEmpty_iff.1 hempty)]
        exact .throw ⟨[], pending, .nil hnone, .inr ⟨hempty, rfl⟩⟩
    · next j hj =>
      obtain ⟨⟨k, -, adjacent⟩, -⟩ := lowest_of_nextNode?_eq_some hj
      obtain ⟨n, hn⟩ := JoinGraph.exists_node? adjacent.lt_right
      refine (yields_leaf hn).bind_ends fun right hright => ?_
      subst hright
      have hnext := JoinGraph.sequencePlan?_concat htree hn
      refine (yields_canonicalize hnext).bind_ends fun next hnext' => ?_
      subst hnext'
      have hunion : included.insert j ∪ pending.erase j = included ∪ pending := by
        have hjp := mem_of_nextNode?_eq_some hj
        apply OrdSet.ext
        grind
      have hlt : (pending.erase j).size < size :=
        hsize ▸ OrdSet.size_erase_lt (mem_of_nextNode?_eq_some hj)
      refine (ih _ hlt hnext rfl).mono fun result hresult => ?_
      obtain ⟨order, rest, hattachment, hresult⟩ := hresult
      refine ⟨j :: order, rest, hattachment.cons hj, ?_⟩
      rwa [hunion, List.append_assoc] at hresult

/-- How the left-deep order of a set of nodes ends: without nodes, with a lowest node that is not in
the graph, with nodes that cannot be attached, or with the tree of all nodes. -/
inductive Outcome (g : JoinGraph) (nodes : NodeSet) : Except ContractViolation Plan → Prop where
  | empty (hempty : nodes = ∅) : Outcome g nodes (.error .emptyNodeSet)
  | unknown {root : Nat} (hroot : nodes.min? = some root) (hnode : g.node? root = none) :
    Outcome g nodes (.error (.unknownNode root))
  | stuck {root : Nat} {n : Node} {order : List Nat} {rest : NodeSet}
    (hroot : nodes.min? = some root) (hnode : g.node? root = some n)
    (hattachment : Attachment g {root} (nodes.erase root) order rest) (hrest : rest ≠ ∅) :
    Outcome g nodes (.error (.disconnectedNodeSet nodes rest))
  | tree {root : Nat} {n : Node} {order : List Nat} {plan : Plan}
    (hroot : nodes.min? = some root) (hnode : g.node? root = some n)
    (hattachment : Attachment g {root} (nodes.erase root) order ∅)
    (hplan : g.sequencePlan? (root :: order) = some plan) : Outcome g nodes (.ok plan)

theorem singleton_union_erase_min {root : Nat} (hroot : nodes.min? = some root) :
    {root} ∪ nodes.erase root = nodes := by
  have hmem := (OrdSet.min?_eq_some_iff.1 hroot).1
  apply OrdSet.ext
  grind

theorem ends_leftDeep (g : JoinGraph) (nodes : NodeSet) :
    Ends g (leftDeep g nodes) (Outcome g nodes) := by
  unfold leftDeep
  split
  · next hnone =>
    have hnil : nodes.toList = [] := List.head?_eq_none_iff.1 hnone
    exact .throw (.empty (OrdSet.ext fun j => by simp [← OrdSet.mem_toList, hnil]))
  · next root hroot =>
    cases hnode : g.node? root with
    | none =>
      rw [leaf_of_node?_eq_none hnode]
      exact .throw (.unknown hroot hnode)
    | some n =>
      refine (yields_leaf hnode).bind_ends fun tree htree => ?_
      subst htree
      refine (ends_attach (JoinGraph.sequencePlan?_singleton hnode)).mono fun result hresult => ?_
      obtain ⟨order, rest, hattachment, ⟨rfl, plan, rfl, hplan⟩ | ⟨hrest, rfl⟩⟩ := hresult
      · exact .tree hroot hnode hattachment hplan
      · rw [singleton_union_erase_min hroot]
        exact .stuck hroot hnode hattachment hrest

theorem Attachment.not_linked_min {root : Nat} {order : List Nat} {rest : NodeSet}
    (h : Attachment g {root} (nodes.erase root) order rest) (hroot : nodes.min? = some root) :
    ∀ j, j ∈ rest ↔ j ∈ nodes ∧ ¬g.Linked nodes root j := by
  have hunion := singleton_union_erase_min hroot
  have apart : OrdSet.Disjoint {root} (nodes.erase root) := by grind
  have hmem := (OrdSet.min?_eq_some_iff.1 hroot).1
  intro j
  constructor
  · intro hj
    refine ⟨(OrdSet.mem_erase.1 (h.mem_pending.2 (.inr hj))).1, ?_⟩
    have := h.not_linked apart (OrdSet.mem_singleton.2 rfl) j hj
    rwa [hunion] at this
  · rintro ⟨hj, unlinked⟩
    by_cases hjr : j = root
    · exact absurd (.refl (hjr ▸ hmem)) (hjr ▸ unlinked)
    · refine (h.mem_pending.1 (OrdSet.mem_erase.2 ⟨hj, hjr⟩)).resolve_left fun hattached => ?_
      obtain ⟨i, hi, path⟩ := h.linked j hattached
      rw [OrdSet.mem_singleton.1 hi, hunion] at path
      exact unlinked path

/-- All pending nodes are attached if and only if the set is connected. -/
theorem Attachment.isConnected_iff {root : Nat} {order : List Nat} {rest : NodeSet}
    (h : Attachment g {root} (nodes.erase root) order rest) (hroot : nodes.min? = some root) :
    g.isConnected nodes = true ↔ rest = ∅ := by
  constructor
  · intro connected
    refine Decidable.by_contra fun hrest => ?_
    obtain ⟨j, hj⟩ := OrdSet.exists_mem_of_ne_empty hrest
    obtain ⟨hj, unlinked⟩ := (h.not_linked_min hroot j).1 hj
    have hmem := (OrdSet.min?_eq_some_iff.1 hroot).1
    exact unlinked (JoinGraph.isConnected_iff.1 connected root hmem j hj)
  · rintro rfl
    refine JoinGraph.isConnected_of_linked (i := root) fun j hj => ?_
    refine Classical.byContradiction fun unlinked => ?_
    exact OrdSet.not_mem_empty ((h.not_linked_min hroot j).2 ⟨hj, unlinked⟩)

theorem Attachment.perm_toList {root : Nat} {order : List Nat}
    (h : Attachment g {root} (nodes.erase root) order ∅) (hroot : nodes.min? = some root) :
    (root :: order).Perm nodes.toList := by
  have hperm := h.perm
  rw [OrdSet.toList_empty, List.append_nil] at hperm
  exact (hperm.cons root).trans
    (OrdSet.toList_perm_cons_erase (OrdSet.min?_eq_some_iff.1 hroot).1).symm

/-- The left-deep order of a connected set is a sequence of its nodes. -/
theorem yields_leftDeep (hne : nodes ≠ ∅) (known : nodes ⊆ g.allNodes)
    (connected : g.isConnected nodes = true) :
    Yields g (leftDeep g nodes) (g.Joins nodes) := by
  intro t ht
  obtain ⟨ht', outcome⟩ := ends_leftDeep g nodes t ht
  suffices ∃ plan, ((leftDeep g nodes).run.run t).1 = .ok plan ∧ g.Joins nodes plan by
    obtain ⟨plan, hrun, joins⟩ := this
    exact ⟨plan, _, Prod.ext hrun rfl, ht', joins⟩
  generalize ((leftDeep g nodes).run.run t).1 = result at outcome
  cases outcome with
  | empty hempty => exact absurd hempty hne
  | unknown hroot hnode =>
    have hmem := known _ (OrdSet.min?_eq_some_iff.1 hroot).1
    obtain ⟨n, hn⟩ := JoinGraph.exists_node? (JoinGraph.mem_allNodes.1 hmem)
    cases hnode.symm.trans hn
  | stuck hroot hnode hattachment hrest =>
    exact absurd ((hattachment.isConnected_iff hroot).1 connected) hrest
  | tree hroot hnode hattachment hplan =>
    exact ⟨_, rfl, _, hattachment.perm_toList hroot, hplan⟩

end JoinOrder
end FederatedJoin
