import FederatedJoin.Alternatives

/-!
# Representatives of interchangeable nodes

* `Represents` — what the list of representatives says.
* `represents_canonicalNodes` — the representatives of the nodes of a graph.
* `Represents.not_interchangeable` — no two nodes that represent themselves are interchangeable.
* `Represents.le_of_interchangeable` — if being interchangeable is transitive, a node is represented
  by the first node that is interchangeable with it.
* `AlternativeSources.Coherent` — being interchangeable is symmetric and transitive, and depends on
  the interface and the set of members only.
* `AlternativeSources.Coherent.canonical_eq_iff` — which nodes have the same representative.
-/

namespace FederatedJoin

variable {interchangeable : AlternativeSources} {before nodes : List Node} {canonical : List Nat}
variable {n m : Node} {i j c : Nat}

/-! ## One representative after the other -/

private theorem getElem?_concat_eq_some_iff {α : Type} {l : List α} {a b : α} :
    (l ++ [a])[i]? = some b ↔ l[i]? = some b ∨ (i = l.length ∧ a = b) := by
  rcases Nat.lt_trichotomy i l.length with hlt | rfl | hgt
  · rw [List.getElem?_append_left hlt]
    exact (or_iff_left fun h => Nat.ne_of_lt hlt h.1).symm
  · simp
  · have hconcat : (l ++ [a]).length ≤ i := by
      rw [List.length_append]
      exact hgt
    rw [List.getElem?_eq_none hconcat, List.getElem?_eq_none (Nat.le_of_lt hgt)]
    simp [Nat.ne_of_gt hgt]

/-- Node `c` represents itself and is interchangeable with `n`. -/
def IsAlternative (interchangeable : AlternativeSources) (nodes : List Node) (canonical : List Nat)
    (c : Nat) (n : Node) : Prop :=
  canonical[c]? = some c ∧ ∃ m, nodes[c]? = some m ∧ interchangeable m n = true

/-- The representative of a node is the first node before it that represents itself and is
interchangeable with it, or else the node itself. -/
structure Represents (interchangeable : AlternativeSources) (nodes : List Node)
    (canonical : List Nat) : Prop where
  length_eq : canonical.length = nodes.length
  choice : ∀ {i : Nat} {n c}, nodes[i]? = some n → canonical[i]? = some c →
    c = i ∨ (c < i ∧ IsAlternative interchangeable nodes canonical c n)
  first : ∀ {i : Nat} {n c}, nodes[i]? = some n → canonical[i]? = some c →
    ∀ j < c, ¬IsAlternative interchangeable nodes canonical j n

theorem IsAlternative.lt_length (h : IsAlternative interchangeable nodes canonical c n) :
    c < nodes.length := by
  obtain ⟨-, m, hm, -⟩ := h
  exact (List.getElem?_eq_some_iff.1 hm).1

theorem isAlternative_append {n' : Node} {c' : Nat} (hlength : canonical.length = nodes.length)
    (hj : j < nodes.length) :
    IsAlternative interchangeable (nodes ++ [n']) (canonical ++ [c']) j n ↔
      IsAlternative interchangeable nodes canonical j n := by
  rw [IsAlternative, IsAlternative, List.getElem?_append_left hj,
    List.getElem?_append_left (hlength ▸ hj)]

/-- One more node gets a representative. -/
theorem Represents.concat (h : Represents interchangeable nodes canonical)
    (hchoice : c = nodes.length ∨ IsAlternative interchangeable nodes canonical c n)
    (hfirst : ∀ j < c, ¬IsAlternative interchangeable nodes canonical j n) :
    Represents interchangeable (nodes ++ [n]) (canonical ++ [c]) := by
  have hle : c ≤ nodes.length := hchoice.elim Nat.le_of_eq fun h => Nat.le_of_lt h.lt_length
  have entry : ∀ {i : Nat} {n' c'}, (nodes ++ [n])[i]? = some n' →
      (canonical ++ [c])[i]? = some c' →
      (nodes[i]? = some n' ∧ canonical[i]? = some c') ∨ (i = nodes.length ∧ n = n' ∧ c = c') := by
    intro i n' c' hn hc
    rw [getElem?_concat_eq_some_iff] at hn hc
    have hlt : ∀ {α : Type} {l : List α} {a : α}, l[i]? = some a → i < l.length := fun h =>
      (List.getElem?_eq_some_iff.1 h).1
    grind [h.length_eq]
  constructor
  · rw [List.length_append, List.length_append, h.length_eq]
    rfl
  · intro i n' c' hn hc
    rcases entry hn hc with ⟨hn, hc⟩ | ⟨rfl, rfl, rfl⟩
    · refine (h.choice hn hc).imp_right fun ⟨hci, halt⟩ => ⟨hci, ?_⟩
      exact (isAlternative_append h.length_eq halt.lt_length).2 halt
    · refine hchoice.imp_right fun halt => ⟨halt.lt_length, ?_⟩
      exact (isAlternative_append h.length_eq halt.lt_length).2 halt
  · intro i n' c' hn hc j hj
    rcases entry hn hc with ⟨hn', hc'⟩ | ⟨rfl, rfl, rfl⟩
    · have hlt := (List.getElem?_eq_some_iff.1 hn').1
      have hjl : j < nodes.length := by
        rcases h.choice hn' hc' with rfl | ⟨hci, -⟩ <;> omega
      exact mt (isAlternative_append h.length_eq hjl).1 (h.first hn' hc' j hj)
    · exact mt (isAlternative_append h.length_eq (Nat.lt_of_lt_of_le hj hle)).1 (hfirst j hj)

/-- The nodes so far that represent themselves, by ascending index. -/
structure ListsRepresentatives (representatives : List (Nat × Node)) (nodes : List Node)
    (canonical : List Nat) : Prop where
  mem_iff : ∀ {c : Nat} {m : Node},
    (c, m) ∈ representatives ↔ canonical[c]? = some c ∧ nodes[c]? = some m
  ascending : representatives.Pairwise (·.1 < ·.1)

section Concat
variable {representatives : List (Nat × Node)}
variable (h : ListsRepresentatives representatives nodes canonical)
  (hlength : canonical.length = nodes.length)
include h hlength

theorem ListsRepresentatives.concat (hc : c < nodes.length) :
    ListsRepresentatives representatives (nodes ++ [n]) (canonical ++ [c]) where
  mem_iff {j m} := by
    rw [h.mem_iff, getElem?_concat_eq_some_iff, getElem?_concat_eq_some_iff]
    have hj : canonical[j]? = some j → j < canonical.length := fun h =>
      (List.getElem?_eq_some_iff.1 h).1
    grind
  ascending := h.ascending

theorem ListsRepresentatives.concat_self :
    ListsRepresentatives (representatives ++ [(nodes.length, n)]) (nodes ++ [n])
      (canonical ++ [nodes.length]) where
  mem_iff {j m} := by
    rw [List.mem_append, h.mem_iff, getElem?_concat_eq_some_iff, getElem?_concat_eq_some_iff,
      List.mem_singleton, Prod.mk.injEq]
    have hj : canonical[j]? = some j → j < canonical.length := fun h =>
      (List.getElem?_eq_some_iff.1 h).1
    have hm : nodes[j]? = some m → j < nodes.length := fun h =>
      (List.getElem?_eq_some_iff.1 h).1
    grind
  ascending := by
    refine List.pairwise_append.2 ⟨h.ascending, List.pairwise_singleton _ _, fun r hr q hq => ?_⟩
    rw [List.mem_singleton.1 hq]
    exact (List.getElem?_eq_some_iff.1 (h.mem_iff.1 hr).2).1

end Concat

/-- Going through more nodes keeps the representatives right, if the nodes before that represent
themselves are at hand. -/
theorem Represents.append {representatives : List (Nat × Node)}
    (h : Represents interchangeable before canonical)
    (hlists : ListsRepresentatives representatives before canonical) (nodes : List Node) :
    Represents interchangeable (before ++ nodes)
      (canonical ++ representativesFrom interchangeable before.length representatives nodes) := by
  induction nodes generalizing before canonical representatives with
  | nil =>
    rw [representativesFrom, List.append_nil, List.append_nil]
    exact h
  | cons n nodes ih =>
    have hlength : (before ++ [n]).length = before.length + 1 := by simp
    rw [representativesFrom, List.append_cons before]
    split
    · next c m hfind =>
      obtain ⟨hc, hcm⟩ := hlists.mem_iff.1 (List.mem_of_find?_eq_some hfind)
      have hcn := List.find?_some hfind
      have halt : IsAlternative interchangeable before canonical c n := ⟨hc, m, hcm, hcn⟩
      rw [List.append_cons canonical, ← hlength]
      refine ih (h.concat (.inr halt) fun j hj hjalt => ?_)
        (hlists.concat h.length_eq halt.lt_length)
      obtain ⟨hjc, m', hm', halt'⟩ := hjalt
      -- A representative with a lesser index is listed earlier, where nothing was found.
      rcases OrdSet.rel_of_find?_eq_some hlists.ascending hfind (hlists.mem_iff.2 ⟨hjc, hm'⟩)
        halt' with heq | hlater
      · exact Nat.ne_of_lt hj (congrArg Prod.fst heq)
      · exact Nat.lt_asymm hj hlater
    · next hfind =>
      rw [List.append_cons canonical, ← hlength]
      refine ih (h.concat (.inl rfl) fun j hj hjalt => ?_) (hlists.concat_self h.length_eq)
      obtain ⟨hjc, m', hm', halt'⟩ := hjalt
      exact List.find?_eq_none.1 hfind _ (hlists.mem_iff.2 ⟨hjc, hm'⟩) halt'

theorem represents_canonicalNodes (g : JoinGraph) (interchangeable : AlternativeSources) :
    Represents interchangeable g.nodes.toList (g.canonicalNodes interchangeable) := by
  have h : Represents interchangeable [] [] := ⟨rfl, nofun, nofun⟩
  have hlists : ListsRepresentatives [] [] [] := ⟨by simp, .nil⟩
  exact h.append hlists g.nodes.toList

namespace Represents

variable {d : Nat} (h : Represents interchangeable nodes canonical)
include h

theorem exists_getElem? (hn : nodes[i]? = some n) : ∃ c, canonical[i]? = some c :=
  ⟨_, List.getElem?_eq_getElem (h.length_eq ▸ (List.getElem?_eq_some_iff.1 hn).1)⟩

theorem le (hn : nodes[i]? = some n) (hc : canonical[i]? = some c) : c ≤ i := by
  rcases h.choice hn hc with rfl | ⟨hlt, -⟩
  · exact Nat.le_refl c
  · exact Nat.le_of_lt hlt

/-- Representatives represent themselves. -/
theorem represents_self (hn : nodes[i]? = some n) (hc : canonical[i]? = some c) :
    canonical[c]? = some c := by
  rcases h.choice hn hc with rfl | ⟨-, hself, -⟩
  · exact hc
  · exact hself

/-- Nodes that represent themselves are not interchangeable, since the later one of them would be
represented by the earlier one or by a node before it. -/
theorem not_interchangeable (hn : nodes[i]? = some n) (hm : nodes[j]? = some m)
    (hi : canonical[i]? = some i) (hj : canonical[j]? = some j) (hij : i < j) :
    interchangeable n m = false :=
  Bool.eq_false_iff.2 fun hnm => h.first hm hj i hij ⟨hi, n, hn, hnm⟩

/-- If being interchangeable is transitive, the representative of a node comes no later than that
of any node interchangeable with it. -/
theorem le_of_interchangeable
    (trans : ∀ {a b c}, interchangeable a b = true → interchangeable b c = true →
      interchangeable a c = true)
    (hn : nodes[i]? = some n) (hm : nodes[j]? = some m) (hc : canonical[i]? = some c)
    (hd : canonical[j]? = some d) (hnm : interchangeable n m = true) : d ≤ c := by
  refine Nat.not_lt.1 fun hlt => h.first hm hd c hlt ?_
  rcases h.choice hn hc with rfl | ⟨-, hself, k, hk, hkn⟩
  · exact ⟨hc, n, hn, hnm⟩
  · exact ⟨hself, k, hk, trans hkn hnm⟩

end Represents

/-! ## Interchangeable nodes -/

/-- Nodes of one interface with the same members, which may be listed in another order. -/
structure Node.SameMembers (n m : Node) : Prop where
  interface_eq : n.interface = m.interface
  mem_iff : ∀ f, f ∈ n.members ↔ f ∈ m.members

/-- Being interchangeable is symmetric and transitive, and depends on the interface and the set of
members of a node only. -/
structure AlternativeSources.Coherent (interchangeable : AlternativeSources) : Prop where
  symm : ∀ {a b}, interchangeable a b = true → interchangeable b a = true
  trans : ∀ {a b c}, interchangeable a b = true → interchangeable b c = true →
    interchangeable a c = true
  congr : ∀ {a a' b b'}, a.SameMembers a' → b.SameMembers b' →
    interchangeable a b = interchangeable a' b'

namespace AlternativeSources

theorem coherent_none : Coherent none := ⟨nofun, nofun, fun _ _ => rfl⟩

theorem coherent_sameContentSameSources : Coherent sameContentSameSources where
  symm {a b} h := by
    simp only [sameContentSameSources, decide_eq_true_eq] at h ⊢
    exact ⟨h.1.symm, h.2.2 ▸ h.2.1, h.2.2.symm⟩
  trans {a b c} h h' := by
    simp only [sameContentSameSources, decide_eq_true_eq] at h h' ⊢
    exact ⟨h.1.trans h'.1, h.2.1, h.2.2.trans h'.2.2⟩
  congr {a a' b b'} ha hb := by
    have sources : ∀ {n n' : Node}, n.SameMembers n' → n.sources = n'.sources := by
      intro n n' h
      apply OrdSet.ext
      intro source
      simp only [Node.sources, OrdSet.mem_ofList, List.mem_filterMap, h.mem_iff]
    rw [sameContentSameSources, sameContentSameSources, decide_eq_decide]
    simp only [Node.triples, ha.interface_eq, hb.interface_eq, sources ha, sources hb]

namespace Coherent

variable {d : Nat} (coherent : interchangeable.Coherent)
include coherent

theorem eq_iff (h : Represents interchangeable nodes canonical) (hn : nodes[i]? = some n)
    (hm : nodes[j]? = some m) (hc : canonical[i]? = some c) (hd : canonical[j]? = some d) :
    c = d ↔ i = j ∨ interchangeable n m = true := by
  constructor
  · rintro rfl
    rcases h.choice hn hc with rfl | ⟨-, -, k, hk, hkn⟩ <;>
      rcases h.choice hm hd with rfl | ⟨-, -, l, hl, hlm⟩
    · exact .inl rfl
    · cases hn.symm.trans hl
      exact .inr hlm
    · cases hm.symm.trans hk
      exact .inr (coherent.symm hkn)
    · cases hk.symm.trans hl
      exact .inr (coherent.trans (coherent.symm hkn) hlm)
  · rintro (rfl | hnm)
    · exact Option.some.inj (hc.symm.trans hd)
    · exact Nat.le_antisymm (h.le_of_interchangeable coherent.trans hm hn hd hc (coherent.symm hnm))
        (h.le_of_interchangeable coherent.trans hn hm hc hd hnm)

/-- Two different nodes have the same representative exactly if they are interchangeable. -/
theorem canonical_eq_iff {g : JoinGraph} (hn : g.node? i = some n) (hm : g.node? j = some m) :
    (g.canonicalNodes interchangeable).getD i i = (g.canonicalNodes interchangeable).getD j j ↔
      i = j ∨ interchangeable n m = true := by
  have h := represents_canonicalNodes g interchangeable
  have entry : ∀ {i n}, g.node? i = some n → g.nodes.toList[i]? = some n ∧
      (g.canonicalNodes interchangeable)[i]? =
        some ((g.canonicalNodes interchangeable).getD i i) := by
    intro i n hn
    have hnode : g.nodes.toList[i]? = some n := by rwa [Array.getElem?_toList]
    have hlt : i < (g.canonicalNodes interchangeable).length :=
      h.length_eq ▸ (List.getElem?_eq_some_iff.1 hnode).1
    exact ⟨hnode, by simp [hlt]⟩
  exact coherent.eq_iff h (entry hn).1 (entry hm).1 (entry hn).2 (entry hm).2

end Coherent

/-- Nodes are interchangeable if they match a triple in common. This is not transitive. -/
def commonTriple : AlternativeSources := fun a b => ¬a.triples.Disjoint b.triples

theorem commonTriple_symm {a b : Node} (h : commonTriple a b = true) : commonTriple b a = true := by
  rw [commonTriple, decide_eq_true_eq] at h ⊢
  rwa [OrdSet.disjoint_comm]

end AlternativeSources

/-! ## Representatives of the nodes of a graph -/

/-- The representative of a node is the first of the earlier nodes that represent themselves and
are interchangeable with it, or the node itself if there is none. Representatives represent
themselves, and no two of them are interchangeable. If being interchangeable is transitive, the
representative is the first of all nodes that are interchangeable with the node. -/
theorem canonicalNodes_greedy (g : JoinGraph) (interchangeable : AlternativeSources)
    (symm : ∀ a b, interchangeable a b = true → interchangeable b a = true) :
    let nodes := g.nodes.toList
    let canonical := g.canonicalNodes interchangeable
    canonical.length = g.size ∧
    (∀ (i : Nat) n, nodes[i]? = some n → ∃ c m, canonical[i]? = some c ∧ nodes[c]? = some m ∧
      c ≤ i ∧ canonical[c]? = some c ∧ (c ≠ i → interchangeable n m = true) ∧
      ((c < i ∧ IsAlternative interchangeable nodes canonical c n ∧
          ∀ j < c, ¬IsAlternative interchangeable nodes canonical j n) ∨
        (c = i ∧ ∀ j < i, ¬IsAlternative interchangeable nodes canonical j n))) ∧
    (∀ (i j : Nat) n m, i ≠ j → nodes[i]? = some n → nodes[j]? = some m →
      canonical[i]? = some i → canonical[j]? = some j → interchangeable n m = false) ∧
    ((∀ a b c, interchangeable a b = true → interchangeable b c = true →
        interchangeable a c = true) →
      ∀ (i : Nat) n c, nodes[i]? = some n → canonical[i]? = some c →
        (c = i ∨ ∃ m, nodes[c]? = some m ∧ interchangeable n m = true) ∧
        ∀ (j : Nat) m, nodes[j]? = some m → (j = i ∨ interchangeable n m = true) → c ≤ j) ∧
    (∀ a b, AlternativeSources.sameContentSameSources a b = true →
      AlternativeSources.sameContentSameSources b a = true) ∧
    ∀ a b c, AlternativeSources.sameContentSameSources a b = true →
      AlternativeSources.sameContentSameSources b c = true →
      AlternativeSources.sameContentSameSources a c = true := by
  intro nodes canonical
  have h : Represents interchangeable nodes canonical :=
    represents_canonicalNodes g interchangeable
  have same := AlternativeSources.coherent_sameContentSameSources
  -- The search asks whether the earlier node is interchangeable with the later one.
  have alternative : ∀ {i n c}, nodes[i]? = some n → canonical[i]? = some c → c ≠ i →
      c < i ∧ IsAlternative interchangeable nodes canonical c n := fun hn hc hne =>
    (h.choice hn hc).resolve_left hne
  refine ⟨h.length_eq, fun i n hn => ?_, fun i j n m hij hn hm hi hj => ?_,
    fun trans i n c hn hc => ⟨?_, fun j m hm hjm => ?_⟩, fun a b => same.symm,
    fun a b c => same.trans⟩
  · obtain ⟨c, hc⟩ := h.exists_getElem? hn
    have hle := h.le hn hc
    have hself := h.represents_self hn hc
    by_cases hci : c = i
    · subst hci
      exact ⟨c, n, hc, hn, hle, hself, absurd rfl, .inr ⟨rfl, h.first hn hc⟩⟩
    · obtain ⟨hlt, halt⟩ := alternative hn hc hci
      obtain ⟨-, m, hm, hmn⟩ := id halt
      exact ⟨c, m, hc, hm, hle, hself, fun _ => symm m n hmn, .inl ⟨hlt, halt, h.first hn hc⟩⟩
  · rcases Nat.lt_or_gt_of_ne hij with hlt | hgt
    · exact h.not_interchangeable hn hm hi hj hlt
    · have hmn := h.not_interchangeable hm hn hj hi hgt
      exact Bool.eq_false_iff.2 fun hnm => Bool.eq_false_iff.1 hmn (symm n m hnm)
  · refine Decidable.or_iff_not_imp_left.2 fun hci => ?_
    obtain ⟨-, -, m, hm, hmn⟩ := alternative hn hc hci
    exact ⟨m, hm, symm m n hmn⟩
  · rcases hjm with rfl | hnm
    · exact h.le hn hc
    · obtain ⟨d, hd⟩ := h.exists_getElem? hm
      have hcd := h.le_of_interchangeable (trans _ _ _) hm hn hd hc (symm n m hnm)
      exact Nat.le_trans hcd (h.le hm hd)

/-- Three nodes, each of which matches a triple in common with the next one. -/
def chainOfAlternatives : JoinGraph :=
  JoinGraph.edgeless
    [.ofFragment (.ofTriples "first" (.ofList [0])),
      .ofFragment (.ofTriples "second" (.ofList [0, 1])),
      .ofFragment (.ofTriples "third" (.ofList [1]))]

/-- The third node is interchangeable with the second one only, which is represented by the first
one, so it represents itself. -/
theorem canonicalNodes_greedy_chain :
    (∀ a b, AlternativeSources.commonTriple a b = true →
      AlternativeSources.commonTriple b a = true) ∧
    chainOfAlternatives.canonicalNodes AlternativeSources.commonTriple = [0, 0, 2] ∧
    ∀ n m, chainOfAlternatives.nodes.toList[0]? = some n →
      chainOfAlternatives.nodes.toList[2]? = some m →
      AlternativeSources.commonTriple n m = false := by
  have symm : ∀ a b, AlternativeSources.commonTriple a b = true →
      AlternativeSources.commonTriple b a = true := fun _ _ => AlternativeSources.commonTriple_symm
  have canonical :
      chainOfAlternatives.canonicalNodes AlternativeSources.commonTriple = [0, 0, 2] := by decide
  obtain ⟨-, -, apart, -⟩ :=
    canonicalNodes_greedy chainOfAlternatives AlternativeSources.commonTriple symm
  refine ⟨symm, canonical, fun n m hn hm => apart 0 2 n m (by decide) hn hm ?_ ?_⟩ <;>
    rw [canonical] <;> rfl

end FederatedJoin
