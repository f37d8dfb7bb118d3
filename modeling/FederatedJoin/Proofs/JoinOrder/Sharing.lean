import FederatedJoin.Proofs.Distinct
import FederatedJoin.Proofs.JoinOrder.Outcome

/-!
# Computations that share an interner

Computations that share an interner take turns, and one of them makes one request at a turn. Every
order of turns leads to the same results and registers the same plans.

* `Pool` — computations that share an interner, with `Pool.turn` and `Pool.run`.
* `Interning.Requests` — what a computation asks for, and what it comes to, if all plans that it
  gets are left-deep trees.
* `Pool.InStep` — what holds of a pool after some turns, kept by one turn with `Pool.InStep.turn`,
  and so by any run with `Pool.InStep.run_of_requests`.
* `Pool.sharing_invisible` — what others register makes no difference to a request for a plan.
-/

namespace FederatedJoin

/-! ## Taking turns -/

section Turns
variable {α : Type}

/-- The sequences that a computation requests plans for, if it has an interner for itself. -/
def Interning.requested : Interning α → Interner → List (List Nat)
  | done _, _ => []
  | request key fresh resume, t =>
    let (plan, t) := t.canonicalize key fresh
    key :: (resume plan).requested t

/-- What a computation comes to, if it has an interner for itself. -/
def Interning.result (x : Interning α) : α := (x.run ∅).1

/-- Computations that share an interner, and the requests that they have made, each with the index
of the computation. -/
structure Pool (α : Type) where
  tasks : List (Interning α)
  interner : Interner := ∅
  log : List (Nat × List Nat) := []

namespace Pool

/-- Computation `i` makes its next request, if it has one. A request that finds no plan registers
its own in the same turn: a look-up that fails leaves no mark, so it is no turn by itself. -/
def turn (p : Pool α) (i : Nat) : Pool α :=
  match p.tasks[i]? with
  | some (.request key fresh resume) =>
    let (plan, interner) := p.interner.canonicalize key fresh
    { tasks := p.tasks.set i (resume plan), interner, log := p.log ++ [(i, key)] }
  | _ => p

/-- The computations take turns in the order of the schedule. -/
def run (p : Pool α) (schedule : List Nat) : Pool α := schedule.foldl turn p

/-- The sequences that computation `i` has requested so far. -/
def requestedBy (p : Pool α) (i : Nat) : List (List Nat) :=
  (p.log.filter (·.1 = i)).map Prod.snd

end Pool
end Turns

/-! ## Requests for left-deep trees -/

namespace Interning

variable {α β : Type} {g : JoinGraph} {x : Interning α} {keys keys' : List (List Nat)} {a : α}

theorem run_request (key : List Nat) (fresh : Plan) (resume : Plan → Interning α) (t : Interner) :
    (request key fresh resume).run t =
      (resume (t.canonicalize key fresh).1).run (t.canonicalize key fresh).2 := rfl

theorem requested_request (key : List Nat) (fresh : Plan) (resume : Plan → Interning α)
    (t : Interner) :
    (request key fresh resume).requested t =
      key :: (resume (t.canonicalize key fresh).1).requested (t.canonicalize key fresh).2 := rfl

/-- The computation requests plans for the sequences `keys` of nodes of the graph, offers the
left-deep tree of each, and comes to the result `a` if it gets these trees. -/
inductive Requests (g : JoinGraph) : Interning α → List (List Nat) → α → Prop where
  | done (a : α) : Requests g (done a) [] a
  | request {key : List Nat} {fresh : Plan} {resume : Plan → Interning α} {keys : List (List Nat)}
    {a : α} (known : ∀ i ∈ key, ∃ n, g.node? i = some n)
    (tree : g.sequencePlan? key = some fresh) (rest : Requests g (resume fresh) keys a) :
    Requests g (request key fresh resume) (key :: keys) a

namespace Requests

theorem bind {f : α → Interning β} {b : β} (hx : Requests g x keys a)
    (hf : Requests g (f a) keys' b) : Requests g (x >>= f) (keys ++ keys') b := by
  induction hx with
  | done a => exact hf
  | request known tree rest ih => exact .request known tree (ih hf)

/-- On an interner that holds left-deep trees, it makes no difference what the interner holds. -/
theorem run_eq (h : Requests g x keys a) {t : Interner} (ht : t.Faithful g) :
    (x.run t).1 = a ∧ x.requested t = keys := by
  induction h generalizing t with
  | done a => exact ⟨rfl, rfl⟩
  | @request key fresh resume keys a known tree rest ih =>
    obtain ⟨hplan, ht'⟩ := ht.canonicalize tree
    obtain ⟨hrun, hrequested⟩ := ih ht'
    rw [run_request, requested_request, hplan]
    exact ⟨hrun, congrArg (key :: ·) hrequested⟩

theorem result_eq (h : Requests g x keys a) : x.result = a :=
  (h.run_eq (Interner.faithful_empty g)).1

/-- With an interner for itself, the computation makes these requests and comes to this result. -/
theorem of_exists (h : ∃ keys a, Requests g x keys a) : Requests g x (x.requested ∅) x.result := by
  obtain ⟨keys, a, h⟩ := h
  obtain ⟨hrun, hrequested⟩ := h.run_eq (Interner.faithful_empty g)
  rwa [hrequested, result, hrun]

end Requests
end Interning

namespace JoinOrder

open Interning (Requests)

variable {g : JoinGraph} {included pending nodes : NodeSet} {sequence : List Nat} {tree : Plan}
variable {i : Nat} {n : Node} {α β : Type}

theorem requests_bind {x : JoinPlanning α} {f : α → JoinPlanning β} {a : α}
    {keys keys' : List (List Nat)} {b : Except ContractViolation β}
    (hx : Requests g x.run keys (.ok a)) (hf : Requests g (f a).run keys' b) :
    Requests g (x >>= f).run (keys ++ keys') b := by
  rw [ExceptT.run_bind]
  exact hx.bind hf

theorem requests_canonicalize (known : ∀ i ∈ sequence, ∃ n, g.node? i = some n)
    (htree : g.sequencePlan? sequence = some tree) :
    Requests g (Interning.canonicalize sequence tree : JoinPlanning Plan).run [sequence]
      (.ok tree) :=
  .request known htree (.done _)

theorem requests_leaf (hn : g.node? i = some n) :
    Requests g (leaf g i).run [[i]] (.ok n.plan) := by
  unfold leaf
  rw [hn]
  refine requests_canonicalize ?_ (JoinGraph.sequencePlan?_singleton hn)
  exact List.forall_mem_singleton.2 ⟨n, hn⟩

theorem exists_requests_leaf (g : JoinGraph) (i : Nat) :
    ∃ keys result, Requests g (leaf g i).run keys result := by
  cases hn : g.node? i with
  | none =>
    rw [leaf_of_node?_eq_none hn]
    exact ⟨[], _, .done _⟩
  | some n => exact ⟨_, _, requests_leaf hn⟩

theorem exists_requests_attach (known : ∀ i ∈ sequence, ∃ n, g.node? i = some n)
    (htree : g.sequencePlan? sequence = some tree) :
    ∃ keys result, Requests g (attach g included pending sequence tree).run keys result := by
  induction hsize : pending.size using Nat.strongRecOn generalizing included pending sequence tree
    with
  | ind size ih =>
    rw [attach]
    split
    · split
      · exact ⟨[], _, .done _⟩
      · exact ⟨[], _, .done _⟩
    · next j hj =>
      -- a node that is joined with others is known, so its leaf cannot fail
      obtain ⟨⟨k, -, adjacent⟩, -⟩ := lowest_of_nextNode?_eq_some hj
      obtain ⟨n, hn⟩ := JoinGraph.exists_node? adjacent.lt_right
      have hnext := JoinGraph.sequencePlan?_concat htree hn
      have hknown : ∀ i ∈ sequence ++ [j], ∃ n, g.node? i = some n :=
        List.forall_mem_append.2 ⟨known, List.forall_mem_singleton.2 ⟨n, hn⟩⟩
      have hlt : (pending.erase j).size < size :=
        hsize ▸ OrdSet.size_erase_lt (mem_of_nextNode?_eq_some hj)
      obtain ⟨keys, result, hrest⟩ := ih _ hlt hknown hnext rfl
      exact ⟨_, result, requests_bind (requests_leaf hn)
        (requests_bind (requests_canonicalize hknown hnext) hrest)⟩

/-- Requests of the left-deep order are for left-deep trees, also where it breaks off. -/
theorem exists_requests_leftDeep (g : JoinGraph) (nodes : NodeSet) :
    ∃ keys result, Requests g (leftDeep g nodes).run keys result := by
  unfold leftDeep
  split
  · exact ⟨[], _, .done _⟩
  · next root hroot =>
    cases hnode : g.node? root with
    | none =>
      rw [leaf_of_node?_eq_none hnode]
      exact ⟨[], _, .done _⟩
    | some n =>
      have known : ∀ i ∈ [root], ∃ n, g.node? i = some n :=
        List.forall_mem_singleton.2 ⟨n, hnode⟩
      obtain ⟨keys, result, hrest⟩ : ∃ keys result,
          Requests g (attach g {root} (nodes.erase root) [root] n.plan).run keys result :=
        exists_requests_attach known (JoinGraph.sequencePlan?_singleton hnode)
      exact ⟨_, result, requests_bind (requests_leaf hnode) hrest⟩

/-- A request for the plan of a single node or of a set of nodes. -/
inductive Call where
  | leaf (i : Nat)
  | join (nodes : NodeSet)
  deriving DecidableEq

/-- The computation that answers a call. -/
def Call.planning (g : JoinGraph) : Call → JoinPlanning Plan
  | leaf i => JoinOrder.leaf g i
  | join nodes => leftDeep g nodes

theorem Call.exists_requests (g : JoinGraph) (call : Call) :
    ∃ keys result, Requests g (call.planning g).run keys result := by
  cases call with
  | leaf i => exact exists_requests_leaf g i
  | join nodes => exact exists_requests_leftDeep g nodes

end JoinOrder

/-! ## Registered sequences -/

namespace Interner

variable {t : Interner} {key other : List Nat} {fresh : Plan}

theorem exists_plan?_canonicalize_iff :
    (∃ plan, (t.canonicalize key fresh).2.plan? other = some plan) ↔
      (∃ plan, t.plan? other = some plan) ∨ other = key := by
  constructor
  · rintro ⟨plan, hplan⟩
    unfold canonicalize at hplan
    split at hplan
    · exact .inl ⟨plan, hplan⟩
    · by_cases heq : key = other
      · exact .inr heq.symm
      · refine .inl ⟨plan, ?_⟩
        simpa [plan?, Std.HashMap.getElem?_insert, heq] using hplan
  · rintro (⟨plan, hplan⟩ | rfl)
    · exact ⟨plan, plan?_canonicalize_of_eq_some hplan⟩
    · exact ⟨_, plan?_canonicalize t other fresh⟩

/-- There are as many plans as different sequences that plans are registered for. -/
theorem size_eq {keys : List (List Nat)}
    (registered : ∀ key, (∃ plan, t.plan? key = some plan) ↔ key ∈ keys) :
    t.size = (distinctBy id keys).length := by
  have hmem : ∀ key, key ∈ t.plans.keys ↔ key ∈ distinctBy id keys := by
    intro key
    rw [mem_distinctBy_id, ← registered, Std.HashMap.mem_keys, ← Option.isSome_iff_exists, plan?,
      Std.HashMap.isSome_getElem?_iff_mem]
  have hperm := (List.perm_ext_iff_of_nodup Std.HashMap.nodup_keys
    (nodup_distinctBy_id keys)).2 hmem
  rw [size, ← Std.HashMap.length_keys, hperm.length_eq]

end Interner

/-! ## Pools -/

namespace Pool

open Interning (Requests)

variable {α : Type} {g : JoinGraph} {p : Pool α} {agenda : List (List (List Nat) × α)}
variable {schedule : List Nat} {i : Nat}

theorem turn_of_request {key : List Nat} {fresh : Plan} {resume : Plan → Interning α}
    (htask : p.tasks[i]? = some (.request key fresh resume)) :
    p.turn i =
      { tasks := p.tasks.set i (resume (p.interner.canonicalize key fresh).1)
        interner := (p.interner.canonicalize key fresh).2
        log := p.log ++ [(i, key)] } := by
  unfold turn
  rw [htask]

theorem requestedBy_concat (p : Pool α) (tasks : List (Interning α)) (t : Interner) (i j : Nat)
    (key : List Nat) :
    requestedBy { tasks, interner := t, log := p.log ++ [(i, key)] } j =
      p.requestedBy j ++ if j = i then [key] else [] := by
  unfold requestedBy
  by_cases hji : j = i
  · simp [hji]
  · simp [hji, eq_comm]

/-- After the turns of `schedule`, every computation has made as many of the requests on its agenda
as it had turns, and comes to the result on its agenda with the requests that are left. -/
structure InStep (g : JoinGraph) (agenda : List (List (List Nat) × α)) (schedule : List Nat)
    (p : Pool α) : Prop where
  faithful : p.interner.Faithful g
  registered : ∀ key, (∃ plan, p.interner.plan? key = some plan) ↔ key ∈ p.log.map Prod.snd
  known : ∀ key ∈ p.log.map Prod.snd, ∀ j ∈ key, ∃ n, g.node? j = some n
  owner_lt : ∀ o ∈ p.log, o.1 < agenda.length
  length_tasks : p.tasks.length = agenda.length
  requestedBy_eq : ∀ {i : Nat} {keys a}, agenda[i]? = some (keys, a) →
    p.requestedBy i = keys.take (schedule.count i)
  requests : ∀ {i : Nat} {x keys a}, p.tasks[i]? = some x → agenda[i]? = some (keys, a) →
    Requests g x (keys.drop (schedule.count i)) a

theorem inStep_nil {tasks : List (Interning α)}
    (h : List.Forall₂ (fun x o => Requests g x o.1 o.2) tasks agenda) :
    InStep g agenda [] { tasks } where
  faithful := Interner.faithful_empty g
  registered key := by simp [Interner.plan?_empty]
  known key hkey := absurd hkey List.not_mem_nil
  owner_lt o ho := absurd ho List.not_mem_nil
  length_tasks := h.length_eq
  requestedBy_eq {i keys a} _ := by simp [requestedBy]
  requests {i x keys a} hx ho := by
    obtain ⟨hi, rfl⟩ := List.getElem?_eq_some_iff.1 hx
    obtain ⟨hi', ho⟩ := List.getElem?_eq_some_iff.1 ho
    have hrequests := h.get hi hi'
    rw [List.get_eq_getElem, List.get_eq_getElem, ho] at hrequests
    exact hrequests

private theorem count_append_singleton (j : Nat) :
    (schedule ++ [i]).count j = schedule.count j + if j = i then 1 else 0 := by
  by_cases hji : j = i
  · simp [hji]
  · simp [hji, Ne.symm hji]

private theorem take_succ_of_drop_eq_cons {β : Type} {l rest : List β} {n : Nat} {b : β}
    (h : l.drop n = b :: rest) : l.take (n + 1) = l.take n ++ [b] ∧ l.drop (n + 1) = rest := by
  rw [List.take_add, ← List.drop_drop, h]
  exact ⟨rfl, rfl⟩

namespace InStep

/-- A turn of a computation that has come to its result changes nothing. -/
theorem idle (h : InStep g agenda schedule p)
    (ended : ∀ keys a, agenda[i]? = some (keys, a) → keys.length ≤ schedule.count i) :
    InStep g agenda (schedule ++ [i]) p where
  faithful := h.faithful
  registered := h.registered
  known := h.known
  owner_lt := h.owner_lt
  length_tasks := h.length_tasks
  requestedBy_eq {j keys a} ho := by
    rw [h.requestedBy_eq ho, count_append_singleton]
    split
    · next heq =>
      subst heq
      have hle := ended keys a ho
      rw [List.take_of_length_le hle, List.take_of_length_le (Nat.le_succ_of_le hle)]
    · rfl
  requests {j x keys a} hx ho := by
    have hrequests := h.requests hx ho
    rw [count_append_singleton]
    split
    · next heq =>
      subst heq
      have hle := ended keys a ho
      rw [List.drop_of_length_le hle] at hrequests
      rwa [List.drop_of_length_le (Nat.le_succ_of_le hle)]
    · exact hrequests

/-- The request that a computation is about to make is the next one on its agenda. -/
theorem exists_next {key : List Nat} {fresh : Plan} {resume : Plan → Interning α}
    (h : InStep g agenda schedule p) (htask : p.tasks[i]? = some (.request key fresh resume)) :
    ∃ keys a rest, agenda[i]? = some (keys, a) ∧ keys.drop (schedule.count i) = key :: rest ∧
      (∀ j ∈ key, ∃ n, g.node? j = some n) ∧ g.sequencePlan? key = some fresh ∧
        Requests g (resume fresh) rest a := by
  have hi : i < agenda.length := h.length_tasks ▸ (List.getElem?_eq_some_iff.1 htask).1
  obtain ⟨⟨keys, a⟩, ho⟩ : ∃ o, agenda[i]? = some o := ⟨_, List.getElem?_eq_getElem hi⟩
  have hrequests := h.requests htask ho
  generalize hdrop : keys.drop (schedule.count i) = left at hrequests
  cases hrequests with
  | request known tree hrest => exact ⟨keys, a, _, ho, hdrop, known, tree, hrest⟩

/-- A computation that has a request left makes it, and gets the tree that it offers. -/
theorem request {key : List Nat} {fresh : Plan} {resume : Plan → Interning α}
    (h : InStep g agenda schedule p) (htask : p.tasks[i]? = some (.request key fresh resume)) :
    InStep g agenda (schedule ++ [i]) (p.turn i) := by
  obtain ⟨own, result, rest, hown, hdrop, known, tree, hrest⟩ := h.exists_next htask
  obtain ⟨htake, hdrop⟩ := take_succ_of_drop_eq_cons hdrop
  obtain ⟨hplan, hfaithful⟩ := h.faithful.canonicalize tree
  rw [turn_of_request htask, hplan]
  constructor
  case faithful => exact hfaithful
  case registered =>
    intro other
    rw [Interner.exists_plan?_canonicalize_iff, h.registered, List.map_append, List.mem_append]
    simp
  case known =>
    intro other hother
    rw [List.map_append, List.mem_append] at hother
    rcases hother with hother | hother
    · exact h.known other hother
    · cases List.mem_singleton.1 hother
      exact known
  case owner_lt =>
    intro o ho
    rcases List.mem_append.1 ho with ho | ho
    · exact h.owner_lt o ho
    · cases List.mem_singleton.1 ho
      exact (List.getElem?_eq_some_iff.1 hown).1
  case length_tasks => rw [List.length_set, h.length_tasks]
  case requestedBy_eq =>
    intro j keys a ho
    rw [requestedBy_concat, h.requestedBy_eq ho, count_append_singleton]
    by_cases hji : j = i
    · subst hji
      cases hown.symm.trans ho
      rw [if_pos rfl, if_pos rfl, htake]
    · rw [if_neg hji, if_neg hji, List.append_nil, Nat.add_zero]
  case requests =>
    intro j x keys a hx ho
    rw [count_append_singleton]
    by_cases hji : j = i
    · subst hji
      cases hown.symm.trans ho
      rw [List.getElem?_set_self (List.getElem?_eq_some_iff.1 htask).1] at hx
      cases hx
      rw [if_pos rfl, hdrop]
      exact hrest
    · rw [List.getElem?_set_ne (Ne.symm hji)] at hx
      rw [if_neg hji]
      exact h.requests hx ho

theorem turn (h : InStep g agenda schedule p) (i : Nat) :
    InStep g agenda (schedule ++ [i]) (p.turn i) := by
  have idle_of_ended : p.turn i = p →
      (∀ keys a, agenda[i]? = some (keys, a) → keys.length ≤ schedule.count i) →
      InStep g agenda (schedule ++ [i]) (p.turn i) := fun hturn ended => hturn.symm ▸ h.idle ended
  cases htask : p.tasks[i]? with
  | none =>
    refine idle_of_ended (by simp [Pool.turn, htask]) fun keys a ho => ?_
    have hi := List.getElem?_eq_none_iff.1 htask
    rw [h.length_tasks] at hi
    rw [List.getElem?_eq_none hi] at ho
    cases ho
  | some x =>
    cases x with
    | done result =>
      refine idle_of_ended (by simp [Pool.turn, htask]) fun keys a ho => ?_
      have hrequests := h.requests htask ho
      generalize hdrop : keys.drop (schedule.count i) = left at hrequests
      cases hrequests
      exact List.drop_eq_nil_iff.1 hdrop
    | request key fresh resume => exact h.request htask

theorem run {tasks : List (Interning α)}
    (h : List.Forall₂ (fun x o => Requests g x o.1 o.2) tasks agenda) (schedule : List Nat) :
    InStep g agenda schedule (Pool.run { tasks } schedule) := by
  induction schedule using List.reverseRecOn with
  | nil => exact inStep_nil h
  | append_singleton schedule i ih =>
    rw [Pool.run, List.foldl_append]
    exact ih.turn i

theorem eq_done_iff (h : InStep g agenda schedule p) {keys : List (List Nat)} {a b : α}
    (ho : agenda[i]? = some (keys, a)) :
    p.tasks[i]? = some (.done b) ↔ keys.length ≤ schedule.count i ∧ b = a := by
  have hi : i < p.tasks.length := h.length_tasks ▸ (List.getElem?_eq_some_iff.1 ho).1
  obtain ⟨x, hx⟩ : ∃ x, p.tasks[i]? = some x := ⟨_, List.getElem?_eq_getElem hi⟩
  have hrequests := h.requests hx ho
  rw [hx, ← List.drop_eq_nil_iff]
  generalize keys.drop (schedule.count i) = left at hrequests
  cases hrequests with
  | done => simp [eq_comm]
  | request => simp

end InStep

/-- All computations are in step with what they do if each has an interner for itself. -/
theorem InStep.run_of_requests {tasks : List (Interning α)}
    (h : ∀ x ∈ tasks, ∃ keys a, Requests g x keys a) (schedule : List Nat) :
    InStep g (tasks.map fun x => (x.requested ∅, x.result)) schedule
      (Pool.run { tasks } schedule) := by
  refine .run (List.forall₂_map_right_iff.2 (List.forall₂_same.2 fun x hx => ?_)) schedule
  exact .of_exists (h x hx)

theorem mem_requestedBy {key : List Nat} : key ∈ p.requestedBy i ↔ (i, key) ∈ p.log := by
  simp [requestedBy]

/-- Once all computations have ended, the sequences requested are those on the agenda. -/
theorem InStep.mem_log_iff (h : InStep g agenda schedule p)
    (ended : ∀ x ∈ p.tasks, ∃ a, x = .done a) {key : List Nat} :
    key ∈ p.log.map Prod.snd ↔ key ∈ agenda.flatMap Prod.fst := by
  rw [List.mem_flatMap, List.mem_map]
  constructor
  · rintro ⟨⟨i, key⟩, hlog, rfl⟩
    obtain ⟨⟨keys, a⟩, ho⟩ : ∃ o, agenda[i]? = some o :=
      ⟨_, List.getElem?_eq_getElem (h.owner_lt _ hlog)⟩
    have hrequested := mem_requestedBy.2 hlog
    rw [h.requestedBy_eq ho] at hrequested
    exact ⟨(keys, a), List.mem_of_getElem? ho, List.mem_of_mem_take hrequested⟩
  · rintro ⟨⟨keys, a⟩, ho, hkey⟩
    obtain ⟨i, ho⟩ := List.mem_iff_getElem?.1 ho
    have hi : i < p.tasks.length := h.length_tasks ▸ (List.getElem?_eq_some_iff.1 ho).1
    obtain ⟨b, hb⟩ := ended _ (List.getElem_mem hi)
    have hle := ((h.eq_done_iff ho).1 (hb ▸ List.getElem?_eq_getElem hi)).1
    refine ⟨(i, key), mem_requestedBy.1 ?_, rfl⟩
    rw [h.requestedBy_eq ho, List.take_of_length_le hle]
    exact hkey

end Pool

/-! ## Calls that share an interner -/

open JoinOrder (Call)

/-- Calls that share an interner, with their requests in any order, come to the results that they
have on their own, also where these are errors. The interner holds the left-deep tree of every
sequence that was requested, and nothing else. -/
theorem Pool.sharing_invisible (g : JoinGraph) (calls : List Call) (schedule : List Nat) :
    let tasks := calls.map fun call => (call.planning g).run
    let shared := Pool.run { tasks } schedule
    (∀ i call, calls[i]? = some call →
      let alone := (call.planning g).run
      shared.requestedBy i = (alone.requested ∅).take (schedule.count i) ∧
      ∀ result, shared.tasks[i]? = some (.done result) ↔
        (alone.requested ∅).length ≤ schedule.count i ∧ result = (alone.run ∅).1) ∧
    (∀ key plan, shared.interner.plan? key = some plan → ∃ first others,
      List.Forall₂ (fun i n => g.node? i = some n) key (first :: others) ∧
        plan = (others.map Node.plan).foldl .join first.plan) ∧
    (∀ key, (∃ plan, shared.interner.plan? key = some plan) ↔ key ∈ shared.log.map Prod.snd) ∧
    shared.interner.size = (distinctBy id (shared.log.map Prod.snd)).length ∧
    ((∀ x ∈ shared.tasks, ∃ result, x = .done result) →
      shared.interner.size = (distinctBy id (tasks.flatMap (·.requested ∅))).length) := by
  intro tasks shared
  let agenda := tasks.map fun x => (x.requested ∅, x.result)
  have h : InStep g agenda schedule shared := by
    refine .run_of_requests (fun x hx => ?_) schedule
    obtain ⟨call, -, rfl⟩ := List.mem_map.1 hx
    exact call.exists_requests g
  refine ⟨fun i call hcall => ?_, fun key plan hplan => ?_, h.registered,
    Interner.size_eq h.registered, ?_⟩
  · have ho : agenda[i]? = some (((call.planning g).run.requested ∅),
        (call.planning g).run.result) := by
      simp [agenda, tasks, hcall]
    exact ⟨h.requestedBy_eq ho, fun result => h.eq_done_iff ho⟩
  · have known := h.known key ((h.registered key).1 ⟨plan, hplan⟩)
    exact JoinGraph.exists_nodes_of_sequencePlan? known (h.faithful key plan hplan)
  · intro ended
    refine Interner.size_eq fun key => (h.registered key).trans ((h.mem_log_iff ended).trans ?_)
    rw [List.flatMap_map]

end FederatedJoin
