import FederatedJoin.Proofs.JoinOrder.Sharing
import FederatedJoin.Proofs.Planner.Part

/-!
# Planning components side by side

Above a threshold, join components are planned side by side, and their requests to the shared
interner come in any order. With the left-deep order this makes no difference to the plan.

* `Pool.exists_schedule` — computations that take turns can all come to an end.
* `Planner.PlansComponents` — what planning some components may yield, on either side of the
  threshold.
* `Planner.planComponents_eq` — one after the other, each component is planned as if it were alone.
* `Planner.planComponents_eq_of_ended` — side by side, components that have all ended have the same
  outcome.
* `Planner.plansComponents_ok_iff`, `Planner.exists_plansComponents_error_iff` — with or without
  waiting for all of them, there is the same plan or an error as well.
* `Planner.planConnected_eq_of_plansComponents` — the threshold has no influence on the outcome for
  a query that is planned as a whole.
-/

namespace FederatedJoin

open Interning (Requests)

/-! ## Pools that have ended -/

namespace Pool

variable {α : Type} {g : JoinGraph} {tasks : List (Interning α)} {schedule : List Nat}

/-- The computation at each place has ended with the result that it has on its own, once it has had
a turn for each of its requests, and not before. -/
theorem eq_done_iff (h : ∀ x ∈ tasks, ∃ keys a, Requests g x keys a) {i : Nat} {x : Interning α}
    (hx : tasks[i]? = some x) {a : α} :
    (run { tasks } schedule).tasks[i]? = some (.done a) ↔
      (x.requested ∅).length ≤ schedule.count i ∧ a = x.result := by
  refine (InStep.run_of_requests h schedule).eq_done_iff ?_
  rw [List.getElem?_map, hx, Option.map_some]

theorem length_tasks_run (h : ∀ x ∈ tasks, ∃ keys a, Requests g x keys a) :
    (run { tasks } schedule).tasks.length = tasks.length := by
  rw [(InStep.run_of_requests h schedule).length_tasks, List.length_map]

/-- Whatever a computation has ended with is the result that one of them has on its own. -/
theorem exists_result_eq (h : ∀ x ∈ tasks, ∃ keys a, Requests g x keys a) {a : α}
    (ended : .done a ∈ (run { tasks } schedule).tasks) : ∃ x ∈ tasks, x.result = a := by
  obtain ⟨i, hi⟩ := List.mem_iff_getElem?.1 ended
  have hlt : i < tasks.length := by
    rw [← length_tasks_run h]
    exact (List.getElem?_eq_some_iff.1 hi).1
  have hx := List.getElem?_eq_getElem hlt
  exact ⟨_, List.getElem_mem hlt, ((eq_done_iff h hx).1 hi).2.symm⟩

/-- Once all computations have ended, each has the result that it has on its own. -/
theorem map_result_eq (h : ∀ x ∈ tasks, ∃ keys a, Requests g x keys a) {results : List α}
    (ended : (run { tasks } schedule).tasks = results.map .done) :
    tasks.map Interning.result = results := by
  have hlength : tasks.length = results.length := by
    rw [← length_tasks_run h, ended, List.length_map]
  refine List.ext_getElem (by rw [List.length_map, hlength]) fun i hi hi' => ?_
  have hx : tasks[i]? = some tasks[i] := List.getElem?_eq_getElem _
  have hdone : (run { tasks } schedule).tasks[i]? = some (.done results[i]) := by
    rw [ended, List.getElem?_map, List.getElem?_eq_getElem hi', Option.map_some]
  rw [List.getElem_map, ((eq_done_iff h hx).1 hdone).2]

/-- Each computation has as many turns in a row as it needs on its own. -/
theorem exists_enough_turns (tasks : List (Interning α)) :
    ∃ schedule : List Nat, ∀ i x, tasks[i]? = some x →
      (x.requested ∅).length ≤ schedule.count i := by
  let turns := fun e : Interning α × Nat => List.replicate (e.1.requested ∅).length e.2
  refine ⟨tasks.zipIdx.flatMap turns, fun i x hx => ?_⟩
  have hmem : turns (x, i) ∈ tasks.zipIdx.map turns :=
    List.mem_map_of_mem (List.mem_zipIdx_iff_getElem?.2 hx)
  calc (x.requested ∅).length
    _ = (turns (x, i)).count i := List.count_replicate_self.symm
    _ ≤ (tasks.zipIdx.flatMap turns).count i := (List.sublist_flatten_of_mem hmem).count_le i

/-- There is an order of turns in which all computations come to an end. -/
theorem exists_schedule (h : ∀ x ∈ tasks, ∃ keys a, Requests g x keys a) :
    ∃ schedule, (run { tasks } schedule).tasks = (tasks.map Interning.result).map .done := by
  obtain ⟨schedule, enough⟩ := exists_enough_turns tasks
  refine ⟨schedule, List.ext_getElem? fun i => ?_⟩
  cases hx : tasks[i]? with
  | none =>
    have hlt := List.getElem?_eq_none_iff.1 hx
    rw [List.getElem?_eq_none (by rwa [length_tasks_run h]), List.getElem?_eq_none (by simpa)]
  | some x =>
    rw [(eq_done_iff h hx).2 ⟨enough i x hx, rfl⟩]
    simp [hx]

end Pool

/-! ## Collecting results -/

section Except
variable {α β ε : Type} {l : List (Except ε α)}

theorem bind_eq_ok_iff {x : Except ε α} {f : α → Except ε β} {b : β} :
    x >>= f = .ok b ↔ ∃ a, x = .ok a ∧ f a = .ok b := by
  cases x with
  | error e => simp [bind, Except.bind]
  | ok a => simp [bind, Except.bind]

theorem bind_eq_error_iff {x : Except ε α} {f : α → Except ε β} {e : ε} :
    x >>= f = .error e ↔ x = .error e ∨ ∃ a, x = .ok a ∧ f a = .error e := by
  cases x with
  | error e => simp [bind, Except.bind]
  | ok a => simp [bind, Except.bind]

theorem exists_eq_ok_of_mapM_id {m : List α} (h : l.mapM id = .ok m) :
    ∀ x ∈ l, ∃ a, x = .ok a := by
  induction l generalizing m with
  | nil => exact fun x hx => absurd hx List.not_mem_nil
  | cons x l ih =>
    rw [List.mapM_cons, bind_eq_ok_iff] at h
    obtain ⟨a, ha, h⟩ := h
    obtain ⟨m, hm, -⟩ := bind_eq_ok_iff.1 h
    exact List.forall_mem_cons.2 ⟨⟨a, ha⟩, ih hm⟩

theorem mem_of_mapM_id_eq_error {e : ε} (h : l.mapM id = .error e) : .error e ∈ l := by
  induction l with
  | nil => cases h
  | cons x l ih =>
    rw [List.mapM_cons, bind_eq_error_iff] at h
    rcases h with hx | ⟨a, -, h⟩
    · exact List.mem_cons.2 (.inl hx.symm)
    · rcases bind_eq_error_iff.1 h with hl | ⟨m, -, hm⟩
      · exact List.mem_cons_of_mem x (ih hl)
      · cases hm

end Except

namespace Planner

/-- The union of the plans that some components have, or else the first error. -/
def collect (first : Except ContractViolation Plan)
    (others : List (Except ContractViolation Plan)) : Except ContractViolation PlanOutcome := do
  let plan ← first
  let plans ← others.mapM id
  return ⟨.ofAlternatives plan plans, others.length + 1⟩

section Collect
variable {first : Except ContractViolation Plan} {others : List (Except ContractViolation Plan)}

theorem exists_eq_ok_of_collect {outcome : PlanOutcome} (h : collect first others = .ok outcome) :
    ∀ x ∈ first :: others, ∃ plan, x = .ok plan := by
  rw [collect, bind_eq_ok_iff] at h
  obtain ⟨plan, hfirst, h⟩ := h
  obtain ⟨plans, hothers, -⟩ := bind_eq_ok_iff.1 h
  exact List.forall_mem_cons.2 ⟨⟨plan, hfirst⟩, exists_eq_ok_of_mapM_id hothers⟩

theorem mem_of_collect_eq_error {e : ContractViolation} (h : collect first others = .error e) :
    .error e ∈ first :: others := by
  rw [collect, bind_eq_error_iff] at h
  rcases h with hfirst | ⟨plan, -, h⟩
  · exact List.mem_cons.2 (.inl hfirst.symm)
  · rcases bind_eq_error_iff.1 h with hothers | ⟨plans, -, h⟩
    · exact List.mem_cons_of_mem first (mem_of_mapM_id_eq_error hothers)
    · cases h

end Collect
end Planner

/-! ## Components one after the other -/

namespace JoinOrder

variable {g : JoinGraph} {α β : Type}

theorem exists_requests_bind {x : JoinPlanning α} {f : α → JoinPlanning β}
    {a : Except ContractViolation α} {b : α → Except ContractViolation β}
    (hx : ∃ keys, Requests g x.run keys a) (hf : ∀ c, ∃ keys, Requests g (f c).run keys (b c)) :
    ∃ keys, Requests g (x >>= f).run keys (a >>= b) := by
  obtain ⟨keys, hx⟩ := hx
  cases a with
  | error e =>
    rw [ExceptT.run_bind]
    exact ⟨_, hx.bind (.done _)⟩
  | ok c =>
    obtain ⟨keys', hf⟩ := hf c
    exact ⟨_, requests_bind hx hf⟩

theorem exists_requests_mapM {f : α → JoinPlanning β} {b : α → Except ContractViolation β}
    (h : ∀ a, ∃ keys, Requests g (f a).run keys (b a)) (l : List α) :
    ∃ keys, Requests g (l.mapM f).run keys (l.mapM b) := by
  induction l with
  | nil => exact ⟨[], .done _⟩
  | cons a l ih =>
    rw [List.mapM_cons, List.mapM_cons]
    refine exists_requests_bind (h a) fun c => ?_
    exact exists_requests_bind ih fun cs => ⟨[], .done _⟩

end JoinOrder

namespace Planner

variable {p : Planner} {g : JoinGraph} {first : JoinComponent} {others : List JoinComponent}
variable {outcome : PlanOutcome} {e : ContractViolation}

/-- The computations that plan some components. -/
def plannings (p : Planner) (g : JoinGraph) (components : List JoinComponent) :
    List (Interning (Except ContractViolation Plan)) :=
  components.map fun c => (p.joinOrder g c.nodes).run

theorem exists_requests_joinOrder (leftDeep : p.joinOrder = .leftDeep) (g : JoinGraph)
    (nodes : NodeSet) : ∃ keys a, Requests g (p.joinOrder g nodes).run keys a := by
  rw [leftDeep]
  exact JoinOrder.exists_requests_leftDeep g nodes

theorem exists_requests_plannings (leftDeep : p.joinOrder = .leftDeep) (g : JoinGraph)
    (components : List JoinComponent) :
    ∀ x ∈ p.plannings g components, ∃ keys a, Requests g x keys a := by
  intro x hx
  obtain ⟨c, -, rfl⟩ := List.mem_map.1 hx
  exact exists_requests_joinOrder leftDeep g c.nodes

/-- What the components before one have registered makes no difference to it. -/
theorem planComponents_eq (leftDeep : p.joinOrder = .leftDeep) (g : JoinGraph)
    (first : JoinComponent) (others : List JoinComponent) :
    p.planComponents g first others =
      collect (p.joinOrder g first.nodes).run.result
        ((p.plannings g others).map Interning.result) := by
  have alone : ∀ c : JoinComponent, ∃ keys,
      Requests g (p.joinOrder g c.nodes).run keys (p.joinOrder g c.nodes).run.result :=
    fun c => ⟨_, .of_exists (exists_requests_joinOrder leftDeep g c.nodes)⟩
  -- all components together request left-deep trees only, like each of them
  have planning := JoinOrder.exists_requests_bind (alone first) fun plan =>
    JoinOrder.exists_requests_bind (JoinOrder.exists_requests_mapM alone others) fun plans =>
      ⟨[], .done (Except.ok (PlanOutcome.mk (.ofAlternatives plan plans) (others.length + 1)))⟩
  obtain ⟨keys, h⟩ := planning
  rw [collect, plannings, List.map_map, List.mapM_map, List.length_map]
  exact h.result_eq

/-- Components whose computations have ended, in whichever order they took turns, have the outcome
together that they have one after the other. -/
theorem planComponents_eq_of_ended (leftDeep : p.joinOrder = .leftDeep) {schedule : List Nat}
    {result : Except ContractViolation Plan} {results : List (Except ContractViolation Plan)}
    (ended : (Pool.run { tasks := p.plannings g (first :: others) } schedule).tasks =
      (result :: results).map .done) :
    p.planComponents g first others = collect result results := by
  have hresults := Pool.map_result_eq (exists_requests_plannings leftDeep g _) ended
  obtain ⟨rfl, rfl⟩ := List.cons.inj hresults
  exact planComponents_eq leftDeep g first others

/-! ## Components side by side -/

/-- The outcome that is gathered from the computations of some components. There is a plan once all
have ended with one. There is an error once any has ended with an error, and the others are not
waited for then. -/
def Gathers (tasks : List (Interning (Except ContractViolation Plan))) :
    Except ContractViolation PlanOutcome → Prop
  | .ok outcome => ∃ first others, tasks = (first :: others).map .done ∧
      collect first others = .ok outcome
  | .error e => .done (.error e) ∈ tasks

/-- What planning one or more components may yield. Above the threshold they are planned side by
side, and take turns in any order. Otherwise they are planned one after the other. -/
def PlansComponents (p : Planner) (g : JoinGraph) (first : JoinComponent)
    (others : List JoinComponent) (result : Except ContractViolation PlanOutcome) : Prop :=
  if p.config.parallelThreshold < others.length + 1 then
    ∃ schedule,
      Gathers (Pool.run { tasks := p.plannings g (first :: others) } schedule).tasks result
  else result = p.planComponents g first others

/-- Above the threshold, there may be the error of any component that fails on its own. -/
theorem plansComponents_error_iff (leftDeep : p.joinOrder = .leftDeep)
    (many : p.config.parallelThreshold < others.length + 1) :
    p.PlansComponents g first others (.error e) ↔
      .error e ∈ (p.plannings g (first :: others)).map Interning.result := by
  have requests := exists_requests_plannings leftDeep g (first :: others)
  rw [PlansComponents, if_pos many, List.mem_map]
  constructor
  · rintro ⟨schedule, failed⟩
    exact Pool.exists_result_eq requests failed
  · rintro ⟨x, hx, hresult⟩
    obtain ⟨schedule, ended⟩ := Pool.exists_schedule requests
    refine ⟨schedule, ?_⟩
    rw [ended, Gathers, ← hresult]
    exact List.mem_map_of_mem (List.mem_map_of_mem hx)

/-- The outcome of planning one after the other is possible, whatever the threshold. -/
theorem plansComponents_planComponents (leftDeep : p.joinOrder = .leftDeep) :
    p.PlansComponents g first others (p.planComponents g first others) := by
  by_cases many : p.config.parallelThreshold < others.length + 1
  · have hplan := planComponents_eq leftDeep g first others
    cases h : p.planComponents g first others with
    | ok outcome =>
      obtain ⟨schedule, ended⟩ :=
        Pool.exists_schedule (exists_requests_plannings leftDeep g (first :: others))
      rw [PlansComponents, if_pos many]
      exact ⟨schedule, _, _, ended, hplan.symm.trans h⟩
    | error e =>
      exact (plansComponents_error_iff leftDeep many).2
        (mem_of_collect_eq_error (hplan.symm.trans h))
  · rw [PlansComponents, if_neg many]

/-- The threshold has no influence on a plan. -/
theorem plansComponents_ok_iff (leftDeep : p.joinOrder = .leftDeep) :
    p.PlansComponents g first others (.ok outcome) ↔
      p.planComponents g first others = .ok outcome := by
  constructor
  · intro h
    unfold PlansComponents at h
    split at h
    · obtain ⟨schedule, result, results, ended, houtcome⟩ := h
      exact (planComponents_eq_of_ended leftDeep ended).trans houtcome
    · exact h.symm
  · intro h
    rw [← h]
    exact plansComponents_planComponents leftDeep

/-- The threshold has no influence on whether there is a plan. -/
theorem exists_plansComponents_error_iff (leftDeep : p.joinOrder = .leftDeep) :
    (∃ e, p.PlansComponents g first others (.error e)) ↔
      ∃ e, p.planComponents g first others = .error e := by
  constructor
  · rintro ⟨e, h⟩
    by_cases many : p.config.parallelThreshold < others.length + 1
    · have hmem := (plansComponents_error_iff leftDeep many).1 h
      cases hplan : p.planComponents g first others with
      | error e => exact ⟨e, rfl⟩
      | ok outcome =>
        rw [planComponents_eq leftDeep] at hplan
        obtain ⟨plan, hfailed⟩ := exists_eq_ok_of_collect hplan _ hmem
        cases hfailed
    · rw [PlansComponents, if_neg many] at h
      exact ⟨e, h.symm⟩
  · rintro ⟨e, h⟩
    exact ⟨e, h ▸ plansComponents_planComponents leftDeep⟩

/-- Components that answer a query have one outcome only. -/
theorem plansComponents_iff_of_answers (leftDeep : p.joinOrder = .leftDeep)
    (answers : ∀ c ∈ first :: others, ∃ query, g.Answers query c.nodes)
    {result : Except ContractViolation PlanOutcome} :
    p.PlansComponents g first others result ↔ result = p.planComponents g first others := by
  obtain ⟨tree, trees, hplan, -⟩ := exists_planComponents leftDeep first others answers
  constructor
  · intro h
    cases result with
    | ok outcome => exact ((plansComponents_ok_iff leftDeep).1 h).symm
    | error e =>
      obtain ⟨e', herror⟩ := (exists_plansComponents_error_iff leftDeep).1 ⟨e, h⟩
      rw [hplan] at herror
      cases herror
  · rintro rfl
    exact plansComponents_planComponents leftDeep

/-- The outcome for a query that is planned as a whole is the one that its components have on either
side of the threshold, in whichever order they take turns. -/
theorem planConnected_eq_of_plansComponents (identity : p.aggregator = .identity)
    (leftDeep : p.joinOrder = .leftDeep) {fragments : List Fragment} {part : TripleSet}
    (inside : ∀ f ∈ fragments, f.triples ⊆ part)
    (hkept : p.keptComponents fragments part = first :: others)
    {result : Except ContractViolation PlanOutcome}
    (h : p.PlansComponents (p.partGraph fragments part) first others result) :
    p.planConnected part fragments = result.mapError .contract := by
  have answers : ∀ c ∈ first :: others, ∃ query,
      (p.partGraph fragments part).Answers query c.nodes := fun c hc =>
    ⟨part, (answers_of_mem_keptComponents (hkept ▸ hc)).1⟩
  rw [planConnected_of_keptComponents_eq_cons identity inside hkept,
    (plansComponents_iff_of_answers leftDeep answers).1 h]

end Planner
end FederatedJoin
