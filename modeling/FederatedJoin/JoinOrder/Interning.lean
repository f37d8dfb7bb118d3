import FederatedJoin.Error
import FederatedJoin.Plan.Basic
import Std.Data.HashMap

/-!
# Shared sub-plans

Plans for different join components of one graph share their common sub-plans. A sub-plan is
registered under the sequence of nodes that it joins, and the first plan registered for a sequence
stays.

## Main definitions

* `Interner` — the plans that are registered, and `Interner.canonicalize`.
* `Interning` — a computation that requests plans from an interner, one at a time.
* `JoinPlanning` — such a computation that may break off with an error.
-/

namespace FederatedJoin

/-- The plans that are registered for sequences of nodes. -/
structure Interner where
  plans : Std.HashMap (List Nat) Plan := ∅

namespace Interner

instance : EmptyCollection Interner := ⟨{}⟩

/-- The number of registered plans. -/
def size (t : Interner) : Nat := t.plans.size

/-- The plan registered for a sequence of nodes. -/
def plan? (t : Interner) (key : List Nat) : Option Plan := t.plans[key]?

/-- The plan registered for a sequence of nodes. If there is none, `fresh` is registered. -/
def canonicalize (t : Interner) (key : List Nat) (fresh : Plan) : Plan × Interner :=
  match t.plan? key with
  | some plan => (plan, t)
  | none => (fresh, ⟨t.plans.insert key fresh⟩)

theorem plan?_canonicalize (t : Interner) (key : List Nat) (fresh : Plan) :
    (t.canonicalize key fresh).2.plan? key = some (t.canonicalize key fresh).1 := by
  unfold canonicalize
  split
  · next h => exact h
  · simp [plan?]

/-- A registered plan stays. -/
theorem plan?_canonicalize_of_eq_some {t : Interner} {key other : List Nat} {fresh plan : Plan}
    (h : t.plan? other = some plan) : (t.canonicalize key fresh).2.plan? other = some plan := by
  unfold canonicalize
  split
  · exact h
  · next hkey =>
    have hne : key ≠ other := fun e => by rw [e, h] at hkey; cases hkey
    simpa [plan?, Std.HashMap.getElem?_insert, hne] using h

end Interner

/-- A computation that requests plans from an interner, one at a time. Several computations can
take turns on one interner. -/
inductive Interning (α : Type) where
  | done (result : α)
  | request (key : List Nat) (fresh : Plan) (resume : Plan → Interning α)

namespace Interning

variable {α β : Type}

/-- Goes on with another computation. -/
def bind : Interning α → (α → Interning β) → Interning β
  | done result, f => f result
  | request key fresh resume, f => request key fresh fun plan => (resume plan).bind f

instance : Monad Interning where
  pure := done
  bind := bind

/-- The plan for a sequence of nodes, which is `fresh` if none is registered. -/
def canonicalize (key : List Nat) (fresh : Plan) : Interning Plan := request key fresh done

/-- Runs a computation to its end on an interner. -/
def run : Interning α → Interner → α × Interner
  | done result, t => (result, t)
  | request key fresh resume, t =>
    let (plan, t) := t.canonicalize key fresh
    (resume plan).run t

theorem run_bind (x : Interning α) (f : α → Interning β) (t : Interner) :
    (x >>= f).run t = (f (x.run t).1).run (x.run t).2 := by
  induction x generalizing t with
  | done a => rfl
  | request key fresh resume ih => exact ih _ _

private theorem bind_done (x : Interning α) : x >>= done = x := by
  induction x with
  | done a => rfl
  | request key fresh resume ih => exact congrArg (request key fresh) (funext ih)

private theorem bind_bind {γ : Type} (x : Interning α) (f : α → Interning β)
    (h : β → Interning γ) : x >>= f >>= h = x >>= fun a => f a >>= h := by
  induction x with
  | done a => rfl
  | request key fresh resume ih => exact congrArg (request key fresh) (funext ih)

instance : LawfulMonad Interning :=
  .mk' Interning bind_done (fun _ _ => rfl) bind_bind

end Interning

/-- A computation that requests plans and may break off. What it registered before stays. -/
abbrev JoinPlanning := ExceptT ContractViolation Interning

end FederatedJoin
