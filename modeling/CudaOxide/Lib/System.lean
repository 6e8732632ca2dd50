import Mathlib

namespace CudaOxide.Lib

/-!
# Transition systems

* `System` — the initial states and the steps of a system whose parts run in any order.
* `System.Reachable` — the states a run can pass through.
* `System.Reachable.invariant` — what holds initially and is kept by every step holds throughout.
-/

/-- Initial states, and what may happen next in a state. -/
structure System (σ : Type*) where
  Init : σ → Prop
  Step : σ → σ → Prop

namespace System

variable {σ : Type*} {S : System σ} {s s' : σ}

/-- The states that a run passes through. -/
inductive Reachable (S : System σ) : σ → Prop
  | init {s : σ} (h : S.Init s) : Reachable S s
  | step {s s' : σ} (h : Reachable S s) (hstep : S.Step s s') : Reachable S s'

/-- An invariant holds in every reachable state. -/
theorem Reachable.invariant {I : σ → Prop} (hinit : ∀ s, S.Init s → I s)
    (hstep : ∀ s s', I s → S.Step s s' → I s') (h : S.Reachable s) : I s := by
  induction h with
  | init h => exact hinit _ h
  | step _ h ih => exact hstep _ _ ih h

end System

end CudaOxide.Lib
