import Mathlib

/-!
# Runs that end

In some systems every step is one of a fixed number of steps that are to come.  If a state that is
not final always has a next step, then all runs come to a final state after that many steps, in
whatever order the parts of the system move.

* `Steps` — runs with their length.
* `Countdown` — the number of steps to come.
* `Countdown.complete` — every run ends after exactly that number.
-/

namespace CudaOxide.Lib

variable {σ : Type*} {Step : σ → σ → Prop} {Inv Final : σ → Prop} {remaining : σ → ℕ} {n : ℕ}
  {s t : σ}

/-- `n` steps from one state to another. -/
inductive Steps (Step : σ → σ → Prop) : ℕ → σ → σ → Prop
  | refl {s : σ} : Steps Step 0 s s
  | step {n : ℕ} {s t u : σ} (h : Steps Step n s t) (hstep : Step t u) : Steps Step (n + 1) s u

/-- Every step is one of those to come, and there is one in every state that is not final. -/
structure Countdown (Step : σ → σ → Prop) (Inv Final : σ → Prop) (remaining : σ → ℕ) : Prop where
  keeps : ∀ s s', Inv s → Step s s' → Inv s'
  step : ∀ s s', Inv s → Step s s' → remaining s' + 1 = remaining s
  final : ∀ s, Inv s → Final s → remaining s = 0
  progress : ∀ s, Inv s → Final s ∨ ∃ s', Step s s'

namespace Countdown

/-- A state is final exactly when it has no next step. -/
theorem final_iff (C : Countdown Step Inv Final remaining) (h : Inv s) :
    Final s ↔ ∀ s', ¬Step s s' := by
  constructor
  · intro hfinal s' hstep
    have hone := C.step s s' h hstep
    rw [C.final s h hfinal] at hone
    exact Nat.succ_ne_zero _ hone
  · intro hstuck
    rcases C.progress s h with hfinal | ⟨s', hstep⟩
    · exact hfinal
    · exact absurd hstep (hstuck s')

/-- After `n` steps, `n` of them are not to come any more. -/
theorem run (C : Countdown Step Inv Final remaining) (h : Inv s) (hrun : Steps Step n s t) :
    Inv t ∧ remaining t + n = remaining s := by
  induction hrun with
  | refl => exact ⟨h, rfl⟩
  | step _ hstep ih =>
    obtain ⟨hinv, hremaining⟩ := ih h
    have hone := C.step _ _ hinv hstep
    exact ⟨C.keeps _ _ hinv hstep, by omega⟩

/-- **Every run ends**: it has at most the steps to come, is stuck only when it has made all of
them, and then the state is final. -/
theorem complete (C : Countdown Step Inv Final remaining) (h : Inv s) (hrun : Steps Step n s t) :
    n ≤ remaining s ∧ ((∀ t', ¬Step t t') ↔ n = remaining s) ∧ (n = remaining s → Final t) := by
  obtain ⟨hinv, hremaining⟩ := C.run h hrun
  have hend : n = remaining s → Final t := by
    intro hn
    refine (C.final_iff hinv).mpr fun t' hstep => ?_
    have hone := C.step t t' hinv hstep
    omega
  refine ⟨by omega, ⟨fun hstuck => ?_, fun hn => (C.final_iff hinv).mp (hend hn)⟩, hend⟩
  have hzero := C.final t hinv ((C.final_iff hinv).mpr hstuck)
  omega

end Countdown

end CudaOxide.Lib
