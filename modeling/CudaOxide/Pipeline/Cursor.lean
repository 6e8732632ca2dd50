import CudaOxide.Lib.PhaseBarrier

/-!
# Cursors on a ring of pipeline stages

A role of a pipeline walks over the stages with a slot and one phase bit (`PipelineState` of
`pipeline/mod.rs`, `RingCursor` of `pipeline/sm100.rs`), or derives both from a ticket that counts
its stages (`TwoCtaRing`, `SingleCtaRing`).

* `PipelineState.advance`, `RingCursor.advance` — the two cursors; `emitAdvance` is the code that
  the compiler generates for the first.
* `TwoCtaRing.slot`, `TwoCtaRing.fullPhase`, `TwoCtaRing.emptyPhase` — the ticket arithmetic.
* `PipelineState.iterate_advance` — where a cursor is after `k` stages.
* `cursors_follow_tickets` — cursors and tickets agree, past the range of a `u32` exactly where two
  rounds of the ring divide it.
-/

namespace CudaOxide.Pipeline

open Lib

/-- The two roles. -/
inductive Role where
  | producer
  | consumer
  deriving DecidableEq, Repr

/-- `CursorRole::INITIAL_PHASE` -/
def Role.initialPhase : Role → ℕ
  | .producer => 1
  | .consumer => 0

/-! ### The cursors -/

/-- `PipelineState`; the role and the number of stages are parameters of the source's type. -/
@[ext]
structure PipelineState where
  slot : ℕ
  phase : ℕ
  deriving DecidableEq, Repr

namespace PipelineState

/-- `pipeline_state_new_producer`, `pipeline_state_new_consumer` -/
def new (role : Role) : PipelineState := ⟨0, role.initialPhase⟩

/-- `pipeline_state_advance`: the slot is incremented with `wrapping_add`. -/
def advance (stages : ℕ) (state : PipelineState) : PipelineState :=
  let slot := (state.slot + 1) % 2 ^ 32
  if slot = stages then ⟨0, state.phase ^^^ 1⟩ else ⟨slot, state.phase⟩

end PipelineState

/-- `emit_pipeline_state_advance`: increment, comparison, `select`, and the phase xor the extended
comparison. -/
def emitAdvance (stages : ℕ) (state : PipelineState) : PipelineState :=
  let incremented := (state.slot + 1) % 2 ^ 32
  let wraps := incremented = stages % 2 ^ 32
  ⟨if wraps then 0 else incremented, state.phase ^^^ if wraps then 1 else 0⟩

/-- `RingCursor` -/
@[ext]
structure RingCursor where
  index : ℕ
  phase : ℕ
  deriving DecidableEq, Repr

namespace RingCursor

/-- A new cursor of a role. -/
def new (role : Role) : RingCursor := ⟨0, role.initialPhase⟩

/-- `RingCursor::advance`: the sum cannot overflow, since the index is below the `u32` of stages. -/
def advance (stages : ℕ) (cursor : RingCursor) : RingCursor :=
  let index := cursor.index + 1
  if index = stages then ⟨0, cursor.phase ^^^ 1⟩ else ⟨index, cursor.phase⟩

end RingCursor

/-! ### Tickets -/

namespace TwoCtaRing

/-- The slot of a ticket. -/
def slot (stages ticket : ℕ) : ℕ := ticket % stages

/-- The phase that says that a ticket was filled. -/
def fullPhase (stages ticket : ℕ) : ℕ := ticket / stages &&& 1

/-- The phase that says that a ticket was emptied. -/
def emptyPhase (stages ticket : ℕ) : ℕ := fullPhase stages ticket ^^^ 1

end TwoCtaRing

/-! ### Where a cursor is -/

variable {stages k : ℕ}

/-- Flipping a parity bit. -/
theorem parity_xor_one (t : ℕ) : t % 2 ^^^ 1 = (t + 1) % 2 := by
  rcases Nat.mod_two_eq_zero_or_one t with h | h <;> rw [Nat.add_mod, h]
  · rfl
  · rfl

/-- The emitted advance is `advance`. -/
theorem emitAdvance_eq (h : stages < 2 ^ 32) (state : PipelineState) :
    emitAdvance stages state = state.advance stages := by
  unfold emitAdvance PipelineState.advance
  rw [Nat.mod_eq_of_lt h]
  simp only
  split <;> simp

/-- Within the range of a `u32` the two cursors move alike. -/
theorem RingCursor.advance_eq (h : stages < 2 ^ 32) {state : PipelineState}
    (hslot : state.slot < stages) :
    RingCursor.advance stages ⟨state.slot, state.phase⟩ =
      ⟨(state.advance stages).slot, (state.advance stages).phase⟩ := by
  unfold RingCursor.advance PipelineState.advance
  rw [Nat.mod_eq_of_lt (show state.slot + 1 < 2 ^ 32 by omega)]
  simp only
  split <;> rfl

/-- The cursor of ticket `k`, `offset` half rounds ahead. -/
def PipelineState.at (stages offset k : ℕ) : PipelineState :=
  ⟨k % stages, (k / stages + offset) % 2⟩

/-- Advancing goes to the next ticket. -/
theorem PipelineState.advance_at (hpos : 0 < stages) (h : stages < 2 ^ 32) (offset k : ℕ) :
    (PipelineState.at stages offset k).advance stages = PipelineState.at stages offset (k + 1) := by
  have hslot := Nat.mod_lt k hpos
  unfold PipelineState.advance PipelineState.at
  simp only
  rw [Nat.mod_eq_of_lt (show k % stages + 1 < 2 ^ 32 by omega)]
  -- the slot wraps exactly at the last stage, and with it the parity
  by_cases hwrap : k % stages + 1 = stages
  · have hdvd : stages ∣ k + 1 := by
      refine ⟨k / stages + 1, ?_⟩
      have hk := Nat.div_add_mod k stages
      rw [Nat.mul_succ]
      omega
    rw [if_pos hwrap, parity_xor_one, Nat.succ_div_of_dvd hdvd, Nat.mod_eq_zero_of_dvd hdvd]
    congr 2
    omega
  · have hndvd : ¬stages ∣ k + 1 := by
      intro hdvd
      have hmod := Nat.mod_eq_zero_of_dvd hdvd
      rw [← Nat.mod_add_mod, Nat.mod_eq_of_lt (by omega)] at hmod
      omega
    rw [if_neg hwrap, Nat.succ_div_of_not_dvd hndvd, ← Nat.mod_add_mod k stages 1,
      Nat.mod_eq_of_lt (show k % stages + 1 < stages by omega)]

/-- After `k` stages a cursor is at slot `k % stages`, and has turned its phase once a round. -/
theorem PipelineState.iterate_advance (hpos : 0 < stages) (h : stages < 2 ^ 32)
    (role : Role) (k : ℕ) :
    (PipelineState.advance stages)^[k] (.new role) =
      PipelineState.at stages role.initialPhase k := by
  induction k with
  | zero => cases role <;> simp [PipelineState.new, PipelineState.at, Role.initialPhase]
  | succ k ih => rw [Function.iterate_succ_apply', ih, advance_at hpos h]

/-- The cursor after `k` advances. -/
theorem RingCursor.iterate_advance (hpos : 0 < stages) (h : stages < 2 ^ 32) (role : Role) (k : ℕ) :
    (RingCursor.advance stages)^[k] (.new role) =
      ⟨k % stages, (k / stages + role.initialPhase) % 2⟩ := by
  induction k with
  | zero => cases role <;> simp [RingCursor.new, Role.initialPhase]
  | succ k ih =>
    have hstep := @RingCursor.advance_eq stages h (.at stages role.initialPhase k)
      (Nat.mod_lt k hpos)
    rw [PipelineState.advance_at hpos h] at hstep
    rw [Function.iterate_succ_apply', ih]
    exact hstep

/-! ### Cursors and tickets -/

/-- The full phase is the consumer's parity. -/
theorem TwoCtaRing.fullPhase_eq (stages ticket : ℕ) :
    fullPhase stages ticket = (ticket / stages + Role.initialPhase .consumer) % 2 :=
  Nat.and_one_is_mod _

/-- The empty phase is the producer's parity. -/
theorem TwoCtaRing.emptyPhase_eq (stages ticket : ℕ) :
    emptyPhase stages ticket = (ticket / stages + Role.initialPhase .producer) % 2 := by
  rw [emptyPhase, fullPhase_eq]
  exact parity_xor_one _

/-- The phase that a role waits for by ticket. -/
def TwoCtaRing.phase (stages : ℕ) : Role → ℕ → ℕ
  | .producer => emptyPhase stages
  | .consumer => fullPhase stages

/-- The phase of a role is the parity of its turn. -/
theorem TwoCtaRing.phase_eq (stages : ℕ) (role : Role) (ticket : ℕ) :
    phase stages role ticket = (ticket / stages + role.initialPhase) % 2 := by
  cases role
  · exact emptyPhase_eq stages ticket
  · exact fullPhase_eq stages ticket

/-- The ticket is a `u32` that counts without end: it wraps. -/
def wrappedTicket (k : ℕ) : ℕ := k % 2 ^ 32

/-- Two rounds of the ring divide the range of the ticket. -/
theorem slot_phase_wrapped (hdvd : 2 * stages ∣ 2 ^ 32) (offset k : ℕ) :
    PipelineState.at stages offset (wrappedTicket k) = PipelineState.at stages offset k := by
  obtain ⟨m, hm⟩ := hdvd
  have hk := Nat.div_add_mod k (2 ^ 32)
  have hsplit : k = wrappedTicket k + stages * (2 * (m * (k / 2 ^ 32))) := by
    unfold wrappedTicket
    calc k = k % 2 ^ 32 + 2 ^ 32 * (k / 2 ^ 32) := by omega
      _ = k % 2 ^ 32 + 2 * stages * m * (k / 2 ^ 32) := by rw [← hm]
      _ = _ := by ring
  rcases Nat.eq_zero_or_pos stages with rfl | hpos
  · simp at hm
  unfold PipelineState.at
  conv_rhs => rw [hsplit]
  rw [Nat.add_mul_mod_self_left, Nat.add_mul_div_left _ _ hpos]
  congr 1
  omega

/-- **Cursors and tickets.**  Both cursors follow the ticket arithmetic as long as the ticket does
not wrap; they follow a ticket that wraps exactly where two rounds of the ring divide its range.
The code that the compiler emits advances a state as the library does. -/
theorem cursors_follow_tickets (hpos : 0 < stages) (h : stages < 2 ^ 32) (role : Role) :
    (∀ k, (RingCursor.advance stages)^[k] (.new role) =
        ⟨((PipelineState.advance stages)^[k] (.new role)).slot,
          ((PipelineState.advance stages)^[k] (.new role)).phase⟩) ∧
      (∀ k < 2 ^ 32, (RingCursor.advance stages)^[k] (.new role) =
        ⟨TwoCtaRing.slot stages (wrappedTicket k),
          TwoCtaRing.phase stages role (wrappedTicket k)⟩) ∧
      ((∀ k, (RingCursor.advance stages)^[k] (.new role) =
          ⟨TwoCtaRing.slot stages (wrappedTicket k),
            TwoCtaRing.phase stages role (wrappedTicket k)⟩) ↔ 2 * stages ∣ 2 ^ 32) ∧
      emitAdvance stages = PipelineState.advance stages := by
  simp only [RingCursor.iterate_advance hpos h, PipelineState.iterate_advance hpos h,
    TwoCtaRing.phase_eq, TwoCtaRing.slot, RingCursor.mk.injEq]
  refine ⟨fun k => ⟨rfl, rfl⟩, fun k hk => ?_, ⟨fun hall => ?_, fun hdvd k => ?_⟩,
    funext (emitAdvance_eq h)⟩
  -- below 2 ^ 32 no ticket wraps
  · rw [wrappedTicket, Nat.mod_eq_of_lt hk]
    exact ⟨rfl, rfl⟩
  · -- the first ticket that wraps is ticket zero again
    obtain ⟨hslot, hphase⟩ := hall (2 ^ 32)
    have hzero : wrappedTicket (2 ^ 32) = 0 := Nat.mod_self _
    rw [hzero, Nat.zero_mod] at hslot
    rw [hzero, Nat.zero_div] at hphase
    obtain ⟨q, hq⟩ := Nat.dvd_of_mod_eq_zero hslot
    rw [hq, Nat.mul_div_cancel_left _ hpos] at hphase
    obtain ⟨r, hr⟩ : 2 ∣ q := (Nat.dvd_iff_mod_eq_zero).mpr (by omega)
    exact ⟨r, by rw [hq, hr]; ring⟩
  · have heq := slot_phase_wrapped hdvd role.initialPhase k
    exact ⟨(congrArg PipelineState.slot heq).symm, (congrArg PipelineState.phase heq).symm⟩

/-- A ring of two stages may run for ever, one of three stages not. -/
theorem cursors_follow_tickets_two :
    (0 < 2 ∧ 2 < 2 ^ 32) ∧ ∀ k, (RingCursor.advance 2)^[k] (.new .producer) =
      ⟨TwoCtaRing.slot 2 (wrappedTicket k), TwoCtaRing.phase 2 .producer (wrappedTicket k)⟩ :=
  ⟨by decide, (@cursors_follow_tickets 2 (by decide) (by decide) .producer).2.2.1.mpr (by decide)⟩

end CudaOxide.Pipeline
