import Mathlib

/-!
# Phase barriers and rings of them

A barrier that counts arrivals and transaction bytes, and starts its next phase when none is
missing; a waiter names a phase by its parity only.  A ring of such barriers is used by tickets:
ticket `k` has slot `k % n`, and is turn `k / n` of that slot.

* `PhaseBarrier` and its operations.
* `PhaseBarrier.tryWaitParity_iff` — one bit is enough for a waiter that is at most one phase away.
* `PhaseBarrier.Arrived` — the phase and the missing arrivals are functions of all arrivals so far.
* `PhaseBarrier.Transacted` — the phase lags behind exactly while announced bytes are missing.
* `turns` — how many of the first tickets have a given slot.
-/

namespace CudaOxide.Lib

/-! ### The barrier -/

/-- A barrier: `pending` arrivals and `tx` bytes are missing from the phase that runs. -/
@[ext]
structure PhaseBarrier where
  count : ℕ
  phase : ℕ
  pending : ℕ
  tx : ℤ

namespace PhaseBarrier

variable {b : PhaseBarrier} {a t : ℕ}

/-- A barrier for `count` arrivals in each phase. -/
def init (count : ℕ) : PhaseBarrier := ⟨count, 0, count, 0⟩

/-- The phase ends when nothing is missing. -/
def settle (b : PhaseBarrier) : PhaseBarrier :=
  if b.pending = 0 ∧ b.tx = 0 then { b with phase := b.phase + 1, pending := b.count } else b

/-- One arrival fewer is pending. -/
def arrive (b : PhaseBarrier) : PhaseBarrier := settle { b with pending := b.pending - 1 }

/-- One arrival that also announces `bytes` bytes. -/
def arriveExpectTx (b : PhaseBarrier) (bytes : ℕ) : PhaseBarrier :=
  arrive { b with tx := b.tx + bytes }

/-- `bytes` announced bytes have come. -/
def completeTx (b : PhaseBarrier) (bytes : ℕ) : PhaseBarrier := settle { b with tx := b.tx - bytes }

/-- The phase of that parity is over: it is not the phase that runs. -/
def tryWaitParity (b : PhaseBarrier) (parity : ℕ) : Bool := b.phase % 2 ≠ parity

/-- An arrival does not change how many a phase waits for. -/
@[simp] theorem arrive_count : b.arrive.count = b.count := by
  unfold arrive settle
  split <;> rfl

@[simp] theorem arriveExpectTx_count {bytes : ℕ} : (b.arriveExpectTx bytes).count = b.count :=
  arrive_count

@[simp] theorem completeTx_count {bytes : ℕ} : (b.completeTx bytes).count = b.count := by
  unfold completeTx settle
  split <;> rfl

/-- Settling never goes back a phase. -/
theorem phase_le_settle : b.phase ≤ b.settle.phase := by
  unfold settle
  split
  · exact Nat.le_succ _
  · exact le_rfl

/-- Nor does an arrival. -/
theorem phase_le_arrive : b.phase ≤ b.arrive.phase :=
  phase_le_settle (b := { b with pending := b.pending - 1 })

/-- Nor does one that expects bytes. -/
theorem phase_le_arriveExpectTx {bytes : ℕ} : b.phase ≤ (b.arriveExpectTx bytes).phase :=
  phase_le_arrive (b := { b with tx := b.tx + bytes })

/-- Nor do bytes that arrive. -/
theorem phase_le_completeTx {bytes : ℕ} : b.phase ≤ (b.completeTx bytes).phase :=
  phase_le_settle (b := { b with tx := b.tx - bytes })

/-- **One bit is enough.**  Where the phase `t` is running or has just ended, its parity tells
which. -/
theorem tryWaitParity_iff (hlo : t ≤ b.phase) (hhi : b.phase ≤ t + 1) :
    b.tryWaitParity (t % 2) ↔ b.phase = t + 1 := by
  simp only [tryWaitParity, ne_eq, decide_eq_true_eq]
  omega

/-- The other parity names the phase before. -/
theorem tryWaitParity_prev_iff (hlo : t ≤ b.phase + 1) (hhi : b.phase ≤ t) :
    b.tryWaitParity ((t + 1) % 2) ↔ b.phase = t := by
  simp only [tryWaitParity, ne_eq, decide_eq_true_eq]
  omega

/-- `a` arrivals have been made in all, and no bytes were announced. -/
structure Arrived (b : PhaseBarrier) (a : ℕ) : Prop where
  pending_pos : 0 < b.pending
  pending_le : b.pending ≤ b.count
  tx : b.tx = 0
  total : b.phase * b.count + (b.count - b.pending) = a

/-- A fresh barrier has seen no arrival. -/
theorem arrived_init {count : ℕ} (h : 0 < count) : (init count).Arrived 0 where
  pending_pos := h
  pending_le := le_rfl
  tx := rfl
  total := by simp [init]

/-- One more arrival. -/
theorem Arrived.arrive (h : b.Arrived a) : b.arrive.Arrived (a + 1) := by
  obtain ⟨hpos, hle, htx, htotal⟩ := h
  unfold PhaseBarrier.arrive settle
  by_cases hlast : b.pending = 1
  · rw [if_pos ⟨by simp [hlast], htx⟩]
    refine ⟨by show 0 < b.count; omega, le_rfl, htx, ?_⟩
    show (b.phase + 1) * b.count + (b.count - b.count) = a + 1
    rw [Nat.succ_mul]
    omega
  · rw [if_neg fun hdone => hlast (by have := hdone.1; simp only at this; omega)]
    refine ⟨by show 0 < b.pending - 1; omega, by show b.pending - 1 ≤ b.count; omega, htx, ?_⟩
    show b.phase * b.count + (b.count - (b.pending - 1)) = a + 1
    omega

/-- The phase is the number of complete rounds of arrivals. -/
theorem Arrived.phase_eq (h : b.Arrived a) : b.phase = a / b.count := by
  obtain ⟨hpos, hle, -, htotal⟩ := h
  rw [← htotal, Nat.mul_comm, Nat.mul_add_div (by omega), Nat.div_eq_of_lt (by omega), add_zero]

/-- `t` transactions of the bytes `bytes j` were announced by single arrivals; the parts `missing`
of the last one have not come yet. -/
structure Transacted (b : PhaseBarrier) (bytes : ℕ → ℕ) (t : ℕ) (missing : Finset ℕ) : Prop where
  count : b.count = 1
  tx : b.tx = ∑ j ∈ missing, (bytes j : ℤ)
  phase : if missing = ∅ then b.phase = t ∧ b.pending = 1 else b.phase + 1 = t ∧ b.pending = 0

section Transacted

variable {bytes : ℕ → ℕ} {missing all : Finset ℕ}

/-- A fresh barrier has seen no transaction. -/
theorem transacted_init : (init 1).Transacted bytes 0 ∅ where
  count := rfl
  tx := rfl
  phase := by simp [init]

/-- A phase ends for each transaction, at most. -/
theorem Transacted.phase_le (h : b.Transacted bytes t missing) : b.phase ≤ t := by
  have hphase := h.phase
  split at hphase <;> omega

/-- The phase lags behind exactly while something is missing. -/
theorem Transacted.phase_eq_iff (h : b.Transacted bytes t missing) :
    b.phase = t ↔ missing = ∅ := by
  have hphase := h.phase
  split at hphase <;> rename_i hmissing <;> simp only [hmissing, iff_true, iff_false] <;> omega

/-- The transactions of a phase are expected. -/
theorem Transacted.arriveExpectTx (h : b.Transacted bytes t ∅) (hall : 0 < ∑ j ∈ all, bytes j) :
    (b.arriveExpectTx (∑ j ∈ all, bytes j)).Transacted bytes (t + 1) all := by
  obtain ⟨hcount, htx, hphase⟩ := h
  rw [if_pos rfl] at hphase
  have hne : all ≠ ∅ := by
    rintro rfl
    exact absurd hall (by simp)
  have htx0 : b.tx = 0 := htx
  unfold PhaseBarrier.arriveExpectTx PhaseBarrier.arrive settle
  rw [if_neg fun hdone => by have := hdone.2; simp only at this; omega]
  refine ⟨hcount, ?_, ?_⟩
  · show b.tx + ((∑ j ∈ all, bytes j : ℕ) : ℤ) = _
    rw [htx0, zero_add, Nat.cast_sum]
  · rw [if_neg hne]
    exact ⟨congrArg (· + 1) hphase.1, by show b.pending - 1 = 0; omega⟩

/-- The last part that comes ends the phase. -/
theorem Transacted.completeTx {j : ℕ} (h : b.Transacted bytes t missing) (hj : j ∈ missing)
    (hpos : ∀ i ∈ missing, 0 < bytes i) :
    (b.completeTx (bytes j)).Transacted bytes t (missing.erase j) := by
  obtain ⟨hcount, htx, hphase⟩ := h
  rw [if_neg (Finset.ne_empty_of_mem hj)] at hphase
  have hrest : b.tx - bytes j = ∑ i ∈ missing.erase j, (bytes i : ℤ) := by
    rw [htx, ← Finset.add_sum_erase missing (fun i => (bytes i : ℤ)) hj]
    exact add_sub_cancel_left _ _
  unfold PhaseBarrier.completeTx settle
  -- the last copy to arrive ends the phase
  by_cases hempty : missing.erase j = ∅
  · rw [hempty, Finset.sum_empty] at hrest
    rw [if_pos ⟨hphase.2, hrest⟩, hempty]
    exact ⟨hcount, hrest, by rw [if_pos rfl]; exact ⟨hphase.1, hcount⟩⟩
  · have hlt : (0 : ℤ) < ∑ i ∈ missing.erase j, (bytes i : ℤ) :=
      Finset.sum_pos (fun i hi => by exact_mod_cast hpos i (Finset.mem_of_mem_erase hi))
        (Finset.nonempty_iff_ne_empty.mpr hempty)
    rw [if_neg fun hdone => by have := hdone.2; simp only at this; omega]
    exact ⟨hcount, hrest, by rw [if_neg hempty]; exact hphase⟩

end Transacted

end PhaseBarrier

/-! ### Turns of a ring -/

variable {n s x y k i : ℕ}

/-- How many of the tickets before `x` have slot `s`, on a ring of `n` slots. -/
def turns (n s x : ℕ) : ℕ := Nat.count (fun k => k % n = s) x

@[simp] theorem turns_zero : turns n s 0 = 0 := Nat.count_zero _

/-- One more step of the counter. -/
theorem turns_succ : turns n s (x + 1) = turns n s x + if x % n = s then 1 else 0 :=
  Nat.count_succ _ x

/-- The slot whose turn it is has had one more. -/
@[simp] theorem turns_succ_self : turns n (x % n) (x + 1) = turns n (x % n) x + 1 := by
  rw [turns_succ, if_pos rfl]

/-- The other slots have not. -/
theorem turns_succ_of_ne (h : x % n ≠ s) : turns n s (x + 1) = turns n s x := by
  rw [turns_succ, if_neg h, add_zero]

/-- Turns do not get fewer. -/
theorem turns_mono (h : x ≤ y) : turns n s x ≤ turns n s y := Nat.count_monotone _ h

/-- The slot of a ticket has had as many turns before it as the ring has gone round. -/
theorem turns_self (hn : 0 < n) (x : ℕ) : turns n (x % n) x = x / n := by
  have hcount := Nat.count_modEq_card x hn x
  rw [if_neg (lt_irrefl _), add_zero] at hcount
  exact hcount

/-- Within one round, no slot comes twice. -/
theorem turns_add (hi : i < n) : turns n ((x + i) % n) (x + i) = turns n ((x + i) % n) x := by
  have hnone : ∀ j ≤ i, turns n ((x + i) % n) (x + j) = turns n ((x + i) % n) x := by
    intro j
    induction j with
    | zero => exact fun _ => rfl
    | succ j ih =>
      intro hj
      rw [← Nat.add_assoc, turns_succ_of_ne, ih (by omega)]
      intro heq
      have hdvd : n ∣ (x + i) - (x + j) := (Nat.modEq_iff_dvd' (by omega)).mp heq
      exact absurd (Nat.le_of_dvd (by omega) hdvd) (by omega)
  exact hnone i le_rfl

/-- In a whole round, every slot comes once. -/
theorem turns_round (hs : s < n) (x : ℕ) : turns n s (x + n) = turns n s x + 1 := by
  induction x with
  | zero =>
    have hcount := Nat.count_modEq_card n (Nat.zero_lt_of_lt hs) s
    rw [Nat.mod_self, if_neg (Nat.not_lt_zero _), Nat.div_self (Nat.zero_lt_of_lt hs)] at hcount
    rw [Nat.zero_add, turns_zero, Nat.zero_add]
    refine Eq.trans ?_ hcount
    simp only [turns, Nat.ModEq, Nat.mod_eq_of_lt hs]
  | succ x ih => rw [Nat.add_right_comm, turns_succ, ih, turns_succ, Nat.add_mod_right,
      Nat.add_right_comm]

/-- Who has had as many turns of every slot as there are before `y` is not behind `y`. -/
theorem le_of_turns_le (hn : 0 < n) (h : ∀ s < n, turns n s y ≤ turns n s x) : y ≤ x := by
  by_contra hlt
  have hle := h (x % n) (Nat.mod_lt x hn)
  have hmono : turns n (x % n) (x + 1) ≤ turns n (x % n) y := turns_mono (by omega)
  rw [turns_succ_self] at hmono
  omega

/-- A ticket is determined by its slot and its turn. -/
theorem eq_of_turn (hmod : x % n = y % n) (hdiv : x / n = y / n) : x = y := by
  rw [← Nat.div_add_mod x n, ← Nat.div_add_mod y n, hmod, hdiv]

/-- Everyone has had at most `t` turns, and together they had all of them: each had `t`. -/
theorem eq_of_sum_eq {ι : Type*} [Fintype ι] {f : ι → ℕ} {t : ℕ} (hle : ∀ w, f w ≤ t)
    (hsum : Fintype.card ι * t ≤ ∑ w, f w) (w : ι) : f w = t := by
  have hconst : ∑ _w : ι, t = Fintype.card ι * t := by simp
  refine (Finset.sum_eq_sum_iff_of_le fun w _ => hle w).mp ?_ w (Finset.mem_univ w)
  exact le_antisymm (Finset.sum_le_sum fun w _ => hle w) (hconst.trans_le hsum)

end CudaOxide.Lib
