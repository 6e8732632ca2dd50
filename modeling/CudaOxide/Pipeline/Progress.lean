import CudaOxide.Pipeline.TmaAsync

/-!
# The TMA load pipeline ends

No interleaving deadlocks, and all of them take the same number of steps: a state that is not final
has a next step, and every step brings the pipeline closer to its end by one.

* `State.remaining` — the steps that are still to come.
* `Inv.remaining_step`, `Inv.progress` — one step, and that there is one.
* `runs_complete` — every run can be continued to its end, which comes after exactly `Kernel.steps`.
-/

namespace CudaOxide.Pipeline

open Lib

variable {K : Kernel} {s s' : State K} {w : Fin K.consumerWarps}

/-- All threads are done, and all copies have landed. -/
def State.Final (s : State K) : Prop :=
  s.producer.next = .done ∧ s.inFlight = ∅ ∧
    ∀ w, (s.consumer w).load = K.loads ∧ (s.consumer w).reading = false

/-! ### Some thread can go on -/

/-- Some warp is behind all others. -/
theorem exists_slowest (s : State K) :
    ∃ w, ∀ v, (s.consumer w).load ≤ (s.consumer v).load := by
  obtain ⟨w, -, hmin⟩ := Finset.exists_min_image Finset.univ (fun w => (s.consumer w).load)
    ⟨K.firstWarp, Finset.mem_univ _⟩
  exact ⟨w, fun v => hmin v (Finset.mem_univ v)⟩

/-- A warp that is behind the producer is not blocked, once the copies have landed. -/
theorem Inv.isFull_of_behind (h : Inv s) (hreading : (s.consumer w).reading = false)
    (hlt : (s.consumer w).load < s.producer.expected)
    (hnone : s.missing (s.consumer w).cursor.slot = ∅) : s.isFull w := by
  obtain ⟨hslot, hslotlt⟩ := h.consumer_slot w
  have hself := turns_self K.stages_pos (s.consumer w).load
  rw [h.isFull_iff hreading, (h.full _ hslotlt).phase_eq_iff.mpr hnone, hslot]
  refine le_antisymm ?_ ?_
  · refine (turns_mono (s.producer.expected_le_acquired K)).trans ?_
    have hrel := h.released _ hslotlt w
    rwa [hslot, hself] at hrel
  · have hmono : turns K.stages ((s.consumer w).load % K.stages) ((s.consumer w).load + 1) ≤
        turns K.stages ((s.consumer w).load % K.stages) s.producer.expected := turns_mono hlt
    rwa [turns_succ_self, hself] at hmono

/-- The producer is not blocked, once all warps have caught up. -/
theorem Inv.isEmpty_of_caughtUp (h : Inv s) (hnext : s.producer.next ≠ .done)
    (hticket : s.producer.ticket = s.producer.acquired K)
    (hturns : turns K.stages (s.producer.ticket % K.stages) s.producer.expected =
      s.producer.ticket / K.stages)
    (hall : ∀ w, (s.consumer w).load = s.producer.expected) : s.isEmpty :=
  (h.isEmpty_iff hnext hticket).mpr fun w => by rw [hall w, hturns]

/-- **No deadlock.** -/
theorem Inv.progress (h : Inv s) : s.Final ∨ ∃ s', Step s s' := by
  by_cases hreading : ∃ w, (s.consumer w).reading
  · obtain ⟨w, hw⟩ := hreading
    exact .inr ⟨_, .consumerRelease hw⟩
  by_cases hfly : s.inFlight.Nonempty
  · obtain ⟨c, hc⟩ := hfly
    exact .inr ⟨_, .land hc⟩
  have hidle : ∀ w, (s.consumer w).reading = false := by
    simpa using hreading
  have hlanded := Finset.not_nonempty_iff_eq_empty.mp hfly
  by_cases hissue : ∃ i, s.producer.next = .issue i
  · obtain ⟨i, hi⟩ := hissue
    have hvalid := h.producer
    simp only [ProducerThread.Valid, hi] at hvalid
    rcases eq_or_lt_of_le hvalid.2 with rfl | hlt
    · exact .inr ⟨_, .producerAdvance hi⟩
    · exact .inr ⟨_, .issue hi hlt⟩
  -- all threads are at a wait, and all that was announced has landed
  have hnone : ∀ slot, s.missing slot = ∅ := by
    intro slot
    ext part
    rw [State.mem_missing]
    simp only [Finset.notMem_empty, iff_false, not_and, not_or]
    refine fun _ => ⟨by simp [hlanded], ProducerThread.not_unissued fun i hi => hissue ⟨i, hi⟩⟩
  obtain ⟨w, hslowest⟩ := exists_slowest s
  by_cases hbehind : (s.consumer w).load < s.producer.expected
  · refine .inr ⟨_, .consumerWait (hidle w) ?_ (h.isFull_of_behind (hidle w) hbehind (hnone _))⟩
    refine hbehind.trans_le ?_
    have hvalid := h.producer
    unfold ProducerThread.Valid at hvalid
    unfold ProducerThread.expected
    split at hvalid <;> simp_all <;> omega
  have hall : ∀ v, (s.consumer v).load = s.producer.expected := by
    intro v
    have hle := h.begun_le v
    have hge := hslowest v
    simp only [ConsumerWarp.begun, hidle v, Bool.false_eq_true, if_false, add_zero] at hle
    omega
  cases hnext : s.producer.next with
  | acquire =>
    have hticket : s.producer.ticket = s.producer.load := by simp [ProducerThread.ticket, hnext]
    have hexpected : s.producer.expected = s.producer.load := by
      simp [ProducerThread.expected, hnext]
    refine .inr ⟨_, .producerAcquire hnext (h.isEmpty_of_caughtUp (by rw [hnext]; simp) ?_ ?_ hall)⟩
    · simp [ProducerThread.ticket, ProducerThread.acquired, hnext]
    · rw [hticket, hexpected, turns_self K.stages_pos]
  | expectTx => exact .inr ⟨_, .producerExpectTx hnext⟩
  | issue i => exact absurd ⟨i, hnext⟩ hissue
  | tail waited =>
    have hticket : s.producer.ticket = s.producer.load + waited := by
      simp [ProducerThread.ticket, hnext]
    have hexpected : s.producer.expected = s.producer.load := by
      simp [ProducerThread.expected, hnext]
    have hvalid := h.producer
    simp only [ProducerThread.Valid, hnext] at hvalid
    refine .inr ⟨_, .producerTail hnext (h.isEmpty_of_caughtUp (by rw [hnext]; simp) ?_ ?_ hall)⟩
    · simp [ProducerThread.ticket, ProducerThread.acquired, hnext]
    · rw [hticket, hexpected, ← turns_add hvalid.2, turns_self K.stages_pos]
  | done => exact .inl ⟨hnext, h.drained hnext⟩

/-! ### How many steps are to come -/

/-- The steps of one trip of the producer, and of the copies that it starts. -/
def Kernel.tripSteps (K : Kernel) : ℕ := 2 * K.copies.length + 3

/-- All steps of a run: the trips, the tail, and a wait and a release for every load of every
warp. -/
def Kernel.steps (K : Kernel) : ℕ :=
  K.loads * K.tripSteps + K.stages + K.consumerWarps * (2 * K.loads)

/-- The steps of the producer that are to come, with those of the copies it has not started. -/
def ProducerThread.remaining (K : Kernel) (p : ProducerThread) : ℕ :=
  match p.next with
  | .acquire => (K.loads - p.load) * K.tripSteps + K.stages
  | .expectTx => (K.loads - p.load - 1) * K.tripSteps + K.stages + 2 * K.copies.length + 2
  | .issue i => (K.loads - p.load - 1) * K.tripSteps + K.stages + 2 * (K.copies.length - i) + 1
  | .tail waited => K.stages - waited
  | .done => 0

/-- The steps that a consumer warp has left. -/
def ConsumerWarp.remaining (K : Kernel) (c : ConsumerWarp) : ℕ :=
  (K.loads - c.load) + (K.loads - c.begun)

/-- The steps that are left in a state. -/
def State.remaining (s : State K) : ℕ :=
  s.producer.remaining K + s.inFlight.card + ∑ w, (s.consumer w).remaining K

/-- The steps that are left before a load. -/
theorem remaining_loop (cursor : PipelineState) {load : ℕ} (hload : load ≤ K.loads) :
    (ProducerThread.mk cursor load (.loop K load)).remaining K =
      (K.loads - load) * K.tripSteps + K.stages := by
  rcases Inv.loop_cases (K := K) load with ⟨h, -⟩ | ⟨h, hge⟩ <;> rw [h]
  · rfl
  · obtain rfl := le_antisymm hload hge
    simp [ProducerThread.remaining]

/-- At the start all steps are left. -/
theorem remaining_init (K : Kernel) (buffer : ℕ → ℕ → Option ℕ) :
    (State.init K buffer).remaining = K.steps := by
  unfold State.remaining
  rw [show (State.init K buffer).producer = ⟨.new .producer, 0, .loop K 0⟩ from rfl,
    remaining_loop _ (Nat.zero_le _)]
  simp [State.init, ConsumerWarp.remaining, ConsumerWarp.begun, Kernel.steps, Nat.two_mul]

/-- One trip is counted apart. -/
theorem tripSteps_succ {load : ℕ} (hload : load < K.loads) :
    (K.loads - load) * K.tripSteps = (K.loads - load - 1) * K.tripSteps +
      2 * K.copies.length + 3 := by
  obtain ⟨m, hm⟩ : ∃ m, K.loads - load = m + 1 := ⟨K.loads - load - 1, by omega⟩
  rw [hm, Nat.succ_mul, Nat.add_sub_cancel, Kernel.tripSteps, Nat.add_assoc _ (2 * _) 3]

/-- What one warp does changes its own share of the sum only. -/
theorem sum_remaining_update (c : ConsumerWarp) (s : State K) (w : Fin K.consumerWarps)
    (hone : c.remaining K + 1 = (s.consumer w).remaining K) :
    ∑ v, (Function.update s.consumer w c v).remaining K + 1 = ∑ v, (s.consumer v).remaining K := by
  rw [← Finset.add_sum_erase _ _ (Finset.mem_univ w),
    ← Finset.add_sum_erase Finset.univ (fun v => (s.consumer v).remaining K) (Finset.mem_univ w),
    Function.update_self, ← hone, Nat.add_right_comm]
  congr 1
  refine Finset.sum_congr rfl fun v hv => ?_
  rw [Function.update_of_ne (Finset.ne_of_mem_erase hv)]

/-- **Every step is one of those that were to come.** -/
theorem Inv.remaining_step (h : Inv s) (hstep : Step s s') : s'.remaining + 1 = s.remaining := by
  have hvalid := h.producer
  -- each step takes one step off the party that makes it
  cases hstep with
  | producerAcquire hnext =>
    simp only [ProducerThread.Valid, hnext] at hvalid
    have htrip := tripSteps_succ hvalid
    simp only [State.remaining, State.producerAcquire, ProducerThread.remaining, hnext]
    omega
  | producerExpectTx hnext =>
    simp only [State.remaining, State.producerExpectTx, ProducerThread.remaining, hnext]
    omega
  -- a copy that is issued was not in flight
  | @issue part hnext hpart =>
    have hfresh : ⟨s.producer.cursor.slot, s.producer.load, part⟩ ∉ s.inFlight := fun hc =>
      (h.inFlight _ hc).2.2.2 ⟨part, hnext, rfl, le_rfl⟩
    simp only [State.remaining, State.issue, ProducerThread.remaining, hnext,
      Finset.card_insert_of_notMem hfresh]
    omega
  | producerAdvance hnext =>
    simp only [ProducerThread.Valid, hnext] at hvalid
    have htrip := tripSteps_succ hvalid.1
    have hloop := remaining_loop (s.producer.cursor.advance K.stages) (K := K)
      (Nat.succ_le_of_lt hvalid.1)
    have hsub : K.loads - s.producer.load.succ = K.loads - s.producer.load - 1 := by omega
    rw [hsub] at hloop
    have hnow : s.producer.remaining K =
        (K.loads - s.producer.load - 1) * K.tripSteps + K.stages + 1 := by
      simp [ProducerThread.remaining, hnext]
    show (ProducerThread.mk _ s.producer.load.succ (.loop K s.producer.load.succ)).remaining K +
      s.inFlight.card + ∑ w, (s.consumer w).remaining K + 1 = s.remaining
    rw [hloop, State.remaining, hnow]
    omega
  -- the last wait of the tail ends the producer
  | @producerTail waited hnext =>
    simp only [ProducerThread.Valid, hnext] at hvalid
    have hnow : s.producer.remaining K = K.stages - waited := by
      simp [ProducerThread.remaining, hnext]
    have hthen : (s.producerTail waited).producer.remaining K = K.stages - (waited + 1) := by
      unfold State.producerTail
      by_cases hlast : waited + 1 = K.stages
      · simp [hlast, ProducerThread.remaining]
      · simp [hlast, ProducerThread.remaining]
    show (s.producerTail waited).producer.remaining K + s.inFlight.card +
      ∑ w, (s.consumer w).remaining K + 1 = s.remaining
    rw [hthen, State.remaining, hnow]
    omega
  | land hmem =>
    have hcard := Finset.card_erase_add_one hmem
    simp only [State.remaining, State.land]
    omega
  -- of the consumers only warp `w` moves
  | @consumerWait w hreading hload =>
    have hsum : ∑ v, ((s.consumerWait w).consumer v).remaining K + 1 =
        ∑ v, (s.consumer v).remaining K := sum_remaining_update _ s w (by
      simp only [ConsumerWarp.remaining, ConsumerWarp.begun, hreading, if_true, Bool.false_eq_true,
        if_false]
      omega)
    show s.producer.remaining K + s.inFlight.card +
      ∑ v, ((s.consumerWait w).consumer v).remaining K + 1 = s.remaining
    rw [State.remaining]
    omega
  | @consumerRelease w hreading =>
    have hle := h.consumer_load w
    have hsum := sum_remaining_update
      ⟨(s.consumer w).cursor.advance K.stages, (s.consumer w).load + 1, false⟩ s w (by
        simp only [ConsumerWarp.begun, hreading, if_true] at hle
        simp only [ConsumerWarp.remaining, ConsumerWarp.begun, hreading, if_true,
          Bool.false_eq_true,
          if_false]
        omega)
    simp only [State.remaining, State.consumerRelease]
    omega

/-- Nothing is left at the end. -/
theorem State.Final.remaining (hfinal : s.Final) : s.remaining = 0 := by
  obtain ⟨hdone, hlanded, hall⟩ := hfinal
  have hwarps : ∀ w, (s.consumer w).remaining K = 0 := by
    intro w
    simp [ConsumerWarp.remaining, ConsumerWarp.begun, hall w]
  simp [State.remaining, ProducerThread.remaining, hdone, hlanded, hwarps]

/-- A state is final exactly when no step is to come. -/
theorem Inv.final_iff (h : Inv s) : s.Final ↔ ∀ s', ¬Step s s' := by
  constructor
  · intro hfinal s' hstep
    have hone := h.remaining_step hstep
    rw [hfinal.remaining] at hone
    exact Nat.succ_ne_zero _ hone
  · intro hstuck
    rcases h.progress with hfinal | ⟨s', hstep⟩
    · exact hfinal
    · exact absurd hstep (hstuck s')

/-! ### Whole runs -/

/-- `n` steps from one state to another. -/
inductive Run : ℕ → State K → State K → Prop
  | refl {s : State K} : Run 0 s s
  | step {n : ℕ} {s t u : State K} (h : Run n s t) (hstep : Step t u) : Run (n + 1) s u

/-- After `n` steps, `n` of them are not to come any more. -/
theorem Inv.run {n : ℕ} {t : State K} (h : Inv s) (hrun : Run n s t) :
    Inv t ∧ t.remaining + n = s.remaining := by
  induction hrun with
  | refl => exact ⟨h, rfl⟩
  | step _ hstep ih =>
    obtain ⟨hinv, hremaining⟩ := ih h
    have hone := hinv.remaining_step hstep
    exact ⟨hinv.step hstep, by omega⟩

/-- **Every run ends.**  From the initial state every run, in whatever order the threads and copies
step, has at most `K.steps` steps, is stuck only when it has made all of them, and then all threads
are done. -/
theorem runs_complete (K : Kernel) (buffer : ℕ → ℕ → Option ℕ) {n : ℕ} {s : State K}
    (hrun : Run n (.init K buffer) s) :
    n ≤ K.steps ∧ ((∀ s', ¬Step s s') ↔ n = K.steps) ∧ (n = K.steps → s.Final) := by
  obtain ⟨hinv, hremaining⟩ := (Inv.init K buffer).run hrun
  rw [remaining_init] at hremaining
  have hend : n = K.steps → s.Final := by
    intro hn
    refine hinv.final_iff.mpr fun s' hstep => ?_
    have hone := hinv.remaining_step hstep
    omega
  refine ⟨by omega, ⟨fun hstuck => ?_, fun hn => hinv.final_iff.mp (hend hn)⟩, hend⟩
  have hzero := (hinv.final_iff.mpr hstuck).remaining
  omega

/-- The small kernel with a single load. -/
def oneLoadKernel : Kernel := { smallKernel with loads := 1 }

/-- The load takes nine steps.  The tail has to wait until the warp has released the first stage. -/
theorem runs_complete_one : ∃ s : State oneLoadKernel,
    Run 9 (.init oneLoadKernel fun _ _ => none) s ∧ s.Final ∧ ∀ s', ¬Step s s' := by
  have h2 : Run 2 (.init oneLoadKernel fun _ _ => none)
      (State.init oneLoadKernel fun _ _ => none).producerAcquire.producerExpectTx :=
    .step (.step .refl (.producerAcquire rfl (by decide))) (.producerExpectTx rfl)
  have h4 := (h2.step (.issue rfl (by decide))).step (.producerAdvance rfl)
  have h5 := h4.step (.land (c := ⟨0, 0, 0⟩) (Finset.mem_insert_self _ _))
  have h6 := h5.step (.consumerWait (w := oneLoadKernel.firstWarp) rfl (by decide) (by decide))
  have h7 := h6.step (.consumerRelease (w := oneLoadKernel.firstWarp) rfl)
  have h9 := (h7.step (.producerTail rfl (by decide))).step
    (.producerTail rfl (by decide))
  obtain ⟨-, hstuck, hfinal⟩ := runs_complete oneLoadKernel _ h9
  exact ⟨_, h9, hfinal (by decide), hstuck.mpr (by decide)⟩

end CudaOxide.Pipeline
