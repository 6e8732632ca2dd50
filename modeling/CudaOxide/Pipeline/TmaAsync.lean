import CudaOxide.Lib.System
import CudaOxide.Pipeline.Cursor

/-!
# The TMA load pipeline

The protocol of `PipelineTmaAsync`: one producer thread loads tiles into a ring of shared buffers,
several consumer warps read them, and two barriers a stage hand the buffers over.  The threads, and
the copies that the hardware has in flight, take their steps in any order.

* `Kernel` — the constants of the pipeline, the copies that fill one stage, and the number of stages
  that the kernel fills over all its work items.
* `State`, `Step` — the shared memory and the threads; `tmaLoadPipeline` is the system.
* `Inv` — what holds in every reachable state, `Inv.step` that each step keeps it.
* `reachable_safe` — no buffer is overwritten while it is read, and what is read is the tile whose
  turn it is.

The barriers are `Lib.PhaseBarrier`; which warp owns which element of a tile is not modelled, so a
consumer warp reads its stage from the end of its wait to its release.
-/

namespace CudaOxide.Pipeline

open Lib

/-! ### The protocol -/

/-- `PipelineTmaAsync<STAGES, CONSUMER_WARPS, TX_BYTES>` with the assertions of `STORAGE_BYTES`, and
what a kernel does with it: the copies attached to the barrier of a stage have `TX_BYTES` bytes. -/
structure Kernel where
  stages : ℕ
  consumerWarps : ℕ
  txBytes : ℕ
  stages_pos : 0 < stages
  stages_lt : stages < 2 ^ 32
  consumerWarps_pos : 0 < consumerWarps
  consumerWarps_le : consumerWarps ≤ 32
  txBytes_pos : 0 < txBytes
  /-- the bytes of each copy of a stage -/
  copies : List ℕ
  copies_pos : ∀ bytes ∈ copies, 0 < bytes
  copies_sum : copies.sum = txBytes
  /-- the stages filled, the trips of the `K` loop over all work items -/
  loads : ℕ

/-- The first consumer warp. -/
def Kernel.firstWarp (K : Kernel) : Fin K.consumerWarps := ⟨0, K.consumerWarps_pos⟩

/-- The bytes of a copy. -/
def Kernel.bytes (K : Kernel) (part : ℕ) : ℕ := K.copies.getD part 0

/-- A copy in flight: it writes `part` of the buffer `slot`, from the tile of trip `load`. -/
structure Copy where
  slot : ℕ
  load : ℕ
  part : ℕ
  deriving DecidableEq, Repr

/-- What the producer does next. -/
inductive ProducerStep where
  | acquire
  | expectTx
  | issue (part : ℕ)
  | tail (waited : ℕ)
  | done
  deriving DecidableEq, Repr

/-- The state of the producer thread. -/
structure ProducerThread where
  cursor : PipelineState
  load : ℕ
  next : ProducerStep
  deriving DecidableEq, Repr

/-- The state of a consumer warp. -/
structure ConsumerWarp where
  cursor : PipelineState
  load : ℕ
  reading : Bool
  deriving DecidableEq, Repr

/-- The barriers, the tile that each part of a buffer holds, and the threads. -/
structure State (K : Kernel) where
  full : ℕ → PhaseBarrier
  empty : ℕ → PhaseBarrier
  buffer : ℕ → ℕ → Option ℕ
  inFlight : Finset Copy
  producer : ProducerThread
  consumer : Fin K.consumerWarps → ConsumerWarp

variable {K : Kernel}

/-- The head of the loop over the stages, and the call of `producer_tail` after it. -/
def ProducerStep.loop (K : Kernel) (load : ℕ) : ProducerStep :=
  if load < K.loads then .acquire else .tail 0

namespace State

/-- After `tma_load_pipeline_init`: a full barrier expects one arrival, an empty one an arrival of
each consumer warp. -/
def init (K : Kernel) (buffer : ℕ → ℕ → Option ℕ) : State K where
  full _ := .init 1
  empty _ := .init K.consumerWarps
  buffer
  inFlight := ∅
  producer := ⟨.new .producer, 0, .loop K 0⟩
  consumer _ := ⟨.new .consumer, 0, false⟩

/-- The wait of `pipeline_producer_acquire`, and each wait of `pipeline_producer_tail`. -/
def isEmpty (s : State K) : Bool :=
  (s.empty s.producer.cursor.slot).tryWaitParity s.producer.cursor.phase

/-- The wait of `pipeline_consumer_wait`. -/
def isFull (s : State K) (w : Fin K.consumerWarps) : Bool :=
  (s.full (s.consumer w).cursor.slot).tryWaitParity (s.consumer w).cursor.phase

/-- `producer_acquire`: the empty barrier was waited for. -/
def producerAcquire (s : State K) : State K :=
  { s with producer := { s.producer with next := .expectTx } }

/-- `pipeline_producer_expect_tx` -/
def producerExpectTx (s : State K) : State K :=
  { s with
    full := Function.update s.full s.producer.cursor.slot
      ((s.full s.producer.cursor.slot).arriveExpectTx K.txBytes)
    producer := { s.producer with next := .issue 0 } }

/-- The copy `part` of the stage is started. -/
def issue (s : State K) (part : ℕ) : State K :=
  { s with
    inFlight := insert ⟨s.producer.cursor.slot, s.producer.load, part⟩ s.inFlight
    producer := { s.producer with next := .issue (part + 1) } }

/-- The end of a trip: the cursor moves to the next stage. -/
def producerAdvance (s : State K) : State K :=
  { s with
    producer :=
      ⟨s.producer.cursor.advance K.stages, s.producer.load + 1, .loop K (s.producer.load + 1)⟩ }

/-- After a wait of the tail: the cursor moves, except behind the last wait. -/
def producerTail (s : State K) (waited : ℕ) : State K :=
  { s with
    producer := if waited + 1 = K.stages then { s.producer with next := .done }
      else { s.producer with
        cursor := s.producer.cursor.advance K.stages, next := .tail (waited + 1) } }

/-- The hardware finishes a copy: the data is in the buffer, and its bytes are counted. -/
def land (s : State K) (c : Copy) : State K :=
  { s with
    full := Function.update s.full c.slot ((s.full c.slot).completeTx (K.bytes c.part))
    buffer := Function.update s.buffer c.slot
      (Function.update (s.buffer c.slot) c.part (some c.load))
    inFlight := s.inFlight.erase c }

/-- `consumer_wait`: the full barrier was waited for. -/
def consumerWait (s : State K) (w : Fin K.consumerWarps) : State K :=
  { s with consumer := Function.update s.consumer w { s.consumer w with reading := true } }

/-- `pipeline_consumer_release` by lane zero of the warp, and the `advance` after it. -/
def consumerRelease (s : State K) (w : Fin K.consumerWarps) : State K :=
  { s with
    empty := Function.update s.empty (s.consumer w).cursor.slot
      (s.empty (s.consumer w).cursor.slot).arrive
    consumer := Function.update s.consumer w
      ⟨(s.consumer w).cursor.advance K.stages, (s.consumer w).load + 1, false⟩ }

end State

/-- One step of a thread or of a copy.  A wait is a step only once it succeeds. -/
inductive Step : State K → State K → Prop
  | producerAcquire {s : State K} (hnext : s.producer.next = .acquire) (hwait : s.isEmpty) :
      Step s s.producerAcquire
  | producerExpectTx {s : State K} (hnext : s.producer.next = .expectTx) :
      Step s s.producerExpectTx
  | issue {s : State K} {part : ℕ} (hnext : s.producer.next = .issue part)
      (hpart : part < K.copies.length) : Step s (s.issue part)
  | producerAdvance {s : State K} (hnext : s.producer.next = .issue K.copies.length) :
      Step s s.producerAdvance
  | producerTail {s : State K} {waited : ℕ} (hnext : s.producer.next = .tail waited)
      (hwait : s.isEmpty) : Step s (s.producerTail waited)
  | land {s : State K} {c : Copy} (hmem : c ∈ s.inFlight) : Step s (s.land c)
  | consumerWait {s : State K} {w : Fin K.consumerWarps} (hreading : (s.consumer w).reading = false)
      (hload : (s.consumer w).load < K.loads) (hwait : s.isFull w) : Step s (s.consumerWait w)
  | consumerRelease {s : State K} {w : Fin K.consumerWarps} (hreading : (s.consumer w).reading) :
      Step s (s.consumerRelease w)

/-- The pipeline after its initialization, whatever the buffers hold. -/
def tmaLoadPipeline (K : Kernel) : System (State K) where
  Init s := ∃ buffer, s = .init K buffer
  Step := Step

/-! ### What holds in every reachable state -/

/-- The stages whose wait the producer has passed. -/
def ProducerThread.acquired (K : Kernel) (p : ProducerThread) : ℕ :=
  match p.next with
  | .acquire => p.load
  | .expectTx | .issue _ => p.load + 1
  | .tail waited => p.load + waited
  | .done => p.load + K.stages

/-- The stages whose bytes the producer has announced. -/
def ProducerThread.expected (p : ProducerThread) : ℕ :=
  match p.next with
  | .issue _ => p.load + 1
  | _ => p.load

/-- The stage of the producer's cursor. -/
def ProducerThread.ticket (p : ProducerThread) : ℕ :=
  match p.next with
  | .tail waited => p.load + waited
  | _ => p.load

/-- Where the producer can be. -/
def ProducerThread.Valid (K : Kernel) (p : ProducerThread) : Prop :=
  match p.next with
  | .acquire | .expectTx => p.load < K.loads
  | .issue part => p.load < K.loads ∧ part ≤ K.copies.length
  | .tail waited => p.load = K.loads ∧ waited < K.stages
  | .done => p.load = K.loads

/-- The stages that a warp has begun to read. -/
def ConsumerWarp.begun (c : ConsumerWarp) : ℕ := c.load + if c.reading then 1 else 0

/-- The producer has announced the copy, and not yet started it. -/
def ProducerThread.Unissued (p : ProducerThread) (slot part : ℕ) : Prop :=
  ∃ i, p.next = .issue i ∧ p.cursor.slot = slot ∧ i ≤ part

open scoped Classical in
/-- The parts of a buffer that were announced and have not come. -/
noncomputable def State.missing (s : State K) (slot : ℕ) : Finset ℕ :=
  (Finset.range K.copies.length).filter fun part =>
    (∃ load, ⟨slot, load, part⟩ ∈ s.inFlight) ∨ s.producer.Unissued slot part

/-- The invariant of the pipeline. -/
structure Inv (s : State K) : Prop where
  producer : s.producer.Valid K
  producer_cursor : s.producer.next ≠ .done →
    s.producer.cursor = .at K.stages 1 s.producer.ticket
  consumer_cursor : ∀ w, (s.consumer w).cursor = .at K.stages 0 (s.consumer w).load
  consumer_load : ∀ w, (s.consumer w).begun ≤ K.loads
  full : ∀ slot < K.stages,
    (s.full slot).Transacted K.bytes (turns K.stages slot s.producer.expected) (s.missing slot)
  empty : ∀ slot < K.stages, (s.empty slot).count = K.consumerWarps ∧
    (s.empty slot).Arrived (∑ w, turns K.stages slot (s.consumer w).load)
  /-- a copy in flight is of the last stage announced for its slot -/
  inFlight : ∀ c ∈ s.inFlight, c.part < K.copies.length ∧ c.load % K.stages = c.slot ∧
    c.load / K.stages + 1 = turns K.stages c.slot s.producer.expected ∧
    ¬s.producer.Unissued c.slot c.part
  buffer : ∀ load part, part < K.copies.length →
    load / K.stages + 1 = turns K.stages (load % K.stages) s.producer.expected →
    part ∉ s.missing (load % K.stages) → s.buffer (load % K.stages) part = some load
  /-- a buffer is taken only when every warp has released it -/
  released : ∀ slot < K.stages, ∀ w, turns K.stages slot (s.producer.acquired K) ≤
    turns K.stages slot (s.consumer w).load + 1
  /-- a buffer is read only when it has been filled -/
  filled : ∀ slot < K.stages, ∀ w,
    turns K.stages slot (s.consumer w).begun ≤ (s.full slot).phase

/-! ### The quantities of the invariant -/

variable {s s' : State K} {slot part : ℕ} {w : Fin K.consumerWarps} {p : ProducerThread}

/-- At most the acquired loads are expected. -/
theorem ProducerThread.expected_le_acquired (K : Kernel) (p : ProducerThread) :
    p.expected ≤ p.acquired K := by
  unfold expected acquired
  split <;> split <;> simp_all

/-- A part that is missing is in flight or not issued. -/
theorem State.mem_missing : part ∈ s.missing slot ↔ part < K.copies.length ∧
    ((∃ load, ⟨slot, load, part⟩ ∈ s.inFlight) ∨ s.producer.Unissued slot part) := by
  simp [State.missing]

/-- A thread that starts no copies has none to start. -/
theorem ProducerThread.not_unissued (h : ∀ i, p.next ≠ .issue i) : ¬p.Unissued slot part := by
  rintro ⟨i, hi, -⟩
  exact h i hi

/-- What is missing depends on flight and issue only. -/
theorem State.missing_congr (hfly : s'.inFlight = s.inFlight)
    (hun : ∀ part < K.copies.length,
      s'.producer.Unissued slot part ↔ s.producer.Unissued slot part) :
    s'.missing slot = s.missing slot := by
  ext part
  rw [mem_missing, mem_missing, hfly]
  exact and_congr_right fun hpart => by rw [hun part hpart]

/-- A copy has bytes. -/
theorem Kernel.bytes_pos (hpart : part < K.copies.length) : 0 < K.bytes part := by
  rw [Kernel.bytes, List.getD_eq_getElem _ _ hpart]
  exact K.copies_pos _ (List.getElem_mem _)

/-- The copies carry the bytes of the transaction. -/
theorem Kernel.sum_bytes (K : Kernel) : ∑ part ∈ Finset.range K.copies.length,
    K.bytes part = K.txBytes := by
  rw [← K.copies_sum, Finset.sum_range]
  simp [Kernel.bytes, Fin.sum_univ_getElem]

namespace Inv

/-- The producer is at the slot of its ticket. -/
theorem slot_lt (h : Inv s) (hnext : s.producer.next ≠ .done) :
    s.producer.cursor.slot = s.producer.ticket % K.stages ∧
      s.producer.cursor.slot < K.stages := by
  have hslot := congrArg PipelineState.slot (h.producer_cursor hnext)
  exact ⟨hslot, hslot ▸ Nat.mod_lt _ K.stages_pos⟩

/-- A consumer is at the slot of its load. -/
theorem consumer_slot (h : Inv s) (w : Fin K.consumerWarps) :
    (s.consumer w).cursor.slot = (s.consumer w).load % K.stages ∧
      (s.consumer w).cursor.slot < K.stages := by
  have hslot := congrArg PipelineState.slot (h.consumer_cursor w)
  exact ⟨hslot, hslot ▸ Nat.mod_lt _ K.stages_pos⟩

/-- No warp is ahead of the producer. -/
theorem turns_begun_le (h : Inv s) (hslot : slot < K.stages) (w : Fin K.consumerWarps) :
    turns K.stages slot (s.consumer w).begun ≤ turns K.stages slot s.producer.expected :=
  (h.filled slot hslot w).trans (h.full slot hslot).phase_le

/-- A load is begun before it is done. -/
theorem turns_load_le_begun (w : Fin K.consumerWarps) :
    turns K.stages slot (s.consumer w).load ≤ turns K.stages slot (s.consumer w).begun :=
  turns_mono (Nat.le_add_right _ _)

/-- A consumer begins no load before it is expected. -/
theorem begun_le (h : Inv s) (w : Fin K.consumerWarps) :
    (s.consumer w).begun ≤ s.producer.expected :=
  le_of_turns_le K.stages_pos fun _ hslot => h.turns_begun_le hslot w

/-- **The wait of the producer.**  At the stage after those acquired, it succeeds exactly when all
warps have released all that the stage has held. -/
theorem isEmpty_iff (h : Inv s) (hnext : s.producer.next ≠ .done)
    (hticket : s.producer.ticket = s.producer.acquired K) :
    s.isEmpty ↔ ∀ w, turns K.stages (s.producer.ticket % K.stages) (s.consumer w).load =
      s.producer.ticket / K.stages := by
  have hcursor := h.producer_cursor hnext
  revert hticket hcursor
  generalize s.producer.ticket = T
  intro hticket hcursor
  have hslot := Nat.mod_lt T K.stages_pos
  have hself := turns_self K.stages_pos T
  -- no warp is more than one turn behind the producer, and none is ahead
  have hhi : ∀ w, turns K.stages (T % K.stages) (s.consumer w).load ≤ T / K.stages := by
    intro w
    have hacq : turns K.stages (T % K.stages) s.producer.expected ≤ T / K.stages := by
      rw [← hself, hticket]
      exact turns_mono (s.producer.expected_le_acquired K)
    exact (turns_load_le_begun w).trans ((h.turns_begun_le hslot w).trans hacq)
  have hlo : ∀ w, T / K.stages ≤ turns K.stages (T % K.stages) (s.consumer w).load + 1 := by
    intro w
    have hrel := h.released _ hslot w
    rwa [← hticket, hself] at hrel
  obtain ⟨hcount, harrived⟩ := h.empty _ hslot
  have hphase := harrived.phase_eq
  rw [hcount] at hphase
  -- the arrivals are counted in turns, so the phase says how many there are at least
  have hcard : ∀ t, ∑ _w : Fin K.consumerWarps, t = t * K.consumerWarps := by simp [Nat.mul_comm]
  have hsumle : ∑ w, turns K.stages (T % K.stages) (s.consumer w).load ≤
      T / K.stages * K.consumerWarps :=
    (Finset.sum_le_sum fun w _ => hhi w).trans_eq (hcard _)
  have hsumge : (T / K.stages - 1) * K.consumerWarps ≤
      ∑ w, turns K.stages (T % K.stages) (s.consumer w).load :=
    (hcard _).symm.trans_le (Finset.sum_le_sum fun w _ => by have := hlo w; omega)
  have hphase_le : (s.empty (T % K.stages)).phase ≤ T / K.stages := by
    rw [hphase]
    exact Nat.div_le_of_le_mul (by rwa [Nat.mul_comm])
  have hphase_ge : T / K.stages - 1 ≤ (s.empty (T % K.stages)).phase := by
    rw [hphase]
    exact (Nat.le_div_iff_mul_le K.consumerWarps_pos).mpr hsumge
  have hwait : s.isEmpty ↔ (s.empty (T % K.stages)).phase = T / K.stages := by
    rw [State.isEmpty, hcursor]
    show (s.empty (T % K.stages)).tryWaitParity ((T / K.stages + 1) % 2) ↔ _
    exact PhaseBarrier.tryWaitParity_prev_iff (by omega) hphase_le
  rw [hwait]
  -- all have released exactly when the phase is the producer's turn
  constructor
  · intro hdone
    refine eq_of_sum_eq hhi ?_
    rw [Fintype.card_fin, Nat.mul_comm]
    exact (Nat.le_div_iff_mul_le K.consumerWarps_pos).mp (hphase ▸ hdone.ge)
  · intro hall
    rw [hphase, Finset.sum_congr rfl fun w _ => hall w, hcard,
      Nat.mul_div_cancel _ K.consumerWarps_pos]

/-- **The wait of a warp.**  It succeeds exactly when the stage has been filled for this turn. -/
theorem isFull_iff (h : Inv s) (hreading : (s.consumer w).reading = false) :
    s.isFull w ↔ (s.full (s.consumer w).cursor.slot).phase =
      (s.consumer w).load / K.stages + 1 := by
  obtain ⟨hslot, hlt⟩ := h.consumer_slot w
  have hself := turns_self K.stages_pos (s.consumer w).load
  have hlo := h.filled _ hlt w
  rw [ConsumerWarp.begun, hreading, if_neg Bool.false_ne_true, add_zero, hslot, hself] at hlo
  have hhi : (s.full (s.consumer w).cursor.slot).phase ≤ (s.consumer w).load / K.stages + 1 := by
    refine ((h.full _ hlt).phase_le.trans (turns_mono (s.producer.expected_le_acquired K))).trans ?_
    have hrel := h.released _ hlt w
    rw [hslot, hself] at hrel
    rwa [hslot]
  rw [← hslot] at hlo
  rw [State.isFull]
  have hphase := congrArg PipelineState.phase (h.consumer_cursor w)
  rw [hphase]
  exact PhaseBarrier.tryWaitParity_iff hlo hhi

/-! ### The steps keep the invariant -/

/-- A new cursor is at ticket 0. -/
theorem new_eq_at (stages : ℕ) (role : Role) :
    PipelineState.new role = .at stages role.initialPhase 0 := by
  cases role <;> simp [PipelineState.new, PipelineState.at, Role.initialPhase]

/-- The loop acquires or is over. -/
theorem loop_cases (load : ℕ) :
    ProducerStep.loop K load = .acquire ∧ load < K.loads ∨
      ProducerStep.loop K load = .tail 0 ∧ K.loads ≤ load := by
  by_cases hload : load < K.loads
  · exact .inl ⟨if_pos hload, hload⟩
  · exact .inr ⟨if_neg hload, not_lt.mp hload⟩

/-- The loop does not start with an issue. -/
theorem loop_ne_issue (load i : ℕ) : ProducerStep.loop K load ≠ .issue i := by
  rcases loop_cases (K := K) load with ⟨h, -⟩ | ⟨h, -⟩ <;> rw [h] <;> simp

/-- At the head of its loop the producer has acquired and announced what it has loaded. -/
theorem loop_counts (cursor : PipelineState) (load : ℕ) :
    (ProducerThread.mk cursor load (.loop K load)).acquired K = load ∧
      (ProducerThread.mk cursor load (.loop K load)).expected = load ∧
      (ProducerThread.mk cursor load (.loop K load)).ticket = load := by
  rcases loop_cases (K := K) load with ⟨h, -⟩ | ⟨h, -⟩ <;> rw [h] <;> exact ⟨rfl, rfl, rfl⟩

/-- A producer at the head of the loop is valid. -/
theorem loop_valid (cursor : PipelineState) {load : ℕ} (hload : load ≤ K.loads) :
    (ProducerThread.mk cursor load (.loop K load)).Valid K := by
  rcases loop_cases (K := K) load with ⟨h, hlt⟩ | ⟨h, hge⟩ <;> rw [h]
  · exact hlt
  · exact ⟨le_antisymm hload hge, K.stages_pos⟩

/-- The invariant holds at the start. -/
theorem init (K : Kernel) (buffer : ℕ → ℕ → Option ℕ) : Inv (State.init K buffer) := by
  obtain ⟨hacquired, hexpected, hticket⟩ := loop_counts (K := K) (.new .producer) 0
  have hmissing : ∀ slot, (State.init K buffer).missing slot = ∅ := by
    intro slot
    ext part
    rw [State.mem_missing]
    simp only [Finset.notMem_empty, iff_false, not_and, not_or]
    exact fun _ => ⟨by simp [State.init], ProducerThread.not_unissued (loop_ne_issue 0)⟩
  constructor
  · exact loop_valid _ (Nat.zero_le _)
  · intro _
    rw [show (State.init K buffer).producer = ⟨.new .producer, 0, .loop K 0⟩ from rfl, hticket]
    exact new_eq_at K.stages .producer
  · exact fun w => new_eq_at K.stages .consumer
  · exact fun w => Nat.zero_le _
  · intro slot _
    rw [hmissing, show (State.init K buffer).producer = ⟨.new .producer, 0, .loop K 0⟩ from rfl,
      hexpected, turns_zero]
    exact PhaseBarrier.transacted_init
  · intro slot _
    refine ⟨rfl, ?_⟩
    simp only [State.init, turns_zero, Finset.sum_const_zero]
    exact PhaseBarrier.arrived_init K.consumerWarps_pos
  · exact fun c hc => absurd hc (Finset.notMem_empty c)
  · intro load part _ hturn
    rw [show (State.init K buffer).producer = ⟨.new .producer, 0, .loop K 0⟩ from rfl, hexpected,
      turns_zero] at hturn
    exact absurd hturn (Nat.succ_ne_zero _)
  · intro slot _ w
    rw [show (State.init K buffer).producer = ⟨.new .producer, 0, .loop K 0⟩ from rfl, hacquired,
      turns_zero]
    exact Nat.zero_le _
  · intro slot _ w
    simp [State.init, ConsumerWarp.begun]

/-- The wait of the producer lets the next stage be taken. -/
theorem released_succ (h : Inv s) (hnext : s.producer.next ≠ .done)
    (hticket : s.producer.ticket = s.producer.acquired K) (hwait : s.isEmpty)
    (hslot : slot < K.stages) (w : Fin K.consumerWarps) :
    turns K.stages slot (s.producer.acquired K + 1) ≤
      turns K.stages slot (s.consumer w).load + 1 := by
  by_cases hsame : s.producer.acquired K % K.stages = slot
  · have hall := (h.isEmpty_iff hnext hticket).mp hwait w
    rw [hticket, ← turns_self K.stages_pos, hsame] at hall
    rw [← hsame, turns_succ_self, hsame, hall]
  · rw [turns_succ_of_ne hsame]
    exact h.released slot hslot w

/-- `producer_acquire` keeps the invariant. -/
theorem producerAcquire (h : Inv s) (hnext : s.producer.next = .acquire) (hwait : s.isEmpty) :
    Inv s.producerAcquire := by
  have hacquired : s.producer.acquired K = s.producer.load := by
    simp [ProducerThread.acquired, hnext]
  have hexpected : s.producer.expected = s.producer.load := by
    simp [ProducerThread.expected, hnext]
  have hticket : s.producer.ticket = s.producer.load := by simp [ProducerThread.ticket, hnext]
  have hmissing : ∀ slot, s.producerAcquire.missing slot = s.missing slot := fun slot =>
    State.missing_congr rfl fun part _ => iff_of_false
      (ProducerThread.not_unissued fun i hi => by cases hi)
      (ProducerThread.not_unissued fun i hi => by rw [hnext] at hi; cases hi)
  constructor
  · have hvalid := h.producer
    simp only [ProducerThread.Valid, hnext] at hvalid
    exact hvalid
  · intro _
    show s.producer.cursor = .at K.stages 1 s.producer.load
    rw [← hticket]
    exact h.producer_cursor (by rw [hnext]; simp)
  · exact h.consumer_cursor
  · exact h.consumer_load
  · intro slot hslot
    rw [hmissing]
    have hfull := h.full slot hslot
    rwa [hexpected] at hfull
  · exact h.empty
  · intro c hc
    obtain ⟨hpart, hload, hturn, -⟩ := h.inFlight c hc
    rw [hexpected] at hturn
    exact ⟨hpart, hload, hturn, ProducerThread.not_unissued fun i hi => by cases hi⟩
  · intro load part hpart hturn hmem
    rw [hmissing] at hmem
    exact h.buffer load part hpart (hexpected ▸ hturn) hmem
  · intro slot hslot w
    have hsucc := h.released_succ (by rw [hnext]; simp) (hticket.trans hacquired.symm) hwait hslot w
    rwa [hacquired] at hsucc
  · exact h.filled

/-- A stage that the producer has acquired has nothing missing. -/
theorem missing_acquired (h : Inv s) (hnext : s.producer.next = .expectTx) :
    s.missing s.producer.cursor.slot = ∅ := by
  obtain ⟨hslot, hlt⟩ := h.slot_lt (by rw [hnext]; simp)
  have hacquired : s.producer.acquired K = s.producer.load + 1 := by
    simp [ProducerThread.acquired, hnext]
  have hexpected : s.producer.expected = s.producer.load := by
    simp [ProducerThread.expected, hnext]
  have hticket : s.producer.ticket = s.producer.load := by simp [ProducerThread.ticket, hnext]
  have hfull := h.full _ hlt
  refine hfull.phase_eq_iff.mp (le_antisymm hfull.phase_le ?_)
  have hrel := h.released _ hlt K.firstWarp
  rw [hacquired, hslot, hticket, turns_succ_self, ← hticket, ← hslot] at hrel
  rw [hexpected, ← hticket]
  exact (Nat.succ_le_succ_iff.mp hrel).trans
    ((turns_load_le_begun _).trans (h.filled _ hlt K.firstWarp))

/-- `producer_expect_tx` keeps the invariant. -/
theorem producerExpectTx (h : Inv s) (hnext : s.producer.next = .expectTx) :
    Inv s.producerExpectTx := by
  obtain ⟨hslot, hlt⟩ := h.slot_lt (by rw [hnext]; simp)
  have hacquired : s.producer.acquired K = s.producer.load + 1 := by
    simp [ProducerThread.acquired, hnext]
  have hexpected : s.producer.expected = s.producer.load := by
    simp [ProducerThread.expected, hnext]
  have hticket : s.producer.ticket = s.producer.load := by simp [ProducerThread.ticket, hnext]
  have hnone := h.missing_acquired hnext
  rw [hticket] at hslot
  have hmine : s.producerExpectTx.missing s.producer.cursor.slot =
      Finset.range K.copies.length := by
    ext part
    rw [State.mem_missing, Finset.mem_range]
    exact and_iff_left_of_imp fun _ => .inr ⟨0, rfl, rfl, Nat.zero_le _⟩
  have hother : ∀ slot, slot ≠ s.producer.cursor.slot →
      s.producerExpectTx.missing slot = s.missing slot := fun slot hne =>
    State.missing_congr rfl fun part _ => iff_of_false (fun ⟨_, _, heq, _⟩ => hne heq.symm)
      (ProducerThread.not_unissued fun i hi => by rw [hnext] at hi; cases hi)
  have hexpected' : ∀ slot, slot ≠ s.producer.cursor.slot →
      turns K.stages slot s.producerExpectTx.producer.expected =
        turns K.stages slot s.producer.expected := by
    intro slot hne
    rw [hexpected]
    exact turns_succ_of_ne fun heq => hne (heq.symm.trans hslot.symm)
  -- the stage had nothing in flight
  have hfresh : ∀ c ∈ s.inFlight, c.slot ≠ s.producer.cursor.slot := by
    intro c hc heq
    have hmem : c.part ∈ s.missing c.slot :=
      State.mem_missing.mpr ⟨(h.inFlight c hc).1, .inl ⟨c.load, hc⟩⟩
    rw [heq, hnone] at hmem
    exact absurd hmem (Finset.notMem_empty _)
  constructor
  · have hvalid := h.producer
    simp only [ProducerThread.Valid, hnext] at hvalid
    exact ⟨hvalid, Nat.zero_le _⟩
  · intro _
    show s.producer.cursor = .at K.stages 1 s.producer.load
    rw [← hticket]
    exact h.producer_cursor (by rw [hnext]; simp)
  · exact h.consumer_cursor
  · exact h.consumer_load
  · intro slot hslotlt
    by_cases hsame : slot = s.producer.cursor.slot
    · subst hsame
      have hfull := h.full _ hlt
      rw [hnone] at hfull
      rw [hmine]
      show (Function.update s.full s.producer.cursor.slot _ s.producer.cursor.slot).Transacted _
        (turns K.stages s.producer.cursor.slot (s.producer.load + 1)) _
      rw [Function.update_self, ← K.sum_bytes, hslot, turns_succ_self, ← hslot, ← hexpected]
      refine hfull.arriveExpectTx ?_
      rw [K.sum_bytes]
      exact K.txBytes_pos
    · rw [hother slot hsame, hexpected' slot hsame]
      show (Function.update s.full s.producer.cursor.slot _ slot).Transacted _ _ _
      rw [Function.update_of_ne hsame]
      exact h.full slot hslotlt
  · exact h.empty
  · intro c hc
    obtain ⟨hpart, hload, hturn, -⟩ := h.inFlight c hc
    rw [← hexpected' c.slot (hfresh c hc)] at hturn
    exact ⟨hpart, hload, hturn, fun ⟨_, _, heq, _⟩ => hfresh c hc heq.symm⟩
  · intro load part hpart hturn hmem
    by_cases hsame : load % K.stages = s.producer.cursor.slot
    · rw [hsame, hmine, Finset.mem_range] at hmem
      exact absurd hpart hmem
    · rw [hother _ hsame] at hmem
      exact h.buffer load part hpart (hturn.trans (hexpected' _ hsame)) hmem
  · intro slot hslotlt w
    have hrel := h.released slot hslotlt w
    rwa [hacquired] at hrel
  · intro slot hslotlt w
    refine (h.filled slot hslotlt w).trans ?_
    show _ ≤ (Function.update s.full s.producer.cursor.slot _ slot).phase
    by_cases hsame : slot = s.producer.cursor.slot
    · rw [hsame, Function.update_self]
      exact PhaseBarrier.phase_le_arriveExpectTx
    · rw [Function.update_of_ne hsame]

/-- Issuing a copy keeps the invariant. -/
theorem issue (h : Inv s) (hnext : s.producer.next = .issue part)
    (hpart : part < K.copies.length) : Inv (s.issue part) := by
  obtain ⟨hslot, hlt⟩ := h.slot_lt (by rw [hnext]; simp)
  have hacquired : s.producer.acquired K = s.producer.load + 1 := by
    simp [ProducerThread.acquired, hnext]
  have hexpected : s.producer.expected = s.producer.load + 1 := by
    simp [ProducerThread.expected, hnext]
  have hticket : s.producer.ticket = s.producer.load := by simp [ProducerThread.ticket, hnext]
  rw [hticket] at hslot
  have hunissued : ∀ slot p, s.producer.Unissued slot p ↔
      (s.issue part).producer.Unissued slot p ∨ slot = s.producer.cursor.slot ∧ p = part := by
    intro slot p
    constructor
    · rintro ⟨i, hi, hcursor, hle⟩
      obtain rfl := ProducerStep.issue.inj (hnext.symm.trans hi)
      rcases eq_or_lt_of_le hle with rfl | hlt
      · exact .inr ⟨hcursor.symm, rfl⟩
      · exact .inl ⟨part + 1, rfl, hcursor, hlt⟩
    · rintro (⟨i, hi, hcursor, hle⟩ | ⟨rfl, rfl⟩)
      · obtain rfl := ProducerStep.issue.inj (show ProducerStep.issue (part + 1) = .issue i from hi)
        exact ⟨part, hnext, hcursor, (Nat.le_succ _).trans hle⟩
      · exact ⟨p, hnext, rfl, le_rfl⟩
  -- the part moves from those announced to those in flight
  have hmissing : ∀ slot, (s.issue part).missing slot = s.missing slot := by
    intro slot
    ext p
    rw [State.mem_missing, State.mem_missing, hunissued]
    refine and_congr_right fun _ => ?_
    simp only [State.issue, Finset.mem_insert, Copy.mk.injEq]
    constructor
    · rintro (⟨load, ⟨rfl, -, rfl⟩ | hmem⟩ | hun)
      · exact .inr (.inr ⟨rfl, rfl⟩)
      · exact .inl ⟨load, hmem⟩
      · exact .inr (.inl hun)
    · rintro (⟨load, hmem⟩ | hun | ⟨rfl, rfl⟩)
      · exact .inl ⟨load, .inr hmem⟩
      · exact .inr hun
      · exact .inl ⟨s.producer.load, .inl ⟨rfl, rfl, rfl⟩⟩
  constructor
  · have hvalid := h.producer
    simp only [ProducerThread.Valid, hnext] at hvalid
    exact ⟨hvalid.1, hpart⟩
  · intro _
    show s.producer.cursor = .at K.stages 1 s.producer.load
    rw [← hticket]
    exact h.producer_cursor (by rw [hnext]; simp)
  · exact h.consumer_cursor
  · exact h.consumer_load
  · intro slot hslotlt
    rw [hmissing]
    have hfull := h.full slot hslotlt
    rwa [hexpected] at hfull
  · exact h.empty
  · intro c hc
    rcases Finset.mem_insert.mp hc with rfl | hc
    · refine ⟨hpart, hslot.symm, ?_, fun ⟨i, hi, _, hle⟩ => ?_⟩
      · show s.producer.load / K.stages + 1 =
          turns K.stages s.producer.cursor.slot (s.producer.load + 1)
        rw [hslot, turns_succ_self, turns_self K.stages_pos]
      · obtain rfl := ProducerStep.issue.inj (show ProducerStep.issue (part + 1) = .issue i from hi)
        exact absurd hle (Nat.not_succ_le_self _)
    · obtain ⟨hcpart, hload, hturn, hun⟩ := h.inFlight c hc
      rw [hexpected] at hturn
      exact ⟨hcpart, hload, hturn, fun hun' => hun ((hunissued _ _).mpr (.inl hun'))⟩
  · intro load p hp hturn hmem
    rw [hmissing] at hmem
    exact h.buffer load p hp (hexpected ▸ hturn) hmem
  · intro slot hslotlt w
    have hrel := h.released slot hslotlt w
    rwa [hacquired] at hrel
  · exact h.filled

/-- `producer_advance` keeps the invariant. -/
theorem producerAdvance (h : Inv s) (hnext : s.producer.next = .issue K.copies.length) :
    Inv s.producerAdvance := by
  have hacquired : s.producer.acquired K = s.producer.load + 1 := by
    simp [ProducerThread.acquired, hnext]
  have hexpected : s.producer.expected = s.producer.load + 1 := by
    simp [ProducerThread.expected, hnext]
  have hticket : s.producer.ticket = s.producer.load := by simp [ProducerThread.ticket, hnext]
  obtain ⟨hacquired', hexpected', hticket'⟩ :=
    loop_counts (K := K) (s.producer.cursor.advance K.stages) (s.producer.load + 1)
  have hload : s.producer.load < K.loads := by
    have hvalid := h.producer
    simp only [ProducerThread.Valid, hnext] at hvalid
    exact hvalid.1
  have hmissing : ∀ slot, s.producerAdvance.missing slot = s.missing slot := fun slot =>
    State.missing_congr rfl fun part hpart => iff_of_false
      (ProducerThread.not_unissued (loop_ne_issue _)) fun ⟨i, hi, _, hle⟩ => by
        obtain rfl := ProducerStep.issue.inj (hnext.symm.trans hi)
        omega
  -- advancing changes the producer only
  constructor
  · exact loop_valid _ hload
  · intro _
    rw [show s.producerAdvance.producer = ⟨s.producer.cursor.advance K.stages,
      s.producer.load + 1, .loop K (s.producer.load + 1)⟩ from rfl, hticket',
      h.producer_cursor (by rw [hnext]; simp), hticket]
    exact PipelineState.advance_at K.stages_pos K.stages_lt _ _
  · exact h.consumer_cursor
  · exact h.consumer_load
  · intro slot hslot
    rw [hmissing, show s.producerAdvance.producer.expected = s.producer.expected from
      hexpected'.trans hexpected.symm]
    exact h.full slot hslot
  · exact h.empty
  · intro c hc
    obtain ⟨hpart, hcload, hturn, -⟩ := h.inFlight c hc
    refine ⟨hpart, hcload, hturn.trans ?_, ProducerThread.not_unissued (loop_ne_issue _)⟩
    rw [show s.producerAdvance.producer.expected = s.producer.expected from
      hexpected'.trans hexpected.symm]
  · intro load part hpart hturn hmem
    rw [hmissing] at hmem
    rw [show s.producerAdvance.producer.expected = s.producer.expected from
      hexpected'.trans hexpected.symm] at hturn
    exact h.buffer load part hpart hturn hmem
  · intro slot hslot w
    rw [show s.producerAdvance.producer.acquired K = s.producer.acquired K from
      hacquired'.trans hacquired.symm]
    exact h.released slot hslot w
  · exact h.filled

/-- `producer_tail` keeps the invariant. -/
theorem producerTail {waited : ℕ} (h : Inv s) (hnext : s.producer.next = .tail waited)
    (hwait : s.isEmpty) : Inv (s.producerTail waited) := by
  have hacquired : s.producer.acquired K = s.producer.load + waited := by
    simp [ProducerThread.acquired, hnext]
  have hexpected : s.producer.expected = s.producer.load := by
    simp [ProducerThread.expected, hnext]
  have hticket : s.producer.ticket = s.producer.load + waited := by
    simp [ProducerThread.ticket, hnext]
  obtain ⟨hload, hwaited⟩ : s.producer.load = K.loads ∧ waited < K.stages := by
    have hvalid := h.producer
    simpa only [ProducerThread.Valid, hnext] using hvalid
  have hcursor := h.producer_cursor (by rw [hnext]; simp)
  -- the thread after the wait, behind the last stage or in front of another one
  obtain ⟨p', hp', hvalid', hcursor', hacquired', hexpected', hissue'⟩ :
      ∃ p', (s.producerTail waited).producer = p' ∧ p'.Valid K ∧
        (p'.next ≠ .done → p'.cursor = .at K.stages 1 p'.ticket) ∧
        p'.acquired K = s.producer.acquired K + 1 ∧ p'.expected = s.producer.expected ∧
        ∀ i, p'.next ≠ .issue i := by
    by_cases hlast : waited + 1 = K.stages
    · refine ⟨{ s.producer with next := .done }, if_pos hlast, hload, fun hne => absurd rfl hne, ?_,
        hexpected.symm, fun i => by simp⟩
      show s.producer.load + K.stages = _
      rw [hacquired, ← hlast, Nat.add_assoc]
    · refine ⟨{ s.producer with
          cursor := s.producer.cursor.advance K.stages, next := .tail (waited + 1) },
        if_neg hlast, ⟨hload, by omega⟩, fun _ => ?_, ?_, hexpected.symm, fun i => by simp⟩
      · show s.producer.cursor.advance K.stages = .at K.stages 1 (s.producer.load + (waited + 1))
        rw [hcursor, hticket, PipelineState.advance_at K.stages_pos K.stages_lt, Nat.add_assoc]
      · show s.producer.load + (waited + 1) = _
        rw [hacquired, Nat.add_assoc]
  have hmissing : ∀ slot, (s.producerTail waited).missing slot = s.missing slot := fun slot =>
    State.missing_congr rfl fun part _ => iff_of_false
      (ProducerThread.not_unissued (by rw [hp']; exact hissue'))
      (ProducerThread.not_unissued fun i hi => by rw [hnext] at hi; cases hi)
  constructor
  · rw [hp']
    exact hvalid'
  · rw [hp']
    exact hcursor'
  · exact h.consumer_cursor
  · exact h.consumer_load
  · intro slot hslot
    rw [hmissing, hp', hexpected']
    exact h.full slot hslot
  · exact h.empty
  · intro c hc
    obtain ⟨hpart, hcload, hturn, -⟩ := h.inFlight c hc
    rw [hp', hexpected']
    exact ⟨hpart, hcload, hturn, ProducerThread.not_unissued hissue'⟩
  · intro load part hpart hturn hmem
    rw [hmissing] at hmem
    rw [hp', hexpected'] at hturn
    exact h.buffer load part hpart hturn hmem
  · intro slot hslot w
    rw [hp', hacquired']
    exact h.released_succ (by rw [hnext]; simp) (hticket.trans hacquired.symm) hwait hslot w
  · exact h.filled

/-- The arrival of a copy keeps the invariant. -/
theorem land {c : Copy} (h : Inv s) (hmem : c ∈ s.inFlight) : Inv (s.land c) := by
  obtain ⟨hpart, hload, hturn, hun⟩ := h.inFlight c hmem
  have hslot : c.slot < K.stages := hload ▸ Nat.mod_lt _ K.stages_pos
  -- the copy that lands is no longer missing, and it is the only one
  have hmine : (s.land c).missing c.slot = (s.missing c.slot).erase c.part := by
    ext part
    rw [Finset.mem_erase, State.mem_missing, State.mem_missing]
    constructor
    · rintro ⟨hlt, hmiss⟩
      refine ⟨?_, hlt, hmiss.imp_left fun ⟨load, hfly⟩ => ⟨load, Finset.mem_of_mem_erase hfly⟩⟩
      rintro rfl
      rcases hmiss with ⟨load, hfly⟩ | hmiss
      · -- two copies of one slot in flight are of one stage
        obtain ⟨hne, hfly⟩ := Finset.mem_erase.mp hfly
        obtain ⟨-, hload', hturn', -⟩ := h.inFlight _ hfly
        refine hne (Copy.mk.injEq .. |>.mpr ⟨rfl, eq_of_turn (hload'.trans hload.symm) ?_, rfl⟩)
        exact Nat.succ_injective (hturn'.trans hturn.symm)
      · exact hun hmiss
    · rintro ⟨hne, hlt, hmiss⟩
      refine ⟨hlt, hmiss.imp_left fun ⟨load, hfly⟩ => ⟨load, Finset.mem_erase.mpr ⟨?_, hfly⟩⟩⟩
      exact fun heq => hne (congrArg Copy.part heq)
  have hother : ∀ slot, slot ≠ c.slot → (s.land c).missing slot = s.missing slot := by
    intro slot hne
    ext part
    rw [State.mem_missing, State.mem_missing]
    refine and_congr_right fun _ => or_congr_left (exists_congr fun load => ?_)
    refine ⟨Finset.mem_of_mem_erase, fun hfly => Finset.mem_erase.mpr ⟨?_, hfly⟩⟩
    exact fun heq => hne (congrArg Copy.slot heq)
  -- the landing changes one full barrier and one slot of the buffer
  constructor
  · exact h.producer
  · exact h.producer_cursor
  · exact h.consumer_cursor
  · exact h.consumer_load
  · intro slot hslotlt
    show (Function.update s.full c.slot _ slot).Transacted _ _ _
    -- only the barrier of this slot counts the bytes
    by_cases hsame : slot = c.slot
    · subst hsame
      rw [Function.update_self, hmine]
      refine (h.full _ hslot).completeTx (State.mem_missing.mpr ⟨hpart, .inl ⟨c.load, hmem⟩⟩) ?_
      exact fun i hi => K.bytes_pos (State.mem_missing.mp hi).1
    · rw [Function.update_of_ne hsame, hother slot hsame]
      exact h.full slot hslotlt
  · exact h.empty
  · exact fun c' hc' => h.inFlight c' (Finset.mem_of_mem_erase hc')
  · intro load part hpart' hturn' hnot
    show Function.update s.buffer c.slot (Function.update (s.buffer c.slot) c.part (some c.load))
      (load % K.stages) part = some load
    -- the slot is filled with the load of this copy
    by_cases hsame : load % K.stages = c.slot
    · have heq : load = c.load := by
        refine eq_of_turn (hsame.trans hload.symm) (Nat.succ_injective (hturn'.trans ?_))
        rw [hsame]
        exact hturn.symm
      rw [hsame, Function.update_self]
      by_cases hsamepart : part = c.part
      · rw [hsamepart, Function.update_self, heq]
      · rw [Function.update_of_ne hsamepart, ← hsame]
        refine h.buffer load part hpart' hturn' fun hmiss => hnot ?_
        rw [hsame, hmine]
        exact Finset.mem_erase.mpr ⟨hsamepart, hsame ▸ hmiss⟩
    · rw [Function.update_of_ne hsame]
      refine h.buffer load part hpart' hturn' ?_
      rwa [← hother _ hsame]
  · exact h.released
  · intro slot hslotlt w
    refine (h.filled slot hslotlt w).trans ?_
    show _ ≤ (Function.update s.full c.slot _ slot).phase
    by_cases hsame : slot = c.slot
    · rw [hsame, Function.update_self]
      exact PhaseBarrier.phase_le_completeTx
    · rw [Function.update_of_ne hsame]

/-- `consumer_wait` keeps the invariant. -/
theorem consumerWait (h : Inv s) (hreading : (s.consumer w).reading = false)
    (hload : (s.consumer w).load < K.loads) (hwait : s.isFull w) : Inv (s.consumerWait w) := by
  obtain ⟨hslot, hlt⟩ := h.consumer_slot w
  have hphase := (h.isFull_iff hreading).mp hwait
  have hmissing : ∀ slot, (s.consumerWait w).missing slot = s.missing slot := fun slot =>
    State.missing_congr rfl fun part _ => Iff.rfl
  -- only warp `w` starts to read
  have hcases : ∀ v, (s.consumerWait w).consumer v = { s.consumer w with reading := true } ∧ v = w ∨
      (s.consumerWait w).consumer v = s.consumer v := by
    intro v
    by_cases hv : v = w
    · exact .inl ⟨by rw [hv]; exact Function.update_self w _ _, hv⟩
    · exact .inr (Function.update_of_ne hv _ _)
  have hsame : ∀ v, ((s.consumerWait w).consumer v).load = (s.consumer v).load ∧
      ((s.consumerWait w).consumer v).cursor = (s.consumer v).cursor := by
    intro v
    rcases hcases v with ⟨hv, rfl⟩ | hv <;> rw [hv] <;> exact ⟨rfl, rfl⟩
  constructor
  · exact h.producer
  · exact h.producer_cursor
  · intro v
    rw [(hsame v).1, (hsame v).2]
    exact h.consumer_cursor v
  · intro v
    rcases hcases v with ⟨hv, -⟩ | hv <;> rw [hv]
    · exact hload
    · exact h.consumer_load v
  · intro slot hslotlt
    rw [hmissing]
    exact h.full slot hslotlt
  · intro slot hslotlt
    simp only [(hsame _).1]
    exact h.empty slot hslotlt
  · exact h.inFlight
  · intro load part hpart hturn hmem
    rw [hmissing] at hmem
    exact h.buffer load part hpart hturn hmem
  · intro slot hslotlt v
    rw [(hsame v).1]
    exact h.released slot hslotlt v
  -- the warp that waited has seen the phase of its load
  · intro slot hslotlt v
    rcases hcases v with ⟨hv, rfl⟩ | hv <;> rw [hv]
    · show turns K.stages slot ((s.consumer v).load + 1) ≤ (s.full slot).phase
      by_cases hmine : (s.consumer v).load % K.stages = slot
      · rw [← hmine, turns_succ_self, turns_self K.stages_pos, ← hslot, hphase]
      · rw [turns_succ_of_ne hmine]
        exact (turns_load_le_begun v).trans (h.filled slot hslotlt v)
    · exact h.filled slot hslotlt v

/-- `consumer_release` keeps the invariant. -/
theorem consumerRelease (h : Inv s) (hreading : (s.consumer w).reading) :
    Inv (s.consumerRelease w) := by
  obtain ⟨hslot, hlt⟩ := h.consumer_slot w
  have hmissing : ∀ slot, (s.consumerRelease w).missing slot = s.missing slot := fun slot =>
    State.missing_congr rfl fun part _ => Iff.rfl
  -- only warp `w` goes on to the next load
  have hcases : ∀ v, (s.consumerRelease w).consumer v =
      ⟨(s.consumer w).cursor.advance K.stages, (s.consumer w).load + 1, false⟩ ∧ v = w ∨
      (s.consumerRelease w).consumer v = s.consumer v ∧ v ≠ w := by
    intro v
    by_cases hv : v = w
    · exact .inl ⟨by rw [hv]; exact Function.update_self w _ _, hv⟩
    · exact .inr ⟨Function.update_of_ne hv _ _, hv⟩
  have hbegun : ∀ v, ((s.consumerRelease w).consumer v).begun = (s.consumer v).begun := by
    intro v
    rcases hcases v with ⟨hv, rfl⟩ | ⟨hv, -⟩ <;> rw [hv]
    simp [ConsumerWarp.begun, hreading]
  -- its slot has been released once more
  have hturns : ∀ slot v, turns K.stages slot ((s.consumerRelease w).consumer v).load =
      turns K.stages slot (s.consumer v).load +
        if v = w ∧ (s.consumer w).cursor.slot = slot then 1 else 0 := by
    intro slot v
    rcases hcases v with ⟨hv, rfl⟩ | ⟨hv, hne⟩ <;> rw [hv]
    · rw [turns_succ, hslot]
      simp
    · simp [hne]
  constructor
  · exact h.producer
  · exact h.producer_cursor
  · intro v
    rcases hcases v with ⟨hv, rfl⟩ | ⟨hv, -⟩ <;> rw [hv]
    · show (s.consumer v).cursor.advance K.stages = .at K.stages 0 ((s.consumer v).load + 1)
      rw [h.consumer_cursor v]
      exact PipelineState.advance_at K.stages_pos K.stages_lt _ _
    · exact h.consumer_cursor v
  · intro v
    rw [hbegun]
    exact h.consumer_load v
  · intro slot hslotlt
    rw [hmissing]
    exact h.full slot hslotlt
  -- only the empty barrier of this slot counts the arrival
  · intro slot hslotlt
    obtain ⟨hcount, harrived⟩ := h.empty slot hslotlt
    simp only [hturns, Finset.sum_add_distrib]
    show (Function.update s.empty (s.consumer w).cursor.slot _ slot).count = _ ∧
      (Function.update s.empty (s.consumer w).cursor.slot _ slot).Arrived _
    by_cases hmine : slot = (s.consumer w).cursor.slot
    · subst hmine
      rw [Function.update_self, PhaseBarrier.arrive_count]
      refine ⟨hcount, ?_⟩
      simpa using harrived.arrive
    · rw [Function.update_of_ne hmine]
      refine ⟨hcount, ?_⟩
      simpa [Ne.symm hmine] using harrived
  · exact h.inFlight
  · intro load part hpart hturn hmem
    rw [hmissing] at hmem
    exact h.buffer load part hpart hturn hmem
  · intro slot hslotlt v
    refine (h.released slot hslotlt v).trans (Nat.add_le_add_right ?_ 1)
    rw [hturns]
    exact Nat.le_add_right _ _
  · intro slot hslotlt v
    rw [hbegun]
    exact h.filled slot hslotlt v

/-- Every step keeps the invariant. -/
theorem step (h : Inv s) (hstep : Step s s') : Inv s' := by
  cases hstep with
  | producerAcquire hnext hwait => exact h.producerAcquire hnext hwait
  | producerExpectTx hnext => exact h.producerExpectTx hnext
  | issue hnext hpart => exact h.issue hnext hpart
  | producerAdvance hnext => exact h.producerAdvance hnext
  | producerTail hnext hwait => exact h.producerTail hnext hwait
  | land hmem => exact h.land hmem
  | consumerWait hreading hload hwait => exact h.consumerWait hreading hload hwait
  | consumerRelease hreading => exact h.consumerRelease hreading

/-- The invariant holds in every reachable state. -/
theorem of_reachable (h : (tmaLoadPipeline K).Reachable s) : Inv s := by
  refine h.invariant ?_ fun _ _ => step
  rintro _ ⟨buffer, rfl⟩
  exact init K buffer

end Inv

/-! ### Safety -/

/-- What a kernel relies on in a state. -/
structure Safe (s : State K) : Prop where
  /-- a stage that a warp reads holds the whole tile whose turn it is … -/
  holds : ∀ w, (s.consumer w).reading → ∀ part < K.copies.length,
    s.buffer (s.consumer w).cursor.slot part = some (s.consumer w).load
  /-- … and no copy writes into it, or is about to be started. -/
  quiet : ∀ w, (s.consumer w).reading → ∀ c ∈ s.inFlight, c.slot ≠ (s.consumer w).cursor.slot
  unissued : ∀ w, (s.consumer w).reading → ∀ i, s.producer.next = .issue i →
    i < K.copies.length → s.producer.cursor.slot ≠ (s.consumer w).cursor.slot
  /-- The slots are slots of the ring. -/
  slot_lt : s.producer.next ≠ .done → s.producer.cursor.slot < K.stages
  consumer_slot_lt : ∀ w, (s.consumer w).cursor.slot < K.stages
  /-- Every arrival is one that its barrier waits for. -/
  expectTx : s.producer.next = .expectTx → 0 < (s.full s.producer.cursor.slot).pending
  release : ∀ w, (s.consumer w).reading → 0 < (s.empty (s.consumer w).cursor.slot).pending
  /-- Behind the tail the barriers and buffers are free: nothing is in flight, and every warp has
  released every stage. -/
  drained : s.producer.next = .done → s.inFlight = ∅ ∧
    ∀ w, (s.consumer w).load = K.loads ∧ (s.consumer w).reading = false

variable {s : State K}

/-- What a warp reads is the last stage that was announced for the slot, and it is complete. -/
theorem Inv.reading_complete (h : Inv s) {w : Fin K.consumerWarps}
    (hreading : (s.consumer w).reading) :
    (s.consumer w).load / K.stages + 1 =
        turns K.stages (s.consumer w).cursor.slot s.producer.expected ∧
      s.missing (s.consumer w).cursor.slot = ∅ := by
  obtain ⟨hslot, hlt⟩ := h.consumer_slot w
  have hself := turns_self K.stages_pos (s.consumer w).load
  have hlo := h.filled _ hlt w
  rw [ConsumerWarp.begun, hreading, if_pos rfl, hslot, turns_succ_self, hself] at hlo
  have hfull := h.full _ hlt
  have hhi : turns K.stages (s.consumer w).cursor.slot s.producer.expected ≤
      (s.consumer w).load / K.stages + 1 := by
    refine (turns_mono (s.producer.expected_le_acquired K)).trans ?_
    have hrel := h.released _ hlt w
    rw [hslot, hself] at hrel
    rwa [hslot]
  rw [← hslot] at hlo
  exact ⟨le_antisymm (hlo.trans hfull.phase_le) hhi,
    hfull.phase_eq_iff.mp (le_antisymm hfull.phase_le (hhi.trans hlo))⟩

/-- Behind the tail every warp has released every stage, and nothing is in flight. -/
theorem Inv.drained (h : Inv s) (hdone : s.producer.next = .done) : s.inFlight = ∅ ∧
    ∀ w, (s.consumer w).load = K.loads ∧ (s.consumer w).reading = false := by
  have hload : s.producer.load = K.loads := by
    have hvalid := h.producer
    simpa only [ProducerThread.Valid, hdone] using hvalid
  have hacquired : s.producer.acquired K = K.loads + K.stages := by
    simp [ProducerThread.acquired, hdone, hload]
  have hexpected : s.producer.expected = K.loads := by
    simp [ProducerThread.expected, hdone, hload]
  have hturns : ∀ slot < K.stages, ∀ w,
      turns K.stages slot K.loads ≤ turns K.stages slot (s.consumer w).load := by
    intro slot hslot w
    have hrel := h.released slot hslot w
    rw [hacquired, turns_round hslot] at hrel
    exact Nat.succ_le_succ_iff.mp hrel
  have hall : ∀ w, (s.consumer w).load = K.loads ∧ (s.consumer w).reading = false := by
    intro w
    have hge := le_of_turns_le K.stages_pos fun slot hslot => hturns slot hslot w
    have hle := h.consumer_load w
    unfold ConsumerWarp.begun at hle
    cases hreading : (s.consumer w).reading with
    | false => exact ⟨by omega, rfl⟩
    | true =>
      rw [hreading, if_pos rfl] at hle
      omega
  refine ⟨Finset.eq_empty_of_forall_notMem fun c hc => ?_, hall⟩
  obtain ⟨hpart, hcload, hturn, -⟩ := h.inFlight c hc
  have hslot : c.slot < K.stages := hcload ▸ Nat.mod_lt _ K.stages_pos
  have hfull := h.full c.slot hslot
  have hphase := (hturns c.slot hslot K.firstWarp).trans
    ((Inv.turns_load_le_begun _).trans (h.filled c.slot hslot _))
  rw [← hexpected] at hphase
  have hnone := hfull.phase_eq_iff.mp (le_antisymm hfull.phase_le hphase)
  have hmem : c.part ∈ s.missing c.slot := State.mem_missing.mpr ⟨hpart, .inl ⟨c.load, hc⟩⟩
  rw [hnone] at hmem
  exact absurd hmem (Finset.notMem_empty _)

/-- The invariant implies safety. -/
theorem Inv.safe (h : Inv s) : Safe s where
  holds w hreading part hpart := by
    obtain ⟨hturn, hnone⟩ := h.reading_complete hreading
    rw [(h.consumer_slot w).1] at hturn hnone ⊢
    exact h.buffer _ part hpart hturn (hnone ▸ Finset.notMem_empty _)
  quiet w hreading c hc heq := by
    have hmem : c.part ∈ s.missing c.slot :=
      State.mem_missing.mpr ⟨(h.inFlight c hc).1, .inl ⟨c.load, hc⟩⟩
    rw [heq, (h.reading_complete hreading).2] at hmem
    exact absurd hmem (Finset.notMem_empty _)
  unissued w hreading i hi hlt heq := by
    have hmem : i ∈ s.missing (s.consumer w).cursor.slot :=
      State.mem_missing.mpr ⟨hlt, .inr ⟨i, hi, heq, le_rfl⟩⟩
    rw [(h.reading_complete hreading).2] at hmem
    exact absurd hmem (Finset.notMem_empty _)
  slot_lt hnext := (h.slot_lt hnext).2
  consumer_slot_lt w := (h.consumer_slot w).2
  expectTx hnext := by
    have hphase := (h.full _ (h.slot_lt (by rw [hnext]; simp)).2).phase
    rw [if_pos (h.missing_acquired hnext)] at hphase
    omega
  release w _ := (h.empty _ (h.consumer_slot w).2).2.pending_pos
  drained := h.drained

/-- **The pipeline is safe**, in every reachable state, for every number of stages, warps, copies
and loads. -/
theorem reachable_safe (h : (tmaLoadPipeline K).Reachable s) : Safe s := (Inv.of_reachable h).safe

/-- Two stages for one warp, three loads of one copy of 16 bytes each. -/
def smallKernel : Kernel where
  stages := 2
  consumerWarps := 1
  txBytes := 16
  stages_pos := by decide
  stages_lt := by decide
  consumerWarps_pos := by decide
  consumerWarps_le := by decide
  txBytes_pos := by decide
  copies := [16]
  copies_pos := by decide
  copies_sum := by decide
  loads := 3

/-- The state in which the warp reads the first tile. -/
theorem safe_first_tile :
    ∃ s : State smallKernel, (s.consumer smallKernel.firstWarp).reading ∧ s.buffer 0 0 = some 0 ∧
      Safe s := by
  let s₀ : State smallKernel := .init smallKernel fun _ _ => none
  let s₁ := s₀.producerAcquire.producerExpectTx
  let s₂ := (s₁.issue 0).land ⟨0, 0, 0⟩
  have h₀ : (tmaLoadPipeline smallKernel).Reachable s₀ := .init ⟨_, rfl⟩
  have h₁ : (tmaLoadPipeline smallKernel).Reachable s₁ :=
    .step (.step h₀ (.producerAcquire rfl (by decide))) (.producerExpectTx rfl)
  have h₂ : (tmaLoadPipeline smallKernel).Reachable s₂ :=
    .step (.step h₁ (.issue rfl (by decide))) (.land (Finset.mem_insert_self _ _))
  have h₃ : (tmaLoadPipeline smallKernel).Reachable (s₂.consumerWait smallKernel.firstWarp) :=
    .step h₂ (.consumerWait rfl (by decide) (by decide))
  exact ⟨s₂.consumerWait smallKernel.firstWarp, rfl, rfl, reachable_safe h₃⟩

end CudaOxide.Pipeline
