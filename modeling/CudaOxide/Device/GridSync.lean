import CudaOxide.Device.Thread
import CudaOxide.Lib.Countdown
import CudaOxide.Lib.System
import CudaOxide.Lib.Tally

/-!
# The barrier of a cooperative grid

`grid::sync` (`cuda-device/src/grid.rs`) is two barriers of the block around a barrier of the block
leaders: each leader adds to one counter and waits until the high bit of the counter flips.  The
counter is never reset.

* `arrivalAmount` — what a leader adds; the amounts of all blocks sum up to the high bit.
* `Step` — the steps of the threads, in any order.
* `Inv` — no block is a round ahead of another, and the counter counts the rounds.
* `flipped_iff` — a leader sees the flip exactly when all leaders have arrived.
* `grid_sync_separates`, `grid_sync_completes` — what the barrier is for: safety and progress.
-/

namespace CudaOxide.Device.GridSync

open Lib

/-! ### The launch -/

/-- The coordinates in an extent. -/
abbrev Coord (d : Dim3) := Fin d.x.toNat × Fin d.y.toNat × Fin d.z.toNat

/-- `x | y | z == 0` -/
def isMaster {d : Dim3} (c : Coord d) : Bool := c.1.val ||| c.2.1.val ||| c.2.2.val == 0

/-- A cooperative launch whose threads call `grid::sync` a number of times. -/
structure CooperativeLaunch where
  gridDim : Dim3
  blockDim : Dim3
  grid_pos : 0 < gridDim.x.toNat ∧ 0 < gridDim.y.toNat ∧ 0 < gridDim.z.toNat
  block_pos : 0 < blockDim.x.toNat ∧ 0 < blockDim.y.toNat ∧ 0 < blockDim.z.toNat
  blocks_le : gridDim.x.toNat * gridDim.y.toNat * gridDim.z.toNat ≤ 2 ^ 31
  syncs : ℕ

namespace CooperativeLaunch

variable (L : CooperativeLaunch)

/-- The blocks of the grid. -/
abbrev Block := Coord L.gridDim

/-- The threads of a block. -/
abbrev Thread := Coord L.blockDim

/-- The block `blockIdx == 0`. -/
def gpuMaster : L.Block := ⟨⟨0, L.grid_pos.1⟩, ⟨0, L.grid_pos.2.1⟩, ⟨0, L.grid_pos.2.2⟩⟩

/-- The thread `threadIdx == 0`. -/
def ctaMaster : L.Thread := ⟨⟨0, L.block_pos.1⟩, ⟨0, L.block_pos.2.1⟩, ⟨0, L.block_pos.2.2⟩⟩

/-- The number of blocks, as the leaders compute it. -/
def expected : UInt32 := L.gridDim.x * L.gridDim.y * L.gridDim.z

/-- What the leader of a block adds to the counter (`nb`). -/
def arrivalAmount (b : L.Block) : UInt32 :=
  if isMaster b then 0x80000000 - (L.expected - 1) else 1

end CooperativeLaunch

/-- `bar_has_flipped` -/
def barHasFlipped (prev current : UInt32) : Bool := (prev ^^^ current) &&& 0x80000000 != 0

/-! ### The steps -/

/-- Where a thread is in a call of `sync`. -/
inductive Stage where
  /-- outside of a call -/
  | running
  /-- at the first barrier of the block -/
  | entered
  /-- a leader before `fetch_add` -/
  | arriving
  /-- a leader in the loop -/
  | spinning (oldArrive : UInt32)
  /-- at the second barrier of the block -/
  | leaving
  deriving DecidableEq, Repr

/-- What a thread has done. -/
structure ThreadState where
  /-- the calls that have returned -/
  rounds : ℕ
  stage : Stage
  deriving DecidableEq, Repr

namespace ThreadState

/-- How often the thread has come to a barrier of its block. -/
def arrivals (t : ThreadState) : ℕ :=
  match t.stage with
  | .running => 2 * t.rounds
  | .entered | .arriving | .spinning _ => 2 * t.rounds + 1
  | .leaving => 2 * t.rounds + 2

/-- How many barriers of its block the thread has passed. -/
def passed (t : ThreadState) : ℕ :=
  match t.stage with
  | .running | .entered => 2 * t.rounds
  | .arriving | .spinning _ | .leaving => 2 * t.rounds + 1

/-- How often a leader has added to the counter. -/
def adds (t : ThreadState) : ℕ :=
  match t.stage with
  | .running | .entered | .arriving => t.rounds
  | .spinning _ | .leaving => t.rounds + 1

/-- How often a leader has seen the counter flip. -/
def released (t : ThreadState) : ℕ :=
  match t.stage with
  | .running | .entered | .arriving | .spinning _ => t.rounds
  | .leaving => t.rounds + 1

/-- The thread has begun its call number `r`. -/
def Entered (t : ThreadState) (r : ℕ) : Prop := r < t.rounds ∨ r = t.rounds ∧ t.stage ≠ .running

end ThreadState

variable {L : CooperativeLaunch}

/-- The counter and the threads. -/
structure State (L : CooperativeLaunch) where
  /-- the counter of the grid workspace -/
  barrier : UInt32
  thread : L.Block × L.Thread → ThreadState

namespace State

/-- One thread moves on. -/
def set (s : State L) (i : L.Block × L.Thread) (t : ThreadState) : State L :=
  { s with thread := Function.update s.thread i t }

/-- `bar.sync 0` lets a thread pass when all threads of its block have come to it. -/
def barPasses (s : State L) (i : L.Block × L.Thread) : Prop :=
  ∀ u, (s.thread i).arrivals ≤ (s.thread (i.1, u)).arrivals

instance (s : State L) (i : L.Block × L.Thread) : Decidable (s.barPasses i) :=
  inferInstanceAs (Decidable (∀ u, (s.thread i).arrivals ≤ (s.thread (i.1, u)).arrivals))

/-- The leader of a block. -/
def leader (s : State L) (b : L.Block) : ThreadState := s.thread (b, L.ctaMaster)

/-- The additions of a block are those of its leader. -/
def adds (s : State L) (b : L.Block) : ℕ := (s.leader b).adds

end State

/-- One step of one thread.  A load that shows no flip changes nothing and is no step. -/
inductive Step (L : CooperativeLaunch) : State L → State L → Prop
  | call {s : State L} {i : L.Block × L.Thread} {r : ℕ} (h : s.thread i = ⟨r, .running⟩)
      (hlt : r < L.syncs) : Step L s (s.set i ⟨r, .entered⟩)
  | cross {s : State L} {i : L.Block × L.Thread} {r : ℕ} (h : s.thread i = ⟨r, .entered⟩)
      (hbar : s.barPasses i) :
      Step L s (s.set i ⟨r, if isMaster i.2 then .arriving else .leaving⟩)
  | fetchAdd {s : State L} {i : L.Block × L.Thread} {r : ℕ} (h : s.thread i = ⟨r, .arriving⟩) :
      Step L s { s.set i ⟨r, .spinning s.barrier⟩ with
        barrier := s.barrier + L.arrivalAmount i.1 }
  | load {s : State L} {i : L.Block × L.Thread} {r : ℕ} {oldArrive : UInt32}
      (h : s.thread i = ⟨r, .spinning oldArrive⟩) (hflip : barHasFlipped oldArrive s.barrier) :
      Step L s (s.set i ⟨r, .leaving⟩)
  | finish {s : State L} {i : L.Block × L.Thread} {r : ℕ} (h : s.thread i = ⟨r, .leaving⟩)
      (hbar : s.barPasses i) : Step L s (s.set i ⟨r + 1, .running⟩)

/-- No thread has called `sync`.  The low bits of the counter are zero: the driver clears them, and
every complete round leaves them so. -/
structure Initial (s : State L) : Prop where
  barrier : 2 ^ 31 ∣ s.barrier.toNat
  thread : ∀ i, s.thread i = ⟨0, .running⟩

/-- The grid as a system. -/
def grid (L : CooperativeLaunch) : System (State L) where
  Init := Initial
  Step := Step L

/-! ### The counter -/

section Counter

/-- The master has all coordinates zero. -/
theorem isMaster_iff {d : Dim3} {c : Coord d} :
    isMaster c = true ↔ c.1.val = 0 ∧ c.2.1.val = 0 ∧ c.2.2.val = 0 := by
  rw [isMaster, beq_iff_eq, Nat.or_eq_zero_iff, Nat.or_eq_zero_iff, and_assoc]

/-- The block that adds the large amount. -/
theorem isMaster_gpu {b : L.Block} : isMaster b = true ↔ b = L.gpuMaster := by
  rw [isMaster_iff]
  simp [CooperativeLaunch.gpuMaster, Prod.ext_iff, Fin.ext_iff]

/-- The thread of a block that adds. -/
theorem isMaster_cta {t : L.Thread} : isMaster t = true ↔ t = L.ctaMaster := by
  rw [isMaster_iff]
  simp [CooperativeLaunch.ctaMaster, Prod.ext_iff, Fin.ext_iff]

/-- The multiplication does not wrap. -/
theorem expected_toNat :
    L.expected.toNat = L.gridDim.x.toNat * L.gridDim.y.toNat * L.gridDim.z.toNat := by
  have hle := L.blocks_le
  have hxy : L.gridDim.x.toNat * L.gridDim.y.toNat ≤
      L.gridDim.x.toNat * L.gridDim.y.toNat * L.gridDim.z.toNat :=
    Nat.le_mul_of_pos_right _ L.grid_pos.2.2
  rw [CooperativeLaunch.expected, UInt32.toNat_mul, UInt32.toNat_mul,
    Nat.mod_eq_of_lt (a := L.gridDim.x.toNat * _) (by omega), Nat.mod_eq_of_lt (by omega)]

/-- A grid has a block. -/
theorem expected_pos : 0 < L.expected.toNat := by
  rw [expected_toNat]
  exact Nat.mul_pos (Nat.mul_pos L.grid_pos.1 L.grid_pos.2.1) L.grid_pos.2.2

/-- The number of blocks, as the source computes it. -/
theorem card_block : Fintype.card L.Block = L.expected.toNat := by
  rw [expected_toNat, Fintype.card_prod, Fintype.card_prod, Fintype.card_fin, Fintype.card_fin,
    Fintype.card_fin, Nat.mul_assoc]

/-- The master's amount makes the sum of a round `2 ^ 31`. -/
theorem arrivalAmount_master :
    (L.arrivalAmount L.gpuMaster).toNat = 2 ^ 31 - (L.expected.toNat - 1) := by
  have hpos := expected_pos (L := L)
  have hle : L.expected.toNat ≤ 2 ^ 31 := expected_toNat (L := L) ▸ L.blocks_le
  have hpred : (L.expected - 1).toNat = L.expected.toNat - 1 :=
    UInt32.toNat_sub_of_le _ _ (UInt32.le_iff_toNat_le.mpr hpos)
  rw [CooperativeLaunch.arrivalAmount, if_pos (isMaster_gpu.mpr rfl), UInt32.toNat_sub_of_le, hpred]
  · rfl
  · rw [UInt32.le_iff_toNat_le, hpred]
    exact (Nat.sub_le _ _).trans hle

/-- Every other block adds one. -/
theorem arrivalAmount_other {b : L.Block} (h : b ≠ L.gpuMaster) :
    (L.arrivalAmount b).toNat = 1 := by
  rw [CooperativeLaunch.arrivalAmount, if_neg (isMaster_gpu.not.mpr h)]
  rfl

/-- Every block adds something. -/
theorem arrivalAmount_pos (b : L.Block) : 0 < (L.arrivalAmount b).toNat := by
  by_cases hb : b = L.gpuMaster
  · have hpos := expected_pos (L := L)
    have hle : L.expected.toNat ≤ 2 ^ 31 := expected_toNat (L := L) ▸ L.blocks_le
    rw [hb, arrivalAmount_master]
    omega
  · rw [arrivalAmount_other hb]
    exact Nat.one_pos

/-- **All blocks together add the high bit.** -/
theorem sum_arrivalAmount : ∑ b : L.Block, (L.arrivalAmount b).toNat = 2 ^ 31 := by
  have hpos := expected_pos (L := L)
  have hle : L.expected.toNat ≤ 2 ^ 31 := expected_toNat (L := L) ▸ L.blocks_le
  have hothers : ∑ b ∈ Finset.univ.erase L.gpuMaster, (L.arrivalAmount b).toNat =
      L.expected.toNat - 1 := by
    rw [Finset.sum_congr rfl fun b hb => arrivalAmount_other (Finset.ne_of_mem_erase hb),
      Finset.sum_const, smul_eq_mul, Nat.mul_one, Finset.card_erase_of_mem (Finset.mem_univ _),
      Finset.card_univ, card_block]
  rw [← Finset.add_sum_erase _ _ (Finset.mem_univ L.gpuMaster), arrivalAmount_master, hothers]
  omega

/-- The high bit of a word. -/
theorem barHasFlipped_iff {prev current : UInt32} :
    barHasFlipped prev current = true ↔
      prev.toNat / 2 ^ 31 % 2 ≠ current.toNat / 2 ^ 31 % 2 := by
  have hword : ((prev ^^^ current) &&& 0x80000000).toNat =
      ((prev.toNat ^^^ current.toNat).testBit 31).toNat * 2 ^ 31 := by
    rw [UInt32.toNat_and, UInt32.toNat_xor, ← Nat.and_two_pow]
    rfl
  rw [barHasFlipped, bne_iff_ne, ne_eq, ← UInt32.toNat_inj, hword, Nat.testBit_xor,
    Nat.testBit_eq_decide_div_mod_eq, Nat.testBit_eq_decide_div_mod_eq]
  generalize prev.toNat / 2 ^ 31 = p
  generalize current.toNat / 2 ^ 31 = q
  rcases Nat.mod_two_eq_zero_or_one p with hp | hp <;>
    rcases Nat.mod_two_eq_zero_or_one q with hq | hq <;> simp [hp, hq]

end Counter

/-! ### The invariant -/

/-- What holds of a thread by itself.  `c` is the counter before the first call. -/
structure ThreadState.Placed (L : CooperativeLaunch) (c : ℕ) (u : L.Thread) (t : ThreadState) :
    Prop where
  leads : (t.stage = .arriving ∨ ∃ oldArrive, t.stage = .spinning oldArrive) → u = L.ctaMaster
  old : ∀ oldArrive, t.stage = .spinning oldArrive →
    oldArrive.toNat / 2 ^ 31 % 2 = (c / 2 ^ 31 + t.rounds) % 2
  rounds_le : t.rounds ≤ L.syncs
  rounds_lt : t.stage ≠ .running → t.rounds < L.syncs

/-- What holds in every state of a run.  `c` is the counter before the first call. -/
structure Inv (c : ℕ) (s : State L) : Prop where
  counter : s.barrier.toNat = (c + tally (fun b => (L.arrivalAmount b).toNat) s.adds) % 2 ^ 32
  /-- The barrier of a block. -/
  passed_le : ∀ b t u, (s.thread (b, t)).passed ≤ (s.thread (b, u)).arrivals
  /-- The barrier of the leaders. -/
  released_le : ∀ b b', (s.leader b).released ≤ s.adds b'
  placed : ∀ i, (s.thread i).Placed L c i.2

section Invariant

variable {c r : ℕ} {s s' : State L} {i : L.Block × L.Thread} {b : L.Block} {t : ThreadState}
  {oldArrive w : UInt32}

/-- A leader adds once more than it was released, at most. -/
theorem ThreadState.adds_le (t : ThreadState) : t.adds ≤ t.released + 1 := by
  cases h : t.stage <;> simp [ThreadState.adds, ThreadState.released, h]

/-- The high bit counts the rounds that all leaders have begun. -/
theorem Inv.counter_div (h : Inv c s) (hc : 2 ^ 31 ∣ c) (hle : ∀ b, r ≤ s.adds b)
    (hlt : ∀ b, s.adds b ≤ r + 1) (hlast : ∃ b, s.adds b = r) :
    s.barrier.toNat / 2 ^ 31 % 2 = (c / 2 ^ 31 + r) % 2 := by
  obtain ⟨last, hlast⟩ := hlast
  have hdiv := tally_div arrivalAmount_pos hle hlt hlast
  rw [sum_arrivalAmount] at hdiv
  have hcounter := h.counter
  rw [show (2 : ℕ) ^ 32 = 2 ^ 31 * 2 from rfl] at hcounter
  rw [hcounter, Nat.mod_mul_right_div_self, Nat.mod_mod, Nat.add_div_of_dvd_right hc, hdiv]

/-- **A leader sees the flip exactly when all leaders have arrived.** -/
theorem Inv.flipped_iff (h : Inv c s) (hc : 2 ^ 31 ∣ c)
    (hspin : s.leader b = ⟨r, .spinning oldArrive⟩) :
    barHasFlipped oldArrive s.barrier ↔ ∀ b', r + 1 ≤ s.adds b' := by
  have hadds : s.adds b = r + 1 := by rw [State.adds, hspin]; rfl
  have hreleased : ∀ b', r ≤ s.adds b' := by
    intro b'
    have hle := h.released_le b b'
    rwa [hspin] at hle
  have hold := (h.placed (b, L.ctaMaster)).old oldArrive (by rw [← State.leader, hspin])
  rw [← State.leader, hspin] at hold
  have hnext : ∀ {k}, (∃ b', s.adds b' = k) → ∀ b', s.adds b' ≤ k + 1 := by
    rintro k ⟨last, rfl⟩ b'
    exact (s.leader b').adds_le.trans (Nat.succ_le_succ (h.released_le b' last))
  rw [barHasFlipped_iff, hold]
  by_cases hall : ∀ b', r + 1 ≤ s.adds b'
  · -- the leader itself is the last one of the next round
    rw [h.counter_div hc hall (hnext ⟨b, hadds⟩) ⟨b, hadds⟩]
    simp only [hall, implies_true, iff_true]
    omega
  · obtain ⟨last, hlast⟩ := not_forall.mp hall
    have heq : s.adds last = r := le_antisymm (by omega) (hreleased last)
    rw [h.counter_div hc hreleased (hnext ⟨last, heq⟩) ⟨last, heq⟩]
    exact iff_of_false (fun hne => hne rfl) hall

/-! ### One step -/

/-- The thread that moves. -/
theorem State.set_self : (s.set i t).thread i = t := Function.update_self ..

/-- The threads that do not. -/
theorem State.set_of_ne {j : L.Block × L.Thread} (h : j ≠ i) : (s.set i t).thread j = s.thread j :=
  Function.update_of_ne h ..

/-- What holds of all threads holds after a step of one of them. -/
theorem State.forall_set {P : L.Block × L.Thread → ThreadState → Prop} (h : ∀ j, P j (s.thread j))
    (hi : P i t) (j : L.Block × L.Thread) : P j ((s.set i t).thread j) := by
  rcases eq_or_ne j i with rfl | hj
  · rwa [State.set_self]
  · rw [State.set_of_ne hj]
    exact h j

/-- A thread only goes forward. -/
theorem State.le_set {f : ThreadState → ℕ} (h : f (s.thread i) ≤ f t) (j : L.Block × L.Thread) :
    f (s.thread j) ≤ f ((s.set i t).thread j) :=
  State.forall_set (P := fun j t => f (s.thread j) ≤ f t) (fun _ => le_refl _) h j

/-- **One step of a thread** that goes forward, passes a barrier only with all others, and leaves
the counter as it should be. -/
theorem Inv.set (h : Inv c s) (harrivals : (s.thread i).arrivals ≤ t.arrivals)
    (hpassed : ∀ u, t.passed ≤ (s.thread (i.1, u)).arrivals)
    (hadds : (s.thread i).adds ≤ t.adds)
    (hreleased : i.2 = L.ctaMaster → ∀ b, t.released ≤ s.adds b)
    (hplaced : t.Placed L c i.2)
    (hcounter : w.toNat = (c + tally (fun b => (L.arrivalAmount b).toNat)
      (s.set i t).adds) % 2 ^ 32) :
    Inv c { s.set i t with barrier := w } where
  counter := hcounter
  passed_le b x u := by
    refine le_trans ?_ (State.le_set harrivals (b, u))
    refine State.forall_set (P := fun j t => t.passed ≤ (s.thread (j.1, u)).arrivals)
      (fun j => ?_) (hpassed u) (b, x)
    exact h.passed_le j.1 j.2 u
  released_le b b' := by
    refine le_trans ?_ (State.le_set hadds (b', L.ctaMaster))
    refine State.forall_set (P := fun j t => j.2 = L.ctaMaster → t.released ≤ s.adds b')
      (fun j hj => ?_) (fun hi => hreleased hi b') (b, L.ctaMaster) rfl
    have hle := h.released_le j.1 b'
    rwa [State.leader, ← hj] at hle
  placed := State.forall_set (P := fun j t => t.Placed L c j.2) h.placed hplaced

/-- The steps that add nothing to the counter. -/
theorem Inv.set_of_adds (h : Inv c s) (harrivals : (s.thread i).arrivals ≤ t.arrivals)
    (hpassed : ∀ u, t.passed ≤ (s.thread (i.1, u)).arrivals)
    (hadds : (s.thread i).adds ≤ t.adds) (hleader : i.2 = L.ctaMaster → t.adds = (s.thread i).adds)
    (hreleased : i.2 = L.ctaMaster → ∀ b, t.released ≤ s.adds b)
    (hplaced : t.Placed L c i.2) : Inv c (s.set i t) := by
  refine h.set harrivals hpassed hadds hreleased hplaced ?_
  have hsame : (s.set i t).adds = s.adds := by
    funext b
    refine State.forall_set (P := fun j t => j = (b, L.ctaMaster) → t.adds = s.adds b)
      (fun j hj => ?_) (fun hi => ?_) (b, L.ctaMaster) rfl
    · rw [hj]; rfl
    · rw [hleader (congrArg Prod.snd hi), hi]; rfl
  rw [hsame, h.counter]

/-- No thread has passed a barrier that another one of its block has not arrived at. -/
theorem Inv.thread_passed_le (h : Inv c s) (hi : s.thread i = t) (u : L.Thread) :
    t.passed ≤ (s.thread (i.1, u)).arrivals :=
  hi ▸ h.passed_le i.1 i.2 u

/-- No leader is released before every block has added. -/
theorem Inv.thread_released_le (h : Inv c s) (hi : s.thread i = t) (hu : i.2 = L.ctaMaster)
    (b : L.Block) : t.released ≤ s.adds b := by
  have hle := h.released_le i.1 b
  rwa [State.leader, ← hu, hi] at hle

/-- A call keeps the invariant. -/
theorem Inv.call (h : Inv c s) (hi : s.thread i = ⟨r, .running⟩) (hlt : r < L.syncs) :
    Inv c (s.set i ⟨r, .entered⟩) := by
  have hpassed := h.thread_passed_le hi
  have hreleased := h.thread_released_le hi
  refine h.set_of_adds ?_ hpassed ?_ (fun _ => ?_) hreleased
    ⟨by simp, by simp, hlt.le, fun _ => hlt⟩
  all_goals simp [hi, ThreadState.arrivals, ThreadState.adds]

/-- So does crossing the first barrier of the block. -/
theorem Inv.cross (h : Inv c s) (hi : s.thread i = ⟨r, .entered⟩) (hbar : s.barPasses i) :
    Inv c (s.set i ⟨r, if isMaster i.2 then .arriving else .leaving⟩) := by
  have hreleased := h.thread_released_le hi
  have hlt : r < L.syncs := by
    have hplaced := (h.placed i).rounds_lt
    rw [hi] at hplaced
    exact hplaced (by simp)
  rw [State.barPasses, hi] at hbar
  by_cases hu : i.2 = L.ctaMaster
  · rw [if_pos (isMaster_cta.mpr hu)]
    refine h.set_of_adds ?_ hbar ?_ (fun _ => ?_) hreleased
      ⟨fun _ => hu, by simp, hlt.le, fun _ => hlt⟩
    all_goals simp [hi, ThreadState.arrivals, ThreadState.adds]
  · rw [if_neg (isMaster_cta.not.mpr hu)]
    refine h.set_of_adds ?_ hbar ?_ (fun hu' => absurd hu' hu) (fun hu' => absurd hu' hu)
      ⟨by simp, by simp, hlt.le, fun _ => hlt⟩
    all_goals simp [hi, ThreadState.arrivals, ThreadState.adds]

/-- The addition of a leader: the counter grows by the amount, modulo `2 ^ 32`. -/
theorem Inv.fetchAdd (h : Inv c s) (hc : 2 ^ 31 ∣ c) (hi : s.thread i = ⟨r, .arriving⟩) :
    Inv c { s.set i ⟨r, .spinning s.barrier⟩ with barrier := s.barrier + L.arrivalAmount i.1 } := by
  have hpassed := h.thread_passed_le hi
  have hreleased := h.thread_released_le hi
  have hplaced := h.placed i
  rw [hi] at hplaced
  have hu := hplaced.leads (.inl rfl)
  have hadds : s.adds i.1 = r := by
    rw [State.adds, State.leader, ← hu, hi]
    rfl
  -- no leader is ahead of this one by a round
  have hnext : ∀ b, s.adds b ≤ r + 1 := fun b =>
    (s.leader b).adds_le.trans (Nat.succ_le_succ (hadds ▸ h.released_le b i.1))
  -- this leader has not added in its round, so the counter shows `r` complete rounds
  refine h.set ?_ hpassed ?_ hreleased
    ⟨fun _ => hu, ?_, hplaced.rounds_le, fun _ => hplaced.rounds_lt (by simp)⟩ ?_
  · simp [hi, ThreadState.arrivals]
  · simp [hi, ThreadState.adds]
  · rintro _ ⟨⟩
    exact h.counter_div hc (h.thread_released_le hi hu) hnext ⟨i.1, hadds⟩
  · have hupdate : (s.set i ⟨r, .spinning s.barrier⟩).adds =
        Function.update s.adds i.1 (s.adds i.1 + 1) := by
      funext b
      rcases eq_or_ne b i.1 with rfl | hb
      · rw [Function.update_self, hadds, State.adds, State.leader, ← hu, State.set_self]
        rfl
      · rw [Function.update_of_ne hb, State.adds, State.leader,
          State.set_of_ne (fun heq => hb (congrArg Prod.fst heq))]
        rfl
    rw [hupdate, tally_update, UInt32.toNat_add, h.counter, Nat.mod_add_mod, Nat.add_assoc]

/-- A load that shows the flipped bit: every block has added in this round. -/
theorem Inv.load (h : Inv c s) (hc : 2 ^ 31 ∣ c) (hi : s.thread i = ⟨r, .spinning oldArrive⟩)
    (hflip : barHasFlipped oldArrive s.barrier) : Inv c (s.set i ⟨r, .leaving⟩) := by
  have hpassed := h.thread_passed_le hi
  have hplaced := h.placed i
  rw [hi] at hplaced
  have hspin : s.leader i.1 = ⟨r, .spinning oldArrive⟩ := by
    rw [State.leader, ← hplaced.leads (.inr ⟨_, rfl⟩), hi]
  refine h.set_of_adds ?_ hpassed ?_ (fun _ => ?_)
    (fun _ => (h.flipped_iff hc hspin).mp hflip)
    ⟨by simp, by simp, hplaced.rounds_le, fun _ => hplaced.rounds_lt (by simp)⟩
  all_goals simp [hi, ThreadState.arrivals, ThreadState.adds]

/-- The second barrier of the block, and the return. -/
theorem Inv.finish (h : Inv c s) (hi : s.thread i = ⟨r, .leaving⟩) (hbar : s.barPasses i) :
    Inv c (s.set i ⟨r + 1, .running⟩) := by
  have hreleased := h.thread_released_le hi
  have hplaced := h.placed i
  rw [hi] at hplaced
  rw [State.barPasses, hi] at hbar
  refine h.set_of_adds ?_ hbar ?_ (fun _ => ?_) hreleased
    ⟨by simp, by simp, hplaced.rounds_lt (by simp), by simp⟩
  all_goals simp [hi, ThreadState.arrivals, ThreadState.adds, Nat.mul_add]

/-- **Every step keeps the invariant.** -/
theorem Inv.step (h : Inv c s) (hc : 2 ^ 31 ∣ c) (hstep : Step L s s') : Inv c s' := by
  cases hstep with
  | call hi hlt => exact h.call hi hlt
  | cross hi hbar => exact h.cross hi hbar
  | fetchAdd hi => exact h.fetchAdd hc hi
  | load hi hflip => exact h.load hc hi hflip
  | finish hi hbar => exact h.finish hi hbar

/-- Every state of a run keeps the invariant. -/
def Valid (s : State L) : Prop := ∃ c, 2 ^ 31 ∣ c ∧ Inv c s

/-- The invariant holds at the start. -/
theorem Initial.valid (h : Initial s) : Valid s := by
  have hleader : ∀ b, s.leader b = ⟨0, .running⟩ := fun b => h.thread _
  refine ⟨s.barrier.toNat, h.barrier, ⟨?_, fun b t u => ?_, fun b b' => ?_, fun i => ?_⟩⟩
  · have hnone : s.adds = fun _ => 0 := funext fun b => by rw [State.adds, hleader]; rfl
    have hlt := s.barrier.toNat_lt
    simp only [hnone, tally, Nat.zero_mul, Finset.sum_const_zero, Nat.add_zero]
    exact (Nat.mod_eq_of_lt hlt).symm
  · rw [h.thread]
    exact Nat.zero_le _
  · rw [hleader]
    exact Nat.zero_le _
  · rw [h.thread]
    exact ⟨by simp, by simp, Nat.zero_le _, by simp⟩

/-- Every step keeps it. -/
theorem Valid.step (h : Valid s) (hstep : Step L s s') : Valid s' := by
  obtain ⟨c, hc, hinv⟩ := h
  exact ⟨c, hc, hinv.step hc hstep⟩

end Invariant

/-! ### No thread is ahead -/

section Separates

variable {r : ℕ} {s : State L} {t : ThreadState}

/-- A call that has returned has passed both barriers. -/
theorem ThreadState.le_passed (h : r < t.rounds) : 2 * r + 2 ≤ t.passed := by
  unfold ThreadState.passed
  split <;> omega

/-- A thread that arrived at the second barrier was released. -/
theorem ThreadState.le_released (h : 2 * r + 2 ≤ t.arrivals) : r + 1 ≤ t.released := by
  obtain ⟨n, stage⟩ := t
  cases stage <;> simp only [ThreadState.arrivals, ThreadState.released] at h ⊢ <;> omega

/-- A leader that added had passed the first barrier. -/
theorem ThreadState.passed_of_adds (h : r + 1 ≤ t.adds) : 2 * r + 1 ≤ t.passed := by
  obtain ⟨n, stage⟩ := t
  cases stage <;> simp only [ThreadState.adds, ThreadState.passed] at h ⊢ <;> omega

/-- A thread that arrived had entered. -/
theorem ThreadState.entered_of_arrivals (h : 2 * r + 1 ≤ t.arrivals) : t.Entered r := by
  obtain ⟨n, stage⟩ := t
  cases stage <;> simp [ThreadState.arrivals, ThreadState.Entered] at h ⊢ <;> omega

/-- **The barrier separates the rounds.**  In every interleaving, a thread returns from a call only
after all threads of all blocks have entered theirs. -/
theorem grid_sync_separates (h : (grid L).Reachable s) (i j : L.Block × L.Thread)
    (hr : r < (s.thread i).rounds) : (s.thread j).Entered r := by
  obtain ⟨c, -, hinv⟩ := h.invariant (I := Valid) (fun _ h => Initial.valid h) fun _ _ h =>
    Valid.step h
  -- through the leader of the block of `i`, and the leader of the block of `j`
  have hleader : 2 * r + 2 ≤ (s.leader i.1).arrivals :=
    (ThreadState.le_passed hr).trans (hinv.passed_le i.1 i.2 L.ctaMaster)
  have hadds : r + 1 ≤ s.adds j.1 :=
    (ThreadState.le_released hleader).trans (hinv.released_le i.1 j.1)
  exact ThreadState.entered_of_arrivals
    ((ThreadState.passed_of_adds hadds).trans (hinv.passed_le j.1 L.ctaMaster j.2))

end Separates

/-! ### All calls return -/

/-- The steps of a call: a leader makes two more. -/
def stepsPerSync (u : L.Thread) : ℕ := if isMaster u then 5 else 3

/-- The steps of the call under way that the thread has made. -/
def Stage.made (u : L.Thread) : Stage → ℕ
  | .running => 0
  | .entered => 1
  | .arriving => 2
  | .spinning _ => 3
  | .leaving => stepsPerSync u - 1

/-- The steps that a thread has to make. -/
def ThreadState.remaining (u : L.Thread) (t : ThreadState) : ℕ :=
  stepsPerSync u * (L.syncs - t.rounds) - t.stage.made u

/-- The steps that all threads have to make. -/
def State.remaining (s : State L) : ℕ := ∑ i, (s.thread i).remaining i.2

/-- All calls have returned. -/
def State.Final (s : State L) : Prop := ∀ i, s.thread i = ⟨L.syncs, .running⟩

/-- The steps of all calls of all threads. -/
def CooperativeLaunch.steps (L : CooperativeLaunch) : ℕ :=
  L.syncs * (Fintype.card L.Block * (3 * Fintype.card L.Thread + 2))

section Completes

variable {n r : ℕ} {s s' : State L} {i : L.Block × L.Thread} {t : ThreadState} {oldArrive : UInt32}

/-- A leader takes five steps in a call. -/
theorem stepsPerSync_leader : stepsPerSync L.ctaMaster = 5 := if_pos (isMaster_cta.mpr rfl)

/-- Every thread takes two at least. -/
theorem one_lt_stepsPerSync (u : L.Thread) : 1 < stepsPerSync u := by
  unfold stepsPerSync
  split <;> decide

/-- A step of a thread is one step less to go. -/
theorem State.remaining_set (h : t.remaining i.2 + 1 = (s.thread i).remaining i.2) (w : UInt32) :
    State.remaining { s.set i t with barrier := w } + 1 = s.remaining := by
  have hsum := sum_update_add (fun i (t : ThreadState) => t.remaining i.2) s.thread i t
  simp only [State.remaining, State.set]
  omega

/-- A call needs all its steps. -/
theorem ThreadState.remaining_next {u : L.Thread} {stage stage' : Stage} (hlt : r < L.syncs)
    (hmade : stage'.made u = stage.made u + 1) (hle : stage'.made u < stepsPerSync u) :
    ThreadState.remaining u ⟨r, stage'⟩ + 1 = ThreadState.remaining u ⟨r, stage⟩ := by
  have hmul : stepsPerSync u ≤ stepsPerSync u * (L.syncs - r) :=
    Nat.le_mul_of_pos_right _ (Nat.sub_pos_of_lt hlt)
  simp only [ThreadState.remaining]
  omega

/-- The last step of a call. -/
theorem ThreadState.remaining_finish {u : L.Thread} (hlt : r < L.syncs) :
    ThreadState.remaining u ⟨r + 1, .running⟩ + 1 = ThreadState.remaining u ⟨r, .leaving⟩ := by
  obtain ⟨k, hk⟩ := Nat.exists_eq_add_of_lt hlt
  have hpos := one_lt_stepsPerSync u
  have hnow : L.syncs - r = k + 1 := by omega
  have hlater : L.syncs - (r + 1) = k := by omega
  simp only [ThreadState.remaining, Stage.made, hnow, hlater, Nat.mul_succ]
  omega

/-- **Every step is one of those to come.** -/
theorem Valid.remaining_step (h : Valid s) (hstep : Step L s s') :
    s'.remaining + 1 = s.remaining := by
  obtain ⟨c, -, hinv⟩ := h
  -- a thread that is not running has a round left
  have hlt : ∀ {i r stage}, s.thread i = ⟨r, stage⟩ → stage ≠ .running → r < L.syncs := by
    intro i r stage hi hstage
    have hplaced := (hinv.placed i).rounds_lt
    rw [hi] at hplaced
    exact hplaced hstage
  -- a thread that leads is one round ahead
  have hleads : ∀ {i r stage}, s.thread i = ⟨r, stage⟩ →
      (stage = .arriving ∨ ∃ oldArrive, stage = .spinning oldArrive) → stepsPerSync i.2 = 5 := by
    intro i r stage hi hstage
    have hplaced := (hinv.placed i).leads
    rw [hi] at hplaced
    rw [hplaced hstage, stepsPerSync_leader]
  -- each step takes one step off the thread that makes it
  cases hstep with
  | @call i r hi hr =>
    refine State.remaining_set ?_ _
    rw [hi]
    exact ThreadState.remaining_next hr rfl (one_lt_stepsPerSync _)
  | @cross i r hi hbar =>
    refine State.remaining_set ?_ _
    rw [hi]
    have hentered := hlt hi (by simp)
    by_cases hu : isMaster i.2
    · rw [if_pos hu]
      exact ThreadState.remaining_next hentered rfl (by simp [Stage.made, stepsPerSync, hu])
    · rw [if_neg hu]
      refine ThreadState.remaining_next hentered ?_ ?_ <;> simp [Stage.made, stepsPerSync, hu]
  | @fetchAdd i r hi =>
    refine State.remaining_set ?_ _
    rw [hi]
    exact ThreadState.remaining_next (hlt hi (by simp)) rfl (by
      rw [hleads hi (.inl rfl)]
      exact Nat.lt_of_sub_eq_succ rfl)
  | @load i r oldArrive hi hflip =>
    refine State.remaining_set ?_ _
    have hfive := hleads hi (.inr ⟨_, rfl⟩)
    rw [hi]
    exact ThreadState.remaining_next (hlt hi (by simp)) (by simp [Stage.made, hfive])
      (by simp [Stage.made, hfive])
  | @finish i r hi hbar =>
    refine State.remaining_set ?_ _
    rw [hi]
    exact ThreadState.remaining_finish (hlt hi (by simp))

/-- Where every thread has returned, nothing remains. -/
theorem State.Final.remaining (h : s.Final) : s.remaining = 0 :=
  Finset.sum_eq_zero fun i _ => by
    rw [h i, ThreadState.remaining, Nat.sub_self, Nat.mul_zero, Nat.zero_sub]

/-! ### Some thread can go on -/

/-- A thread has a round and a stage. -/
theorem exists_at (s : State L) (i : L.Block × L.Thread) : ∃ r stage, s.thread i = ⟨r, stage⟩ :=
  ⟨_, _, rfl⟩

/-- Some thread is behind all others. -/
theorem exists_last (s : State L) : ∃ i, ∀ j, (s.thread i).arrivals ≤ (s.thread j).arrivals := by
  obtain ⟨i, -, hmin⟩ := Finset.exists_min_image Finset.univ (fun i => (s.thread i).arrivals)
    ⟨(L.gpuMaster, L.ctaMaster), Finset.mem_univ _⟩
  exact ⟨i, fun j => hmin j (Finset.mem_univ j)⟩

/-- A thread that has come to its last barrier. -/
theorem ThreadState.Placed.late {c : ℕ} {u : L.Thread} (h : t.Placed L c u)
    (hle : 2 * L.syncs ≤ t.arrivals) :
    t = ⟨L.syncs, .running⟩ ∨ ∃ n, t = ⟨n, .leaving⟩ ∧ n + 1 = L.syncs := by
  have hrounds := h.rounds_le
  have hcall := h.rounds_lt
  obtain ⟨n, stage⟩ := t
  cases stage with
  | running =>
    have hn : n = L.syncs := le_antisymm hrounds (Nat.le_of_mul_le_mul_left hle Nat.two_pos)
    exact .inl (by rw [hn])
  | leaving =>
    have hlt : n < L.syncs := hcall (by simp)
    simp only [ThreadState.arrivals] at hle
    exact .inr ⟨n, rfl, by omega⟩
  | entered | arriving | spinning =>
    have hlt : n < L.syncs := hcall (by simp)
    simp only [ThreadState.arrivals] at hle
    omega

/-- A thread that is behind all others waits for nobody at a barrier of its block. -/
theorem progress_of_last {stage : Stage} (hi : s.thread i = ⟨r, stage⟩)
    (hlast : ∀ j, (s.thread i).arrivals ≤ (s.thread j).arrivals)
    (hstage : stage = .entered ∨ stage = .arriving ∨ stage = .leaving) : ∃ s', Step L s s' := by
  rcases hstage with rfl | rfl | rfl
  · exact ⟨_, .cross hi fun u => hlast _⟩
  · exact ⟨_, .fetchAdd hi⟩
  · exact ⟨_, .finish hi fun u => hlast _⟩

/-- A leader that spins waits for a leader that can go on. -/
theorem Inv.progress_of_spinning {c : ℕ} (h : Inv c s) (hc : 2 ^ 31 ∣ c)
    (hi : s.thread i = ⟨r, .spinning oldArrive⟩)
    (hlast : ∀ j, (s.thread i).arrivals ≤ (s.thread j).arrivals) : ∃ s', Step L s s' := by
  have hplaced := h.placed i
  rw [hi] at hplaced
  have hspin : s.leader i.1 = ⟨r, .spinning oldArrive⟩ := by
    rw [State.leader, ← hplaced.leads (.inr ⟨_, rfl⟩), hi]
  by_cases hflip : barHasFlipped oldArrive s.barrier
  · exact ⟨_, .load hi hflip⟩
  obtain ⟨b, hb⟩ := not_forall.mp ((h.flipped_iff hc hspin).not.mp hflip)
  -- that leader has called `sync`, and has not added yet
  have hreleased : r ≤ s.adds b := by
    have hle := h.released_le i.1 b
    rwa [hspin] at hle
  have hmin := hlast (b, L.ctaMaster)
  obtain ⟨n, stage, hleader⟩ := exists_at s (b, L.ctaMaster)
  rw [State.adds, State.leader, hleader] at hb hreleased
  have hsame : ∀ j, (s.thread (b, L.ctaMaster)).arrivals ≤ (s.thread j).arrivals := by
    refine fun j => le_trans (le_of_eq ?_) (hlast j)
    rw [hleader, hi] at hmin ⊢
    cases stage <;> simp only [ThreadState.adds, ThreadState.arrivals] at * <;> omega
  rw [hleader, hi] at hmin
  refine progress_of_last hleader hsame ?_
  cases stage <;> simp only [ThreadState.adds, ThreadState.arrivals] at * <;> first | omega | simp

/-- **No deadlock.** -/
theorem Valid.progress (h : Valid s) : s.Final ∨ ∃ s', Step L s s' := by
  obtain ⟨c, hc, hinv⟩ := h
  obtain ⟨i, hlast⟩ := exists_last s
  obtain ⟨r, stage, hi⟩ := exists_at s i
  have hplaced := hinv.placed i
  rw [hi] at hplaced
  cases stage with
  | entered | arriving | leaving => exact .inr (progress_of_last hi hlast (by simp))
  | spinning oldArrive => exact .inr (hinv.progress_of_spinning hc hi hlast)
  | running =>
    -- no thread is behind: either this one calls again, or all calls have been made
    rcases Nat.lt_or_eq_of_le hplaced.rounds_le with hlt | rfl
    · exact .inr ⟨_, .call hi hlt⟩
    -- all threads are in their last call or have returned from it
    by_cases hdone : s.Final
    · exact .inl hdone
    obtain ⟨j, hj⟩ := not_forall.mp hdone
    have hlater : ∀ k, 2 * L.syncs ≤ (s.thread k).arrivals := fun k => by
      have hle := hlast k
      rwa [hi] at hle
    obtain hfinal | ⟨n, hleaving, hn⟩ := (hinv.placed j).late (hlater j)
    · exact absurd hfinal hj
    · refine .inr (progress_of_last hleaving (fun k => ?_) (by simp))
      rw [hleaving]
      exact (congrArg (2 * ·) hn).le.trans (hlater k)

/-- A round of a block. -/
theorem sum_stepsPerSync : ∑ u : L.Thread, stepsPerSync u = 3 * Fintype.card L.Thread + 2 := by
  have hsplit : ∀ u : L.Thread, stepsPerSync u = 3 + if u = L.ctaMaster then 2 else 0 := fun u => by
    simp only [stepsPerSync, isMaster_cta]
    split <;> rfl
  rw [Finset.sum_congr rfl fun u _ => hsplit u, Finset.sum_add_distrib, Finset.sum_const,
    Finset.sum_ite_eq' Finset.univ L.ctaMaster, if_pos (Finset.mem_univ _), Finset.card_univ,
    smul_eq_mul, Nat.mul_comm]

/-- At the start, all steps remain. -/
theorem Initial.remaining (h : Initial s) : s.remaining = L.steps := by
  have hthread : ∀ i, (s.thread i).remaining i.2 = L.syncs * stepsPerSync i.2 := fun i => by
    rw [h.thread, ThreadState.remaining, Nat.sub_zero, Nat.mul_comm]
    rfl
  rw [State.remaining, Finset.sum_congr rfl fun i _ => hthread i, ← Finset.mul_sum,
    Fintype.sum_prod_type, CooperativeLaunch.steps, ← sum_stepsPerSync]
  show L.syncs * ∑ _b : L.Block, ∑ u : L.Thread, stepsPerSync u = _
  rw [Finset.sum_const, smul_eq_mul, Finset.card_univ]

/-- Every step counts down, and where none remains, all calls have returned. -/
theorem countdown (L : CooperativeLaunch) :
    Countdown (Step L) Valid State.Final State.remaining where
  keeps _ _ := Valid.step
  step _ _ := Valid.remaining_step
  final _ _ := State.Final.remaining
  progress _ := Valid.progress

/-- **All calls return.**  In whatever order the threads move, a run ends after the same number of
steps, and with all calls of all threads complete. -/
theorem grid_sync_completes (h : Initial s) (hrun : Steps (Step L) n s s') :
    n ≤ L.steps ∧ ((∀ s'', ¬Step L s' s'') ↔ n = L.steps) ∧ (n = L.steps → s'.Final) := by
  rw [← h.remaining]
  exact (countdown L).complete h.valid hrun

end Completes

/-! Two blocks of one thread, and one call. -/

/-- Two blocks of one thread, and one call. -/
def twoBlocks : CooperativeLaunch where
  gridDim := ⟨2, 1, 1⟩
  blockDim := ⟨1, 1, 1⟩
  grid_pos := by decide
  block_pos := by decide
  blocks_le := by decide
  syncs := 1

/-- Their start, with the counter at zero. -/
def twoBlocksStart : State twoBlocks where
  barrier := 0
  thread _ := ⟨0, .running⟩

/-- It is a start. -/
theorem twoBlocksStart_initial : Initial twoBlocksStart := ⟨by decide, fun _ => rfl⟩

/-- The thread of a block. -/
def threadOf (b : Fin 2) : twoBlocks.Block × twoBlocks.Thread :=
  ((b, ⟨0, by decide⟩, ⟨0, by decide⟩), twoBlocks.ctaMaster)

/-- The first thread has returned, the second one is still in the loop. -/
theorem grid_sync_separates_two : ∃ s, (grid twoBlocks).Reachable s ∧
    (s.thread (threadOf 0)).rounds = 1 ∧ (s.thread (threadOf 1)).rounds = 0 ∧
      (s.thread (threadOf 1)).Entered 0 := by
  have h0 : (grid twoBlocks).Reachable twoBlocksStart := .init twoBlocksStart_initial
  have h1 := h0.step (Step.call (i := threadOf 0) (r := 0) rfl (by decide))
  have h2 := h1.step (Step.cross (i := threadOf 0) (r := 0) rfl (by decide))
  have h3 := h2.step (Step.fetchAdd (i := threadOf 0) (r := 0) rfl)
  have h4 := h3.step (Step.call (i := threadOf 1) (r := 0) rfl (by decide))
  have h5 := h4.step (Step.cross (i := threadOf 1) (r := 0) rfl (by decide))
  have h6 := h5.step (Step.fetchAdd (i := threadOf 1) (r := 0) rfl)
  have h7 := h6.step (Step.load (i := threadOf 0) (r := 0) rfl (by decide))
  have h8 := h7.step (Step.finish (i := threadOf 0) (r := 0) rfl (by decide))
  exact ⟨_, h8, rfl, rfl, grid_sync_separates h8 (threadOf 0) (threadOf 1) (by decide)⟩

/-- The two calls take ten steps.  Both threads arrive before either of them sees the flip. -/
theorem grid_sync_completes_two : ∃ s, Steps (Step twoBlocks) 10 twoBlocksStart s ∧ s.Final ∧
    ∀ s', ¬Step twoBlocks s s' := by
  have h1 :=
    Steps.refl.step (Step.call (s := twoBlocksStart) (i := threadOf 0) (r := 0) rfl (by decide))
  have h2 := h1.step (Step.cross (i := threadOf 0) (r := 0) rfl (by decide))
  have h3 := h2.step (Step.fetchAdd (i := threadOf 0) (r := 0) rfl)
  have h4 := h3.step (Step.call (i := threadOf 1) (r := 0) rfl (by decide))
  have h5 := h4.step (Step.cross (i := threadOf 1) (r := 0) rfl (by decide))
  have h6 := h5.step (Step.fetchAdd (i := threadOf 1) (r := 0) rfl)
  have h7 := h6.step (Step.load (i := threadOf 0) (r := 0) rfl (by decide))
  have h8 := h7.step (Step.finish (i := threadOf 0) (r := 0) rfl (by decide))
  have h9 := h8.step (Step.load (i := threadOf 1) (r := 0) rfl (by decide))
  have h10 := h9.step (Step.finish (i := threadOf 1) (r := 0) rfl (by decide))
  have hsteps : twoBlocks.steps = 10 := by decide
  obtain ⟨-, hstuck, hfinal⟩ := grid_sync_completes twoBlocksStart_initial h10
  exact ⟨_, h10, hfinal hsteps.symm, hstuck.mpr hsteps.symm⟩

end CudaOxide.Device.GridSync
