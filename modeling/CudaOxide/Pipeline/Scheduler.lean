import CudaOxide.Lib.Bytes
import CudaOxide.Lib.Digits
import CudaOxide.Lib.GridStride

/-!
# The static tile scheduler of a persistent kernel

`utils/scheduler.rs`: the blocks of a persistent launch walk over the output tiles, each from its
own index in steps of the grid.

* `StaticPersistentTileScheduler` — the scheduler of one block; `work` is the loop of a kernel.
* `emitAdvance64`, `emitCoordinates` — the arithmetic that the compiler generates for it.
* `getGridShape` — the number of blocks of the launch.
* `work_eq` — a block visits the tiles of a grid-stride loop.
* `schedule_covers` — every tile of every batch is visited once.
-/

namespace CudaOxide.Pipeline

open Lib

/-- `TOTAL_TILES`.  Where the constant panics, the scheduler type cannot be used. -/
def totalTiles (mTiles nTiles batches : ℕ) : Option ℕ :=
  if 0 < mTiles ∧ 0 < nTiles ∧ 0 < batches then do
    let mn ← Usize.checkedMul mTiles nTiles
    Usize.checkedMul mn batches
  else none

/-- The compile-time extents of a scheduler type. -/
structure TileGrid where
  mTiles : ℕ
  nTiles : ℕ
  batches : ℕ
  total : ℕ
  total_eq : totalTiles mTiles nTiles batches = some total

/-- `WorkTileInfo` -/
structure WorkTileInfo where
  linear : ℕ
  mTile : ℕ
  nTile : ℕ
  batch : ℕ
  deriving DecidableEq, Repr

/-- `tile_idx`. -/
def WorkTileInfo.tileIdx (tile : WorkTileInfo) : ℕ × ℕ × ℕ := (tile.mTile, tile.nTile, tile.batch)

/-- `StaticPersistentTileScheduler`.  No constructor admits a zero stride. -/
structure StaticPersistentTileScheduler (G : TileGrid) where
  currentLinear : ℕ
  stride : ℕ
  stride_pos : 0 < stride

/-! ### The operations -/

/-- `usize::saturating_add` -/
def saturatingAdd (a b : ℕ) : ℕ := min (a + b) (2 ^ 64 - 1)

/-- Decode a tile number, M changing fastest.  No product exceeds the number. -/
def TileGrid.tile (G : TileGrid) (linear : ℕ) : WorkTileInfo :=
  let nBatch := linear / G.mTiles
  let mTile := linear - nBatch * G.mTiles
  let batch := nBatch / G.nTiles
  let nTile := nBatch - batch * G.nTiles
  ⟨linear, mTile, nTile, batch⟩

namespace StaticPersistentTileScheduler

variable {G : TileGrid}

/-- `for_worker`: none for a worker that does not exist. -/
def forWorker (G : TileGrid) (worker workerCount : ℕ) : Option (StaticPersistentTileScheduler G) :=
  if h : workerCount = 0 ∨ workerCount ≤ worker then none
  else some ⟨worker, workerCount, Nat.pos_of_ne_zero fun hzero => h (.inl hzero)⟩

/-- `has_work`. -/
def hasWork (s : StaticPersistentTileScheduler G) : Bool := s.currentLinear < G.total

/-- `get_current_work`. -/
def getCurrentWork (s : StaticPersistentTileScheduler G) : WorkTileInfo := G.tile s.currentLinear

/-- `advance_to_next_work`: a stride further, saturating. -/
def advanceToNextWork (s : StaticPersistentTileScheduler G) : StaticPersistentTileScheduler G :=
  { s with currentLinear := saturatingAdd s.currentLinear s.stride }

end StaticPersistentTileScheduler

/-! ### Their device code -/

/-- `arith.addi`, `arith.subi` and `arith.muli` on 64 bits -/
def addi (a b : ℕ) : ℕ := (a + b) % 2 ^ 64

/-- Subtraction of 64-bit words. -/
def subi (a b : ℕ) : ℕ := (a + (2 ^ 64 - b)) % 2 ^ 64

/-- Multiplication of 64-bit words. -/
def muli (a b : ℕ) : ℕ := a * b % 2 ^ 64

/-- `SchedulerAdvanceTranslation`: a sum that is less than its operand has wrapped. -/
def emitAdvance64 (current stride : ℕ) : ℕ :=
  let wrapped := addi current stride
  let overflow := wrapped < current
  if overflow then 2 ^ 64 - 1 else wrapped

/-- `WorkTileCoordinatesTranslation` -/
def emitCoordinates (G : TileGrid) (linear : ℕ) : WorkTileInfo :=
  let quotientM := linear / G.mTiles
  let consumedM := muli quotientM G.mTiles
  let batch := quotientM / G.nTiles
  let consumedN := muli batch G.nTiles
  ⟨addi linear 0, subi linear consumedM, subi quotientM consumedN, addi batch 0⟩

section Device

variable {a b current stride linear : ℕ}

/-- A difference that is not negative does not wrap. -/
theorem subi_eq (ha : a < 2 ^ 64) (hba : b ≤ a) : subi a b = a - b := by
  unfold subi
  omega

/-- A product in range does not wrap. -/
theorem muli_eq (h : a * b < 2 ^ 64) : muli a b = a * b := Nat.mod_eq_of_lt h

/-- The emitted advance saturates. -/
theorem emitAdvance64_eq (hc : current < 2 ^ 64) (hs : stride < 2 ^ 64) :
    emitAdvance64 current stride = saturatingAdd current stride := by
  unfold emitAdvance64 saturatingAdd addi
  simp only
  rcases Nat.lt_or_ge (current + stride) (2 ^ 64) with hfits | hwraps
  · rw [Nat.mod_eq_of_lt hfits, if_neg (by omega), min_eq_left (by omega)]
  · rw [if_pos (by omega), min_eq_right (by omega)]

/-- The emitted coordinates are those of the tile. -/
theorem emitCoordinates_eq (G : TileGrid) (h : linear < 2 ^ 64) :
    emitCoordinates G linear = G.tile linear := by
  have hm := Nat.div_mul_le_self linear G.mTiles
  have hq := Nat.div_le_self linear G.mTiles
  have hn := Nat.div_mul_le_self (linear / G.mTiles) G.nTiles
  have hb := Nat.div_le_self (linear / G.mTiles) G.nTiles
  unfold emitCoordinates TileGrid.tile
  simp only
  rw [muli_eq (by omega), muli_eq (by omega), subi_eq h hm, subi_eq (by omega) hn]
  simp only [addi, Nat.add_zero]
  rw [Nat.mod_eq_of_lt h, Nat.mod_eq_of_lt (show linear / G.mTiles / G.nTiles < 2 ^ 64 by omega)]

end Device

/-! ### The tiles of a grid -/

namespace TileGrid

variable {G : TileGrid} {m n b linear : ℕ}

/-- The sizes of a grid are positive and their product fits. -/
theorem spec (G : TileGrid) : (0 < G.mTiles ∧ 0 < G.nTiles ∧ 0 < G.batches) ∧
    G.total < 2 ^ 64 ∧ G.total = G.mTiles * G.nTiles * G.batches := by
  have h := G.total_eq
  unfold totalTiles at h
  split at h
  · rename_i hpos
    obtain ⟨mn, hmn, htotal⟩ := Option.bind_eq_some_iff.mp h
    obtain ⟨-, rfl⟩ := Usize.checkedMul_eq_some.mp hmn
    obtain ⟨hlt, heq⟩ := Usize.checkedMul_eq_some.mp htotal
    exact ⟨hpos, by omega, heq.symm⟩
  · cases h

/-- The number of a tile. -/
def number (G : TileGrid) (m n b : ℕ) : ℕ := (b * G.nTiles + n) * G.mTiles + m

/-- The coordinates of a tile. -/
theorem tileIdx_tile (G : TileGrid) (linear : ℕ) : (G.tile linear).tileIdx =
    (linear % G.mTiles, linear / G.mTiles % G.nTiles, linear / G.mTiles / G.nTiles) := by
  simp only [tile, WorkTileInfo.tileIdx, Nat.mod_eq_sub_div_mul]

/-- The number of a tile is in range. -/
theorem number_lt (hm : m < G.mTiles) (hn : n < G.nTiles) (hb : b < G.batches) :
    G.number m n b < G.total := by
  have hlt := Digits.pack_lt (Digits.pack_lt hb hn) hm
  rw [G.spec.2.2, Nat.mul_comm _ G.batches, Nat.mul_comm G.mTiles, ← Nat.mul_assoc]
  exact hlt

/-- A tile has one number. -/
theorem tileIdx_tile_eq (hm : m < G.mTiles) (hn : n < G.nTiles) :
    (G.tile linear).tileIdx = (m, n, b) ↔ linear = G.number m n b := by
  rw [tileIdx_tile]
  simp only [Prod.mk.injEq, number]
  constructor
  · rintro ⟨rfl, rfl, rfl⟩
    rw [Nat.div_add_mod', Nat.div_add_mod']
  · rintro rfl
    rw [Digits.pack_mod hm, Digits.pack_div hm, Digits.pack_mod hn, Digits.pack_div hn]
    exact ⟨rfl, rfl, rfl⟩

/-- The numbers below the total are tiles of the grid. -/
theorem tile_mem (h : linear < G.total) :
    (G.tile linear).mTile < G.mTiles ∧ (G.tile linear).nTile < G.nTiles ∧
      (G.tile linear).batch < G.batches := by
  obtain ⟨⟨hm, hn, -⟩, -, htotal⟩ := G.spec
  have hidx := G.tileIdx_tile linear
  simp only [WorkTileInfo.tileIdx, Prod.mk.injEq] at hidx
  rw [hidx.1, hidx.2.1, hidx.2.2]
  refine ⟨Nat.mod_lt _ hm, Nat.mod_lt _ hn, ?_⟩
  rw [Nat.div_div_eq_div_mul]
  exact Nat.div_lt_of_lt_mul (htotal ▸ h)

end TileGrid

/-! ### The work of one block -/

namespace StaticPersistentTileScheduler

variable {G : TileGrid} {s : StaticPersistentTileScheduler G} {worker workerCount : ℕ}

/-- There is work below the total. -/
theorem hasWork_iff : s.hasWork ↔ s.currentLinear < G.total := decide_eq_true_iff

/-- A tile that is not the last one moves on, and what saturates is beyond the last tile. -/
theorem lt_advance (h : s.hasWork) : s.currentLinear < s.advanceToNextWork.currentLinear := by
  have hlt := hasWork_iff.mp h
  have htotal := G.spec.2.1
  have hpos := s.stride_pos
  show _ < saturatingAdd s.currentLinear s.stride
  unfold saturatingAdd
  omega

/-- The loop of a kernel: `while has_work() { get_current_work(); …; advance_to_next_work() }`. -/
def work (s : StaticPersistentTileScheduler G) : List WorkTileInfo :=
  if s.hasWork then s.getCurrentWork :: s.advanceToNextWork.work else []
termination_by G.total - s.currentLinear
decreasing_by
  rename_i h
  have hmove := lt_advance h
  have hlt := hasWork_iff.mp h
  omega

/-- **A block visits the tiles of a grid-stride loop.**  A sum that saturates ends both. -/
theorem work_eq (s : StaticPersistentTileScheduler G) :
    s.work = (visits G.total s.stride s.currentLinear).map G.tile := by
  fun_induction work s with
  | case1 s h ih =>
    have htotal := G.spec.2.1
    rw [visits_of_lt (hasWork_iff.mp h) s.stride_pos, List.map_cons, ih]
    congr 2
    rcases Nat.lt_or_ge (s.currentLinear + s.stride) (2 ^ 64) with hfits | hwraps
    · show visits _ _ (saturatingAdd s.currentLinear s.stride) = _
      rw [saturatingAdd, min_eq_left (by omega)]
      rfl
    · show visits _ _ (saturatingAdd s.currentLinear s.stride) = _
      rw [saturatingAdd, min_eq_right (by omega), visits_of_le (by omega), visits_of_le (by omega)]
  | case2 s h => rw [visits_of_le (not_lt.mp fun hlt => h (hasWork_iff.mpr hlt)), List.map_nil]

/-- The scheduler of a worker that exists. -/
theorem forWorker_eq_some (s : StaticPersistentTileScheduler G) :
    forWorker G worker workerCount = some s ↔
      worker < workerCount ∧ s.currentLinear = worker ∧ s.stride = workerCount := by
  unfold forWorker
  split
  · rename_i h
    simp only [reduceCtorEq, false_iff]
    omega
  · rename_i h
    rw [Option.some.injEq]
    constructor
    · rintro rfl
      exact ⟨by omega, rfl, rfl⟩
    · rintro ⟨-, rfl, rfl⟩
      rfl

end StaticPersistentTileScheduler

/-! ### The launch -/

/-- `get_grid_shape` -/
def getGridShape (G : TileGrid) (smCount activeCtasPerSm : ℕ) : Option ℕ :=
  let resident := smCount * activeCtasPerSm
  if resident = 0 then none
  else
    let workers := if G.total < resident then G.total else resident
    if workers = 0 ∨ 2 ^ 32 - 1 < workers then none else some workers

/-- A launch fills the device, unless there are fewer tiles. -/
theorem getGridShape_eq_some {G : TileGrid} {smCount activeCtasPerSm W : ℕ} :
    getGridShape G smCount activeCtasPerSm = some W ↔
      W = min G.total (smCount * activeCtasPerSm) ∧ 0 < W ∧ W < 2 ^ 32 := by
  obtain ⟨⟨hm, hn, hb⟩, -, htotal⟩ := G.spec
  have hpos : 0 < G.total := htotal ▸ Nat.mul_pos (Nat.mul_pos hm hn) hb
  unfold getGridShape
  have hmin : (if G.total < smCount * activeCtasPerSm then G.total else smCount * activeCtasPerSm) =
      min G.total (smCount * activeCtasPerSm) := by
    split <;> omega
  simp only [hmin]
  -- no tiles per multiprocessor, no launch
  split
  · simp only [reduceCtorEq, false_iff]
    omega
  · split
    · simp only [reduceCtorEq, false_iff]
      omega
    · rw [Option.some.injEq]
      omega

/-! ### All blocks together -/

/-- The `i`-th tile of a block. -/
theorem getElem?_work {G : TileGrid} {s : StaticPersistentTileScheduler G} {i m n b : ℕ}
    (hm : m < G.mTiles) (hn : n < G.nTiles) :
    (∃ tile, s.work[i]? = some tile ∧ tile.tileIdx = (m, n, b)) ↔
      (visits G.total s.stride s.currentLinear)[i]? = some (G.number m n b) := by
  rw [s.work_eq, List.getElem?_map]
  constructor
  · rintro ⟨tile, htile, hidx⟩
    obtain ⟨l, hl, rfl⟩ := Option.map_eq_some_iff.mp htile
    rw [hl, (TileGrid.tileIdx_tile_eq hm hn).mp hidx]
  · intro hvisit
    exact ⟨G.tile (G.number m n b), by rw [hvisit, Option.map_some],
      (TileGrid.tileIdx_tile_eq hm hn).mpr rfl⟩

/-- **The schedule covers the grid.**  Whatever the number of persistent blocks, every tile of every
batch is visited by exactly one block in exactly one trip; no block leaves the grid, and no block
has two tiles more than another.  A launch of the chosen size leaves no block idle.  The generated
arithmetic computes the same schedule. -/
theorem schedule_covers (G : TileGrid) {W : ℕ} (hW : 0 < W) :
    (∀ m < G.mTiles, ∀ n < G.nTiles, ∀ b < G.batches,
      ∃! trip : ℕ × ℕ, ∃ s tile, StaticPersistentTileScheduler.forWorker G trip.1 W = some s ∧
        s.work[trip.2]? = some tile ∧ tile.tileIdx = (m, n, b)) ∧
      (∀ w s, StaticPersistentTileScheduler.forWorker G w W = some s →
        (∀ tile ∈ s.work,
          tile.mTile < G.mTiles ∧ tile.nTile < G.nTiles ∧ tile.batch < G.batches) ∧
        (∀ v t, StaticPersistentTileScheduler.forWorker G v W = some t →
          t.work.length ≤ s.work.length + 1) ∧
        ((∃ smCount ctas, getGridShape G smCount ctas = some W) → s.work ≠ [])) ∧
      (∀ current < 2 ^ 64, ∀ stride < 2 ^ 64,
        emitAdvance64 current stride = saturatingAdd current stride ∧
          emitCoordinates G current = G.tile current) := by
  refine ⟨fun m hm n hn b hb => ?_, fun w s hs => ⟨fun tile htile => ?_, fun v t ht => ?_, ?_⟩,
    fun current hc stride hs => ⟨emitAdvance64_eq hc hs, emitCoordinates_eq G hc⟩⟩
  · obtain ⟨trip, ⟨hlt, hvisit⟩, huniq⟩ := existsUnique_visit hW (TileGrid.number_lt hm hn hb)
    refine ⟨trip, ?_, ?_⟩
    · obtain ⟨tile, htile⟩ := (getElem?_work (s := ⟨trip.1, W, hW⟩) (i := trip.2) hm hn).mpr hvisit
      exact ⟨_, tile, (StaticPersistentTileScheduler.forWorker_eq_some _).mpr ⟨hlt, rfl, rfl⟩,
        htile⟩
    -- every visit of the tile is the trip that the division gives
    · rintro other ⟨s, tile, hs, htile⟩
      obtain ⟨hlt', hcurrent, hstride⟩ :=
        (StaticPersistentTileScheduler.forWorker_eq_some s).mp hs
      have hvisit' := (getElem?_work hm hn).mp ⟨tile, htile⟩
      rw [hcurrent, hstride] at hvisit'
      exact huniq other ⟨hlt', hvisit'⟩
  -- the work lists are the visits below the total
  · rw [s.work_eq] at htile
    obtain ⟨l, hl, rfl⟩ := List.mem_map.mp htile
    obtain ⟨i, -, hlt⟩ := (mem_visits s.stride_pos).mp hl
    exact TileGrid.tile_mem hlt
  · obtain ⟨hwlt, hcurrent, hstride⟩ := (StaticPersistentTileScheduler.forWorker_eq_some s).mp hs
    obtain ⟨-, -, hstride'⟩ := (StaticPersistentTileScheduler.forWorker_eq_some t).mp ht
    rw [s.work_eq, t.work_eq, List.length_map, List.length_map, hstride, hstride', hcurrent]
    exact length_visits_le hwlt
  · rintro ⟨smCount, ctas, hshape⟩
    obtain ⟨hmin, -, -⟩ := getGridShape_eq_some.mp hshape
    obtain ⟨hwlt, hcurrent, hstride⟩ := (StaticPersistentTileScheduler.forWorker_eq_some s).mp hs
    rw [s.work_eq]
    -- a launch takes no more workers than tiles, so each has its first one
    refine List.map_eq_nil_iff.not.mpr (visits_ne_nil s.stride_pos ?_)
    omega

/-- Three persistent blocks on a grid of 4 × 2 tiles in two batches. -/
theorem schedule_covers_three : 0 < 3 ∧ ∃ G : TileGrid, G.total = 16 ∧
    ∀ m < G.mTiles, ∀ n < G.nTiles, ∀ b < G.batches,
      ∃! trip : ℕ × ℕ, ∃ s tile, StaticPersistentTileScheduler.forWorker G trip.1 3 = some s ∧
        s.work[trip.2]? = some tile ∧ tile.tileIdx = (m, n, b) :=
  ⟨by decide, ⟨4, 2, 2, 16, by decide⟩, rfl, (schedule_covers _ (by decide)).1⟩

end CudaOxide.Pipeline
