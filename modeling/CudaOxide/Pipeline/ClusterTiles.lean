import CudaOxide.Cute.IndexMaps
import CudaOxide.Cute.StaticLayout
import CudaOxide.Lib.GridStride

/-!
# The tiles of a persistent cluster launch

`PersistentTileSchedulerParams` of `utils/scheduler.rs`: clusters of blocks walk over the output
tiles in the grouped order, the blocks of a cluster share a tile, and the threads of a block share
its part.

* `fromGrid`, `tileIdx`, `ctaTileCoord`, `epilogueThreadCoord` — the scheduler.
* `tileLoop` — the loop of a kernel over the tiles of one cluster.
* `computes_iff` — what one thread computes in one trip.
* `epilogue_covers` — every output is computed by one thread in one trip, from the rows that its
  block has loaded.
-/

namespace CudaOxide.Pipeline

open Lib

variable {ε : Type}

/-- The constant parameters, with `VALID`. -/
structure ClusterTiling where
  tileM : ℕ
  tileN : ℕ
  groupM : ℕ
  clusterCtas : ℕ
  valid : (0 < tileM ∧ 0 < tileN) ∧ 0 < groupM ∧ 0 < clusterCtas

/-- `PersistentTileSchedulerParams` -/
structure PersistentTileSchedulerParams where
  firstTile : ℕ
  stride : ℕ
  mTiles : ℕ
  nTiles : ℕ
  tileCount : ℕ
  deriving DecidableEq, Repr

/-! ### The scheduler -/

/-- `crd2idx_col_major_2d` and `crd2idx_col_major_3d` of `cute-layout` -/
def crd2idxColMajor2d (row col rows : ℕ) : Run ε ℕ := do
  let lines ← Word.U32.mul col rows
  Word.U32.add row lines

/-- `crd2idx` of a column-major layout of rank 3. -/
def crd2idxColMajor3d (i0 i1 i2 d0 d1 : ℕ) : Run ε ℕ := do
  let planes ← Word.U32.mul i2 d1
  let plane ← Word.U32.add i1 planes
  let lines ← Word.U32.mul plane d0
  Word.U32.add i0 lines

/-- `x as i32` -/
def asI32 (x : ℕ) : ℤ := (BitVec.ofNat 32 x).toInt

/-- `x as u32`, from an `i64` -/
def i64AsU32 (x : ℤ) : ℕ := (x % 2 ^ 32).toNat

/-- `idx2crd_row_major_2d` -/
def idx2crdRowMajor2d (idx cols : ℕ) : ℕ × ℕ :=
  if cols = 0 then (0, 0) else (idx / cols, idx % cols)

/-- The assertion of `idx2crd_2d`. -/
def Compact (l : Cute.Smem2D) : Prop :=
  (0 < l.shape.1 ∧ 0 < l.shape.2) ∧
    (l.stride.1 = 1 ∧ l.stride.2 = l.shape.1 ∨ l.stride.1 = l.shape.2 ∧ l.stride.2 = 1)

instance (l : Cute.Smem2D) : Decidable (Compact l) := inferInstanceAs (Decidable (_ ∧ _))

/-- `idx2crd_2d` of `static_layout.rs` -/
def idx2crd2d (l : Cute.Smem2D) (flat : ℕ) : Run ε (ℕ × ℕ) := do
  Run.assert (Compact l)
  if l.stride.1 = 1 then .ok (Cute.idx2crdColMajor2d (Cute.asU32 flat) (i64AsU32 l.shape.1))
  else .ok (idx2crdRowMajor2d (Cute.asU32 flat) (i64AsU32 l.shape.2))

namespace ClusterTiling

/-- `from_grid`, and `new_2d` on the device. -/
def fromGrid (C : ClusterTiling) (m n blockX gridX : ℕ) : Run ε PersistentTileSchedulerParams := do
  let mTiles := m / C.tileM
  let nTiles := n / C.tileN
  let tileCount ← Word.U32.mul mTiles nTiles
  .ok ⟨blockX / C.clusterCtas, gridX / C.clusterCtas, mTiles, nTiles, tileCount⟩

/-- `tile_idx`: the tile's place in the swizzled grid. -/
def tileIdx (C : ClusterTiling) (p : PersistentTileSchedulerParams) (tile : ℕ) : Run ε (ℕ × ℕ) :=
  Cute.idx2crdGrouped2d C.groupM tile p.mTiles p.nTiles

/-- `cta_tile_coord`: the first row and column of the part that a CTA computes. -/
def ctaTileCoord (C : ClusterTiling) (mTile nTile ctaRank : ℕ) : Run ε (ℤ × ℤ) := do
  Run.assert (C.clusterCtas ∣ C.tileM ∧ C.clusterCtas ∣ C.tileN)
  let ctaM := C.tileM / C.clusterCtas
  let ctaN := C.tileN / C.clusterCtas
  let row ← crd2idxColMajor3d 0 ctaRank mTile ctaM C.clusterCtas
  let col ← crd2idxColMajor3d 0 ctaRank nTile ctaN C.clusterCtas
  .ok (asI32 row, asI32 col)

/-- `epilogue_thread_coord`: the row and the column block that a thread stores. -/
def epilogueThreadCoord (C : ClusterTiling) (threads : Cute.Smem2D) (mTile nTile ctaRank tid : ℕ) :
    Run ε (ℕ × ℕ) := do
  Run.assert (C.clusterCtas ∣ C.tileM)
  Run.assert (i64AsU32 threads.shape.1 = C.tileM / C.clusterCtas ∧ 0 < threads.shape.2)
  let ctaM := C.tileM / C.clusterCtas
  let headsPerTile := i64AsU32 threads.shape.2
  let lane ← idx2crd2d threads tid
  let row ← crd2idxColMajor3d (Cute.asU32 lane.1) ctaRank mTile ctaM C.clusterCtas
  let headIdx ← crd2idxColMajor2d (Cute.asU32 lane.2) nTile headsPerTile
  .ok (row, headIdx)

end ClusterTiling

/-- The tile of trip `i`, if the loop of a kernel gets there:
`while tile < tile_count { …; tile += stride; }`. -/
def PersistentTileSchedulerParams.tileAt (p : PersistentTileSchedulerParams) :
    ℕ → Run ε (Option ℕ)
  | 0 => .ok (if p.firstTile < p.tileCount then some p.firstTile else none)
  | i + 1 => do
    match ← p.tileAt i with
    | none => .ok none
    | some tile =>
      let next ← Word.U32.add tile p.stride
      .ok (if next < p.tileCount then some next else none)

namespace ClusterTiling

/-- The rows and columns that a block starts to load in trip `i`.  The hardware numbers the blocks
of a cluster in the order of their indices. -/
def loadTrip (C : ClusterTiling) (m n gridX blockX i : ℕ) : Run ε (Option (ℤ × ℤ)) := do
  let p ← C.fromGrid m n blockX gridX
  match ← p.tileAt i with
  | none => .ok none
  | some tile =>
    let mn ← C.tileIdx p tile
    let start ← C.ctaTileCoord mn.1 mn.2 (blockX % C.clusterCtas)
    .ok (some start)

/-- The row and head that a thread of a block computes in trip `i`. -/
def epilogueTrip (C : ClusterTiling) (threads : Cute.Smem2D) (m n gridX blockX i tid : ℕ) :
    Run ε (Option (ℕ × ℕ)) := do
  let p ← C.fromGrid m n blockX gridX
  match ← p.tileAt i with
  | none => .ok none
  | some tile =>
    let mn ← C.tileIdx p tile
    let out ← C.epilogueThreadCoord threads mn.1 mn.2 (blockX % C.clusterCtas) tid
    .ok (some out)

end ClusterTiling

/-! ### Coordinates that fit -/

section Coordinates

variable {i0 i1 i2 d0 d1 : ℕ}

/-- The index of rank 2 when it fits. -/
theorem crd2idxColMajor2d_eq (h : i1 * d0 + i0 < 2 ^ 32) :
    (crd2idxColMajor2d i0 i1 d0 : Run ε ℕ) = .ok (i1 * d0 + i0) := by
  rw [crd2idxColMajor2d, Word.U32.mul_eq_ok.mpr ⟨by omega, rfl⟩]
  exact Word.U32.add_eq_ok.mpr ⟨by omega, Nat.add_comm _ _⟩

/-- The index of rank 3 when it fits. -/
theorem crd2idxColMajor3d_eq (hd : 0 < d0) (h : (i2 * d1 + i1) * d0 + i0 < 2 ^ 32) :
    (crd2idxColMajor3d i0 i1 i2 d0 d1 : Run ε ℕ) = .ok ((i2 * d1 + i1) * d0 + i0) := by
  have hplane : i2 * d1 + i1 ≤ (i2 * d1 + i1) * d0 := Nat.le_mul_of_pos_right _ hd
  rw [crd2idxColMajor3d, Word.U32.mul_eq_ok.mpr ⟨by omega, rfl⟩]
  show (do let plane ← Word.U32.add i1 (i2 * d1); _) = _
  rw [Word.U32.add_eq_ok.mpr ⟨by omega, Nat.add_comm _ _⟩]
  show (do let lines ← Word.U32.mul (i2 * d1 + i1) d0; _) = _
  rw [Word.U32.mul_eq_ok.mpr ⟨by omega, rfl⟩]
  exact Word.U32.add_eq_ok.mpr ⟨by omega, Nat.add_comm _ _⟩

/-- Small words are not negative as `i32`. -/
theorem asI32_eq (h : i0 < 2 ^ 31) : asI32 i0 = i0 := by
  unfold asI32
  rw [BitVec.toInt_ofNat']
  exact Int.bmod_eq_of_le (by omega) (by omega)

/-- The row and column of a thread in the part of its block. -/
def lane (threads : Cute.Smem2D) (rows cols tid : ℕ) : ℕ × ℕ :=
  if threads.stride.1 = 1 then (tid % rows, tid / rows) else (tid / cols, tid % cols)

variable {threads : Cute.Smem2D} {rows cols tid r c : ℕ}

/-- The coordinates of a thread in a compact layout. -/
theorem idx2crd2d_eq (hcompact : Compact threads) (hrows : i64AsU32 threads.shape.1 = rows)
    (hcols : i64AsU32 threads.shape.2 = cols) (htid : tid < rows * cols)
    (hfits : rows * cols ≤ 2 ^ 32) :
    (idx2crd2d threads tid : Run ε (ℕ × ℕ)) = .ok (lane threads rows cols tid) := by
  have hrpos : rows ≠ 0 := by
    rintro rfl
    omega
  have hcpos : cols ≠ 0 := by
    rintro rfl
    omega
  rw [idx2crd2d, Run.assert, if_pos hcompact, hrows, hcols, Cute.asU32_of_lt (by omega), lane,
    Cute.idx2crdColMajor2d, idx2crdRowMajor2d, if_neg hrpos, if_neg hcpos]
  show (if _ then _ else _) = _
  split <;> rfl

/-- **The threads share the part of their block.** -/
theorem existsUnique_lane (threads : Cute.Smem2D) (hr : r < rows) (hc : c < cols) :
    ∃! tid, tid < rows * cols ∧ lane threads rows cols tid = (r, c) := by
  unfold lane
  split
  · refine ⟨c * rows + r, ⟨?_, ?_⟩, ?_⟩
    · rw [Nat.mul_comm rows]
      exact Digits.pack_lt hc hr
    · rw [Digits.pack_mod hr, Digits.pack_div hr]
    · rintro tid ⟨-, htid⟩
      obtain ⟨rfl, rfl⟩ := Prod.mk.inj htid
      exact (Nat.div_add_mod' _ _).symm
  · refine ⟨r * cols + c, ⟨Digits.pack_lt hr hc, ?_⟩, ?_⟩
    · rw [Digits.pack_mod hc, Digits.pack_div hc]
    · rintro tid ⟨-, htid⟩
      obtain ⟨rfl, rfl⟩ := Prod.mk.inj htid
      exact (Nat.div_add_mod' _ _).symm

/-- A lane is in range. -/
theorem lane_lt (threads : Cute.Smem2D) (htid : tid < rows * cols) :
    (lane threads rows cols tid).1 < rows ∧ (lane threads rows cols tid).2 < cols := by
  have hrpos : 0 < rows := Nat.pos_of_ne_zero (by rintro rfl; omega)
  have hcpos : 0 < cols := Nat.pos_of_ne_zero (by rintro rfl; omega)
  unfold lane
  split
  · exact ⟨Nat.mod_lt _ hrpos, Nat.div_lt_of_lt_mul htid⟩
  · exact ⟨Nat.div_lt_of_lt_mul (Nat.mul_comm rows cols ▸ htid), Nat.mod_lt _ hcpos⟩

end Coordinates

/-! ### The trips of a cluster -/

namespace PersistentTileSchedulerParams

variable {p : PersistentTileSchedulerParams}

/-- **A cluster visits the tiles of a grid-stride loop**, if the last sum fits. -/
theorem tileAt_eq (hstride : 0 < p.stride) (hfits : p.tileCount + p.stride ≤ 2 ^ 32) (i : ℕ) :
    (p.tileAt i : Run ε (Option ℕ)) = .ok (visits p.tileCount p.stride p.firstTile)[i]? := by
  induction i with
  | zero =>
    unfold tileAt
    split
    · rename_i hlt
      rw [visits_of_lt hlt hstride, List.getElem?_cons_zero]
    · rename_i hge
      rw [visits_of_le (not_lt.mp hge), List.getElem?_nil]
  | succ i ih =>
    rw [tileAt, ih]
    show (match (visits p.tileCount p.stride p.firstTile)[i]? with
      | none => _
      | some tile => _) = _
    cases hnow : (visits p.tileCount p.stride p.firstTile)[i]? with
    | none =>
      rw [List.getElem?_eq_none_iff] at hnow
      rw [List.getElem?_eq_none_iff.mpr (by omega)]
    | some tile =>
      obtain ⟨htile, hlt⟩ := (getElem?_visits hstride).mp hnow
      have hnext : p.firstTile + (i + 1) * p.stride = tile + p.stride := by
        rw [Nat.succ_mul]
        omega
      show (do let next ← Word.U32.add tile p.stride; _) = _
      rw [Word.U32.add_eq_ok.mpr ⟨by omega, rfl⟩]
      show Except.ok (if tile + p.stride < p.tileCount then _ else _) = _
      split
      · rename_i hmore
        rw [(getElem?_visits hstride).mpr ⟨hnext, hmore⟩]
      · rename_i hend
        have hlen : ¬i + 1 < (visits p.tileCount p.stride p.firstTile).length :=
          (lt_length_visits hstride).not.mpr (by omega)
        rw [List.getElem?_eq_none_iff.mpr (by omega)]

end PersistentTileSchedulerParams

/-! ### One trip -/

namespace ClusterTiling

/-- What a launch of whole clusters has to respect: the compile-time assertions, and ranges in which
no 32-bit operation overflows. -/
structure Launch (C : ClusterTiling) (threads : Cute.Smem2D) (m n clusters : ℕ) : Prop where
  clusters_pos : 0 < clusters
  m_lt : m < 2 ^ 31
  n_lt : n < 2 ^ 31
  dvd_m : C.clusterCtas ∣ C.tileM
  dvd_n : C.clusterCtas ∣ C.tileN
  compact : Compact threads
  rows : i64AsU32 threads.shape.1 = C.tileM / C.clusterCtas
  count : m / C.tileM * (n / C.tileN) + clusters ≤ 2 ^ 32
  heads : n / C.tileN * i64AsU32 threads.shape.2 ≤ 2 ^ 32
  threads_le : C.tileM / C.clusterCtas * i64AsU32 threads.shape.2 ≤ 2 ^ 32

variable {C : ClusterTiling} {threads : Cute.Smem2D} {m n clusters w rank i tid tile : ℕ}

/-- The rows of a block, and the heads of a tile. -/
def ctaRows (C : ClusterTiling) : ℕ := C.tileM / C.clusterCtas

/-- The columns of a CTA. -/
def ctaCols (C : ClusterTiling) : ℕ := C.tileN / C.clusterCtas

/-- The place of a tile in the grid. -/
def place (C : ClusterTiling) (m n tile : ℕ) : ℕ × ℕ :=
  Digits.raggedCrd (min C.groupM (m / C.tileM)) (m / C.tileM) (n / C.tileN) tile

/-- What a thread of a block computes of a tile. -/
def output (C : ClusterTiling) (threads : Cute.Smem2D) (m n rank tid tile : ℕ) : ℕ × ℕ :=
  let lane := lane threads C.ctaRows (i64AsU32 threads.shape.2) tid
  (((C.place m n tile).1 * C.clusterCtas + rank) * C.ctaRows + lane.1,
    (C.place m n tile).2 * i64AsU32 threads.shape.2 + lane.2)

/-- The tiles of a cluster. -/
def tiles (C : ClusterTiling) (m n clusters w : ℕ) : List ℕ :=
  visits (m / C.tileM * (n / C.tileN)) clusters w

/-- The schedule of one CTA of the grid. -/
theorem fromGrid_eq (hcount : m / C.tileM * (n / C.tileN) < 2 ^ 32) (hrank : rank < C.clusterCtas) :
    (C.fromGrid m n (w * C.clusterCtas + rank) (clusters * C.clusterCtas) :
        Run ε PersistentTileSchedulerParams) =
      .ok ⟨w, clusters, m / C.tileM, n / C.tileN, m / C.tileM * (n / C.tileN)⟩ := by
  rw [fromGrid, Word.U32.mul_eq_ok.mpr ⟨hcount, rfl⟩, Digits.pack_div hrank,
    Nat.mul_div_cancel _ C.valid.2.2]
  rfl

section Place

variable (htile : tile < m / C.tileM * (n / C.tileN))
include htile

/-- The grid is not empty. -/
theorem grid_pos : 0 < m / C.tileM ∧ 0 < n / C.tileN := by
  constructor
  · exact Nat.pos_of_ne_zero fun h => by simp [h] at htile
  · exact Nat.pos_of_ne_zero fun h => by simp [h] at htile

/-- A tile has its place in the grid. -/
theorem place_lt : (C.place m n tile).1 < m / C.tileM ∧ (C.place m n tile).2 < n / C.tileN := by
  obtain ⟨hm, hn⟩ := grid_pos htile
  exact Digits.raggedCrd_mem (lt_min C.valid.2.1 hm) hn htile

/-- The place of a tile is computed. -/
theorem tileIdx_eq (first stride count : ℕ) (hcount : m / C.tileM * (n / C.tileN) < 2 ^ 32) :
    (C.tileIdx ⟨first, stride, m / C.tileM, n / C.tileN, count⟩ tile : Run ε (ℕ × ℕ)) =
      .ok (C.place m n tile) := by
  obtain ⟨hm, hn⟩ := grid_pos htile
  exact Cute.idx2crdGrouped2d_eq C.valid.2.1 hm hn hcount htile

end Place

namespace Launch

variable (h : C.Launch threads m n clusters)
include h

/-- The tiles can be counted. -/
theorem count_lt : m / C.tileM * (n / C.tileN) < 2 ^ 32 := by
  have hcount := h.count
  have hpos := h.clusters_pos
  omega

/-- The CTAs of a cluster share the rows of its tile. -/
theorem ctas_rows : C.clusterCtas * C.ctaRows = C.tileM := Nat.mul_div_cancel' h.dvd_m

/-- A CTA has rows. -/
theorem ctaRows_pos : 0 < C.ctaRows :=
  Nat.div_pos (Nat.le_of_dvd C.valid.1.1 h.dvd_m) C.valid.2.2

/-- A row of a block is a row of the output. -/
theorem row_lt {mTile laneRow : ℕ} (hm : mTile < m / C.tileM) (hrank : rank < C.clusterCtas)
    (hlane : laneRow < C.ctaRows) :
    (mTile * C.clusterCtas + rank) * C.ctaRows + laneRow < m / C.tileM * C.tileM :=
  calc (mTile * C.clusterCtas + rank) * C.ctaRows + laneRow
      < m / C.tileM * C.clusterCtas * C.ctaRows :=
        Digits.pack_lt (Digits.pack_lt hm hrank) hlane
    _ = m / C.tileM * C.tileM := by rw [Nat.mul_assoc, h.ctas_rows]

/-- The rows of the grid fit `i32`. -/
theorem rows_le : m / C.tileM * C.tileM < 2 ^ 31 := (Nat.div_mul_le_self m C.tileM).trans_lt h.m_lt

/-- The row and the column block of a thread are computed. -/
theorem epilogueThreadCoord_eq {mTile nTile : ℕ} (hm : mTile < m / C.tileM)
    (hn : nTile < n / C.tileN)
    (hrank : rank < C.clusterCtas) (htid : tid < C.ctaRows * i64AsU32 threads.shape.2) :
    (C.epilogueThreadCoord threads mTile nTile rank tid : Run ε (ℕ × ℕ)) =
      .ok ((mTile * C.clusterCtas + rank) * C.ctaRows +
          (lane threads C.ctaRows (i64AsU32 threads.shape.2) tid).1,
        nTile * i64AsU32 threads.shape.2 +
          (lane threads C.ctaRows (i64AsU32 threads.shape.2) tid).2) := by
  obtain ⟨hrow, hcol⟩ := lane_lt threads htid
  have hrows := h.row_lt hm hrank hrow
  have hrows_le := h.rows_le
  have hheads := Digits.pack_lt hn hcol
  have hheads_le := h.heads
  have hlane : (lane threads C.ctaRows (i64AsU32 threads.shape.2) tid).1 ≤
      (mTile * C.clusterCtas + rank) * C.ctaRows +
        (lane threads C.ctaRows (i64AsU32 threads.shape.2) tid).1 := Nat.le_add_left _ _
  rw [epilogueThreadCoord, Run.assert, if_pos h.dvd_m]
  show (do
    Run.assert (i64AsU32 threads.shape.1 = C.tileM / C.clusterCtas ∧ 0 < threads.shape.2)
    _) = _
  rw [Run.assert, if_pos ⟨h.rows, h.compact.1.2⟩]
  show (do let lane ← idx2crd2d threads tid; _) = _
  rw [idx2crd2d_eq h.compact h.rows rfl htid h.threads_le]
  show (do
    let row ← crd2idxColMajor3d
      (Cute.asU32 (lane threads C.ctaRows (i64AsU32 threads.shape.2) tid).1) rank mTile C.ctaRows
        C.clusterCtas
    _) = _
  rw [Cute.asU32_of_lt (by omega), crd2idxColMajor3d_eq h.ctaRows_pos (by omega)]
  show (do
    let headIdx ← crd2idxColMajor2d
      (Cute.asU32 (lane threads C.ctaRows (i64AsU32 threads.shape.2) tid).2) nTile
        (i64AsU32 threads.shape.2)
    _) = _
  rw [Cute.asU32_of_lt (by omega), crd2idxColMajor2d_eq (by omega)]
  rfl

/-- A block loads from its own rows and columns on. -/
theorem ctaTileCoord_eq {mTile nTile : ℕ} (hm : mTile < m / C.tileM) (hn : nTile < n / C.tileN)
    (hrank : rank < C.clusterCtas) :
    (C.ctaTileCoord mTile nTile rank : Run ε (ℤ × ℤ)) =
      .ok (((mTile * C.clusterCtas + rank) * C.ctaRows : ℕ),
        ((nTile * C.clusterCtas + rank) * C.ctaCols : ℕ)) := by
  have hrow := h.row_lt hm hrank h.ctaRows_pos
  have hrows_le := h.rows_le
  have hcolsPos : 0 < C.ctaCols := Nat.div_pos (Nat.le_of_dvd C.valid.1.2 h.dvd_n) C.valid.2.2
  have hcols : C.clusterCtas * C.ctaCols = C.tileN := Nat.mul_div_cancel' h.dvd_n
  have hcol : (nTile * C.clusterCtas + rank) * C.ctaCols + 0 < n / C.tileN * C.tileN := by
    rw [← hcols, ← Nat.mul_assoc, hcols]
    exact Digits.pack_lt (Digits.pack_lt hn hrank) hcolsPos
  have hcols_le := (Nat.div_mul_le_self n C.tileN).trans_lt h.n_lt
  rw [ctaTileCoord, Run.assert, if_pos ⟨h.dvd_m, h.dvd_n⟩]
  show (do let row ← crd2idxColMajor3d 0 rank mTile C.ctaRows C.clusterCtas; _) = _
  rw [crd2idxColMajor3d_eq h.ctaRows_pos (by omega)]
  show (do let col ← crd2idxColMajor3d 0 rank nTile C.ctaCols C.clusterCtas; _) = _
  rw [crd2idxColMajor3d_eq hcolsPos (by omega)]
  show Except.ok (asI32 _, asI32 _) = _
  rw [asI32_eq (by omega), asI32_eq (by omega)]
  rfl

/-- What a thread does in a trip. -/
theorem epilogueTrip_eq (hrank : rank < C.clusterCtas)
    (htid : tid < C.ctaRows * i64AsU32 threads.shape.2) :
    (C.epilogueTrip threads m n (clusters * C.clusterCtas) (w * C.clusterCtas + rank) i tid :
        Run ε (Option (ℕ × ℕ))) =
      .ok ((C.tiles m n clusters w)[i]?.map (C.output threads m n rank tid)) := by
  refine Run.bind_eq_ok.mpr ⟨_, fromGrid_eq h.count_lt hrank, Run.bind_eq_ok.mpr
    ⟨_, PersistentTileSchedulerParams.tileAt_eq h.clusters_pos h.count i, ?_⟩⟩
  show (match (C.tiles m n clusters w)[i]? with
    | none => _
    | some tile => _) = _
  cases htile : (C.tiles m n clusters w)[i]? with
  | none => rfl
  | some tile =>
    have hlt := ((getElem?_visits h.clusters_pos).mp htile).2
    obtain ⟨hm, hn⟩ := place_lt hlt
    refine Run.bind_eq_ok.mpr ⟨_, tileIdx_eq hlt _ _ _ h.count_lt, Run.bind_eq_ok.mpr ⟨_, ?_, rfl⟩⟩
    rw [Digits.pack_mod hrank]
    exact h.epilogueThreadCoord_eq hm hn hrank htid

/-- What a block loads in a trip. -/
theorem loadTrip_eq (hrank : rank < C.clusterCtas) :
    (C.loadTrip m n (clusters * C.clusterCtas) (w * C.clusterCtas + rank) i :
        Run ε (Option (ℤ × ℤ))) =
      .ok ((C.tiles m n clusters w)[i]?.map fun tile =>
        ((((C.place m n tile).1 * C.clusterCtas + rank) * C.ctaRows : ℕ),
          (((C.place m n tile).2 * C.clusterCtas + rank) * C.ctaCols : ℕ))) := by
  refine Run.bind_eq_ok.mpr ⟨_, fromGrid_eq h.count_lt hrank, Run.bind_eq_ok.mpr
    ⟨_, PersistentTileSchedulerParams.tileAt_eq h.clusters_pos h.count i, ?_⟩⟩
  show (match (C.tiles m n clusters w)[i]? with
    | none => _
    | some tile => _) = _
  cases htile : (C.tiles m n clusters w)[i]? with
  | none => rfl
  | some tile =>
    have hlt := ((getElem?_visits h.clusters_pos).mp htile).2
    obtain ⟨hm, hn⟩ := place_lt hlt
    refine Run.bind_eq_ok.mpr ⟨_, tileIdx_eq hlt _ _ _ h.count_lt, Run.bind_eq_ok.mpr ⟨_, ?_, rfl⟩⟩
    rw [Digits.pack_mod hrank]
    exact h.ctaTileCoord_eq hm hn hrank

end Launch

/-! ### All clusters together -/

variable {row head : ℕ}

/-- The tile, the rank and the lane of an output. -/
theorem output_eq_iff (htile : tile < m / C.tileM * (n / C.tileN)) (hrank : rank < C.clusterCtas)
    (htid : tid < C.ctaRows * i64AsU32 threads.shape.2)
    (hrow : row / C.ctaRows / C.clusterCtas < m / C.tileM)
    (hhead : head / i64AsU32 threads.shape.2 < n / C.tileN) :
    C.output threads m n rank tid tile = (row, head) ↔
      tile = Digits.raggedIdx (min C.groupM (m / C.tileM)) (m / C.tileM) (n / C.tileN)
          (row / C.ctaRows / C.clusterCtas, head / i64AsU32 threads.shape.2) ∧
        rank = row / C.ctaRows % C.clusterCtas ∧
        lane threads C.ctaRows (i64AsU32 threads.shape.2) tid =
          (row % C.ctaRows, head % i64AsU32 threads.shape.2) := by
  obtain ⟨hm, hn⟩ := grid_pos htile
  have hw : 0 < min C.groupM (m / C.tileM) := lt_min C.valid.2.1 hm
  obtain ⟨hlaneRow, hlaneCol⟩ := lane_lt threads htid
  constructor
  · intro heq
    obtain ⟨rfl, rfl⟩ := Prod.mk.inj heq
    rw [Digits.pack_mod hlaneRow, Digits.pack_div hlaneRow, Digits.pack_mod hlaneCol,
      Digits.pack_div hlaneCol, Digits.pack_mod hrank, Digits.pack_div hrank]
    exact ⟨(Digits.raggedIdx_raggedCrd hw hn htile).symm, rfl, rfl⟩
  · rintro ⟨rfl, rfl, hlane⟩
    have hplace := (Digits.raggedCrd_raggedIdx hw hrow hhead).2
    simp only [output, place, hplace, hlane, Nat.div_add_mod']

/-- **The outputs are shared out.**  A persistent launch of whole clusters computes every row and
head of the whole tiles once, whatever the number of clusters and the grouping of the tiles: one
thread of one block in one trip.  No operation overflows; and a thread computes a row that its block
has loaded in the same trip. -/
theorem epilogue_covers (h : C.Launch threads m n clusters) :
    (∀ row < m / C.tileM * C.tileM, ∀ head < n / C.tileN * i64AsU32 threads.shape.2,
      ∃! trip : ℕ × ℕ × ℕ, (trip.1 < clusters * C.clusterCtas ∧
          trip.2.2 < C.tileM / C.clusterCtas * i64AsU32 threads.shape.2) ∧
        (C.epilogueTrip threads m n (clusters * C.clusterCtas) trip.1 trip.2.1 trip.2.2 :
          Run ε (Option (ℕ × ℕ))) = .ok (some (row, head))) ∧
      (∀ blockX < clusters * C.clusterCtas, ∀ i,
        ∀ tid < C.tileM / C.clusterCtas * i64AsU32 threads.shape.2, ∃ out load,
          (C.epilogueTrip threads m n (clusters * C.clusterCtas) blockX i tid :
            Run ε (Option (ℕ × ℕ))) = .ok out ∧
          (C.loadTrip m n (clusters * C.clusterCtas) blockX i : Run ε (Option (ℤ × ℤ))) = .ok load ∧
          ∀ row head, out = some (row, head) →
            (row < m / C.tileM * C.tileM ∧ head < n / C.tileN * i64AsU32 threads.shape.2) ∧
            ∃ firstRow firstCol : ℤ, load = some (firstRow, firstCol) ∧ firstRow ≤ row ∧
              row < firstRow + (C.tileM / C.clusterCtas : ℕ)) := by
  have hctas := C.valid.2.2
  constructor
  · intro row hrow head hhead
    have hrows := h.ctaRows_pos
    have hheads : 0 < i64AsU32 threads.shape.2 := Nat.pos_of_ne_zero fun h0 => by simp [h0] at hhead
    have hmTile : row / C.ctaRows / C.clusterCtas < m / C.tileM := by
      rw [Nat.div_div_eq_div_mul, Nat.mul_comm C.ctaRows, h.ctas_rows]
      exact (Nat.div_lt_iff_lt_mul C.valid.1.1).mpr hrow
    have hnTile : head / i64AsU32 threads.shape.2 < n / C.tileN :=
      (Nat.div_lt_iff_lt_mul hheads).mpr hhead
    have hw : 0 < min C.groupM (m / C.tileM) := lt_min C.valid.2.1 ((Nat.zero_le _).trans_lt hmTile)
    -- the tile, the cluster and trip that visit it, the rank, and the lane
    obtain ⟨htile, -⟩ := Digits.raggedCrd_raggedIdx hw hmTile hnTile
    set tile := Digits.raggedIdx (min C.groupM (m / C.tileM)) (m / C.tileM) (n / C.tileN)
      (row / C.ctaRows / C.clusterCtas, head / i64AsU32 threads.shape.2) with htileDef
    have hrank : row / C.ctaRows % C.clusterCtas < C.clusterCtas := Nat.mod_lt _ hctas
    obtain ⟨⟨w, i⟩, ⟨hwlt, hvisit⟩, hvisitUniq⟩ := existsUnique_visit h.clusters_pos htile
    obtain ⟨tid, ⟨htid, hlane⟩, hlaneUniq⟩ := existsUnique_lane threads (Nat.mod_lt row hrows)
      (Nat.mod_lt head hheads)
    refine ⟨(w * C.clusterCtas + row / C.ctaRows % C.clusterCtas, i, tid),
      ⟨⟨Digits.pack_lt hwlt hrank, htid⟩, ?_⟩, ?_⟩
    · rw [h.epilogueTrip_eq hrank htid, show (C.tiles m n clusters w)[i]? = some tile from hvisit,
        Option.map_some, (output_eq_iff htile hrank htid hmTile hnTile).mpr ⟨htileDef, rfl, hlane⟩]
    · rintro ⟨blockX, i', tid'⟩ ⟨⟨hblock, htid'⟩, htrip⟩
      have hrank' := Nat.mod_lt blockX hctas
      have hw' : blockX / C.clusterCtas < clusters := (Nat.div_lt_iff_lt_mul hctas).mpr hblock
      rw [← Nat.div_add_mod' blockX C.clusterCtas, h.epilogueTrip_eq hrank' htid',
        Except.ok.injEq] at htrip
      obtain ⟨tile', hvisit', hout⟩ := Option.map_eq_some_iff.mp htrip
      have htile' := ((getElem?_visits h.clusters_pos).mp hvisit').2
      obtain ⟨heq, hrankEq, hlane'⟩ := (output_eq_iff htile' hrank' htid' hmTile hnTile).mp hout
      rw [heq] at hvisit'
      have hpair := hvisitUniq (blockX / C.clusterCtas, i') ⟨hw', hvisit'⟩
      rw [hlaneUniq tid' ⟨htid', hlane'⟩, ← Nat.div_add_mod' blockX C.clusterCtas, hrankEq,
        (Prod.mk.inj hpair).1, (Prod.mk.inj hpair).2]
  · intro blockX hblock i tid htid
    have hrank := Nat.mod_lt blockX hctas
    rw [← Nat.div_add_mod' blockX C.clusterCtas, h.epilogueTrip_eq hrank htid, h.loadTrip_eq hrank]
    refine ⟨_, _, rfl, rfl, fun row head hout => ?_⟩
    obtain ⟨tile, hvisit, heq⟩ := Option.map_eq_some_iff.mp hout
    obtain ⟨rfl, rfl⟩ := Prod.mk.inj heq
    have hlt := ((getElem?_visits h.clusters_pos).mp hvisit).2
    obtain ⟨hm, hn⟩ := place_lt hlt
    have hlane := lane_lt threads htid
    rw [hvisit, Option.map_some]
    refine ⟨⟨h.row_lt hm hrank hlane.1, Digits.pack_lt hn hlane.2⟩, _, _, rfl, ?_, ?_⟩
    · exact_mod_cast Nat.le_add_right _ _
    · exact_mod_cast Nat.add_lt_add_left hlane.1 _

/-- The tiling and the threads of a kernel with clusters of two blocks. -/
def twoCtaTiling : ClusterTiling := ⟨128, 256, 8, 2, by decide⟩

/-- The thread layout of the example. -/
def epilogueThreads : Cute.Smem2D := ⟨(64, 2), (1, 64), 0, .identity⟩

/-- The example satisfies the launch conditions. -/
theorem launch_twoCta : twoCtaTiling.Launch epilogueThreads 300 512 3 where
  clusters_pos := by decide
  m_lt := by decide
  n_lt := by decide
  dvd_m := by decide
  dvd_n := by decide
  compact := by decide
  rows := by decide
  count := by decide
  heads := by decide
  threads_le := by decide

/-- Three clusters share four tiles. -/
theorem epilogue_covers_twoCta : twoCtaTiling.Launch epilogueThreads 300 512 3 ∧
    ∀ row < 256, ∀ head < 4, ∃! trip : ℕ × ℕ × ℕ, (trip.1 < 6 ∧ trip.2.2 < 128) ∧
      (twoCtaTiling.epilogueTrip epilogueThreads 300 512 6 trip.1 trip.2.1 trip.2.2 :
        Run Unit (Option (ℕ × ℕ))) = .ok (some (row, head)) :=
  ⟨launch_twoCta, (epilogue_covers launch_twoCta).1⟩

end ClusterTiling

end CudaOxide.Pipeline
