import CudaOxide.Device.Thread

namespace CudaOxide.Device

open Lib.Word

/-!
# Disjoint slices and their views

The accessors of `cuda-device/src/disjoint.rs` and `view.rs`.  A pointer into the slice is its
element offset from the start, a natural number; the offsets that the code adds to a pointer are
computed in the machine's `u32` and `u64`.

* `checkedLinearTileStart`, `checkedRunBounds`, `checkedRowMajorTileStart`,
  `checkedRuntimeTileStart` — the bound checks.
* `tileThread32_spec`, `checkedRunBounds_spec`, `tile2d32_spec`, `tile2d32Rt_spec` — what passes
  a check lies in the slice, at the exact offset.
-/

/-- What a slice stores beside its pointer and its length. -/
def IndexSpace.Data : IndexSpace → Type
  | .runtime2DIndex => UInt32
  | .runtimeRowMajorTiles _ _ => UInt32
  | _ => Unit

/-- A slice of elements of `elemSize` bytes; `data` holds the row width of the runtime spaces. -/
structure DisjointSlice (space : IndexSpace) where
  len : UInt64
  elemSize : UInt64
  data : space.Data

/-- A local index below `n`. -/
structure LocalIndex32 (n : UInt64) where
  raw : UInt32
  valid : n ≠ 0 ∧ n ≤ 4294967295 ∧ raw.toUInt64 < n

namespace LocalIndex32

/-- `LocalIndex32::new` -/
def new (n : UInt64) (raw : UInt32) : Option (LocalIndex32 n) :=
  if h : n ≠ 0 ∧ n ≤ 4294967295 ∧ raw.toUInt64 < n then some ⟨raw, h⟩ else none

/-- A local index is below its bound. -/
theorem raw_lt {n : UInt64} (i : LocalIndex32 n) : i.raw.toNat < n.toNat := by
  have h := UInt64.lt_iff_toNat_lt.mp i.valid.2.2
  rwa [UInt32.toNat_toUInt64] at h

end LocalIndex32

/-! ### Views -/

/-- `n` elements from `base` on. -/
structure StaticViewMut32 (n : UInt64) where
  base : ℕ

/-- The element of a view at an index. -/
def StaticViewMut32.at {n : UInt64} (v : StaticViewMut32 n) (index : LocalIndex32 n) : ℕ :=
  v.base + index.raw.toNat

/-- `len` elements from `base` on. -/
structure RuntimeViewMut32 where
  base : ℕ
  len : UInt32

/-- The element of a view at an index, if the view has it. -/
def RuntimeViewMut32.at (v : RuntimeViewMut32) (index : UInt32) : Option ℕ :=
  if v.len ≤ index then none else some (v.base + index.toNat)

/-- A run of `n` elements, or of fewer at the end of the slice. -/
inductive ThreadRunMut32 (n : UInt64) where
  | full (view : StaticViewMut32 n)
  | clipped (view : RuntimeViewMut32)

/-- The element of a run at an index; only the clipped view checks. -/
def ThreadRunMut32.at {n : UInt64} (run : ThreadRunMut32 n) (index : UInt32) : Option ℕ :=
  match run with
  | .full view => (LocalIndex32.new n index).map view.at
  | .clipped view => view.at index

/-- A rectangle in rows of `rowStride` elements. -/
structure StaticTileMut32 (rows cols rowStride : UInt64) where
  base : ℕ

/-- The element of a tile at a row and a column. -/
def StaticTileMut32.at {rows cols rowStride : UInt64} (tile : StaticTileMut32 rows cols rowStride)
    (row : LocalIndex32 rows) (col : LocalIndex32 cols) : ℕ :=
  tile.base + (row.raw * rowStride.toUInt32 + col.raw).toNat

/-- A rectangle in rows of `stride` elements. -/
structure RuntimeTileMut32 (rows cols : UInt64) where
  base : ℕ
  stride : UInt32

/-- The element of a tile whose stride is known at run time. -/
def RuntimeTileMut32.at {rows cols : UInt64} (tile : RuntimeTileMut32 rows cols)
    (row : LocalIndex32 rows) (col : LocalIndex32 cols) : ℕ :=
  tile.base + (row.raw.toUInt64 * tile.stride.toUInt64 + col.raw.toUInt64).toNat

/-! ### Bound checks -/

/-- The mark of a rejected tile. -/
def invalidLinear2d : UInt64 := 18446744073709551615

/-- The mark of a rejected run. -/
def noRun : UInt64 := 0

/-- The start of the whole tile of a thread. -/
def checkedLinearTileStart (n : UInt64) (thread : UInt32) (len : UInt64) : UInt64 :=
  if n = 0 ∨ 4294967295 < n then usizeMax else
    let width := n.toUInt32
    let lastOffset := width - 1
    if ¬thread ≤ (4294967295 - lastOffset) / width then usizeMax else
      let start := thread * width
      let last := start + lastOffset
      if last.toUInt64 < len then start.toUInt64 else usizeMax

/-- Count and start of a run, packed into one word. -/
def checkedRunBounds (n tile len : UInt64) : UInt64 :=
  if n = 0 ∨ 4294967295 < n then noRun else
    match checkedMul64 tile n with
    | none => noRun
    | some start =>
      if len ≤ start ∨ 4294967295 < start then noRun else
        let available := len - start
        let count := if available < n then available else n
        pack count start

/-- The low word of the packed bounds. -/
def runBoundsStart (bounds : UInt64) : UInt32 := bounds.toUInt32

/-- The high word of the packed bounds. -/
def runBoundsCount (bounds : UInt64) : UInt32 := (bounds >>> 32).toUInt32

/-- `valid_row_major_shape` -/
def validRowMajorShape (rows cols rowStride elemSize : UInt64) : Bool :=
  rows ≠ 0 ∧ cols ≠ 0 ∧ rowStride ≠ 0 ∧ rows ≤ 4294967295 ∧ cols ≤ 4294967295 ∧
    rowStride ≤ 4294967295 ∧ cols ≤ rowStride ∧ elemSize ≠ 0

/-- `row * stride + col`, when it is a `u32`. -/
def checkedLinear2d (row stride col : UInt32) : UInt64 :=
  if stride = 0 ∨ ¬row ≤ (4294967295 - col) / stride then invalidLinear2d
  else (row * stride + col).toUInt64

/-- `scaled_tile_axis_fits`: the whole tile ends below `2 ^ 32`. -/
def scaledTileAxisFits (origin width : UInt32) : Bool :=
  width ≠ 0 ∧ origin ≤ (4294967295 - (width - 1)) / width

/-- The first element of a complete tile of `rows × cols` elements. -/
def checkedRowMajorTileStart (rows cols rowStride elemSize : UInt64)
    (threadRow threadCol : UInt32) (len : UInt64) : UInt64 :=
  if validRowMajorShape rows cols rowStride elemSize = false then invalidLinear2d else
    let rows := rows.toUInt32
    let cols := cols.toUInt32
    let stride := rowStride.toUInt32
    if scaledTileAxisFits threadRow rows = false ∨ scaledTileAxisFits threadCol cols = false then
      invalidLinear2d
    else
      let startRow := threadRow * rows
      let startCol := threadCol * cols
      let lastRow := startRow + (rows - 1)
      let lastCol := startCol + (cols - 1)
      if stride ≤ lastCol then invalidLinear2d else
        let start := checkedLinear2d startRow stride startCol
        let last := checkedLinear2d lastRow stride lastCol
        if start = invalidLinear2d ∨ last = invalidLinear2d ∨ len ≤ last then invalidLinear2d
        else start

/-- `valid_runtime_tile_shape` -/
def validRuntimeTileShape (rows cols elemSize : UInt64) : Bool :=
  rows ≠ 0 ∧ cols ≠ 0 ∧ rows ≤ 4294967295 ∧ cols ≤ 4294967295 ∧ elemSize ≠ 0

/-- The same for a row width known at run time, in `u64`. -/
def checkedRuntimeTileStart (rows cols elemSize : UInt64) (threadRow threadCol stride : UInt32)
    (len : UInt64) : UInt64 :=
  if validRuntimeTileShape rows cols elemSize = false ∨ stride = 0 then invalidLinear2d else
    let stride := stride.toUInt64
    let startRow := threadRow.toUInt64 * rows
    let startCol := threadCol.toUInt64 * cols
    let lastRow := startRow + (rows - 1)
    let lastCol := startCol + (cols - 1)
    if stride ≤ lastCol then invalidLinear2d
    else if ¬lastRow ≤ (18446744073709551615 - lastCol) / stride then invalidLinear2d
    else if len ≤ lastRow * stride + lastCol then invalidLinear2d
    else startRow * stride + startCol

/-! ### Accessors -/

namespace DisjointSlice

/-- `get_mut` of the spaces whose witness is the offset itself. -/
def getMut {space : IndexSpace} (s : DisjointSlice space) (idx : ThreadIndex space) : Option ℕ :=
  let i := idx.raw
  if s.elemSize ≠ 0 ∧ idx.isValid = true ∧ i < s.len then some i.toNat else none

/-- `get_mut_indexed` with a witness that was minted in the same call. -/
def getMutIndexed {space : IndexSpace} (s : DisjointSlice space)
    (fromScope : Option (ThreadIndex space)) : Option ℕ := do
  let idx ← fromScope
  let i := idx.raw
  if s.elemSize ≠ 0 ∧ i < s.len then some i.toNat else none

/-- `IndexFormula::from_scope` for one-dimensional indices. -/
def fromScope1d {l : Launch} (scope : Scope) (t : Thread l) : Option (ThreadIndex .index1D) :=
  let index := index1d scope t
  if index.isValid then some index else none

/-- The row width that the host has bound. -/
def rowWidth (s : DisjointSlice .runtime2DIndex) : UInt32 := s.data

/-- `get_mut` for a runtime row width: the coordinates are resolved against the width of the slice
that is accessed. -/
def getMutRuntime (s : DisjointSlice .runtime2DIndex) (idx : ThreadIndex .runtime2DIndex) :
    Option ℕ :=
  if s.elemSize = 0 ∨ idx.isValid = false then none else
    let row := idx.row
    let col := idx.col
    let width := s.rowWidth.toUInt64
    if width ≤ col then none else
      let i := row * width + col
      if i < s.len then some i.toNat else none

/-- `element_thread32` -/
def elementThread32 (s : DisjointSlice .index1D) (thread : ThreadIndex32) : Option ℕ :=
  if s.elemSize = 0 then none else
    let index := thread.raw.toUInt64
    if s.len ≤ index then none else some index.toNat

variable {n rows cols rowStride : UInt64}

/-- `tile_thread32` -/
def tileThread32 (s : DisjointSlice (.linearTiles n)) (thread : ThreadIndex32) :
    Option (StaticViewMut32 n) :=
  if s.elemSize = 0 then none else
    let start := checkedLinearTileStart n thread.raw s.len
    if start = usizeMax then none else some ⟨start.toUInt32.toNat⟩

/-- The run that a word of `checkedRunBounds` describes. -/
def runOfBounds (n bounds : UInt64) : ThreadRunMut32 n :=
  let start := runBoundsStart bounds
  let count := runBoundsCount bounds
  if count.toUInt64 = n then .full ⟨start.toNat⟩ else .clipped ⟨start.toNat, count⟩

/-- `thread_run32` -/
def threadRun32 (s : DisjointSlice (.linearTiles n)) (thread : ThreadIndex32) :
    Option (ThreadRunMut32 n) :=
  if s.elemSize = 0 then none else
    let bounds := checkedRunBounds n thread.raw.toUInt64 s.len
    if bounds = noRun then none else some (runOfBounds n bounds)

/-- `tile_2d32` -/
def tile2d32 (s : DisjointSlice (.rowMajorTiles rows cols rowStride)) (thread : ThreadCoord2D32) :
    Option (StaticTileMut32 rows cols rowStride) :=
  let start := checkedRowMajorTileStart rows cols rowStride s.elemSize thread.row thread.col s.len
  if start = invalidLinear2d then none else some ⟨start.toNat⟩

/-- The row width of the tiles that the host has bound. -/
def runtimeRowWidth (s : DisjointSlice (.runtimeRowMajorTiles rows cols)) : UInt32 := s.data

/-- `tile_2d32_rt` -/
def tile2d32Rt (s : DisjointSlice (.runtimeRowMajorTiles rows cols)) (thread : ThreadCoord2D32) :
    Option (RuntimeTileMut32 rows cols) :=
  let stride := s.runtimeRowWidth
  let start := checkedRuntimeTileStart rows cols s.elemSize thread.row thread.col stride s.len
  if start = invalidLinear2d then none else some ⟨start.toNat, stride⟩

end DisjointSlice

/-- The walk of a thread through its runs. -/
structure GridStrideRuns32 (n : UInt64) where
  slice : DisjointSlice (.linearTiles n)
  nextTile : UInt64
  period : UInt64

namespace GridStrideRuns32

variable {n : UInt64}

/-- The next run, and the walk after it. -/
def nextRun (w : GridStrideRuns32 n) : Option (ThreadRunMut32 n × GridStrideRuns32 n) :=
  if w.slice.elemSize = 0 ∨ w.period = 0 then none else
    let bounds := checkedRunBounds n w.nextTile w.slice.len
    if bounds = noRun then none else do
      let nextTile ← checkedAdd64 w.nextTile w.period
      some (DisjointSlice.runOfBounds n bounds, { w with nextTile })

/-- The run that call number `k` of `next_run` returns. -/
def nthRun (w : GridStrideRuns32 n) : ℕ → Option (ThreadRunMut32 n)
  | 0 => w.nextRun.map Prod.fst
  | k + 1 => do
    let (_, w) ← w.nextRun
    nthRun w k

end GridStrideRuns32

/-- `grid_stride_runs32`: the walk of one thread, in steps of the whole grid. -/
def DisjointSlice.gridStrideRuns32 {n : UInt64} (s : DisjointSlice (.linearTiles n))
    (l : Launch) (thread : ThreadIndex32) : GridStrideRuns32 n :=
  ⟨s, thread.raw.toUInt64, l.gridDim.x.toUInt64 * l.blockDim.x.toUInt64⟩

/-! ### What passes a check -/

section Checks

variable {n tile len rows cols rowStride elemSize : UInt64} {thread : UInt32}

/-- A number below `2 ^ 32` is kept by the cast. -/
theorem toNat_toUInt32_of_le (h : n ≤ 4294967295) : n.toUInt32.toNat = n.toNat := by
  have hmax : (4294967295 : UInt64).toNat = 4294967295 := rfl
  have hle := UInt64.le_iff_toNat_le.mp h
  rw [UInt64.toNat_toUInt32, Nat.mod_eq_of_lt (by omega)]

/-- A word that is not zero is positive. -/
theorem toNat_pos_of_ne_zero (h : n ≠ 0) : 0 < n.toNat :=
  Nat.pos_of_ne_zero fun h0 => h (UInt64.toNat_inj.mp h0)

/-- Its cast is not zero either. -/
theorem toUInt32_ne_zero (h : n ≠ 0) (hmax : n ≤ 4294967295) : n.toUInt32 ≠ 0 := by
  intro h0
  have hpos := toNat_pos_of_ne_zero h
  rw [← toNat_toUInt32_of_le hmax, h0] at hpos
  exact absurd hpos (by decide)

/-- A word that is not zero has a predecessor. -/
theorem toNat_sub_one32 {w : UInt32} (h : w ≠ 0) : (w - 1).toNat = w.toNat - 1 := by
  have hpos : 0 < w.toNat := Nat.pos_of_ne_zero fun h0 => h (UInt32.toNat_inj.mp h0)
  have hone : (1 : UInt32).toNat = 1 := rfl
  rw [UInt32.toNat_sub_of_le _ _ (UInt32.le_iff_toNat_le.mpr (by omega)), hone]

/-- The same for 64 bits. -/
theorem toNat_sub_one64 (h : n ≠ 0) : (n - 1).toNat = n.toNat - 1 := by
  have hpos := toNat_pos_of_ne_zero h
  have hone : (1 : UInt64).toNat = 1 := rfl
  rw [UInt64.toNat_sub_of_le _ _ (UInt64.le_iff_toNat_le.mpr (by omega)), hone]

/-- An accepted tile is the whole range of its thread. -/
theorem checkedLinearTileStart_spec (h : checkedLinearTileStart n thread len ≠ usizeMax) :
    (checkedLinearTileStart n thread len).toUInt32.toNat = thread.toNat * n.toNat ∧
      thread.toNat * n.toNat + n.toNat ≤ len.toNat := by
  unfold checkedLinearTileStart at h ⊢
  split at h
  · exact absurd rfl h
  rename_i hn
  rw [if_neg hn]
  rw [not_or, UInt64.not_lt] at hn
  obtain ⟨hn0, hmax⟩ := hn
  have hwidth := toNat_toUInt32_of_le hmax
  have hpos := toNat_pos_of_ne_zero hn0
  have hlast := toNat_sub_one32 (toUInt32_ne_zero hn0 hmax)
  simp only at h ⊢
  split at h
  · exact absurd rfl h
  rename_i hguard
  rw [if_neg hguard]
  rw [not_not] at hguard
  have hfits := (guard32 (toUInt32_ne_zero hn0 hmax)).mp hguard
  rw [hlast, hwidth] at hfits
  have hstart : (thread * n.toUInt32).toNat = thread.toNat * n.toNat := by
    rw [toNat_mul32 (by rw [hwidth]; omega), hwidth]
  split at h
  · rename_i hlen
    rw [if_pos hlen]
    have hlt := UInt64.lt_iff_toNat_lt.mp hlen
    rw [UInt32.toNat_toUInt64, toNat_add32 (by rw [hstart, hlast, hwidth]; exact hfits), hstart,
      hlast, hwidth] at hlt
    refine ⟨?_, by omega⟩
    rw [UInt32.toUInt32_toUInt64, hstart]
  · exact absurd rfl h

/-- The word of an accepted run: its start and its length. -/
theorem checkedRunBounds_spec (h : checkedRunBounds n tile len ≠ noRun) :
    n ≠ 0 ∧ n ≤ 4294967295 ∧
      (runBoundsStart (checkedRunBounds n tile len)).toNat = tile.toNat * n.toNat ∧
      (runBoundsCount (checkedRunBounds n tile len)).toNat =
        min n.toNat (len.toNat - tile.toNat * n.toNat) := by
  unfold checkedRunBounds at h ⊢
  -- each check that fails gives no run
  split at h
  · exact absurd rfl h
  rename_i hn
  rw [if_neg hn]
  rw [not_or, UInt64.not_lt] at hn
  obtain ⟨hn0, hmax⟩ := hn
  refine ⟨hn0, hmax, ?_⟩
  cases hmul : checkedMul64 tile n with
  | none =>
    rw [hmul] at h
    exact absurd rfl h
  | some start =>
    rw [hmul] at h
    simp only at h ⊢
    split at h
    · exact absurd rfl h
    rename_i hbound
    rw [if_neg hbound]
    rw [not_or, UInt64.not_le, UInt64.not_lt] at hbound
    -- a run that is accepted fits the two halves of its word
    have hmaxv : (4294967295 : UInt64).toNat = 4294967295 := rfl
    have hstart := checkedMul64_eq_some hmul
    have hlow : start.toNat < 2 ^ 32 := by
      have := UInt64.le_iff_toNat_le.mp hbound.2
      omega
    have hn32 : n.toNat < 2 ^ 32 := by
      have := UInt64.le_iff_toNat_le.mp hmax
      omega
    have havail : (len - start).toNat = len.toNat - start.toNat :=
      UInt64.toNat_sub_of_le _ _ (UInt64.le_of_lt hbound.1)
    -- the last run may be shorter
    have hcount : (if len - start < n then len - start else n).toNat =
        min n.toNat (len.toNat - start.toNat) := by
      split
      · rename_i hlt
        rw [havail, min_eq_right]
        have := UInt64.lt_iff_toNat_lt.mp hlt
        omega
      · rename_i hle
        rw [min_eq_left]
        have := UInt64.le_iff_toNat_le.mp (UInt64.not_lt.mp hle)
        omega
    have hhigh : (if len - start < n then len - start else n).toNat < 2 ^ 32 := by
      rw [hcount]
      omega
    constructor
    · rw [runBoundsStart, UInt64.toNat_toUInt32, pack_mod hhigh hlow, hstart]
    · rw [runBoundsCount, UInt64.toNat_toUInt32, pack_shiftRight hhigh hlow,
        Nat.mod_eq_of_lt hhigh, hcount, hstart]

/-- A run that starts inside the slice, at a `u32` offset, is accepted. -/
theorem checkedRunBounds_ne (hn0 : n ≠ 0) (hmax : n ≤ 4294967295)
    (hlen : tile.toNat * n.toNat < len.toNat) (h32 : tile.toNat * n.toNat < 2 ^ 32) :
    checkedRunBounds n tile len ≠ noRun := by
  have hpos := toNat_pos_of_ne_zero hn0
  have hmul : checkedMul64 tile n = some (tile * n) := if_pos (by omega)
  have hstart := toNat_mul64 (a := tile) (b := n) (by omega)
  have hmaxv : (4294967295 : UInt64).toNat = 4294967295 := rfl
  intro h
  unfold checkedRunBounds at h
  rw [if_neg (by rw [not_or, UInt64.not_lt]; exact ⟨hn0, hmax⟩), hmul] at h
  simp only at h
  rw [if_neg] at h
  · -- the packed count is not zero
    have hlow : (tile * n).toNat < 2 ^ 32 := by rwa [hstart]
    have hn32 : n.toNat < 2 ^ 32 := by
      have := UInt64.le_iff_toNat_le.mp hmax
      omega
    have havail : (len - tile * n).toNat = len.toNat - (tile * n).toNat :=
      UInt64.toNat_sub_of_le _ _ (UInt64.le_iff_toNat_le.mpr (by omega))
    have hcount : 0 < (if len - tile * n < n then len - tile * n else n).toNat ∧
        (if len - tile * n < n then len - tile * n else n).toNat < 2 ^ 32 := by
      split
      · rename_i hlt
        have := UInt64.lt_iff_toNat_lt.mp hlt
        omega
      · exact ⟨hpos, hn32⟩
    have hzero := congrArg UInt64.toNat h
    rw [toNat_pack hcount.2 hlow] at hzero
    have h0 : noRun.toNat = 0 := rfl
    omega
  · rw [not_or, UInt64.not_le, UInt64.not_lt, UInt64.lt_iff_toNat_lt, UInt64.le_iff_toNat_le,
      hstart, hmaxv]
    omega

/-- An index below the bound is a local index. -/
theorem LocalIndex32.new_eq_some {i : UInt32} (hn0 : n ≠ 0) (hmax : n ≤ 4294967295)
    (hi : i.toNat < n.toNat) : ∃ h, LocalIndex32.new n i = some ⟨i, h⟩ := by
  have h : n ≠ 0 ∧ n ≤ 4294967295 ∧ i.toUInt64 < n :=
    ⟨hn0, hmax, UInt64.lt_iff_toNat_lt.mpr (by rwa [UInt32.toNat_toUInt64])⟩
  exact ⟨h, dif_pos h⟩

/-- The elements of an accepted run. -/
theorem runOfBounds_at (h : checkedRunBounds n tile len ≠ noRun) {i : UInt32} {o : ℕ} :
    (DisjointSlice.runOfBounds n (checkedRunBounds n tile len)).at i = some o ↔
      i.toNat < n.toNat ∧ o = tile.toNat * n.toNat + i.toNat ∧ o < len.toNat := by
  obtain ⟨hn0, hmax, hstart, hcount⟩ := checkedRunBounds_spec h
  unfold DisjointSlice.runOfBounds
  simp only
  split
  · rename_i hfull
    have hn : (runBoundsCount (checkedRunBounds n tile len)).toNat = n.toNat := by
      rw [← UInt32.toNat_toUInt64, hfull]
    rw [hn] at hcount
    simp only [ThreadRunMut32.at, Option.map_eq_some_iff, hstart, StaticViewMut32.at]
    constructor
    · rintro ⟨j, hj, rfl⟩
      have hji : j.raw = i := by
        unfold LocalIndex32.new at hj
        split at hj
        · cases hj
          rfl
        · cases hj
      have hlt := j.raw_lt
      rw [hji] at hlt ⊢
      exact ⟨hlt, rfl, by omega⟩
    · rintro ⟨hi, rfl, _⟩
      obtain ⟨hvalid, hnew⟩ := LocalIndex32.new_eq_some hn0 hmax hi
      exact ⟨_, hnew, rfl⟩
  · simp only [ThreadRunMut32.at, RuntimeViewMut32.at, hstart]
    split
    · rename_i hle
      have := UInt32.le_iff_toNat_le.mp hle
      simp only [reduceCtorEq, false_iff]
      omega
    · rename_i hlt
      have := UInt32.lt_iff_toNat_lt.mp (UInt32.not_le.mp hlt)
      simp only [Option.some.injEq]
      omega

/-! ### Tiles -/

/-- Row times stride plus column is exact where it is not the sentinel. -/
theorem checkedLinear2d_spec {row stride col : UInt32}
    (h : checkedLinear2d row stride col ≠ invalidLinear2d) :
    (checkedLinear2d row stride col).toNat = row.toNat * stride.toNat + col.toNat ∧
      row.toNat * stride.toNat + col.toNat < 2 ^ 32 := by
  unfold checkedLinear2d at h ⊢
  split at h
  · exact absurd rfl h
  rename_i hguard
  rw [if_neg hguard]
  rw [not_or, not_not] at hguard
  have hfits := (guard32 hguard.1).mp hguard.2
  exact ⟨by rw [UInt32.toNat_toUInt64, toNat_mulAdd32 hfits], hfits⟩

/-- An axis that fits has an exact origin and an exact end. -/
theorem scaledTileAxisFits_spec {origin width : UInt32}
    (h : scaledTileAxisFits origin width = true) :
    width ≠ 0 ∧ (origin * width).toNat = origin.toNat * width.toNat ∧
      (origin * width + (width - 1)).toNat =
        origin.toNat * width.toNat + (width.toNat - 1) := by
  simp only [scaledTileAxisFits, decide_eq_true_eq] at h
  have hfits := (guard32 h.1).mp h.2
  have hsub := toNat_sub_one32 h.1
  refine ⟨h.1, toNat_mul32 (by omega), ?_⟩
  rw [toNat_mulAdd32 hfits, hsub]

/-- An accepted rectangle: its first element, and bounds of its last column and element. -/
theorem checkedRowMajorTileStart_spec {threadRow threadCol : UInt32} {start : UInt64}
    (h : checkedRowMajorTileStart rows cols rowStride elemSize threadRow threadCol len = start)
    (hne : start ≠ invalidLinear2d) :
    rows ≠ 0 ∧ cols ≠ 0 ∧ rowStride ≤ 4294967295 ∧
      start.toNat =
        threadRow.toNat * rows.toNat * rowStride.toNat + threadCol.toNat * cols.toNat ∧
      threadCol.toNat * cols.toNat + (cols.toNat - 1) < rowStride.toNat ∧
      (threadRow.toNat * rows.toNat + (rows.toNat - 1)) * rowStride.toNat +
        (threadCol.toNat * cols.toNat + (cols.toNat - 1)) < min (2 ^ 32) len.toNat := by
  unfold checkedRowMajorTileStart at h
  -- the checks, from the shape of the tile to its last element
  split at h
  · exact absurd h.symm hne
  rename_i hshape
  simp only [validRowMajorShape, Bool.not_eq_false, decide_eq_true_eq] at hshape
  obtain ⟨hr0, hc0, _, hr, hc, hs, _, _⟩ := hshape
  simp only at h
  split at h
  · exact absurd h.symm hne
  rename_i haxes
  simp only [not_or, Bool.not_eq_false] at haxes
  -- both axes fit, so neither the first nor the last coordinate wraps
  obtain ⟨_, hrow, hlastRow⟩ := scaledTileAxisFits_spec haxes.1
  obtain ⟨_, hcol, hlastCol⟩ := scaledTileAxisFits_spec haxes.2
  rw [toNat_toUInt32_of_le hr] at hrow hlastRow
  rw [toNat_toUInt32_of_le hc] at hcol hlastCol
  split at h
  · exact absurd h.symm hne
  rename_i hinside
  have hinside := UInt32.lt_iff_toNat_lt.mp (UInt32.not_le.mp hinside)
  rw [hlastCol, toNat_toUInt32_of_le hs] at hinside
  split at h
  · exact absurd h.symm hne
  rename_i hlinear
  simp only [not_or, UInt64.not_le] at hlinear
  -- the last element is below `2^32` and in the slice
  obtain ⟨hstart, _⟩ := checkedLinear2d_spec hlinear.1
  obtain ⟨hlast, hlast32⟩ := checkedLinear2d_spec hlinear.2.1
  have hlen := UInt64.lt_iff_toNat_lt.mp hlinear.2.2
  rw [hlast] at hlen
  rw [hlastRow, hlastCol, toNat_toUInt32_of_le hs] at hlen hlast32
  rw [hrow, hcol, toNat_toUInt32_of_le hs] at hstart
  exact ⟨hr0, hc0, hs, by rw [← h, hstart], hinside, lt_min hlast32 hlen⟩

/-- The start of a tile is exact where it is not the sentinel, and the tile lies in the slice. -/
theorem checkedRuntimeTileStart_spec {threadRow threadCol stride : UInt32} {start : UInt64}
    (h : checkedRuntimeTileStart rows cols elemSize threadRow threadCol stride len = start)
    (hne : start ≠ invalidLinear2d) :
    rows ≠ 0 ∧ cols ≠ 0 ∧
      start.toNat =
        threadRow.toNat * rows.toNat * stride.toNat + threadCol.toNat * cols.toNat ∧
      threadCol.toNat * cols.toNat + (cols.toNat - 1) < stride.toNat ∧
      (threadRow.toNat * rows.toNat + (rows.toNat - 1)) * stride.toNat +
        (threadCol.toNat * cols.toNat + (cols.toNat - 1)) < len.toNat := by
  unfold checkedRuntimeTileStart at h
  split at h
  · exact absurd h.symm hne
  rename_i hshape
  simp only [validRuntimeTileShape, not_or, Bool.not_eq_false, decide_eq_true_eq] at hshape
  obtain ⟨⟨hr0, hc0, hr, hc, _⟩, hs0⟩ := hshape
  have hmaxv : (4294967295 : UInt64).toNat = 4294967295 := rfl
  have hr32 := UInt64.le_iff_toNat_le.mp hr
  have hc32 := UInt64.le_iff_toNat_le.mp hc
  have ht : threadRow.toNat < 2 ^ 32 := threadRow.toNat_lt
  have hu : threadCol.toNat < 2 ^ 32 := threadCol.toNat_lt
  -- products of 32-bit factors do not wrap
  have hrowFits : threadRow.toNat * rows.toNat + (rows.toNat - 1) < 2 ^ 64 := by
    rw [hmaxv] at hr32
    nlinarith [Nat.sub_le rows.toNat 1]
  have hcolFits : threadCol.toNat * cols.toNat + (cols.toNat - 1) < 2 ^ 64 := by
    rw [hmaxv] at hc32
    nlinarith [Nat.sub_le cols.toNat 1]
  have hrow : (threadRow.toUInt64 * rows).toNat = threadRow.toNat * rows.toNat := by
    rw [toNat_mul64 (by rw [UInt32.toNat_toUInt64]; omega), UInt32.toNat_toUInt64]
  have hcol : (threadCol.toUInt64 * cols).toNat = threadCol.toNat * cols.toNat := by
    rw [toNat_mul64 (by rw [UInt32.toNat_toUInt64]; omega), UInt32.toNat_toUInt64]
  have hlastRow : (threadRow.toUInt64 * rows + (rows - 1)).toNat =
      threadRow.toNat * rows.toNat + (rows.toNat - 1) := by
    rw [toNat_add64 (by rw [hrow, toNat_sub_one64 hr0]; exact hrowFits), hrow,
      toNat_sub_one64 hr0]
  have hlastCol : (threadCol.toUInt64 * cols + (cols - 1)).toNat =
      threadCol.toNat * cols.toNat + (cols.toNat - 1) := by
    rw [toNat_add64 (by rw [hcol, toNat_sub_one64 hc0]; exact hcolFits), hcol,
      toNat_sub_one64 hc0]
  simp only at h
  split at h
  · exact absurd h.symm hne
  rename_i hinside
  have hinside := UInt64.lt_iff_toNat_lt.mp (UInt64.not_le.mp hinside)
  rw [hlastCol, UInt32.toNat_toUInt64] at hinside
  split at h
  · exact absurd h.symm hne
  rename_i hguard
  have hstride : stride.toUInt64 ≠ 0 := by
    intro h0
    have := congrArg UInt64.toNat h0
    rw [UInt32.toNat_toUInt64] at this
    exact hs0 (UInt32.toNat_inj.mp this)
  have hfits := (guard64 hstride).mp (not_not.mp hguard)
  split at h
  · exact absurd h.symm hne
  rename_i hlen
  have hlen := UInt64.lt_iff_toNat_lt.mp (UInt64.not_le.mp hlen)
  rw [toNat_mulAdd64 hfits, hlastRow, hlastCol, UInt32.toNat_toUInt64] at hlen
  rw [hlastRow, hlastCol, UInt32.toNat_toUInt64] at hfits
  have hle := Nat.mul_le_mul_right stride.toNat
    (Nat.le_add_right (threadRow.toNat * rows.toNat) (rows.toNat - 1))
  refine ⟨hr0, hc0, ?_, hinside, hlen⟩
  rw [← h, toNat_mulAdd64 (by rw [hrow, hcol, UInt32.toNat_toUInt64]; omega), hrow, hcol,
    UInt32.toNat_toUInt64]

end Checks

/-- An element of a rectangle that fits lies in the slice, at the exact offset. -/
theorem rectangle_lt {r c rows cols row col stride bound : ℕ} (hr : r < rows) (hc : c < cols)
    (h : (row * rows + (rows - 1)) * stride + (col * cols + (cols - 1)) < bound) :
    row * rows * stride + col * cols + (r * stride + c) =
        (row * rows + r) * stride + (col * cols + c) ∧
      (row * rows + r) * stride + (col * cols + c) < bound ∧ r * stride + c < bound := by
  have hle : (row * rows + r) * stride ≤ (row * rows + (rows - 1)) * stride :=
    Nat.mul_le_mul_right stride (by omega)
  have hr' : r * stride ≤ (row * rows + r) * stride := Nat.mul_le_mul_right stride (by omega)
  refine ⟨by ring, by omega, by omega⟩

namespace DisjointSlice

variable {n rows cols rowStride : UInt64}

/-- The element of a static tile, in terms of the thread's coordinate. -/
theorem tile2d32_at {s : DisjointSlice (.rowMajorTiles rows cols rowStride)}
    {thread : ThreadCoord2D32} {tile : StaticTileMut32 rows cols rowStride}
    (h : s.tile2d32 thread = some tile) (r : LocalIndex32 rows) (c : LocalIndex32 cols) :
    tile.at r c = (thread.row.toNat * rows.toNat + r.raw.toNat) * rowStride.toNat +
        (thread.col.toNat * cols.toNat + c.raw.toNat) ∧
      tile.at r c < s.len.toNat ∧
      thread.col.toNat * cols.toNat + c.raw.toNat < rowStride.toNat := by
  simp only [tile2d32] at h
  split at h
  · cases h
  rename_i hne
  cases h
  obtain ⟨_, _, hs, hstart, hinside, hlast⟩ := checkedRowMajorTileStart_spec rfl hne
  obtain ⟨heq, hlt, hlocal⟩ := rectangle_lt r.raw_lt c.raw_lt hlast
  have hlocal32 := hlocal.trans_le (min_le_left _ _)
  have hat : (r.raw * rowStride.toUInt32 + c.raw).toNat =
      r.raw.toNat * rowStride.toNat + c.raw.toNat := by
    rw [toNat_mulAdd32 (by rw [toNat_toUInt32_of_le hs]; exact hlocal32),
      toNat_toUInt32_of_le hs]
  have hc := c.raw_lt
  simp only [StaticTileMut32.at, hat, hstart, heq]
  exact ⟨trivial, hlt.trans_le (min_le_right _ _), by omega⟩

/-- The element of a runtime tile, in terms of the thread's coordinate. -/
theorem tile2d32Rt_at {s : DisjointSlice (.runtimeRowMajorTiles rows cols)}
    {thread : ThreadCoord2D32} {tile : RuntimeTileMut32 rows cols}
    (h : s.tile2d32Rt thread = some tile) (r : LocalIndex32 rows) (c : LocalIndex32 cols) :
    tile.at r c = (thread.row.toNat * rows.toNat + r.raw.toNat) * s.runtimeRowWidth.toNat +
        (thread.col.toNat * cols.toNat + c.raw.toNat) ∧
      tile.at r c < s.len.toNat ∧
      thread.col.toNat * cols.toNat + c.raw.toNat < s.runtimeRowWidth.toNat := by
  simp only [tile2d32Rt] at h
  split at h
  · cases h
  rename_i hne
  cases h
  obtain ⟨_, _, hstart, hinside, hlast⟩ := checkedRuntimeTileStart_spec rfl hne
  obtain ⟨heq, hlt, hlocal⟩ := rectangle_lt r.raw_lt c.raw_lt hlast
  have hlen : s.len.toNat < 2 ^ 64 := s.len.toNat_lt
  have hat : (r.raw.toUInt64 * s.runtimeRowWidth.toUInt64 + c.raw.toUInt64).toNat =
      r.raw.toNat * s.runtimeRowWidth.toNat + c.raw.toNat := by
    rw [toNat_mulAdd64 (by simp only [UInt32.toNat_toUInt64]; omega)]
    simp only [UInt32.toNat_toUInt64]
  have hc := c.raw_lt
  simp only [RuntimeTileMut32.at, hat, hstart, heq]
  exact ⟨trivial, hlt, by omega⟩

end DisjointSlice

/-! ### The walk -/

namespace GridStrideRuns32

variable {n : UInt64} {w : GridStrideRuns32 n} {run : ThreadRunMut32 n}

/-- Run `k` of a walk is that of the tile `k` periods later. -/
theorem nthRun_spec {k : ℕ} (h : w.nthRun k = some run) :
    ∃ tile : UInt64, tile.toNat = w.nextTile.toNat + k * w.period.toNat ∧
      checkedRunBounds n tile w.slice.len ≠ noRun ∧
      run = DisjointSlice.runOfBounds n (checkedRunBounds n tile w.slice.len) := by
  induction k generalizing w with
  | zero =>
    simp only [nthRun, nextRun, Option.map_eq_some_iff] at h
    obtain ⟨⟨run', w'⟩, h, rfl⟩ := h
    split at h
    · cases h
    split at h
    · cases h
    rename_i hne
    simp only [Option.bind_eq_bind, Option.bind_eq_some_iff, Option.some.injEq,
      Prod.mk.injEq] at h
    obtain ⟨_, _, rfl, _⟩ := h
    exact ⟨w.nextTile, by omega, hne, rfl⟩
  | succ k ih =>
    simp only [nthRun, Option.bind_eq_bind, Option.bind_eq_some_iff] at h
    obtain ⟨⟨run', w'⟩, hstep, h⟩ := h
    simp only [nextRun] at hstep
    split at hstep
    · cases hstep
    split at hstep
    · cases hstep
    simp only [Option.bind_eq_bind, Option.bind_eq_some_iff, Option.some.injEq,
      Prod.mk.injEq] at hstep
    obtain ⟨next, hnext, _, rfl⟩ := hstep
    obtain ⟨tile, htile, hne, hrun⟩ := ih h
    refine ⟨tile, ?_, hne, hrun⟩
    rw [htile, checkedAdd64_eq_some hnext]
    ring

/-- A tile that starts inside the slice, at a `u32` offset, gives a run. -/
theorem nextRun_eq (hsize : w.slice.elemSize ≠ 0) (hperiod : w.period ≠ 0) (hn0 : n ≠ 0)
    (hmax : n ≤ 4294967295) (hadd : w.nextTile.toNat + w.period.toNat < 2 ^ 64)
    (hlen : w.nextTile.toNat * n.toNat < w.slice.len.toNat)
    (h32 : w.nextTile.toNat * n.toNat < 2 ^ 32) :
    w.nextRun = some (DisjointSlice.runOfBounds n (checkedRunBounds n w.nextTile w.slice.len),
      { w with nextTile := w.nextTile + w.period }) := by
  have hne : checkedRunBounds n w.nextTile w.slice.len ≠ noRun :=
    checkedRunBounds_ne hn0 hmax hlen h32
  have hnext : checkedAdd64 w.nextTile w.period = some (w.nextTile + w.period) := if_pos hadd
  simp only [nextRun, hsize, hperiod, or_self, if_false, hne, hnext]
  rfl

/-- The walk goes on as long as its tiles start inside the slice, at `u32` offsets. -/
theorem nthRun_isSome {k : ℕ} (hsize : w.slice.elemSize ≠ 0) (hperiod : w.period ≠ 0)
    (hn0 : n ≠ 0) (hmax : n ≤ 4294967295)
    (hadd : w.nextTile.toNat + (k + 1) * w.period.toNat < 2 ^ 64)
    (hlen : (w.nextTile.toNat + k * w.period.toNat) * n.toNat < w.slice.len.toNat)
    (h32 : (w.nextTile.toNat + k * w.period.toNat) * n.toNat < 2 ^ 32) :
    (w.nthRun k).isSome := by
  induction k generalizing w with
  | zero =>
    rw [zero_mul, add_zero] at hlen h32
    rw [zero_add, one_mul] at hadd
    rw [nthRun, nextRun_eq hsize hperiod hn0 hmax hadd hlen h32]
    rfl
  | succ k ih =>
    have hsplit : w.nextTile.toNat + (k + 1) * w.period.toNat =
        w.nextTile.toNat + w.period.toNat + k * w.period.toNat := by ring
    have hsplit' : w.nextTile.toNat + (k + 1 + 1) * w.period.toNat =
        w.nextTile.toNat + w.period.toNat + (k + 1) * w.period.toNat := by ring
    rw [hsplit] at hlen h32
    rw [hsplit'] at hadd
    have hle : w.nextTile.toNat * n.toNat ≤
        (w.nextTile.toNat + w.period.toNat + k * w.period.toNat) * n.toNat :=
      Nat.mul_le_mul_right _ (by omega)
    have hnext := toNat_add64 (a := w.nextTile) (b := w.period) (by omega)
    rw [nthRun, nextRun_eq hsize hperiod hn0 hmax (by omega) (by omega) (by omega)]
    exact ih hsize hperiod (by rw [hnext]; exact hadd) (by rw [hnext]; exact hlen)
      (by rw [hnext]; exact h32)

end GridStrideRuns32

end CudaOxide.Device
