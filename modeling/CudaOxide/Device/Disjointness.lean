import CudaOxide.Device.DisjointSlice

namespace CudaOxide.Device

open Lib.Word

/-!
# Distinct threads reach distinct elements

* `Reaches` — the elements that a thread can reach through the safe accessors of a slice, with
  witnesses of any launch context that tells the truth about the launch.
* `Owns` — what each index space means: the exact element numbers of a thread, without any
  machine arithmetic.
* `owns_of_reaches` — the accessors compute those numbers, and stay inside the slice.
* `eq_of_owns` — an element has one owner.
* `gridStride_covers` — the grid-stride walks of all threads pass every element once.
-/

variable {l : Launch}

/-- The context of a kernel whose contract is `domain = 1, coordinates = u32`. -/
def context1d32 : Scope := ⟨.domain1, .u32⟩

/-- The context of a kernel whose contract is `domain = 2, coordinates = u32`. -/
def context2d32 : Scope := ⟨.domain2, .u32⟩

/-- Thread `t` can reach element `o`.  A witness of a runtime row width may have been minted from
another slice, of width `width`. -/
inductive Reaches (t : Thread l) : {space : IndexSpace} → DisjointSlice space → ℕ → Prop
  | getMut1d {slice : DisjointSlice .index1D} {scope : Scope} {o : ℕ} (hs : scope.Promised l)
      (h : slice.getMut (index1d scope t) = some o) : Reaches t slice o
  | getMutIndexed1d {slice : DisjointSlice .index1D} {scope : Scope} {o : ℕ}
      (hs : scope.Promised l)
      (h : slice.getMutIndexed (DisjointSlice.fromScope1d scope t) = some o) : Reaches t slice o
  | element32 {slice : DisjointSlice .index1D} {o : ℕ} (hs : context1d32.Promised l)
      (h : slice.elementThread32 (index1dU32 t) = some o) : Reaches t slice o
  | getMut2d {rowStride : UInt64} {slice : DisjointSlice (.index2D rowStride)} {scope : Scope}
      {idx : ThreadIndex (.index2D rowStride)} {o : ℕ} (hs : scope.Promised l)
      (hidx : index2d rowStride scope t = some idx) (h : slice.getMut idx = some o) :
      Reaches t slice o
  | getMutIndexed2d {rowStride : UInt64} {slice : DisjointSlice (.index2D rowStride)}
      {scope : Scope} {o : ℕ} (hs : scope.Promised l)
      (h : slice.getMutIndexed (index2d rowStride scope t) = some o) : Reaches t slice o
  | getMutWarp {slice : DisjointSlice .warpIndex} {scope : Scope} {idx : ThreadIndex .warpIndex}
      {o : ℕ} (hs : scope.Promised l) (hidx : warpIndex scope t = some idx)
      (h : slice.getMut idx = some o) : Reaches t slice o
  | getMutRuntime {slice : DisjointSlice .runtime2DIndex} {scope : Scope} {width : UInt32}
      {idx : ThreadIndex .runtime2DIndex} {o : ℕ} (hs : scope.Promised l)
      (hidx : index2dRuntime scope width t = some idx) (h : slice.getMutRuntime idx = some o) :
      Reaches t slice o
  | tile32 {n : UInt64} {slice : DisjointSlice (.linearTiles n)} {view : StaticViewMut32 n}
      (hs : context1d32.Promised l) (hview : slice.tileThread32 (index1dU32 t) = some view)
      (i : LocalIndex32 n) : Reaches t slice (view.at i)
  | run32 {n : UInt64} {slice : DisjointSlice (.linearTiles n)} {run : ThreadRunMut32 n}
      {i : UInt32} {o : ℕ} (hs : context1d32.Promised l)
      (hrun : slice.threadRun32 (index1dU32 t) = some run) (h : run.at i = some o) :
      Reaches t slice o
  | gridStride {n : UInt64} {slice : DisjointSlice (.linearTiles n)} {run : ThreadRunMut32 n}
      {k : ℕ} {i : UInt32} {o : ℕ} (hs : context1d32.Promised l)
      (hrun : (slice.gridStrideRuns32 l (index1dU32 t)).nthRun k = some run)
      (h : run.at i = some o) : Reaches t slice o
  | tile2d32 {rows cols rowStride : UInt64}
      {slice : DisjointSlice (.rowMajorTiles rows cols rowStride)}
      {tile : StaticTileMut32 rows cols rowStride} (hs : context2d32.Promised l)
      (htile : slice.tile2d32 (coord2dU32 t) = some tile) (r : LocalIndex32 rows)
      (c : LocalIndex32 cols) : Reaches t slice (tile.at r c)
  | tile2d32Rt {rows cols : UInt64} {slice : DisjointSlice (.runtimeRowMajorTiles rows cols)}
      {tile : RuntimeTileMut32 rows cols} (hs : context2d32.Promised l)
      (htile : slice.tile2d32Rt (coord2dU32 t) = some tile) (r : LocalIndex32 rows)
      (c : LocalIndex32 cols) : Reaches t slice (tile.at r c)

/-! ### Exact ownership -/

/-- Element `o` is a cell of the tile of `rows × cols` cells that belongs to `t`. -/
def OwnsTile (t : Thread l) (rows cols stride o : ℕ) : Prop :=
  l.TwoDimensional ∧ ∃ i j, i < rows ∧ j < cols ∧ t.globalX * cols + j < stride ∧
    o = (t.globalY * rows + i) * stride + (t.globalX * cols + j)

/-- The elements that an index space gives to a thread. -/
def Owns (t : Thread l) : {space : IndexSpace} → DisjointSlice space → ℕ → Prop
  | .index1D, _, o => l.OneDimensional ∧ o = t.globalX
  | .index2D rowStride, _, o => OwnsTile t 1 1 rowStride.toNat o
  | .warpIndex, _, o => l.OneDimensional ∧ t.threadIdx.x.toNat % 32 = 0 ∧
      o = t.blockIdx.x.toNat * ((l.blockDim.x.toNat + 31) / 32) + t.threadIdx.x.toNat / 32
  | .runtime2DIndex, slice, o => OwnsTile t 1 1 slice.rowWidth.toNat o
  | .linearTiles n, _, o => l.OneDimensional ∧ ∃ k j, j < n.toNat ∧
      o = (t.globalX + k * (l.gridDim.x.toNat * l.blockDim.x.toNat)) * n.toNat + j
  | .rowMajorTiles rows cols rowStride, _, o =>
      OwnsTile t rows.toNat cols.toNat rowStride.toNat o
  | .runtimeRowMajorTiles rows cols, slice, o =>
      OwnsTile t rows.toNat cols.toNat slice.runtimeRowWidth.toNat o

section Owners

variable {t u : Thread l} {o : ℕ}

/-- A cell is a tile of one row and one column. -/
theorem OwnsTile.cell {stride : ℕ} (hl : l.TwoDimensional) (hx : t.globalX < stride)
    (ho : o = t.globalY * stride + t.globalX) : OwnsTile t 1 1 stride o :=
  ⟨hl, 0, 0, one_pos, one_pos, by omega, by rw [ho]; ring⟩

/-- Tiles of different threads have no cell in common. -/
theorem OwnsTile.eq {rows cols stride : ℕ} (ht : OwnsTile t rows cols stride o)
    (hu : OwnsTile u rows cols stride o) : t = u := by
  obtain ⟨hl, i, j, hi, hj, hcol, ho⟩ := ht
  obtain ⟨_, i', j', hi', hj', hcol', ho'⟩ := hu
  -- first the row and the column of the cell, then those of the tile
  obtain ⟨hrow, hcol⟩ := Thread.eq_of_mul_add_eq hcol hcol' (ho.symm.trans ho')
  obtain ⟨hy, _⟩ := Thread.eq_of_mul_add_eq hi hi' hrow
  obtain ⟨hx, _⟩ := Thread.eq_of_mul_add_eq hj hj' hcol
  exact Thread.ext_of_twoDimensional hl hx hy

/-- **One owner.**  No element belongs to two threads. -/
theorem eq_of_owns {space : IndexSpace} {slice : DisjointSlice space} (ht : Owns t slice o)
    (hu : Owns u slice o) : t = u := by
  cases space with
  | index1D =>
    obtain ⟨hl, ht⟩ := ht
    exact Thread.ext_of_oneDimensional hl (ht.symm.trans hu.2)
  | index2D rowStride => exact OwnsTile.eq ht hu
  | warpIndex =>
    obtain ⟨hl, hlane, ht⟩ := ht
    obtain ⟨_, hlane', hu⟩ := hu
    have hwarp := t.threadIdx_x_lt
    have hwarp' := u.threadIdx_x_lt
    obtain ⟨hblock, hquot⟩ := Thread.eq_of_mul_add_eq (by omega) (by omega) (ht.symm.trans hu)
    apply Thread.ext_of_oneDimensional hl
    show t.blockIdx.x.toNat * _ + _ = u.blockIdx.x.toNat * _ + _
    rw [hblock]
    omega
  | runtime2DIndex => exact OwnsTile.eq ht hu
  | linearTiles n =>
    obtain ⟨hl, k, j, hj, ht⟩ := ht
    obtain ⟨_, k', j', hj', hu⟩ := hu
    obtain ⟨htile, _⟩ := Thread.eq_of_mul_add_eq hj hj' (ht.symm.trans hu)
    rw [Nat.add_comm t.globalX, Nat.add_comm u.globalX] at htile
    -- tile numbers of a thread are congruent to its index modulo the number of threads
    obtain ⟨_, hx⟩ := Thread.eq_of_mul_add_eq t.globalX_lt u.globalX_lt htile
    exact Thread.ext_of_oneDimensional hl hx
  | rowMajorTiles rows cols rowStride => exact OwnsTile.eq ht hu
  | runtimeRowMajorTiles rows cols => exact OwnsTile.eq ht hu

end Owners

/-! ### The accessors compute the exact elements -/

section Accessors

variable {t : Thread l} {o : ℕ} {n : UInt64}

/-- `get_mut` returns the index if it is valid and inside the slice. -/
theorem getMut_eq_some {space : IndexSpace} {slice : DisjointSlice space}
    {idx : ThreadIndex space} (h : slice.getMut idx = some o) :
    idx.isValid = true ∧ idx.raw.toNat = o ∧ o < slice.len.toNat := by
  simp only [DisjointSlice.getMut] at h
  split at h
  · rename_i hok
    cases h
    exact ⟨hok.2.1, rfl, UInt64.lt_iff_toNat_lt.mp hok.2.2⟩
  · cases h

/-- A length is at most `usize::MAX`, so that an index below it is not the invalid mark. -/
theorem getMutIndexed_eq_some {space : IndexSpace} {slice : DisjointSlice space}
    {fromScope : Option (ThreadIndex space)} (h : slice.getMutIndexed fromScope = some o) :
    ∃ idx, fromScope = some idx ∧ slice.getMut idx = some o := by
  simp only [DisjointSlice.getMutIndexed, Option.bind_eq_bind, Option.bind_eq_some_iff] at h
  obtain ⟨idx, hidx, h⟩ := h
  split at h
  · rename_i hok
    refine ⟨idx, hidx, ?_⟩
    have hvalid : idx.isValid = true := by
      have hlt := UInt64.lt_iff_toNat_lt.mp hok.2
      have hlen : slice.len.toNat < 2 ^ 64 := slice.len.toNat_lt
      simp only [ThreadIndex.isValid, bne_iff_ne, ne_eq]
      intro hmax
      rw [hmax] at hlt
      have husize : usizeMax.toNat = 2 ^ 64 - 1 := rfl
      omega
    rw [DisjointSlice.getMut, if_pos ⟨hok.1, hvalid, hok.2⟩]
    exact h
  · cases h

/-- The one-dimensional accessor reaches the thread's own element. -/
theorem owns1d {slice : DisjointSlice .index1D} {scope : Scope} (hs : scope.Promised l)
    (h : slice.getMut (index1d scope t) = some o) : o < slice.len.toNat ∧ Owns t slice o := by
  obtain ⟨hvalid, ho, hlt⟩ := getMut_eq_some h
  obtain ⟨hl, hraw⟩ := index1d_spec hs hvalid
  exact ⟨hlt, hl, by rw [← ho, hraw]⟩

/-- So does the two-dimensional one. -/
theorem owns2d {rowStride : UInt64} {slice : DisjointSlice (.index2D rowStride)} {scope : Scope}
    {idx : ThreadIndex (.index2D rowStride)} (hs : scope.Promised l)
    (hidx : index2d rowStride scope t = some idx) (h : slice.getMut idx = some o) :
    o < slice.len.toNat ∧ Owns t slice o := by
  obtain ⟨hvalid, ho, hlt⟩ := getMut_eq_some h
  obtain ⟨hl, hx, hraw⟩ := index2d_spec hs hidx hvalid
  exact ⟨hlt, OwnsTile.cell hl hx (by rw [← ho, hraw])⟩

/-- So does the one whose row width is known at run time: the column is below the width. -/
theorem ownsRuntime {slice : DisjointSlice .runtime2DIndex} {scope : Scope} {width : UInt32}
    {idx : ThreadIndex .runtime2DIndex} (hs : scope.Promised l)
    (hidx : index2dRuntime scope width t = some idx) (h : slice.getMutRuntime idx = some o) :
    o < slice.len.toNat ∧ Owns t slice o := by
  simp only [DisjointSlice.getMutRuntime] at h
  split at h
  · cases h
  rename_i hvalid
  simp only [not_or, Bool.not_eq_false] at hvalid
  obtain ⟨hl, hrow, hcol, hx32, hy32⟩ := index2dRuntime_spec hs hidx hvalid.2
  split at h
  · cases h
  rename_i hcol'
  have hx := UInt64.lt_iff_toNat_lt.mp (UInt64.not_le.mp hcol')
  rw [hcol, UInt32.toNat_toUInt64] at hx
  split at h
  · rename_i hlt
    cases h
    have hwidth : slice.rowWidth.toNat < 2 ^ 32 := slice.rowWidth.toNat_lt
    have hflat : (idx.row * slice.rowWidth.toUInt64 + idx.col).toNat =
        t.globalY * slice.rowWidth.toNat + t.globalX := by
      rw [toNat_mulAdd64, hrow, hcol, UInt32.toNat_toUInt64]
      -- two 32-bit halves cannot wrap 64 bits
      rw [hrow, hcol, UInt32.toNat_toUInt64]
      nlinarith
    exact ⟨UInt64.lt_iff_toNat_lt.mp hlt, OwnsTile.cell hl hx hflat⟩
  · cases h

/-- The scope of 32-bit indices promises one dimension. -/
theorem oneDimensional_of_context (hs : context1d32.Promised l) : l.OneDimensional :=
  hs.domain1 rfl

/-- Its index is the thread's global number. -/
theorem toNat_thread (hs : context1d32.Promised l) (t : Thread l) :
    (index1dU32 t).raw.toUInt64.toNat = t.globalX := by
  rw [UInt32.toNat_toUInt64, index1dU32_spec (hs.u32 rfl)]

/-- A run starts at the tile of the thread's step, and stays in it. -/
theorem ownsRun {slice : DisjointSlice (.linearTiles n)} (hl : l.OneDimensional) {tile : UInt64}
    {k : ℕ} (htile : tile.toNat = t.globalX + k * (l.gridDim.x.toNat * l.blockDim.x.toNat))
    (hne : checkedRunBounds n tile slice.len ≠ noRun) {i : UInt32}
    (h : (DisjointSlice.runOfBounds n (checkedRunBounds n tile slice.len)).at i = some o) :
    o < slice.len.toNat ∧ Owns t slice o := by
  obtain ⟨hi, ho, hlt⟩ := (runOfBounds_at hne).mp h
  exact ⟨hlt, hl, k, i.toNat, hi, by rw [ho, htile]⟩

/-- A walk steps over the whole grid. -/
theorem toNat_period (l : Launch) :
    (l.gridDim.x.toUInt64 * l.blockDim.x.toUInt64).toNat =
      l.gridDim.x.toNat * l.blockDim.x.toNat := by
  have hg : l.gridDim.x.toNat < 2 ^ 32 := l.gridDim.x.toNat_lt
  have hb : l.blockDim.x.toNat < 2 ^ 32 := l.blockDim.x.toNat_lt
  rw [toNat_mul64 (by simp only [UInt32.toNat_toUInt64]; nlinarith), UInt32.toNat_toUInt64,
    UInt32.toNat_toUInt64]

/-- **No offset is changed by a wrap.**  What a thread reaches is inside the slice, and is one of
the exact elements of the thread. -/
theorem owns_of_reaches {space : IndexSpace} {slice : DisjointSlice space}
    (h : Reaches t slice o) : o < slice.len.toNat ∧ Owns t slice o := by
  -- one case for each accessor: its check says that the element is in range, its geometry whose it
  -- is
  cases h with
  | getMut1d hs h => exact owns1d hs h
  | @getMutIndexed1d _ scope _ hs h =>
    obtain ⟨idx, hidx, h⟩ := getMutIndexed_eq_some h
    simp only [DisjointSlice.fromScope1d] at hidx
    split at hidx
    · cases hidx
      exact owns1d hs h
    · cases hidx
  | element32 hs h =>
    simp only [DisjointSlice.elementThread32] at h
    split at h
    · cases h
    split at h
    · cases h
    rename_i hlt
    cases h
    have hlt := UInt64.lt_iff_toNat_lt.mp (UInt64.not_le.mp hlt)
    exact ⟨hlt, oneDimensional_of_context hs, toNat_thread hs t⟩
  | getMut2d hs hidx h => exact owns2d hs hidx h
  | getMutIndexed2d hs h =>
    obtain ⟨idx, hidx, h⟩ := getMutIndexed_eq_some h
    exact owns2d hs hidx h
  | getMutWarp hs hidx h =>
    obtain ⟨hvalid, ho, hlt⟩ := getMut_eq_some h
    obtain ⟨hl, hlane, hraw⟩ := warpIndex_spec hs hidx hvalid
    exact ⟨hlt, hl, hlane, by rw [← ho, hraw]⟩
  | getMutRuntime hs hidx h => exact ownsRuntime hs hidx h
  -- a tile that is handed out starts at the thread's place
  | @tile32 n _ view hs hview i =>
    simp only [DisjointSlice.tileThread32] at hview
    split at hview
    · cases hview
    split at hview
    · cases hview
    rename_i hne
    cases hview
    obtain ⟨hstart, hlen⟩ := checkedLinearTileStart_spec hne
    rw [index1dU32_spec (hs.u32 rfl)] at hstart hlen
    have hi := i.raw_lt
    simp only [StaticViewMut32.at, hstart]
    exact ⟨by omega, oneDimensional_of_context hs, 0, i.raw.toNat, hi, by ring⟩
  | run32 hs hrun h =>
    simp only [DisjointSlice.threadRun32] at hrun
    split at hrun
    · cases hrun
    split at hrun
    · cases hrun
    rename_i hne
    cases hrun
    exact ownsRun (oneDimensional_of_context hs) (k := 0) (by rw [toNat_thread hs]; ring) hne h
  -- the run is found by its number, and belongs to the thread that strides over it
  | @gridStride n slice run k i o hs hrun h =>
    obtain ⟨tile, htile, hne, rfl⟩ := GridStrideRuns32.nthRun_spec hrun
    refine ownsRun (oneDimensional_of_context hs) (k := k) ?_ hne h
    rw [htile]
    show (index1dU32 t).raw.toUInt64.toNat + _ * (_ * _ : UInt64).toNat = _
    rw [toNat_thread hs, toNat_period]
  | tile2d32 hs htile r c =>
    obtain ⟨hrow, hcol⟩ := coord2dU32_spec (hs.u32 rfl) t
    obtain ⟨hat, hlt, hinside⟩ := DisjointSlice.tile2d32_at htile r c
    rw [hrow, hcol] at hat
    rw [hcol] at hinside
    exact ⟨hlt, hs.domain2 rfl, _, _, r.raw_lt, c.raw_lt, hinside, hat⟩
  | tile2d32Rt hs htile r c =>
    obtain ⟨hrow, hcol⟩ := coord2dU32_spec (hs.u32 rfl) t
    obtain ⟨hat, hlt, hinside⟩ := DisjointSlice.tile2d32Rt_at htile r c
    rw [hrow, hcol] at hat
    rw [hcol] at hinside
    exact ⟨hlt, hs.domain2 rfl, _, _, r.raw_lt, c.raw_lt, hinside, hat⟩

end Accessors

/-! ### The grid-stride walks cover the slice -/

/-- Every column of a launch is that of a thread. -/
theorem exists_thread_globalX {x : ℕ} (hx : x < l.gridDim.x.toNat * l.blockDim.x.toNat) :
    ∃ t : Thread l, t.globalX = x := by
  have hb0 : 0 < l.blockDim.x.toNat := UInt32.lt_iff_toNat_lt.mp l.block_pos.1
  have hblock : x / l.blockDim.x.toNat < l.gridDim.x.toNat :=
    Nat.div_lt_of_lt_mul (by rwa [Nat.mul_comm])
  have hthread : x % l.blockDim.x.toNat < l.blockDim.x.toNat := Nat.mod_lt x hb0
  have hg : l.gridDim.x.toNat < 2 ^ 32 := l.gridDim.x.toNat_lt
  have hb : l.blockDim.x.toNat < 2 ^ 32 := l.blockDim.x.toNat_lt
  have hblockNat : (UInt32.ofNat (x / l.blockDim.x.toNat)).toNat = x / l.blockDim.x.toNat :=
    UInt32.toNat_ofNat_of_lt' (by show _ < 2 ^ 32; omega)
  have hthreadNat : (UInt32.ofNat (x % l.blockDim.x.toNat)).toNat = x % l.blockDim.x.toNat :=
    UInt32.toNat_ofNat_of_lt' (by show _ < 2 ^ 32; omega)
  refine ⟨⟨⟨.ofNat (x / l.blockDim.x.toNat), 0, 0⟩, ⟨.ofNat (x % l.blockDim.x.toNat), 0, 0⟩,
    ⟨?_, l.grid_pos.2.1, l.grid_pos.2.2⟩, ⟨?_, l.block_pos.2.1, l.block_pos.2.2⟩⟩, ?_⟩
  · rwa [UInt32.lt_iff_toNat_lt, hblockNat]
  · rwa [UInt32.lt_iff_toNat_lt, hthreadNat]
  · show (UInt32.ofNat (x / l.blockDim.x.toNat)).toNat * _ + (UInt32.ofNat _).toNat = x
    rw [hblockNat, hthreadNat, Nat.mul_comm]
    exact Nat.div_add_mod x _

section Coverage

variable {n : UInt64} {slice : DisjointSlice (.linearTiles n)} {o : ℕ}

/-- Call number `p.2.1` of thread `p.1` on its walk returns a run whose element `p.2.2` is `o`. -/
def Visits (slice : DisjointSlice (.linearTiles n)) (p : Thread l × ℕ × UInt32) (o : ℕ) : Prop :=
  ∃ run, (slice.gridStrideRuns32 l (index1dU32 p.1)).nthRun p.2.1 = some run ∧
    run.at p.2.2 = some o

/-- The visited element in terms of the thread, the call and the place in the run. -/
theorem Visits.eq (hs : context1d32.Promised l) {p : Thread l × ℕ × UInt32}
    (h : Visits slice p o) :
    p.2.2.toNat < n.toNat ∧
      o = (p.1.globalX + p.2.1 * (l.gridDim.x.toNat * l.blockDim.x.toNat)) * n.toNat +
        p.2.2.toNat := by
  obtain ⟨run, hrun, hat⟩ := h
  obtain ⟨tile, htile, hne, rfl⟩ := GridStrideRuns32.nthRun_spec hrun
  obtain ⟨hi, ho, _⟩ := (runOfBounds_at hne).mp hat
  refine ⟨hi, ?_⟩
  rw [ho, htile]
  show ((index1dU32 p.1).raw.toUInt64.toNat + _ * (_ * _ : UInt64).toNat) * _ + _ = _
  rw [toNat_thread hs, toNat_period]

/-- **Coverage.**  The walks of all threads pass every element of a slice of at most `2 ^ 32`
elements exactly once. -/
theorem gridStride_covers (hs : context1d32.Promised l) (hsize : slice.elemSize ≠ 0)
    (hn0 : n ≠ 0) (hmax : n ≤ 4294967295) (hlen : slice.len.toNat ≤ 2 ^ 32)
    (ho : o < slice.len.toNat) :
    ∃! p : Thread l × ℕ × UInt32, Visits slice p o := by
  have hfit := (hs.u32 rfl).1
  have hpos := toNat_pos_of_ne_zero hn0
  have hgrid : 0 < l.gridDim.x.toNat := UInt32.lt_iff_toNat_lt.mp l.grid_pos.1
  have hblock : 0 < l.blockDim.x.toNat := UInt32.lt_iff_toNat_lt.mp l.block_pos.1
  set period := l.gridDim.x.toNat * l.blockDim.x.toNat with hperiod
  have hperiod0 : 0 < period := Nat.mul_pos hgrid hblock
  -- the tile of `o`, its thread, and the call that reaches it
  obtain ⟨t, ht⟩ := exists_thread_globalX (l := l) (Nat.mod_lt (o / n.toNat) hperiod0)
  have htile : t.globalX + o / n.toNat / period * period = o / n.toNat := by
    rw [ht, Nat.mul_comm _ period]
    exact Nat.mod_add_div _ _
  have hstart : o / n.toNat * n.toNat ≤ o := Nat.div_mul_le_self o n.toNat
  have hmod : o % n.toNat < n.toNat := Nat.mod_lt o hpos
  have hmaxv : (4294967295 : UInt64).toNat = 4294967295 := rfl
  have hn32 := UInt64.le_iff_toNat_le.mp hmax
  have hmodNat : (UInt32.ofNat (o % n.toNat)).toNat = o % n.toNat :=
    UInt32.toNat_ofNat_of_lt' (by show _ < 2 ^ 32; omega)
  refine ⟨(t, o / n.toNat / period, .ofNat (o % n.toNat)), ?_, ?_⟩
  · have hwalk : (slice.gridStrideRuns32 l (index1dU32 t)).nextTile.toNat +
        o / n.toNat / period * (slice.gridStrideRuns32 l (index1dU32 t)).period.toNat =
        o / n.toNat := by
      show (index1dU32 t).raw.toUInt64.toNat + _ * (_ * _ : UInt64).toNat = _
      rw [toNat_thread hs, toNat_period, ← hperiod, htile]
    have hperiodNat : (slice.gridStrideRuns32 l (index1dU32 t)).period.toNat = period :=
      toNat_period l
    have hle : o / n.toNat ≤ o := Nat.div_le_self o n.toNat
    have hsome := GridStrideRuns32.nthRun_isSome (w := slice.gridStrideRuns32 l (index1dU32 t))
      (k := o / n.toNat / period) hsize
      (by intro h0; rw [h0] at hperiodNat; exact hperiod0.ne hperiodNat) hn0 hmax
      (by rw [Nat.add_mul, one_mul, ← Nat.add_assoc, hwalk, hperiodNat]; omega)
      (by rw [hwalk]; exact hstart.trans_lt ho) (by rw [hwalk]; omega)
    obtain ⟨run, hrun⟩ := Option.isSome_iff_exists.mp hsome
    refine ⟨run, hrun, ?_⟩
    obtain ⟨tile, htileNat, hne, rfl⟩ := GridStrideRuns32.nthRun_spec hrun
    refine (runOfBounds_at hne).mpr ⟨by rw [hmodNat]; exact hmod, ?_, ho⟩
    rw [htileNat, hwalk, hmodNat, Nat.mul_comm]
    exact (Nat.div_add_mod o n.toNat).symm
  · rintro ⟨u, k, i⟩ hvisit
    obtain ⟨hi, hu⟩ := hvisit.eq hs
    simp only at hi hu
    have hsplit := Nat.div_add_mod o n.toNat
    rw [Nat.mul_comm] at hsplit
    obtain ⟨htileEq, hiEq⟩ := Thread.eq_of_mul_add_eq hmod hi (hsplit.trans hu)
    have hsplit' := Nat.div_add_mod (o / n.toNat) period
    rw [Nat.mul_comm] at hsplit'
    obtain ⟨hkEq, hxEq⟩ := Thread.eq_of_mul_add_eq (Nat.mod_lt (o / n.toNat) hperiod0) u.globalX_lt
      (hsplit'.trans (by rw [htileEq, Nat.add_comm]))
    have htu : u = t := Thread.ext_of_oneDimensional (oneDimensional_of_context hs)
      (by rw [ht, ← hxEq])
    rw [htu, ← hkEq]
    refine Prod.ext rfl (Prod.ext rfl ?_)
    rw [← UInt32.toNat_inj, hmodNat]
    exact hiEq.symm

/-- Tiles of no element, or of more than `u32::MAX`, are rejected one by one: the walks are
empty. -/
theorem nthRun_rejected (hn : n = 0 ∨ 4294967295 < n) (t : Thread l) (k : ℕ) :
    (slice.gridStrideRuns32 l (index1dU32 t)).nthRun k = none := by
  rw [Option.eq_none_iff_forall_ne_some]
  intro run hrun
  obtain ⟨tile, _, hne, _⟩ := GridStrideRuns32.nthRun_spec hrun
  obtain ⟨hn0, hmax, _⟩ := checkedRunBounds_spec hne
  obtain hzero | hlarge := hn
  · exact hn0 hzero
  · exact absurd hlarge (UInt64.not_lt.mpr hmax)

end Coverage

/-- **Safety of disjoint slices.**  Whatever mix of safe accessors two threads use on one slice,
they reach different elements, inside the slice and at the exact offsets of the index space; the
grid-stride walks of `LinearTiles<n>`, for `n` from 1 to `u32::MAX`, cover the slice exactly once,
and for every other `n` they have no run. -/
theorem disjointSlice_spec (l : Launch) :
    (∀ {space : IndexSpace} (slice : DisjointSlice space) (t : Thread l) (o : ℕ),
      Reaches t slice o → o < slice.len.toNat ∧ Owns t slice o) ∧
    (∀ {space : IndexSpace} (slice : DisjointSlice space) (t u : Thread l), t ≠ u →
      Disjoint {o | Reaches t slice o} {o | Reaches u slice o}) ∧
    (∀ (n : UInt64) (slice : DisjointSlice (.linearTiles n)), context1d32.Promised l →
      slice.elemSize ≠ 0 → n ≠ 0 → n ≤ 4294967295 → slice.len.toNat ≤ 2 ^ 32 →
      ∀ o < slice.len.toNat, ∃! p : Thread l × ℕ × UInt32, Visits slice p o) ∧
    ∀ (n : UInt64) (slice : DisjointSlice (.linearTiles n)), n = 0 ∨ 4294967295 < n →
      ∀ (t : Thread l) (k : ℕ), (slice.gridStrideRuns32 l (index1dU32 t)).nthRun k = none := by
  refine ⟨fun slice t o h => owns_of_reaches h, ?_, ?_, ?_⟩
  · intro space slice t u hne
    rw [Set.disjoint_left]
    intro o ht hu
    exact hne (eq_of_owns (owns_of_reaches ht).2 (owns_of_reaches hu).2)
  · intro n slice hs hsize hn0 hmax hlen o ho
    exact gridStride_covers hs hsize hn0 hmax hlen ho
  · intro n slice hn t k
    exact nthRun_rejected hn t k

/-- Two blocks of two threads. -/
def smallLaunch : Launch where
  gridDim := ⟨2, 1, 1⟩
  blockDim := ⟨2, 1, 1⟩
  grid_pos := by decide
  block_pos := by decide
  laneId i := i.x % 32
  laneId_eq _ _ _ := rfl

/-- The small launch keeps the promises. -/
theorem smallLaunch_promised : context1d32.Promised smallLaunch :=
  ⟨fun _ => ⟨⟨rfl, rfl⟩, rfl, rfl⟩, fun _ => ⟨rfl, rfl⟩, fun _ => by
    refine ⟨?_, ?_, ?_⟩ <;> decide⟩

/-- Ten elements in tiles of three: element 9, the clipped tile of thread 3, is visited once. -/
theorem disjointSlice_spec_small :
    ∃! p : Thread smallLaunch × ℕ × UInt32,
      Visits (⟨10, 4, ()⟩ : DisjointSlice (.linearTiles 3)) p 9 :=
  (disjointSlice_spec smallLaunch).2.2.1 3 ⟨10, 4, ()⟩ smallLaunch_promised (by decide) (by decide)
    (by decide) (by decide) 9 (by decide)

/-- Tiles of no element are rejected, and their walks cover nothing. -/
theorem gridStride_uncovered :
    context1d32.Promised smallLaunch ∧
      ¬∃ p : Thread smallLaunch × ℕ × UInt32,
        Visits (⟨1, 4, ()⟩ : DisjointSlice (.linearTiles 0)) p 0 := by
  refine ⟨smallLaunch_promised, ?_⟩
  rintro ⟨p, run, hrun, _⟩
  rw [nthRun_rejected (.inl rfl)] at hrun
  cases hrun

end CudaOxide.Device
