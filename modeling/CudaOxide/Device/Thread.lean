import CudaOxide.Lib.Word

namespace CudaOxide.Device

open Lib.Word

/-!
# Threads of a launch and their indices

The index functions of `cuda-device/src/thread.rs`, over the extents of a launch and the
coordinates of a thread.

* `Scope.Promised` — what the host has checked for the markers of a launch context.
* `index1d`, `warpIndex`, `index2d`, `index2dRuntime`, `index1dU32`, `coord2dU32` — the machine
  functions; the lemmas `…_spec` read their results as exact coordinates.
* `Thread.ext_of_oneDimensional`, `Thread.ext_of_twoDimensional` — coordinates determine the
  thread.
-/

/-! ### Launches -/

/-- `Dim3` -/
@[ext] structure Dim3 where
  x : UInt32
  y : UInt32
  z : UInt32
  deriving DecidableEq, Repr

/-- The extents of a launch.  The lane of a thread in its warp is a hardware register; in a block
of one dimension it is the thread's index modulo 32. -/
structure Launch where
  gridDim : Dim3
  blockDim : Dim3
  grid_pos : 0 < gridDim.x ∧ 0 < gridDim.y ∧ 0 < gridDim.z
  block_pos : 0 < blockDim.x ∧ 0 < blockDim.y ∧ 0 < blockDim.z
  laneId : Dim3 → UInt32
  laneId_eq : blockDim.y = 1 → blockDim.z = 1 → ∀ i, laneId i = i.x % 32

/-- A thread: its block in the grid and its place in the block. -/
@[ext] structure Thread (l : Launch) where
  blockIdx : Dim3
  threadIdx : Dim3
  block_lt : blockIdx.x < l.gridDim.x ∧ blockIdx.y < l.gridDim.y ∧ blockIdx.z < l.gridDim.z
  thread_lt :
    threadIdx.x < l.blockDim.x ∧ threadIdx.y < l.blockDim.y ∧ threadIdx.z < l.blockDim.z

/-- The launch domain that a kernel's contract declares. -/
inductive Domain where
  | unknown
  | domain1
  | domain2
  | domain3
  deriving DecidableEq, Repr

/-- The highest active axis, 0 when nothing is known. -/
def Domain.maxDimensions : Domain → ℕ
  | .unknown => 0
  | .domain1 => 1
  | .domain2 => 2
  | .domain3 => 3

/-- How the coordinates of a scope are computed. -/
inductive Coordinates where
  | native
  | u32
  deriving DecidableEq, Repr

/-- The markers of a launch context. -/
structure Scope where
  domain : Domain
  coordinates : Coordinates
  deriving DecidableEq, Repr

namespace Launch

/-- The launch uses one dimension. -/
def OneDimensional (l : Launch) : Prop :=
  (l.gridDim.y = 1 ∧ l.blockDim.y = 1) ∧ l.gridDim.z = 1 ∧ l.blockDim.z = 1

/-- The launch uses at most two dimensions. -/
def TwoDimensional (l : Launch) : Prop := l.gridDim.z = 1 ∧ l.blockDim.z = 1

/-- The coordinates on every axis are `u32` numbers. -/
def CoordinatesFit (l : Launch) : Prop :=
  l.gridDim.x.toNat * l.blockDim.x.toNat ≤ 2 ^ 32 ∧
    l.gridDim.y.toNat * l.blockDim.y.toNat ≤ 2 ^ 32 ∧
    l.gridDim.z.toNat * l.blockDim.z.toNat ≤ 2 ^ 32

/-- One dimension is at most two. -/
theorem OneDimensional.twoDimensional {l : Launch} (h : l.OneDimensional) :
    l.TwoDimensional := h.2

end Launch

/-- What the host has checked before a kernel with these markers runs. -/
structure Scope.Promised (s : Scope) (l : Launch) : Prop where
  domain1 : s.domain = .domain1 → l.OneDimensional
  domain2 : s.domain = .domain2 → l.TwoDimensional
  u32 : s.coordinates = .u32 → l.CoordinatesFit

/-! ### The index functions -/

/-- How the elements of a slice are numbered. -/
inductive IndexSpace where
  | index1D
  | index2D (rowStride : UInt64)
  | warpIndex
  | runtime2DIndex
  | linearTiles (n : UInt64)
  | rowMajorTiles (rows cols rowStride : UInt64)
  | runtimeRowMajorTiles (rows cols : UInt64)
  deriving DecidableEq, Repr

/-- `usize::MAX`, the mark of an invalid index. -/
def usizeMax : UInt64 := 18446744073709551615

/-- A witness minted for an index space. -/
structure ThreadIndex (space : IndexSpace) where
  raw : UInt64
  deriving DecidableEq, Repr

namespace ThreadIndex

variable {space : IndexSpace}

/-- `ThreadIndex::new`: the sentinel stands for no index. -/
def new (raw : UInt64) (valid : Bool) : ThreadIndex space :=
  ⟨if valid && raw != usizeMax then raw else usizeMax⟩

/-- `is_valid` -/
def isValid (idx : ThreadIndex space) : Bool := idx.raw != usizeMax

/-- The coordinates packed into a witness of a runtime row width. -/
def row (idx : ThreadIndex .runtime2DIndex) : UInt64 := idx.raw >>> 32

/-- The column, in the low word. -/
def col (idx : ThreadIndex .runtime2DIndex) : UInt64 := idx.raw &&& 4294967295

end ThreadIndex

/-- `ThreadIndex32` -/
structure ThreadIndex32 where
  raw : UInt32
  deriving DecidableEq, Repr

/-- A row and a column in one word. -/
structure ThreadCoord2D32 where
  packed : UInt64
  deriving DecidableEq, Repr

namespace ThreadCoord2D32

/-- Row and column in one word. -/
def new (row col : UInt32) : ThreadCoord2D32 := ⟨pack row.toUInt64 col.toUInt64⟩

/-- The row, in the high word. -/
def row (c : ThreadCoord2D32) : UInt32 := (c.packed >>> 32).toUInt32

/-- The column, in the low word. -/
def col (c : ThreadCoord2D32) : UInt32 := c.packed.toUInt32

end ThreadCoord2D32

/-- `block * blockSize + thread`, or `usize::MAX` when that does not fit. -/
def checkedAxis (block blockSize thread : UInt32) : UInt64 :=
  if blockSize.toUInt64 = 0 ∨
      ¬block.toUInt64 ≤ (usizeMax - thread.toUInt64) / blockSize.toUInt64 then usizeMax
  else block.toUInt64 * blockSize.toUInt64 + thread.toUInt64

variable {l : Launch}

/-- What the scope checks of a launch in one dimension. -/
def oneDimensionalLaunch (scope : Scope) (l : Launch) : Bool :=
  let yIsUnit :=
    if scope.domain.maxDimensions = 1 then true else l.blockDim.y == 1 && l.gridDim.y == 1
  let zIsUnit :=
    if scope.domain.maxDimensions = 1 ∨ scope.domain.maxDimensions = 2 then true
    else l.blockDim.z == 1 && l.gridDim.z == 1
  yIsUnit && zIsUnit

/-- What the scope checks of a launch in two dimensions. -/
def atMostTwoDimensionalLaunch (scope : Scope) (l : Launch) : Bool :=
  if scope.domain.maxDimensions = 1 ∨ scope.domain.maxDimensions = 2 then true
  else l.blockDim.z == 1 && l.gridDim.z == 1

/-- `blockIdx.x * blockDim.x + threadIdx.x`, invalid unless the launch has one dimension. -/
def index1d (scope : Scope) (t : Thread l) : ThreadIndex .index1D :=
  let raw := checkedAxis t.blockIdx.x l.blockDim.x t.threadIdx.x
  let valid := oneDimensionalLaunch scope l && raw != usizeMax
  .new raw valid

/-- The number of the warp, for its first lane. -/
def warpIndex (scope : Scope) (t : Thread l) : Option (ThreadIndex .warpIndex) :=
  if oneDimensionalLaunch scope l = false then none
  else if l.laneId t.threadIdx ≠ 0 then none
  else do
    let warpsPerBlock := divCeil32 l.blockDim.x 32
    let base ← checkedMul64 t.blockIdx.x.toUInt64 warpsPerBlock.toUInt64
    let raw ← checkedAdd64 base (t.threadIdx.x / 32).toUInt64
    some (.new raw true)

/-- `row * rowStride + col` for a thread whose column is in the row. -/
def index2d (rowStride : UInt64) (scope : Scope) (t : Thread l) :
    Option (ThreadIndex (.index2D rowStride)) :=
  if atMostTwoDimensionalLaunch scope l = false then none else
    let row := checkedAxis t.blockIdx.y l.blockDim.y t.threadIdx.y
    let col := checkedAxis t.blockIdx.x l.blockDim.x t.threadIdx.x
    if row = usizeMax ∨ col = usizeMax ∨ rowStride ≤ col then none
    else if ¬row ≤ (usizeMax - col) / rowStride then none
    else some (.new (row * rowStride + col) true)

/-- The packed row and column of a thread that has a cell in the grid of the slice that is
passed, whose row width is `rowWidth`. -/
def index2dRuntime (scope : Scope) (rowWidth : UInt32) (t : Thread l) :
    Option (ThreadIndex .runtime2DIndex) :=
  let rowStride := rowWidth.toUInt64
  if rowStride = 0 then none
  else if atMostTwoDimensionalLaunch scope l = false then none else
    let row := checkedAxis t.blockIdx.y l.blockDim.y t.threadIdx.y
    let col := checkedAxis t.blockIdx.x l.blockDim.x t.threadIdx.x
    if row = usizeMax ∨ col = usizeMax ∨ rowStride ≤ col then none
    else if 4294967295 < row then none
    else some (.new (pack row col) true)

/-- The wrapping index of a launch whose contract promises 32-bit coordinates. -/
def index1dU32 (t : Thread l) : ThreadIndex32 :=
  ⟨t.blockIdx.x * l.blockDim.x + t.threadIdx.x⟩

/-- `coord_2d_u32` -/
def coord2dU32 (t : Thread l) : ThreadCoord2D32 :=
  .new (t.blockIdx.y * l.blockDim.y + t.threadIdx.y) (t.blockIdx.x * l.blockDim.x + t.threadIdx.x)

/-! ### Exact coordinates -/

namespace Thread

/-- The exact column of a thread in the whole grid. -/
def globalX (t : Thread l) : ℕ :=
  t.blockIdx.x.toNat * l.blockDim.x.toNat + t.threadIdx.x.toNat

/-- The exact row. -/
def globalY (t : Thread l) : ℕ :=
  t.blockIdx.y.toNat * l.blockDim.y.toNat + t.threadIdx.y.toNat

variable {t u : Thread l}

/-- A thread's place in its block. -/
theorem threadIdx_x_lt (t : Thread l) : t.threadIdx.x.toNat < l.blockDim.x.toNat :=
  UInt32.lt_iff_toNat_lt.mp t.thread_lt.1

/-- The same along the second axis. -/
theorem threadIdx_y_lt (t : Thread l) : t.threadIdx.y.toNat < l.blockDim.y.toNat :=
  UInt32.lt_iff_toNat_lt.mp t.thread_lt.2.1

/-- The global number is below that of the threads. -/
theorem globalX_lt (t : Thread l) :
    t.globalX < l.gridDim.x.toNat * l.blockDim.x.toNat := by
  have hthread := t.threadIdx_x_lt
  have hblock : t.blockIdx.x.toNat < l.gridDim.x.toNat := UInt32.lt_iff_toNat_lt.mp t.block_lt.1
  show t.blockIdx.x.toNat * l.blockDim.x.toNat + _ < _
  nlinarith

/-- The same along the second axis. -/
theorem globalY_lt (t : Thread l) :
    t.globalY < l.gridDim.y.toNat * l.blockDim.y.toNat := by
  have hthread := t.threadIdx_y_lt
  have hblock : t.blockIdx.y.toNat < l.gridDim.y.toNat :=
    UInt32.lt_iff_toNat_lt.mp t.block_lt.2.1
  show t.blockIdx.y.toNat * l.blockDim.y.toNat + _ < _
  nlinarith

/-- A number written with a quotient and a remainder has only one such form. -/
theorem eq_of_mul_add_eq {a b c d n : ℕ} (hb : b < n) (hd : d < n)
    (h : a * n + b = c * n + d) : a = c ∧ b = d := by
  have hquot : (a * n + b) / n = (c * n + d) / n := by rw [h]
  rw [Nat.mul_comm a, Nat.mul_comm c, Nat.mul_add_div (by omega), Nat.mul_add_div (by omega),
    Nat.div_eq_of_lt hb, Nat.div_eq_of_lt hd] at hquot
  have hac : a = c := by omega
  subst hac
  exact ⟨rfl, by omega⟩

/-- An axis of extent one has one coordinate. -/
private theorem eq_zero_of_lt_one {i n : UInt32} (h : i < n) (hn : n = 1) : i = 0 := by
  subst hn
  have hlt := UInt32.lt_iff_toNat_lt.mp h
  have hone : (1 : UInt32).toNat = 1 := rfl
  rw [hone] at hlt
  rw [← UInt32.toNat_inj]
  show i.toNat = 0
  omega

/-- Block and thread are read off the global number. -/
private theorem axis_ext {b b' i i' n : UInt32} (hi : i.toNat < n.toNat) (hi' : i'.toNat < n.toNat)
    (h : b.toNat * n.toNat + i.toNat = b'.toNat * n.toNat + i'.toNat) : b = b' ∧ i = i' := by
  obtain ⟨hb, hi⟩ := eq_of_mul_add_eq hi hi' h
  exact ⟨UInt32.toNat_inj.mp hb, UInt32.toNat_inj.mp hi⟩

/-- In a launch of two dimensions the row and the column name the thread. -/
theorem ext_of_twoDimensional (hl : l.TwoDimensional) (hx : t.globalX = u.globalX)
    (hy : t.globalY = u.globalY) : t = u := by
  obtain ⟨hbx, htx⟩ := axis_ext t.threadIdx_x_lt u.threadIdx_x_lt hx
  obtain ⟨hby, hty⟩ := axis_ext t.threadIdx_y_lt u.threadIdx_y_lt hy
  have hbz : t.blockIdx.z = u.blockIdx.z := by
    rw [eq_zero_of_lt_one t.block_lt.2.2 hl.1, eq_zero_of_lt_one u.block_lt.2.2 hl.1]
  have htz : t.threadIdx.z = u.threadIdx.z := by
    rw [eq_zero_of_lt_one t.thread_lt.2.2 hl.2, eq_zero_of_lt_one u.thread_lt.2.2 hl.2]
  exact Thread.ext (Dim3.ext hbx hby hbz) (Dim3.ext htx hty htz)

/-- In a launch of one dimension the column alone does. -/
theorem ext_of_oneDimensional (hl : l.OneDimensional) (hx : t.globalX = u.globalX) : t = u := by
  have hy : t.globalY = u.globalY := by
    show t.blockIdx.y.toNat * _ + t.threadIdx.y.toNat = u.blockIdx.y.toNat * _ + u.threadIdx.y.toNat
    rw [eq_zero_of_lt_one t.block_lt.2.1 hl.1.1, eq_zero_of_lt_one u.block_lt.2.1 hl.1.1,
      eq_zero_of_lt_one t.thread_lt.2.1 hl.1.2, eq_zero_of_lt_one u.thread_lt.2.1 hl.1.2]
  exact ext_of_twoDimensional hl.twoDimensional hx hy

end Thread

/-! ### The witnesses hold exact coordinates -/

variable {scope : Scope} {t : Thread l}

/-- A launch that passes the scope's check uses one dimension. -/
theorem launch_of_oneDimensional (hs : scope.Promised l) (h : oneDimensionalLaunch scope l = true) :
    l.OneDimensional := by
  obtain ⟨domain, coordinates⟩ := scope
  cases domain with
  | domain1 => exact hs.domain1 rfl
  | domain2 =>
    have hz := hs.domain2 rfl
    simp only [oneDimensionalLaunch, Domain.maxDimensions] at h
    simp only [OfNat.ofNat_ne_one, if_false, or_true, if_true, Bool.and_true, Bool.and_eq_true,
      beq_iff_eq] at h
    exact ⟨⟨h.2, h.1⟩, hz⟩
  | unknown =>
    simp [oneDimensionalLaunch, Domain.maxDimensions] at h
    exact ⟨⟨h.1.2, h.1.1⟩, h.2.2, h.2.1⟩
  | domain3 =>
    simp [oneDimensionalLaunch, Domain.maxDimensions] at h
    exact ⟨⟨h.1.2, h.1.1⟩, h.2.2, h.2.1⟩

/-- A launch that passes the scope's check uses two at most. -/
theorem launch_of_atMostTwoDimensional (hs : scope.Promised l)
    (h : atMostTwoDimensionalLaunch scope l = true) : l.TwoDimensional := by
  obtain ⟨domain, coordinates⟩ := scope
  cases domain with
  | domain1 => exact (hs.domain1 rfl).twoDimensional
  | domain2 => exact hs.domain2 rfl
  | unknown =>
    simp [atMostTwoDimensionalLaunch, Domain.maxDimensions] at h
    exact ⟨h.2, h.1⟩
  | domain3 =>
    simp [atMostTwoDimensionalLaunch, Domain.maxDimensions] at h
    exact ⟨h.2, h.1⟩

/-- The axis formula never reaches `usize::MAX` on 32-bit extents. -/
theorem toNat_checkedAxis {block blockSize thread : UInt32}
    (h : thread.toNat < blockSize.toNat) :
    (checkedAxis block blockSize thread).toNat =
      block.toNat * blockSize.toNat + thread.toNat := by
  have hb : block.toNat < 2 ^ 32 := block.toNat_lt
  have hs : blockSize.toNat < 2 ^ 32 := blockSize.toNat_lt
  have hfits : block.toUInt64.toNat * blockSize.toUInt64.toNat + thread.toUInt64.toNat <
      2 ^ 64 := by
    simp only [UInt32.toNat_toUInt64]
    nlinarith
  have hne : blockSize.toUInt64 ≠ 0 := by
    intro h0
    have := congrArg UInt64.toNat h0
    rw [UInt32.toNat_toUInt64, UInt64.toNat_zero] at this
    omega
  -- the code divides so that its guard cannot overflow itself
  have hguard : block.toUInt64 ≤ (usizeMax - thread.toUInt64) / blockSize.toUInt64 :=
    (guard64 hne).mpr hfits
  rw [checkedAxis, if_neg (by simp [hne, hguard]), toNat_mulAdd64 hfits]
  simp only [UInt32.toNat_toUInt64]

/-- The checked coordinate along the first axis is the global number. -/
theorem checkedAxis_x (t : Thread l) :
    (checkedAxis t.blockIdx.x l.blockDim.x t.threadIdx.x).toNat = t.globalX :=
  toNat_checkedAxis t.threadIdx_x_lt

/-- The same along the second axis. -/
theorem checkedAxis_y (t : Thread l) :
    (checkedAxis t.blockIdx.y l.blockDim.y t.threadIdx.y).toNat = t.globalY :=
  toNat_checkedAxis t.threadIdx_y_lt

/-- A valid index is not the sentinel. -/
theorem ThreadIndex.raw_new {space : IndexSpace} {raw : UInt64} {valid : Bool}
    (h : (ThreadIndex.new raw valid : ThreadIndex space).isValid = true) :
    valid = true ∧ (ThreadIndex.new raw valid : ThreadIndex space).raw = raw := by
  unfold ThreadIndex.isValid ThreadIndex.new at h
  unfold ThreadIndex.new
  split at h
  · rename_i hcond
    rw [Bool.and_eq_true] at hcond
    refine ⟨hcond.1, ?_⟩
    simp [hcond.1, hcond.2]
  · simp at h

/-- A valid one-dimensional index is the thread's global number. -/
theorem index1d_spec (hs : scope.Promised l) (h : (index1d scope t).isValid = true) :
    l.OneDimensional ∧ (index1d scope t).raw.toNat = t.globalX := by
  obtain ⟨hvalid, hraw⟩ := ThreadIndex.raw_new h
  rw [Bool.and_eq_true] at hvalid
  refine ⟨launch_of_oneDimensional hs hvalid.1, ?_⟩
  show (ThreadIndex.new _ _ : ThreadIndex .index1D).raw.toNat = _
  rw [hraw, checkedAxis_x]

/-- Warp `w` of the launch has the index `w`, which its first lane holds. -/
theorem warpIndex_spec (hs : scope.Promised l) {idx : ThreadIndex .warpIndex}
    (h : warpIndex scope t = some idx) (hvalid : idx.isValid = true) :
    l.OneDimensional ∧ t.threadIdx.x.toNat % 32 = 0 ∧
      idx.raw.toNat = t.blockIdx.x.toNat * ((l.blockDim.x.toNat + 31) / 32) +
        t.threadIdx.x.toNat / 32 := by
  simp only [warpIndex] at h
  split at h
  · cases h
  rename_i hone
  rw [Bool.not_eq_false] at hone
  have hl := launch_of_oneDimensional hs hone
  split at h
  · cases h
  rename_i hlane
  simp only [ne_eq, not_not, l.laneId_eq hl.1.2 hl.2.2] at hlane
  simp only [Option.bind_eq_bind, Option.bind_eq_some_iff, Option.some.injEq] at h
  obtain ⟨base, hbase, raw, hraw, rfl⟩ := h
  -- a warp writes through its first lane only
  have hlane' : t.threadIdx.x.toNat % 32 = 0 := by
    have := congrArg UInt32.toNat hlane
    rwa [UInt32.toNat_mod] at this
  refine ⟨hl, hlane', ?_⟩
  rw [(ThreadIndex.raw_new hvalid).2, checkedAdd64_eq_some hraw, checkedMul64_eq_some hbase]
  simp only [UInt32.toNat_toUInt64, UInt32.toNat_div]
  rw [toNat_divCeil32 (by decide)]
  rfl

/-- A valid two-dimensional index is row-major in the thread's coordinates, with the column in its
row. -/
theorem index2d_spec {rowStride : UInt64} (hs : scope.Promised l)
    {idx : ThreadIndex (.index2D rowStride)} (h : index2d rowStride scope t = some idx)
    (hvalid : idx.isValid = true) :
    l.TwoDimensional ∧ t.globalX < rowStride.toNat ∧
      idx.raw.toNat = t.globalY * rowStride.toNat + t.globalX := by
  simp only [index2d] at h
  split at h
  · cases h
  rename_i htwo
  rw [Bool.not_eq_false] at htwo
  split at h
  · cases h
  rename_i hcol
  split at h
  · cases h
  rename_i hguard
  simp only [Option.some.injEq] at h
  subst h
  simp only [not_or] at hcol
  have hlt := UInt64.lt_iff_toNat_lt.mp (UInt64.not_le.mp hcol.2.2)
  -- a row of no columns has no column in range
  have hne : rowStride ≠ 0 := by
    rintro rfl
    simp at hlt
  rw [not_not] at hguard
  have hfits := (guard64 hne).mp hguard
  rw [checkedAxis_x] at hlt
  refine ⟨launch_of_atMostTwoDimensional hs htwo, hlt, ?_⟩
  rw [(ThreadIndex.raw_new hvalid).2, toNat_mulAdd64 hfits, checkedAxis_x, checkedAxis_y]

/-- A witness of a runtime width holds the coordinates of its thread, whatever the width. -/
theorem index2dRuntime_spec {rowWidth : UInt32} (hs : scope.Promised l)
    {idx : ThreadIndex .runtime2DIndex} (h : index2dRuntime scope rowWidth t = some idx)
    (hvalid : idx.isValid = true) :
    l.TwoDimensional ∧ idx.row.toNat = t.globalY ∧ idx.col.toNat = t.globalX ∧
      t.globalX < 2 ^ 32 ∧ t.globalY < 2 ^ 32 := by
  simp only [index2dRuntime] at h
  split at h
  · cases h
  split at h
  · cases h
  rename_i htwo
  rw [Bool.not_eq_false] at htwo
  split at h
  · cases h
  rename_i hcol
  split at h
  · cases h
  rename_i hrow
  simp only [Option.some.injEq] at h
  subst h
  simp only [not_or] at hcol
  have hx := UInt64.lt_iff_toNat_lt.mp (UInt64.not_le.mp hcol.2.2)
  -- the row width is a 32-bit number, so a column below it fits the low half
  have hwidth : rowWidth.toUInt64.toNat < 2 ^ 32 := by
    rw [UInt32.toNat_toUInt64]
    exact rowWidth.toNat_lt
  have hx32 := hx.trans hwidth
  have hmax : (4294967295 : UInt64).toNat = 4294967295 := rfl
  -- the guard keeps the row in the upper half
  have hy32 : (checkedAxis t.blockIdx.y l.blockDim.y t.threadIdx.y).toNat < 2 ^ 32 := by
    have := UInt64.le_iff_toNat_le.mp (UInt64.not_lt.mp hrow)
    omega
  refine ⟨launch_of_atMostTwoDimensional hs htwo, ?_, ?_, ?_, ?_⟩
  · rw [ThreadIndex.row, (ThreadIndex.raw_new hvalid).2, pack_shiftRight hy32 hx32, checkedAxis_y]
  · rw [ThreadIndex.col, (ThreadIndex.raw_new hvalid).2, UInt64.toNat_and, hmax,
      ← checkedAxis_x]
    rw [show (4294967295 : ℕ) = 2 ^ 32 - 1 from rfl, Nat.and_two_pow_sub_one_eq_mod,
      pack_mod hy32 hx32]
  · rwa [checkedAxis_x] at hx32
  · rwa [checkedAxis_y] at hy32

/-- The promised extents keep the wrapping arithmetic exact. -/
theorem index1dU32_spec (hl : l.CoordinatesFit) (t : Thread l) :
    (index1dU32 t).raw.toNat = t.globalX :=
  toNat_mulAdd32 (t.globalX_lt.trans_le hl.1)

/-- The packed coordinates are the thread's. -/
theorem coord2dU32_spec (hl : l.CoordinatesFit) (t : Thread l) :
    (coord2dU32 t).row.toNat = t.globalY ∧ (coord2dU32 t).col.toNat = t.globalX := by
  have hy : (t.blockIdx.y * l.blockDim.y + t.threadIdx.y).toNat = t.globalY :=
    toNat_mulAdd32 (t.globalY_lt.trans_le hl.2.1)
  have hx : (t.blockIdx.x * l.blockDim.x + t.threadIdx.x).toNat = t.globalX :=
    toNat_mulAdd32 (t.globalX_lt.trans_le hl.1)
  have hhigh : (t.blockIdx.y * l.blockDim.y + t.threadIdx.y).toUInt64.toNat < 2 ^ 32 := by
    rw [UInt32.toNat_toUInt64]
    exact UInt32.toNat_lt _
  have hlow : (t.blockIdx.x * l.blockDim.x + t.threadIdx.x).toUInt64.toNat < 2 ^ 32 := by
    rw [UInt32.toNat_toUInt64]
    exact UInt32.toNat_lt _
  constructor
  · rw [ThreadCoord2D32.row, UInt64.toNat_toUInt32, coord2dU32, ThreadCoord2D32.new,
      pack_shiftRight hhigh hlow, Nat.mod_eq_of_lt hhigh, UInt32.toNat_toUInt64, hy]
  · rw [ThreadCoord2D32.col, UInt64.toNat_toUInt32, coord2dU32, ThreadCoord2D32.new,
      pack_mod hhigh hlow, UInt32.toNat_toUInt64, hx]

end CudaOxide.Device
