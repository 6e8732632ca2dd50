import CudaOxide.Lib.Axes
import CudaOxide.Tile.KernelEntry

/-!
# Launch grids of partitioned outputs

A partition cuts its tensor into tiles, one for each block of the launch (`tensor.rs`).  The
launcher compares each partition with its parameter (`kernel_launcher_generator.rs`) and infers the
grid from the bindings, or checks the one it is given against them (`tile_kernel.rs`).

* `GridBound`, `validateGridBounds`, `inferLaunchGrid` — what a binding asks of the grid.
* `launchGrid` — the checks of a launch, before it pushes the arguments.
* `IsLaunchGrid` — the grid of a partition, axis by axis.
* `Meets` — what a launch relies on: every block has a tile of its own, whose extents the kernel is
  told.
* `CutApart` — no step between elements of different tiles leads back to the same place.
* `launch_meets_iff` — exactly then a launch that is accepted is what it relies on.
-/

namespace CudaOxide.Tile.LaunchGrid

open Lib Lib.Results

/-! ### Bindings and grids -/

/-- A partition that is bound to an output, covered exactly or up to a part of its grid. -/
structure Binding where
  partition : Partition
  prefixCoverage : Bool

/-- What a binding asks of the grid. -/
inductive GridBound where
  | exact (grid : Grid)
  | atMost (grid : Grid)
  deriving DecidableEq

/-- The grid that the partition needs, exactly or at most. -/
def Binding.gridBound (b : Binding) : Except LaunchError GridBound :=
  (partitionLaunchGrid b.partition.object.shape b.partition.partitionShape).map fun grid =>
    if b.prefixCoverage then .atMost grid else .exact grid

/-- The errors of the grid checks. -/
inductive GridError where
  | mismatch (grid expected : Grid)
  | exceeds (grid max : Grid) (axis : ℕ)
  | gridRequired
  | gridRequiredByBound
  deriving DecidableEq

/-- The size of a grid along an axis. -/
def axis (g : Grid) : ℕ → ℕ
  | 0 => g.1
  | 1 => g.2.1
  | _ => g.2.2

/-- `check_exact`. -/
def checkExact (grid : Grid) : GridBound → Option GridError
  | .exact expected => if expected ≠ grid then some (.mismatch grid expected) else none
  | .atMost _ => none

/-- `check_at_most`, axis by axis. -/
def checkAtMost (grid : Grid) : GridBound → Option GridError
  | .exact _ => none
  | .atMost max => ((List.range 3).find? fun k => axis max k < axis grid k).map (.exceeds grid max)

/-- The exact bindings are checked first. -/
def validateGridBounds (grid : Grid) (bounds : List GridBound) : Except GridError Unit :=
  match (bounds.findSome? (checkExact grid)).or (bounds.findSome? (checkAtMost grid)) with
  | some e => .error e
  | none => .ok ()

/-- The grid of an exact bound. -/
def exactGrid : GridBound → Option Grid
  | .exact g => some g
  | .atMost _ => none

/-- The grid that is given, or else the one of the first exact binding. -/
def inferLaunchGrid (grid : Grid) (bounds : List GridBound) : Except GridError Grid :=
  if grid ≠ (0, 0, 0) then (validateGridBounds grid bounds).map fun _ => grid
  else
    match bounds.findSome? exactGrid with
    | none => .error (if bounds = [] then .gridRequired else .gridRequiredByBound)
    | some grid => (validateGridBounds grid bounds).map fun _ => grid

/-- An output of a kernel: its parameter, and the partition that is bound to it. -/
structure Output where
  param : TensorParam
  binding : Binding

/-- Why a launch is refused: for an argument, or for the grid. -/
inductive Refusal where
  | arg (e : LaunchError)
  | grid (e : GridError)
  deriving DecidableEq

/-- The extents of the partition are those that the parameter was compiled for. -/
def Output.check (o : Output) : Except LaunchError Unit := do
  checkArg o.param (← validShape o.param.shape) (.output o.binding.partition)

/-- What the generated launcher does with the outputs before it pushes their arguments. -/
def launchGrid (grid : Grid) (outputs : List Output) : Except Refusal Grid := do
  let _ ← (outputs.mapM Output.check).mapError .arg
  let bounds ← (outputs.mapM fun o : Output => o.binding.gridBound).mapError .arg
  (inferLaunchGrid grid bounds).mapError .grid

/-! ### What a launch relies on -/

/-- The block is one of the grid. -/
def Launched (g block : Grid) : Prop := ∀ k < 3, axis block k < axis g k

/-- The elements of a block. -/
def tile (p : Partition) (block : Grid) : Set (List ℤ) :=
  {index | Axes.InRange (p.object.shape.map Int32.toInt) index ∧
    ∀ k i q, index[k]? = some i → p.partitionShape[k]? = some q →
      (axis block k : ℤ) * q.toNat ≤ i ∧ i < (axis block k + 1) * q.toNat}

/-- The bytes of elements that are `size` bytes each. -/
def memory (size : ℕ) (t : Tensor) (indices : Set (List ℤ)) : Set ℤ :=
  {a | ∃ index ∈ indices, ∃ j : ℤ, 0 ≤ j ∧ j < size ∧
    a = t.ptr.toNat + size * Axes.offset (t.strides.map Int32.toInt) index + j}

/-- The extents of the tile, as the kernel gets them: behind the pointer, the shape and the
strides. -/
def pushedExtents (p : Partition) : List KernelArg :=
  (p.pushKernelArgs.drop (1 + p.object.shape.length + p.object.strides.length)).take
    p.partitionShape.length

/-- What a launch of the grid `g` relies on. -/
structure Meets (size : ℕ) (g : Grid) (b : Binding) : Prop where
  blocks : ∀ block, Launched g block → (tile b.partition block).Nonempty ∧
    ∃ own, partitionLaunchGrid b.partition.object.shape b.partition.partitionShape = .ok own ∧
      Launched own block
  disjoint : ∀ block block', Launched g block → Launched g block' → block ≠ block' →
    Disjoint (memory size b.partition.object (tile b.partition block))
      (memory size b.partition.object (tile b.partition block'))
  covered : b.prefixCoverage = false → ∀ index,
    Axes.InRange (b.partition.object.shape.map Int32.toInt) index →
      ∃! block, Launched g block ∧ index ∈ tile b.partition block
  pushed : (pushedExtents b.partition).map KernelArg.toInt =
    b.partition.partitionShape.map fun d => (d.toNat : ℤ)

/-- Along each axis, the extent that the blocks of the grid cover. -/
def coveredExtents (p : Partition) (g : Grid) : List ℤ :=
  (p.object.shape.zip p.partitionShape).mapIdx fun k a => min a.1.toInt (axis g k * a.2.toNat)

/-- Steps that are shorter than the covered extents lead back along the strides only if they are
zero along every axis that the grid cuts.  A grid with an empty axis launches nothing. -/
def CutApart (p : Partition) (g : Grid) : Prop :=
  (∀ k < 3, 0 < axis g k) → ∀ steps, List.Forall₂ (fun x c => |x| < c) steps (coveredExtents p g) →
    Axes.offset (p.object.strides.map Int32.toInt) steps = 0 →
      ∀ k x, steps[k]? = some x → 1 < axis g k → x = 0

/-! ### The grid of a partition -/

/-- The grid of a partition: the ceiling of each extent over that of the tile. -/
structure IsLaunchGrid (shape : List Int32) (ps : List UInt64) (g : Grid) : Prop where
  positive : ∀ d ∈ shape, 0 < d.toInt
  length_eq : ps.length = shape.length
  tile_pos : ∀ q ∈ ps, 0 < q.toNat
  tile_lt : ∀ q ∈ ps, q.toNat < 2 ^ 32
  rank_le : shape.length ≤ 3
  axis_eq : ∀ k d q, shape[k]? = some d → ps[k]? = some q →
    axis g k = (d.toInt.toNat + q.toNat - 1) / q.toNat
  axis_one : ∀ k < 3, shape.length ≤ k → axis g k = 1

section Grids

variable {shape : List Int32} {ps : List UInt64} {g own block : Grid}

/-- `gridAxis` rounds up, for extents that fit `u32`. -/
theorem gridAxis_eq_ok {d : Int32} {q : UInt64} {n : ℕ} : gridAxis d q = .ok n ↔
    q.toNat < 2 ^ 32 ∧ (d.toInt.toNat + q.toNat - 1) / q.toNat = n := by
  unfold gridAxis
  split_ifs with h
  · simpa using fun _ => h
  · simpa using fun hlt => absurd hlt h

/-- What is checked before the axes are divided. -/
theorem checked_of_partitionLaunchGrid (h : partitionLaunchGrid shape ps = .ok g) :
    (∀ d ∈ shape, 0 < d.toInt) ∧ ps.length = shape.length ∧ ∀ q ∈ ps, 0 < q.toNat := by
  unfold partitionLaunchGrid at h
  split_ifs at h with hpos hlen hzero
  refine ⟨fun d hd => ?_, not_not.mp hlen, fun q hq => ?_⟩
  · by_contra hle
    apply hpos
    rw [List.any_eq_true]
    refine ⟨d, hd, decide_eq_true ?_⟩
    rw [Int32.le_iff_toInt_le]
    exact not_lt.mp hle
  · rw [Nat.pos_iff_ne_zero]
    intro hnat
    obtain rfl : q = 0 := UInt64.toNat_inj.mp hnat
    exact hzero (List.contains_iff_mem.mpr hq)

/-- A grid of the divided extents, one for each axis, and 1 behind them. -/
theorem isLaunchGrid_of_axes {ns : List ℕ} (hpos : ∀ d ∈ shape, 0 < d.toInt)
    (hlength : ps.length = shape.length) (htile : ∀ q ∈ ps, 0 < q.toNat)
    (hrank : shape.length ≤ 3)
    (haxes : List.Forall₂ (fun a n => gridAxis a.1 a.2 = .ok n) (shape.zip ps) ns)
    (hg : ∀ k < 3, axis g k = ns.getD k 1) : IsLaunchGrid shape ps g := by
  have hns : ns.length = shape.length := by
    rw [← haxes.length_eq, List.length_zip, hlength, min_self]
  have hat : ∀ (k : ℕ) (d : Int32) (q : UInt64), shape[k]? = some d → ps[k]? = some q →
      ∃ n, ns[k]? = some n ∧ gridAxis d q = .ok n := by
    intro k d q hd hq
    have hzip : (shape.zip ps)[k]? = some (d, q) := List.getElem?_zip_eq_some.mpr ⟨hd, hq⟩
    obtain ⟨hk, hkeq⟩ := List.getElem?_eq_some_iff.mp hzip
    have hk' : k < ns.length := haxes.length_eq ▸ hk
    refine ⟨ns[k], List.getElem?_eq_getElem hk', ?_⟩
    have := haxes.get hk hk'
    rwa [List.get_eq_getElem, List.get_eq_getElem, hkeq] at this
  refine ⟨hpos, hlength, htile, fun q hq => ?_, hrank, fun k d q hd hq => ?_,
    fun k hk hle => ?_⟩
  · obtain ⟨k, hk, rfl⟩ := List.getElem_of_mem hq
    obtain ⟨n, -, hn⟩ := hat k shape[k] ps[k] (List.getElem?_eq_getElem (hlength ▸ hk))
      (List.getElem?_eq_getElem hk)
    exact (gridAxis_eq_ok.mp hn).1
  · obtain ⟨n, hn, hq⟩ := hat k d q hd hq
    have hk : k < 3 := ((List.getElem?_eq_some_iff.mp hd).1).trans_le hrank
    rw [hg k hk, List.getD_eq_getElem?_getD, hn]
    exact (gridAxis_eq_ok.mp hq).2.symm
  · rw [hg k hk, List.getD_eq_getElem?_getD, List.getElem?_eq_none (hns ▸ hle)]
    rfl

/-- What `partitionLaunchGrid` returns has one block for each part. -/
theorem isLaunchGrid (h : partitionLaunchGrid shape ps = .ok g) : IsLaunchGrid shape ps g := by
  obtain ⟨hpos, hlength, htile⟩ := checked_of_partitionLaunchGrid h
  unfold partitionLaunchGrid at h
  split_ifs at h
  -- one case for each rank
  split at h
  · obtain ⟨x, hx, hg⟩ := bind_eq_ok.mp h
    cases hg
    refine isLaunchGrid_of_axes hpos hlength htile (by simp) (.cons hx .nil) fun k hk => ?_
    interval_cases k <;> rfl
  · obtain ⟨x, hx, h⟩ := bind_eq_ok.mp h
    obtain ⟨y, hy, hg⟩ := bind_eq_ok.mp h
    cases hg
    refine isLaunchGrid_of_axes hpos hlength htile (by simp) (.cons hx (.cons hy .nil))
      fun k hk => ?_
    interval_cases k <;> rfl
  · obtain ⟨x, hx, h⟩ := bind_eq_ok.mp h
    obtain ⟨y, hy, h⟩ := bind_eq_ok.mp h
    obtain ⟨z, hz, hg⟩ := bind_eq_ok.mp h
    cases hg
    refine isLaunchGrid_of_axes hpos hlength htile (by simp)
      (.cons hx (.cons hy (.cons hz .nil))) fun k hk => ?_
    interval_cases k <;> rfl
  · cases h

end Grids

/-! ### What the launcher accepts -/

section Accepted

variable {grid g : Grid} {bounds : List GridBound} {b : Binding}

/-- Every bound is met by a grid that is validated. -/
theorem validateGridBounds_eq_ok (h : validateGridBounds grid bounds = .ok ()) {bound : GridBound}
    (hbound : bound ∈ bounds) : checkExact grid bound = none ∧ checkAtMost grid bound = none := by
  unfold validateGridBounds at h
  split at h
  · cases h
  · rename_i hnone
    obtain ⟨hexact, hatMost⟩ := Option.or_eq_none_iff.mp hnone
    exact ⟨List.findSome?_eq_none_iff.mp hexact bound hbound,
      List.findSome?_eq_none_iff.mp hatMost bound hbound⟩

/-- An inferred grid is validated. -/
theorem inferLaunchGrid_eq_ok (h : inferLaunchGrid grid bounds = .ok g) :
    validateGridBounds g bounds = .ok () := by
  unfold inferLaunchGrid at h
  by_cases hgrid : grid ≠ (0, 0, 0)
  · rw [if_pos hgrid] at h
    obtain ⟨u, hu, rfl⟩ := map_eq_ok.mp h
    exact hu
  · rw [if_neg hgrid] at h
    split at h
    · cases h
    · obtain ⟨u, hu, rfl⟩ := map_eq_ok.mp h
      exact hu

/-- **The grid of a launch stays within that of each partition**, and is the grid of those that are
covered exactly. -/
theorem accepted {bound : GridBound} (hgrid : b.gridBound = .ok bound) (hbound : bound ∈ bounds)
    (hg : inferLaunchGrid grid bounds = .ok g) :
    ∃ own, partitionLaunchGrid b.partition.object.shape b.partition.partitionShape = .ok own ∧
      (∀ k < 3, axis g k ≤ axis own k) ∧ (b.prefixCoverage = false → own = g) := by
  obtain ⟨own, hown, rfl⟩ := map_eq_ok.mp hgrid
  obtain ⟨hexact, hatMost⟩ := validateGridBounds_eq_ok (inferLaunchGrid_eq_ok hg) hbound
  refine ⟨own, hown, ?_⟩
  cases hcover : b.prefixCoverage with
  | false =>
    rw [hcover, if_neg (by decide)] at hexact
    have hif : (if own ≠ g then some (GridError.mismatch g own) else none) = none := hexact
    have heq : own = g := by
      by_contra hne
      rw [if_pos hne] at hif
      cases hif
    exact ⟨fun k _ => heq ▸ le_rfl, fun _ => heq⟩
  | true =>
    rw [hcover, if_pos rfl] at hatMost
    refine ⟨fun k hk => ?_, fun h => by cases h⟩
    have hnone := List.find?_eq_none.mp (Option.map_eq_none_iff.mp hatMost) k
      (List.mem_range.mpr hk)
    simpa using hnone

end Accepted

/-! ### The tiles -/

section Tiles

variable {p : Partition} {own g block block' : Grid} {index : List ℤ} {size : ℕ}

/-- An index in range, axis by axis. -/
theorem inRange_iff {shape : List Int32} : Axes.InRange (shape.map Int32.toInt) index ↔
    index.length = shape.length ∧
      ∀ (k : ℕ) (d : Int32) (i : ℤ), shape[k]? = some d → index[k]? = some i →
        0 ≤ i ∧ i < d.toInt := by
  rw [Axes.inRange_iff, List.length_map]
  refine and_congr_right fun _ => ⟨fun h k d i hd hi => ?_, fun h k c i hc hi => ?_⟩
  · exact h k d.toInt i (by rw [List.getElem?_map, hd]; rfl) hi
  · rw [List.getElem?_map, Option.map_eq_some_iff] at hc
    obtain ⟨d, hd, rfl⟩ := hc
    exact h k d i hd hi

/-- A block is in the grid if its tile begins before the tensor ends. -/
theorem lt_ceil_iff {b d q : ℕ} (hq : 0 < q) : b < (d + q - 1) / q ↔ b * q < d := by
  rw [← Nat.succ_le_iff, Nat.le_div_iff_mul_le hq, Nat.succ_mul]
  omega

/-- The number of the tile of an index along an axis. -/
def cell (ps : List UInt64) (index : List ℤ) (k : ℕ) : ℕ :=
  match index[k]?, ps[k]? with
  | some i, some q => i.toNat / q.toNat
  | _, _ => 0

/-- The block that holds an index. -/
def blockOf (ps : List UInt64) (index : List ℤ) :
    Grid := (cell ps index 0, cell ps index 1, cell ps index 2)

/-- The cell of an index along an axis of the partition. -/
theorem cell_eq {ps : List UInt64} {k : ℕ} {i : ℤ} {q : UInt64} (hi : index[k]? = some i)
    (hq : ps[k]? = some q) : cell ps index k = i.toNat / q.toNat := by
  rw [cell, hi, hq]

/-- Beyond the rank the cell is 0. -/
theorem cell_none {ps : List UInt64} {k : ℕ} (h : index.length ≤ k) : cell ps index k = 0 := by
  rw [cell, List.getElem?_eq_none h]

/-- The axes of the block are the cells. -/
theorem axis_blockOf {ps : List UInt64} {k : ℕ} (hk : k < 3) :
    axis (blockOf ps index) k = cell ps index k := by
  interval_cases k <;> rfl

/-- Grids with the same axes are the same. -/
theorem grid_ext (h : ∀ k < 3, axis block k = axis block' k) : block = block' :=
  Prod.ext (h 0 (by decide)) (Prod.ext (h 1 (by decide)) (h 2 (by decide)))

/-- A tile holds the indices with its number. -/
theorem within_iff {b : ℕ} {i : ℤ} {q : ℕ} (hi : 0 ≤ i) (hq : 0 < q) :
    ((b : ℤ) * q ≤ i ∧ i < (b + 1) * q) ↔ i.toNat / q = b := by
  obtain ⟨n, rfl⟩ := Int.eq_ofNat_of_zero_le hi
  rw [Int.toNat_natCast, Nat.div_eq_iff hq]
  have hsucc : ((b : ℤ) + 1) * q = b * q + q := by ring
  rw [hsucc]
  constructor
  · rintro ⟨hle, hlt⟩
    exact ⟨by exact_mod_cast hle, by omega⟩
  · rintro ⟨hle, hlt⟩
    exact ⟨by exact_mod_cast hle, by omega⟩

variable (hown : IsLaunchGrid p.object.shape p.partitionShape own)

include hown

/-- An index is in the tile of the block whose cells it has. -/
theorem mem_tile_iff : index ∈ tile p block ↔ Axes.InRange (p.object.shape.map Int32.toInt) index ∧
    ∀ k < p.object.shape.length, axis block k = cell p.partitionShape index k := by
  refine and_congr_right fun hrange => ?_
  obtain ⟨hlen, hbounds⟩ := inRange_iff.mp hrange
  have hps := hown.length_eq
  have hnonneg : ∀ (k : ℕ) (i : ℤ), index[k]? = some i → 0 ≤ i := by
    intro k i hi
    obtain ⟨hk, -⟩ := List.getElem?_eq_some_iff.mp hi
    exact (hbounds k _ i (List.getElem?_eq_getElem (by omega)) hi).1
  constructor
  · intro h k hk
    have hi := List.getElem?_eq_getElem (l := index) (i := k) (by omega)
    have hq := List.getElem?_eq_getElem (l := p.partitionShape) (i := k) (by omega)
    rw [cell_eq hi hq]
    exact ((within_iff (hnonneg k _ hi) (hown.tile_pos _ (List.mem_of_getElem? hq))).mp
      (h k _ _ hi hq)).symm
  · intro h k i q hi hq
    obtain ⟨hk, -⟩ := List.getElem?_eq_some_iff.mp hi
    have hcell := h k (by omega)
    rw [cell_eq hi hq] at hcell
    exact (within_iff (hnonneg k i hi) (hown.tile_pos _ (List.mem_of_getElem? hq))).mpr hcell.symm

/-- Every element is in the tile of a block. -/
theorem launched_blockOf (hrange : Axes.InRange (p.object.shape.map Int32.toInt) index) :
    Launched own (blockOf p.partitionShape index) := by
  obtain ⟨hlen, hbounds⟩ := inRange_iff.mp hrange
  have hps := hown.length_eq
  intro k hk
  rw [axis_blockOf hk]
  by_cases hlt : k < p.object.shape.length
  · have hd := List.getElem?_eq_getElem (l := p.object.shape) (i := k) hlt
    have hi := List.getElem?_eq_getElem (l := index) (i := k) (by omega)
    have hq := List.getElem?_eq_getElem (l := p.partitionShape) (i := k) (by omega)
    rw [cell_eq hi hq, hown.axis_eq k _ _ hd hq,
      lt_ceil_iff (hown.tile_pos _ (List.mem_of_getElem? hq))]
    have hle := Nat.div_mul_le_self (index[k]).toNat (p.partitionShape[k]).toNat
    obtain ⟨hnonneg, hlt⟩ := hbounds k _ _ hd hi
    omega
  · rw [cell_none (by omega), hown.axis_one k hk (by omega)]
    exact Nat.one_pos

/-- Every index is in the tile of its block. -/
theorem mem_tile_blockOf (hrange : Axes.InRange (p.object.shape.map Int32.toInt) index) :
    index ∈ tile p (blockOf p.partitionShape index) := by
  have hrank := hown.rank_le
  exact (mem_tile_iff hown).mpr ⟨hrange, fun k hk => axis_blockOf (by omega)⟩

/-- **No element is in the tiles of two blocks.** -/
theorem eq_blockOf (hblock : Launched own block) (hmem : index ∈ tile p block) :
    block = blockOf p.partitionShape index := by
  obtain ⟨hrange, hcell⟩ := (mem_tile_iff hown).mp hmem
  have hlen := (inRange_iff.mp hrange).1
  refine grid_ext fun k hk => ?_
  rw [axis_blockOf hk]
  by_cases hlt : k < p.object.shape.length
  · exact hcell k hlt
  · have hone := hblock k hk
    rw [hown.axis_one k hk (by omega)] at hone
    rw [cell_none (by omega)]
    omega

/-- **No block is without an element.** -/
theorem tile_nonempty (hblock : Launched own block) : (tile p block).Nonempty := by
  have hps := hown.length_eq
  have hrank := hown.rank_le
  have hget : ∀ (k : ℕ) (q : UInt64), p.partitionShape[k]? = some q →
      (p.partitionShape.mapIdx fun k q => (axis block k : ℤ) * q.toNat)[k]? =
        some ((axis block k : ℤ) * q.toNat) := by
    intro k q hq
    rw [List.getElem?_mapIdx, hq]
    rfl
  have hbegin : ∀ (k : ℕ) (d : Int32) (i : ℤ), p.object.shape[k]? = some d →
      (p.partitionShape.mapIdx fun k q => (axis block k : ℤ) * q.toNat)[k]? = some i →
        0 ≤ i ∧ i < d.toInt := by
    intro k d i hd hi
    obtain ⟨hk, -⟩ := List.getElem?_eq_some_iff.mp hd
    have hq := List.getElem?_eq_getElem (l := p.partitionShape) (i := k) (by omega)
    have hlt := hblock k (by omega)
    rw [hown.axis_eq k _ _ hd hq, lt_ceil_iff (hown.tile_pos _ (List.mem_of_getElem? hq))] at hlt
    rw [hget k _ hq] at hi
    obtain rfl := Option.some.inj hi
    have hpos := hown.positive d (List.mem_of_getElem? hd)
    refine ⟨by positivity, ?_⟩
    have hcast : ((axis block k * (p.partitionShape[k]).toNat : ℕ) : ℤ) < d.toInt.toNat := by
      exact_mod_cast hlt
    rw [Int.toNat_of_nonneg hpos.le] at hcast
    exact_mod_cast hcast
  refine ⟨p.partitionShape.mapIdx fun k q => (axis block k : ℤ) * q.toNat,
    inRange_iff.mpr ⟨by rw [List.length_mapIdx, hps], hbegin⟩, fun k i q hi hq => ?_⟩
  rw [hget k q hq] at hi
  obtain rfl := Option.some.inj hi
  have hq := hown.tile_pos q (List.mem_of_getElem? hq)
  refine ⟨le_rfl, ?_⟩
  rw [add_mul]
  omega

end Tiles

/-! ### What holds of a launch -/

section Launches

variable {p : Partition} {t : Tensor} {g own block block' : Grid} {index : List ℤ} {size : ℕ}
  {b : Binding}
  {grid : Grid} {bounds : List GridBound} {bindings : List Binding}

/-- An extent that is an `i32` is pushed as it is. -/
theorem asI32_toInt {x : UInt64} (hlt : x.toNat < 2 ^ 31) : (asI32 x).toInt = x.toNat := by
  have hlow : (asI32 x).toInt = ((x.toNat % 2 ^ 32 : ℕ) : ℤ).bmod (2 ^ 32) := by
    show x.toUInt32.toBitVec.toInt = _
    rw [BitVec.toInt_eq_toNat_bmod]
    rfl
  rw [hlow, Int.bmod_def]
  split_ifs with h <;> omega

/-- The extents that are pushed are those of the partition. -/
theorem pushed_eq (hfits : ∀ q ∈ p.partitionShape, q.toNat < 2 ^ 31) :
    (pushedExtents p).map KernelArg.toInt = p.partitionShape.map fun d => (d.toNat : ℤ) := by
  have hargs : pushedExtents p = p.partitionShape.map (.i32 ∘ asI32) := by
    have hlen : p.object.pushKernelArgs.length = 1 + p.object.shape.length +
        p.object.strides.length := by
      simp only [Tensor.pushKernelArgs, List.length_append, List.length_cons, List.length_map]
      omega
    have hps : p.partitionShape.length = (p.partitionShape.map (KernelArg.i32 ∘ asI32)).length := by
      rw [List.length_map]
    rw [pushedExtents, Partition.pushKernelArgs, ← hlen, List.drop_left, hps, List.take_left]
  rw [hargs, List.map_map, List.map_inj_left]
  exact fun q hq => asI32_toInt (hfits q hq)

/-- **The check of the launcher lets no extent through that is not an `i32`**, since those that it
compares with are, and the grid is given to none from `2 ^ 32` on. -/
theorem fits_of_check {o : Output} (hcheck : o.check = .ok ())
    (hgrid : IsLaunchGrid o.binding.partition.object.shape o.binding.partition.partitionShape own) :
    ∀ q ∈ o.binding.partition.partitionShape, q.toNat < 2 ^ 31 := by
  obtain ⟨valid, -, hcheck⟩ := bind_eq_ok.mp hcheck
  unfold checkArg at hcheck
  split_ifs at hcheck with hdtype
  dsimp only at hcheck
  split_ifs at hcheck with hlen hall
  intro q hq
  obtain ⟨k, hk, rfl⟩ := List.getElem_of_mem hq
  have hvalid : k < valid.length := by
    rw [not_not.mp hlen]
    exact hk
  have hmem : (valid[k], o.binding.partition.partitionShape[k]) ∈
      valid.zip o.binding.partition.partitionShape := by
    rw [← List.getElem_zip (h := by simp; omega)]
    exact List.getElem_mem _
  have heq : valid[k].toInt64.toInt = o.binding.partition.partitionShape[k].toInt64.toInt :=
    congrArg Int64.toInt (eq_of_beq (List.all_eq_true.mp hall _ hmem))
  rw [Int32.toInt_toInt64] at heq
  have hlt := hgrid.tile_lt _ hq
  generalize o.binding.partition.partitionShape[k] = q at heq hlt ⊢
  have hq : q.toInt64.toInt = q.toNat := by
    show q.toBitVec.toInt = _
    rw [BitVec.toInt_eq_toNat_cond, if_pos]
    · rfl
    · show 2 * q.toNat < 2 ^ 64
      omega
  have hvalid := Int32.toInt_lt valid[k]
  omega

/-- Bytes of elements that are apart in steps of their size are the same only in the same place. -/
theorem offset_eq_of_mem_memory {s s' : Set (List ℤ)} {a : ℤ} (hmem : a ∈ memory size t s)
    (hmem' : a ∈ memory size t s') : ∃ i ∈ s, ∃ j ∈ s',
      Axes.offset (t.strides.map Int32.toInt) i = Axes.offset (t.strides.map Int32.toInt) j := by
  obtain ⟨i, hi, x, hx, hxlt, rfl⟩ := hmem
  obtain ⟨j, hj, y, hy, hylt, heq⟩ := hmem'
  refine ⟨i, hi, j, hj, ?_⟩
  generalize Axes.offset (t.strides.map Int32.toInt) i = o at heq
  generalize Axes.offset (t.strides.map Int32.toInt) j = o' at heq
  have hdiff : (size : ℤ) * (o - o') = y - x := by
    rw [mul_sub]
    omega
  have hzero : y - x = 0 :=
    Int.eq_zero_of_abs_lt_dvd ⟨o - o', hdiff.symm⟩ (abs_lt.mpr ⟨by omega, by omega⟩)
  rw [hzero] at hdiff
  rcases mul_eq_zero.mp hdiff with hsize | hzero
  · omega
  · exact sub_eq_zero.mp hzero

/-- An element of a set has its address in the memory of the set. -/
theorem mem_memory {s : Set (List ℤ)} {i : List ℤ} (hsize : 0 < size) (hi : i ∈ s) :
    (t.ptr.toNat + size * Axes.offset (t.strides.map Int32.toInt) i : ℤ) ∈ memory size t s :=
  ⟨i, hi, 0, le_rfl, by exact_mod_cast hsize, (add_zero _).symm⟩

/-- The extent that a grid covers along an axis. -/
theorem getElem?_coveredExtents {k : ℕ} {c : ℤ} : (coveredExtents p g)[k]? = some c ↔
    ∃ d q, p.object.shape[k]? = some d ∧ p.partitionShape[k]? = some q ∧
      min d.toInt (axis g k * q.toNat) = c := by
  rw [coveredExtents, List.getElem?_mapIdx, Option.map_eq_some_iff]
  constructor
  · rintro ⟨⟨d, q⟩, ha, hc⟩
    obtain ⟨hd, hq⟩ := List.getElem?_zip_eq_some.mp ha
    exact ⟨d, q, hd, hq, hc⟩
  · rintro ⟨d, q, hd, hq, hc⟩
    exact ⟨(d, q), List.getElem?_zip_eq_some.mpr ⟨hd, hq⟩, hc⟩

/-- A step shorter than the extent, between two places that a tile parts if it does not reach all of
the extent. -/
theorem exists_parted {x c : ℤ} {q : ℕ} (hx : |x| < c) (hq : 0 < q) :
    ∃ a b : ℤ, a = b + x ∧ (0 ≤ a ∧ a < c) ∧ (0 ≤ b ∧ b < c) ∧
      (x ≠ 0 → (q : ℤ) < c → a.toNat / q ≠ b.toNat / q) := by
  obtain ⟨hlow, hhigh⟩ := abs_lt.mp hx
  rcases le_total 0 x with hpos | hneg
  · -- from the end of the first tile, or as late as the step allows
    obtain ⟨b, hb⟩ : ∃ b, b = min ((q : ℤ) - 1) (c - 1 - x) := ⟨_, rfl⟩
    refine ⟨b + x, b, rfl, by omega, by omega, fun hne hlt => ?_⟩
    have hfirst : b.toNat / q = 0 := Nat.div_eq_of_lt (by omega)
    have hsecond : 0 < (b + x).toNat / q := Nat.div_pos (by omega) hq
    omega
  · obtain ⟨a, ha⟩ : ∃ a, a = min ((q : ℤ) - 1) (c - 1 + x) := ⟨_, rfl⟩
    refine ⟨a, a - x, by ring, by omega, by omega, fun hne hlt => ?_⟩
    have hfirst : a.toNat / q = 0 := Nat.div_eq_of_lt (by omega)
    have hsecond : 0 < (a - x).toNat / q := Nat.div_pos (by omega) hq
    omega

/-- Steps along all axes, between two indices. -/
theorem exists_partedIndices {cs steps : List ℤ} (qs : ℕ → ℕ) (hqs : ∀ k, 0 < qs k)
    (hsteps : List.Forall₂ (fun x c => |x| < c) steps cs) :
    ∃ i j, Axes.InRange cs i ∧ Axes.InRange cs j ∧
      (∀ strides, Axes.offset strides i = Axes.offset strides j + Axes.offset strides steps) ∧
        ∀ k x c, steps[k]? = some x → cs[k]? = some c → x ≠ 0 → (qs k : ℤ) < c →
          ∃ a b, i[k]? = some a ∧ j[k]? = some b ∧ a.toNat / qs k ≠ b.toNat / qs k := by
  induction hsteps generalizing qs with
  | nil =>
    refine ⟨[], [], .nil, .nil, fun strides => ?_, fun k x c hx => by cases hx⟩
    cases strides <;> rfl
  | cons hx _ ih =>
    obtain ⟨a, b, hab, ha, hb, hparted⟩ := exists_parted hx (hqs 0)
    obtain ⟨i, j, hi, hj, hoffset, hrest⟩ := ih (fun k => qs (k + 1)) fun k => hqs (k + 1)
    refine ⟨a :: i, b :: j, .cons ha hi, .cons hb hj, fun strides => ?_, fun k y c hy hc => ?_⟩
    · cases strides with
      | nil => rfl
      | cons s strides =>
        rw [Axes.offset, Axes.offset, Axes.offset, hoffset, hab]
        ring
    · cases k with
      | zero =>
        cases hy
        cases hc
        exact fun hne hlt => ⟨a, b, rfl, rfl, hparted hne hlt⟩
      | succ k => exact hrest k y c hy hc

/-- The difference of two indices. -/
theorem exists_steps {cs i j : List ℤ} (hi : Axes.InRange cs i) (hj : Axes.InRange cs j) :
    ∃ steps, List.Forall₂ (fun x c => |x| < c) steps cs ∧
      (∀ strides, Axes.offset strides steps = Axes.offset strides i - Axes.offset strides j) ∧
        ∀ (k : ℕ) (a b : ℤ), i[k]? = some a → j[k]? = some b → steps[k]? = some (a - b) := by
  induction hi generalizing j with
  | nil =>
    cases hj
    refine ⟨[], .nil, fun strides => ?_, fun k a b ha => by cases ha⟩
    cases strides <;> rfl
  | @cons c x cs i hx _ ih =>
    obtain ⟨y, j', hy, hrest, rfl⟩ := List.forall₂_cons_left_iff.mp hj
    obtain ⟨steps, hlt, hoffset, hget⟩ := ih hrest
    refine ⟨(x - y) :: steps, .cons (abs_sub_lt_iff.mpr ⟨by omega, by omega⟩) hlt,
      fun strides => ?_,
      fun k a b ha hb => ?_⟩
    · cases strides with
      | nil => rfl
      | cons s strides =>
        rw [Axes.offset, Axes.offset, Axes.offset, hoffset]
        ring
    · cases k with
      | zero =>
        cases ha
        cases hb
        rfl
      | succ k => exact hget k a b ha hb

section Cut

variable (hown : IsLaunchGrid p.object.shape p.partitionShape own)

include hown

/-- Each axis of the tensor, with its extent and that of the tile. -/
theorem exists_axis {k : ℕ} (hk : k < p.object.shape.length) : ∃ d q, p.object.shape[k]? = some d ∧
    p.partitionShape[k]? = some q ∧ 0 < q.toNat := by
  have hps := hown.length_eq
  have hq := List.getElem?_eq_getElem (l := p.partitionShape) (i := k) (by omega)
  exact ⟨_, _, List.getElem?_eq_getElem hk, hq, hown.tile_pos _ (List.mem_of_getElem? hq)⟩

/-- There is one covered extent for each axis. -/
theorem length_coveredExtents : (coveredExtents p g).length = p.object.shape.length := by
  simp [coveredExtents, hown.length_eq]

/-- An index that the grid covers, axis by axis. -/
theorem inRange_covered_iff : Axes.InRange (coveredExtents p g) index ↔
    index.length = p.object.shape.length ∧ ∀ (k : ℕ) (d : Int32) (q : UInt64) (i : ℤ),
      p.object.shape[k]? = some d → p.partitionShape[k]? = some q → index[k]? = some i →
        0 ≤ i ∧ i < d.toInt ∧ i < axis g k * q.toNat := by
  rw [Axes.inRange_iff, length_coveredExtents hown]
  refine and_congr_right fun _ => ⟨fun h k d q i hd hq hi => ?_, fun h k c i hc hi => ?_⟩
  · obtain ⟨hnonneg, hlt⟩ := h k _ i (getElem?_coveredExtents.mpr ⟨d, q, hd, hq, rfl⟩) hi
    exact ⟨hnonneg, lt_min_iff.mp hlt⟩
  · obtain ⟨d, q, hd, hq, rfl⟩ := getElem?_coveredExtents.mp hc
    obtain ⟨hnonneg, hlt⟩ := h k d q i hd hq hi
    exact ⟨hnonneg, lt_min_iff.mpr hlt⟩

/-- The blocks of the grid cover exactly the elements of their tiles. -/
theorem inRange_covered (hblock : Launched g block) (hmem : index ∈ tile p block) :
    Axes.InRange (coveredExtents p g) index := by
  obtain ⟨hrange, htile⟩ := hmem
  obtain ⟨hlen, hbounds⟩ := inRange_iff.mp hrange
  refine (inRange_covered_iff hown).mpr ⟨hlen, fun k d q i hd hq hi => ?_⟩
  obtain ⟨hnonneg, hlt⟩ := hbounds k d i hd hi
  obtain ⟨hk, -⟩ := List.getElem?_eq_some_iff.mp hd
  have hrank := hown.rank_le
  have hle : axis block k + 1 ≤ axis g k := hblock k (by omega)
  refine ⟨hnonneg, hlt, (htile k i q hi hq).2.trans_le ?_⟩
  exact_mod_cast Nat.mul_le_mul_right q.toNat hle

/-- What the grid covers is in range and in a launched block. -/
theorem launched_of_covered (hpos : ∀ k < 3, 0 < axis g k)
    (hindex : Axes.InRange (coveredExtents p g) index) :
    Axes.InRange (p.object.shape.map Int32.toInt) index ∧
      Launched g (blockOf p.partitionShape index) := by
  obtain ⟨hlen, hbounds⟩ := (inRange_covered_iff hown).mp hindex
  have hps := hown.length_eq
  refine ⟨inRange_iff.mpr ⟨hlen, fun k d i hd hi => ?_⟩, fun k hk => ?_⟩
  · obtain ⟨hk, -⟩ := List.getElem?_eq_some_iff.mp hd
    obtain ⟨d', q, hd', hq, -⟩ := exists_axis hown hk
    obtain ⟨hnonneg, hlt, -⟩ := hbounds k d q i hd hq hi
    exact ⟨hnonneg, hlt⟩
  · rw [axis_blockOf hk]
    by_cases hlt : k < p.object.shape.length
    · obtain ⟨d, q, hd, hq, hqpos⟩ := exists_axis hown hlt
      have hi := List.getElem?_eq_getElem (l := index) (i := k) (by omega)
      obtain ⟨hnonneg, -, hcovered⟩ := hbounds k d q _ hd hq hi
      rw [cell_eq hi hq, Nat.div_lt_iff_lt_mul hqpos]
      omega
    · rw [cell_none (by omega)]
      exact hpos k hk

/-- An axis that the grid cuts is longer than the tile. -/
theorem lt_cut (hle : ∀ k < 3, axis g k ≤ axis own k) {k : ℕ} {d : Int32} {q : UInt64}
    (hd : p.object.shape[k]? = some d) (hq : p.partitionShape[k]? = some q) (hcut : 1 < axis g k) :
    (q.toNat : ℤ) < min d.toInt (axis g k * q.toNat) := by
  obtain ⟨hk, -⟩ := List.getElem?_eq_some_iff.mp hd
  have hrank := hown.rank_le
  have hqpos := hown.tile_pos q (List.mem_of_getElem? hq)
  have hblocks : 1 < (d.toInt.toNat + q.toNat - 1) / q.toNat := by
    rw [← hown.axis_eq k d q hd hq]
    exact hcut.trans_le (hle k (by omega))
  rw [lt_ceil_iff hqpos] at hblocks
  have htiles : q.toNat < axis g k * q.toNat := (Nat.lt_mul_iff_one_lt_left hqpos).mpr hcut
  refine lt_min (by omega) ?_
  exact_mod_cast htiles

/-- **The tiles of different blocks are disjoint** exactly if the grid cuts between elements that
are apart. -/
theorem disjoint_iff (hsize : 0 < size) (hle : ∀ k < 3, axis g k ≤ axis own k) :
    (∀ block block', Launched g block → Launched g block' → block ≠ block' →
      Disjoint (memory size p.object (tile p block)) (memory size p.object (tile p block'))) ↔
        CutApart p g := by
  constructor
  · intro hdisjoint hpos steps hsteps hzero k x hx hcut
    by_contra hne
    -- two elements this step apart, in different tiles along the axis
    have htiles : ∀ k : ℕ, 0 < p.partitionShape[k]?.elim 1 UInt64.toNat := fun k => by
      cases hq : p.partitionShape[k]? with
      | none => exact Nat.one_pos
      | some q => exact hown.tile_pos q (List.mem_of_getElem? hq)
    obtain ⟨i, j, hi, hj, hoffset, hparted⟩ := exists_partedIndices _ htiles hsteps
    obtain ⟨hk, -⟩ := List.getElem?_eq_some_iff.mp hx
    rw [hsteps.length_eq, length_coveredExtents hown] at hk
    obtain ⟨d, q, hd, hq, -⟩ := exists_axis hown hk
    have hparted := hparted k x _ hx (getElem?_coveredExtents.mpr ⟨d, q, hd, hq, rfl⟩) hne
    rw [hq] at hparted
    obtain ⟨a, b, ha, hb, hcells⟩ := hparted (lt_cut hown hle hd hq hcut)
    obtain ⟨hrangei, hblocki⟩ := launched_of_covered hown hpos hi
    obtain ⟨hrangej, hblockj⟩ := launched_of_covered hown hpos hj
    have hblocks : blockOf p.partitionShape i ≠ blockOf p.partitionShape j := by
      intro heq
      have hrank := hown.rank_le
      have hcell := congrArg (axis · k) heq
      rw [axis_blockOf (by omega), axis_blockOf (by omega), cell_eq ha hq, cell_eq hb hq] at hcell
      exact hcells hcell
    refine Set.disjoint_left.mp (hdisjoint _ _ hblocki hblockj hblocks)
      (mem_memory hsize (mem_tile_blockOf hown hrangei)) ?_
    have hplace := hoffset (p.object.strides.map Int32.toInt)
    rw [hzero, add_zero] at hplace
    rw [hplace]
    exact mem_memory hsize (mem_tile_blockOf hown hrangej)
  · intro h block block' hblock hblock' hne
    rw [Set.disjoint_left]
    intro a hmem hmem'
    obtain ⟨i, hi, j, hj, hoffset⟩ := offset_eq_of_mem_memory hmem hmem'
    obtain ⟨steps, hsteps, hsub, hget⟩ :=
      exists_steps (inRange_covered hown hblock hi) (inRange_covered hown hblock' hj)
    have hzero : Axes.offset (p.object.strides.map Int32.toInt) steps = 0 := by
      rw [hsub, hoffset, sub_self]
    have hpos : ∀ k < 3, 0 < axis g k := fun k hk => (Nat.zero_le _).trans_lt (hblock k hk)
    have hsame := h hpos steps hsteps hzero
    refine hne (grid_ext fun k hk => ?_)
    have hblockk := hblock k hk
    have hblockk' := hblock' k hk
    by_cases hcut : 1 < axis g k
    · by_cases hlt : k < p.object.shape.length
      · -- along an axis that is cut, the two are at the same index
        obtain ⟨-, hcelli⟩ := (mem_tile_iff hown).mp hi
        obtain ⟨hrangej, hcellj⟩ := (mem_tile_iff hown).mp hj
        have hleni := (inRange_iff.mp hi.1).1
        have hlenj := (inRange_iff.mp hrangej).1
        have hgeti := List.getElem?_eq_getElem (l := i) (i := k) (by omega)
        have hgetj := List.getElem?_eq_getElem (l := j) (i := k) (by omega)
        have heq := sub_eq_zero.mp (hsame k _ (hget k _ _ hgeti hgetj) hcut)
        rw [hcelli k hlt, hcellj k hlt, cell, cell, hgeti, hgetj, heq]
      · have hone := hle k hk
        rw [hown.axis_one k hk (by omega)] at hone
        omega
    · omega

end Cut

/-- What the launcher has checked of an output when it pushes the arguments. -/
theorem launchGrid_eq_ok {outputs : List Output} {o : Output} (h : launchGrid grid outputs = .ok g)
    (ho : o ∈ outputs) : o.check = .ok () ∧
      ∃ own, partitionLaunchGrid o.binding.partition.object.shape
        o.binding.partition.partitionShape =
        .ok own ∧ (∀ k < 3, axis g k ≤ axis own k) ∧
          (o.binding.prefixCoverage = false → own = g) := by
  obtain ⟨units, hchecks, h⟩ := bind_eq_ok.mp h
  obtain ⟨bounds, hbounds, h⟩ := bind_eq_ok.mp h
  obtain ⟨u, -, hcheck⟩ := (mapM_eq_ok (mapError_eq_ok.mp hchecks)).2 o ho
  obtain ⟨bound, hmem, hbound⟩ := (mapM_eq_ok (mapError_eq_ok.mp hbounds)).2 o ho
  exact ⟨hcheck, accepted hbound hmem (mapError_eq_ok.mp h)⟩

/-- **When a launch is what it relies on.**  An output of a launch that is accepted has a tile for
every block, and the tiles of different blocks are disjoint if and only if the grid cuts the tensor
between elements that are apart. -/
theorem launch_meets_iff (size : ℕ) (hsize : 0 < size) {outputs : List Output} {o : Output}
    (h : launchGrid grid outputs = .ok g) (ho : o ∈ outputs) :
    Meets size g o.binding ↔ CutApart o.binding.partition g := by
  obtain ⟨hcheck, own, hown, hle, hexact⟩ := launchGrid_eq_ok h ho
  have hgrid := isLaunchGrid hown
  have hlaunched : ∀ {block}, Launched g block → Launched own block := fun h k hk =>
    (h k hk).trans_le (hle k hk)
  constructor
  · intro hmeets
    exact (disjoint_iff hgrid hsize hle).mp hmeets.disjoint
  · intro hapart
    refine ⟨fun block hblock => ⟨tile_nonempty hgrid (hlaunched hblock), own, hown,
      hlaunched hblock⟩,
      (disjoint_iff hgrid hsize hle).mpr hapart, fun hcover index hrange => ?_,
      pushed_eq (fits_of_check hcheck hgrid)⟩
    obtain rfl := hexact hcover
    exact ⟨blockOf o.binding.partition.partitionShape index,
      ⟨launched_blockOf hgrid hrange, mem_tile_blockOf hgrid hrange⟩,
      fun block hblock => eq_blockOf hgrid hblock.1 hblock.2⟩

/-- Four elements, each twice. -/
def rows : Output :=
  ⟨⟨"f32", .tensor, true, ["2", "2"], "\x7b[2, 2]\x7d"⟩,
    ⟨⟨⟨"f32", 0, [4, 2], [1, 0], rfl⟩, [2, 2], [1, 0]⟩, false⟩⟩

/-- The grid does not cut between the two that are in one place. -/
theorem launch_meets_iff_rows : Meets 4 (2, 1, 1) rows.binding := by
  have hlaunch : launchGrid (0, 0, 0) [rows] = .ok (2, 1, 1) := by rfl
  refine (launch_meets_iff 4 (by decide) hlaunch List.mem_cons_self).mpr ?_
  intro _ steps hsteps hzero k x hx hcut
  obtain ⟨y, z, rfl⟩ := List.length_eq_two.mp hsteps.length_eq
  have hy : y = 0 := by simpa [rows, Axes.offset] using hzero
  rcases k with _ | _ | k
  · cases hx
    exact hy
  · exact absurd hcut (by decide)
  · cases hx

/-- Two elements in one place, one for each block. -/
def broadcast : Output :=
  ⟨⟨"f32", .tensor, true, ["1"], "\x7b[1]\x7d"⟩,
    ⟨⟨⟨"f32", 0, [2], [0], rfl⟩, [1], [0]⟩, false⟩⟩

/-- A tensor all of whose elements stand in one place is accepted, and both blocks write that
place. -/
theorem launch_fails :
    launchGrid (0, 0, 0) [broadcast] = .ok (2, 1, 1) ∧ Launched (2, 1, 1) (0, 0, 0) ∧
      Launched (2, 1, 1) (1, 0, 0) ∧
        (0 : ℤ) ∈ memory 4 broadcast.binding.partition.object
          (tile broadcast.binding.partition (0, 0, 0)) ∧
        (0 : ℤ) ∈ memory 4 broadcast.binding.partition.object
          (tile broadcast.binding.partition (1, 0, 0)) ∧
          ¬Meets 4 (2, 1, 1) broadcast.binding := by
  have hlaunched : ∀ n < 2, Launched (2, 1, 1) (n, 0, 0) := by
    intro n hn k hk
    interval_cases k
    · exact hn
    · exact Nat.one_pos
    · exact Nat.one_pos
  have htile : ∀ n < 2, [(n : ℤ)] ∈ tile broadcast.binding.partition (n, 0, 0) := by
    intro n hn
    refine ⟨.cons ⟨by omega, ?_⟩ .nil, fun k i q hi hq => ?_⟩
    · show (n : ℤ) < 2
      omega
    rcases k with _ | k
    · cases hi
      cases hq
      show (n : ℤ) * 1 ≤ n ∧ (n : ℤ) < (n + 1) * 1
      omega
    · cases hi
  have hmemory : ∀ n < 2, (0 : ℤ) ∈ memory 4 broadcast.binding.partition.object
      (tile broadcast.binding.partition (n, 0, 0)) := fun n hn =>
    ⟨[n], htile n hn, 0, le_rfl, by decide, by simp [broadcast, Axes.offset]⟩
  refine ⟨by rfl, hlaunched 0 (by decide), hlaunched 1 (by decide), hmemory 0 (by decide),
    hmemory 1 (by decide), fun hmeets => ?_⟩
  have hdisjoint := hmeets.disjoint (0, 0, 0) (1, 0, 0) (hlaunched 0 (by decide))
    (hlaunched 1 (by decide)) (by decide)
  exact Set.disjoint_left.mp hdisjoint (hmemory 0 (by decide)) (hmemory 1 (by decide))

end Launches

end CudaOxide.Tile.LaunchGrid
