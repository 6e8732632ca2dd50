import CudaOxide.Cute.ComplementFits
import CudaOxide.Lib.Loop

namespace CudaOxide.Cute

open Lib Strided

/-!
# Dividing a layout into tiles

`logical_divide` and `zipped_divide` of `algebra/tiling.rs` rename the coordinates of a layout: a
place inside a tile, and the tile.  In a build with overflow checks, `zipped_divide` returns exactly
where the products and sums of its axes are `i64`s, and panics elsewhere.

* `logicalDivide_axis` — one mode, divided: what the machine returns, and when it overflows.
* `zippedDivide_axes` — all modes of a grid, divided and regrouped.
* `zippedDivide_spec` — the divided grid evaluates every pair of coordinates to the offset of the
  coordinate it names, and names every coordinate once.
-/

/-! ### The machine functions -/

/-- Divide the coordinates of `a` into a place in the pattern `b` and a copy of the pattern. -/
def logicalDivide [Build] (a b : Layout) : Run AlgebraError Layout := do
  let size ← a.size
  let rest ← complement b size
  composition a (Layout.fromModes [b, rest])

/-- The loop of `zipped_divide`: the tile and the rest of every mode. -/
def divideModes [Build] : List Layout → List ℤ → Run AlgebraError (List Layout × List Layout)
  | mode :: modes, t :: ts => do
    let divided ← logicalDivide mode (Layout.contiguous t)
    match divided.modes with
    | [tile, rest] => do
      let (tiles, rests) ← divideModes modes ts
      .ok (tile :: tiles, rest :: rests)
    | _ => Run.fail ⟨"zipped_divide: mode divide was not rank-2"⟩
  | _, _ => .ok ([], [])

/-- Divide every top-level mode by a tile extent, and group the tiles and the rests. -/
def zippedDivide [Build] (a : Layout) (tileShape : List ℤ) : Run AlgebraError Layout := do
  let modes := a.modes
  Run.reject (modes.length ≠ tileShape.length)
    ⟨s!"zipped_divide: tiler rank {tileShape.length} does not match layout rank {modes.length}"⟩
  let (tiles, rests) ← divideModes modes tileShape
  .ok (Layout.fromModes [Layout.fromModes tiles, Layout.fromModes rests])

/-! ### One axis -/

/-- A top-level mode and the extent of its tile. -/
structure Axis where
  extent : ℤ
  stride : ℤ
  tile : ℤ
  extent_pos : 0 < extent
  stride_nonneg : 0 ≤ stride
  tile_pos : 0 < tile
  extent_fits : I64.Fits extent
  stride_fits : I64.Fits stride
  tile_fits : I64.Fits tile

namespace Axis

variable {x : Axis}

/-- The mode, as a layout. -/
def mode (x : Axis) : Layout := ⟨.leaf x.extent, .leaf x.stride⟩

/-- How many tiles cover the mode. -/
def tiles (x : Axis) : ℤ := upDiv x.extent x.tile

/-- A mode of one cell loses its stride, and so does a single tile. -/
def tileStride (x : Axis) : ℤ := if x.extent = 1 then 0 else x.stride

/-- The step from one tile to the next; an axis with one tile takes none. -/
def restStride (x : Axis) : ℤ := if x.extent ≤ x.tile then 0 else x.tile * x.stride

/-- The sum that the ceiling division forms, and the distance between two tiles, are `i64`s. -/
def DivideFits (x : Axis) : Prop :=
  (x.tile = 1 ∨ I64.Fits (x.extent + x.tile)) ∧
    (x.tile < x.extent → I64.Fits (x.tile * x.stride))

instance (x : Axis) : Decidable x.DivideFits := inferInstanceAs (Decidable (_ ∧ _))

/-- The place inside a tile, and the tile. -/
def tileMode (x : Axis) : Layout := ⟨.leaf x.tile, .leaf x.tileStride⟩

/-- The mode that counts the tiles. -/
def restMode (x : Axis) : Layout := ⟨.leaf x.tiles, .leaf x.restStride⟩

/-- The mode, divided. -/
def divided (x : Axis) : Layout := Layout.fromModes [x.tileMode, x.restMode]

/-- The layout of all modes. -/
def layout (xs : List Axis) : Layout :=
  ⟨.tuple (xs.map fun x => .leaf x.extent), .tuple (xs.map fun x => .leaf x.stride)⟩

/-- The tiles of all modes, and their rests. -/
def zipped (xs : List Axis) : Layout :=
  ⟨.tuple [.tuple (xs.map fun x => .leaf x.tile), .tuple (xs.map fun x => .leaf x.tiles)],
    .tuple [.tuple (xs.map fun x => .leaf x.tileStride),
      .tuple (xs.map fun x => .leaf x.restStride)]⟩

/-- The coordinate that a place in a tile and the number of the tile name. -/
def cell (x : Axis) (p : ℤ × ℤ) : ℤ := p.1 + x.tile * p.2

/-- A coordinate of the mode. -/
def InExtent (x : Axis) (c : ℤ) : Prop := 0 ≤ c ∧ c < x.extent

/-- A pair of coordinates of the divided mode. -/
def InTiles (x : Axis) (p : ℤ × ℤ) : Prop := 0 ≤ p.1 ∧ p.1 < x.tile ∧ 0 ≤ p.2 ∧ p.2 < x.tiles

/-- An axis within its tile has one tile. -/
theorem tiles_eq_one_iff (x : Axis) : x.tiles = 1 ↔ x.extent ≤ x.tile := by
  constructor
  · intro h
    by_contra hlt
    have htwo := two_le_upDiv x.tile_pos (not_le.mp hlt)
    rw [tiles] at h
    omega
  · exact upDiv_of_le x.extent_pos

end Axis

/-- One leaf, walked through one mode. -/
theorem composeInt_mode (x : Axis) (s q : ℤ) : composeInt x.mode s q =
    if q = 0 then .ok ⟨.leaf s, .leaf 0⟩
    else I64.mul q x.tileStride >>= fun d => .ok ⟨.leaf s, .leaf d⟩ := by
  unfold composeInt
  split
  · rfl
  · unfold coalesce Axis.tileStride
    show (coalesceFrom [] [(x.extent, x.stride)] >>= _) >>= _ = _
    rw [coalesceFrom]
    split
    · rfl
    · rfl

/-- What a contiguous tile leaves of its mode. -/
theorem complement_contiguous (x : Axis) : complement (Layout.contiguous x.tile) x.extent =
    if x.tile = 1 ∨ I64.Fits (x.extent + x.tile) then
      .ok (layoutFromFlat (merged [(x.tiles, x.tile)]))
    else Run.panic .overflow := by
  have hpos : Pos [(x.tile, 1)] := by simp [x.tile_pos]
  have hcells : (Layout.contiguous x.tile).cells = x.tile := mul_one x.tile
  have hfills : Fills (Layout.contiguous x.tile).flatModes (Layout.contiguous x.tile).cells :=
    Chain.fills hpos ⟨rfl, trivial⟩
  have hvalid : (Layout.contiguous x.tile).Valid := ⟨rfl, hpos⟩
  have hfits : I64.Fits (Layout.contiguous x.tile).cells := by
    rw [hcells]
    exact x.tile_fits
  have hrun := complement_of_fills hvalid hfills hfits x.extent_pos x.extent_fits
  simp only [hcells] at hrun
  exact hrun

/-- Two leaves are composed one after the other. -/
theorem composition_pair (a : Layout) (s q s' q' : ℤ) :
    composition a (Layout.fromModes [⟨.leaf s, .leaf q⟩, ⟨.leaf s', .leaf q'⟩]) =
      composeInt a s q >>= fun m => composeInt a s' q' >>= fun m' =>
        .ok ⟨.tuple [m.shape, m'.shape], .tuple [m.stride, m'.stride]⟩ := by
  show (composeInt a s q >>= fun m => (composeInt a s' q' >>= fun m' => _) >>= _) >>= _ = _
  cases composeInt a s q with
  | error e => rfl
  | ok m =>
    cases composeInt a s' q' with
    | error e => rfl
    | ok m' => rfl

/-- **One mode, divided.** -/
theorem logicalDivide_axis (x : Axis) : logicalDivide x.mode (Layout.contiguous x.tile) =
    if x.DivideFits then .ok x.divided else Run.panic .overflow := by
  rw [logicalDivide]
  show complement (Layout.contiguous x.tile) x.extent >>= _ = _
  rw [complement_contiguous]
  -- the complement overflows exactly where the extent and the tile do
  by_cases hsum : x.tile = 1 ∨ I64.Fits (x.extent + x.tile)
  · have htile : composeInt x.mode x.tile 1 = .ok ⟨.leaf x.tile, .leaf x.tileStride⟩ := by
      have hstride : I64.Fits (1 * x.tileStride) := by
        rw [one_mul, Axis.tileStride]
        split
        · decide
        · exact x.stride_fits
      rw [composeInt_mode, if_neg one_ne_zero, I64.mul, I64.exact_of_fits hstride, one_mul]
      rfl
    rw [if_pos hsum]
    show composition x.mode (Layout.fromModes [⟨.leaf x.tile, .leaf 1⟩,
      layoutFromFlat (merged [(x.tiles, x.tile)])]) = _
    by_cases hone : x.tiles = 1
    · -- a single tile: the rest is one cell
      have hle := x.tiles_eq_one_iff.mp hone
      have hfits : x.DivideFits := ⟨hsum, fun hlt => absurd hle (not_le.mpr hlt)⟩
      have hrest : layoutFromFlat (merged [(x.tiles, x.tile)]) = ⟨.leaf 1, .leaf 0⟩ := by
        rw [hone]
        rfl
      rw [if_pos hfits, hrest, composition_pair, htile, composeInt_mode, if_pos rfl, Axis.divided,
        Axis.restMode, hone, Axis.restStride, if_pos hle]
      rfl
    -- several tiles: the rest steps by whole tiles, and its stride is a product
    · have hlt : x.tile < x.extent := not_le.mp fun hle => hone (x.tiles_eq_one_iff.mpr hle)
      have hext : x.tileStride = x.stride := by
        have htile := x.tile_pos
        exact if_neg (by omega)
      have hrest : layoutFromFlat (merged [(x.tiles, x.tile)]) = ⟨.leaf x.tiles, .leaf x.tile⟩ := by
        rw [merged, mergeOnto, if_neg hone]
        rfl
      rw [hrest, composition_pair, htile, composeInt_mode, if_neg x.tile_pos.ne', hext, I64.mul]
      by_cases hmul : I64.Fits (x.tile * x.stride)
      · rw [if_pos ⟨hsum, fun _ => hmul⟩, I64.exact_of_fits hmul, Axis.divided, Axis.tileMode, hext,
          Axis.restMode, Axis.restStride, if_neg hlt.not_ge]
        rfl
      · rw [if_neg fun h => hmul (h.2 hlt), I64.exact_of_not_fits hmul]
        rfl
  · rw [if_neg hsum, if_neg fun h => hsum h.1]
    rfl

/-! ### All axes -/

/-- All modes are divided, or an overflow stops at one of them. -/
theorem divideModes_axes (xs : List Axis) :
    divideModes (xs.map Axis.mode) (xs.map Axis.tile) =
      if ∀ x ∈ xs, x.DivideFits then .ok (xs.map Axis.tileMode, xs.map Axis.restMode)
      else Run.panic .overflow := by
  induction xs with
  | nil => rfl
  | cons x xs ih =>
    rw [List.map_cons, List.map_cons, divideModes, logicalDivide_axis, ih]
    by_cases hx : x.DivideFits
    · rw [if_pos hx]
      by_cases hxs : ∀ y ∈ xs, y.DivideFits
      · rw [if_pos hxs, if_pos (List.forall_mem_cons.mpr ⟨hx, hxs⟩)]
        rfl
      · rw [if_neg hxs, if_neg fun h => hxs (List.forall_mem_cons.mp h).2]
        rfl
    · rw [if_neg hx, if_neg fun h => hx (List.forall_mem_cons.mp h).1]
      rfl

/-- The modes of a grid are those of its axes. -/
theorem modes_layout (xs : List Axis) : (Axis.layout xs).modes = xs.map Axis.mode := by
  show List.zipWith Layout.mk _ _ = _
  rw [List.zipWith_map, List.zipWith_self]
  rfl

/-- **All modes, divided.**  The machine returns the tiles and the rests, or it overflows. -/
theorem zippedDivide_axes {xs : List Axis} (h2 : 2 ≤ xs.length) :
    zippedDivide (Axis.layout xs) (xs.map Axis.tile) =
      if ∀ x ∈ xs, x.DivideFits then .ok (Axis.zipped xs) else Run.panic .overflow := by
  have hrank : ¬(Axis.layout xs).modes.length ≠ (xs.map Axis.tile).length := by
    rw [modes_layout, List.length_map, List.length_map, not_not]
  rw [zippedDivide, Run.reject, if_neg hrank]
  show divideModes (Axis.layout xs).modes (xs.map Axis.tile) >>= _ = _
  rw [modes_layout, divideModes_axes]
  split
  · obtain ⟨x, y, zs, rfl⟩ : ∃ x y zs, xs = x :: y :: zs := by
      match xs, h2 with
      | x :: y :: zs, _ => exact ⟨x, y, zs, rfl⟩
    show Except.ok (Layout.mk _ _) = Except.ok (Layout.mk _ _)
    simp [Layout.fromModes, Axis.tileMode, Axis.restMode, Function.comp_def]
  · rfl

/-! ### The same offsets -/

/-- A coordinate with a number for every mode. -/
def leaves (cs : List ℤ) : IntTuple := .tuple (cs.map .leaf)

variable {ε : Type}

/-- A number above one that does not fit does not fit. -/
theorem not_fits_of_le {n m : ℤ} (h0 : 0 ≤ n) (h : ¬I64.Fits n) (hle : n ≤ m) : ¬I64.Fits m := by
  intro hm
  exact h ⟨by omega, hle.trans hm.2⟩

/-- The sum of two nonnegative numbers is the only thing that can overflow. -/
theorem exact_add {n m : ℤ} (hn : 0 ≤ n) (hm : 0 ≤ m) :
    (I64.exact n >>= fun a => I64.exact m >>= fun b => I64.add a b : Run ε ℤ) =
      I64.exact (n + m) := by
  by_cases hfn : I64.Fits n
  · rw [I64.exact_of_fits hfn]
    show (I64.exact m >>= fun b => I64.add n b) = _
    by_cases hfm : I64.Fits m
    · rw [I64.exact_of_fits hfm]
      rfl
    · have hsum : ¬I64.Fits (n + m) := not_fits_of_le hm hfm (by omega)
      rw [I64.exact_of_not_fits hfm, I64.exact_of_not_fits hsum]
      rfl
  · have hsum : ¬I64.Fits (n + m) := not_fits_of_le hn hfn (by omega)
    rw [I64.exact_of_not_fits hfn, I64.exact_of_not_fits hsum]
    rfl

/-- Evaluating a number for every mode adds up the contributions. -/
theorem crd2idxTuple_leaves {α : Type} {c s d : α → ℤ} {zs : List α}
    (h : ∀ z ∈ zs, c z < s z ∧ 0 ≤ c z * d z) {sum : ℤ} (h0 : 0 ≤ sum) :
    (I64.exact sum >>= fun sum => crd2idxTuple sum (zs.map fun z => .leaf (c z))
      (zs.map fun z => .leaf (s z)) (zs.map fun z => .leaf (d z)) : Run ε ℤ) =
      I64.exact (sum + (zs.map fun z => c z * d z).sum) := by
  induction zs generalizing sum with
  | nil =>
    simp only [List.map_nil, List.sum_nil, add_zero]
    unfold I64.exact
    split
    · rfl
    · rfl
  | cons z zs ih =>
    obtain ⟨⟨hlt, hz⟩, hzs⟩ := List.forall_mem_cons.mp h
    have hstep : ∀ n : ℤ, (crd2idxTuple n ((z :: zs).map fun z => .leaf (c z))
        ((z :: zs).map fun z => .leaf (s z)) ((z :: zs).map fun z => .leaf (d z)) : Run ε ℤ) =
        (I64.exact (c z * d z) >>= fun o => I64.add n o) >>= fun sum =>
          crd2idxTuple sum (zs.map fun z => .leaf (c z)) (zs.map fun z => .leaf (s z))
            (zs.map fun z => .leaf (d z)) := by
      intro n
      rw [List.map_cons, List.map_cons, List.map_cons, crd2idxTuple, crd2idx, Run.debugAssert,
        if_pos hlt]
      show (I64.exact (c z * d z) >>= fun o => I64.add n o >>= _) = _
      rw [bind_assoc]
    simp only [hstep]
    rw [← bind_assoc, exact_add h0 hz, ih hzs (add_nonneg h0 hz), List.map_cons, List.sum_cons,
      add_assoc]

/-- The same for a whole group of modes. -/
theorem crd2idx_leaves {α : Type} {c s d : α → ℤ} {zs : List α}
    (h : ∀ z ∈ zs, c z < s z ∧ 0 ≤ c z * d z) :
    (crd2idx (.tuple (zs.map fun z => .leaf (c z))) (.tuple (zs.map fun z => .leaf (s z)))
      (.tuple (zs.map fun z => .leaf (d z))) : Run ε ℤ) =
      I64.exact (zs.map fun z => c z * d z).sum := by
  have hzero := crd2idxTuple_leaves (ε := ε) h le_rfl
  rw [zero_add] at hzero
  rw [crd2idx, Run.debugAssert, if_pos (by simp), ← hzero]
  rfl

namespace Axis

variable {x : Axis} {p : ℤ × ℤ} {c : ℤ}

/-- The named coordinate has the offset of the pair, also where a stride was dropped. -/
theorem cell_mul_stride (hp : x.InTiles p) (hc : x.InExtent (x.cell p)) :
    p.1 * x.tileStride + p.2 * x.restStride = x.cell p * x.stride := by
  obtain ⟨h1, h1', h2, -⟩ := hp
  have hlt : p.1 + x.tile * p.2 < x.extent := hc.2
  have htile := x.tile_pos
  rw [cell, tileStride, restStride]
  by_cases hle : x.extent ≤ x.tile
  · -- the only tile
    have hzero : p.2 = 0 := by
      by_contra hne
      have hmul : x.tile * 1 ≤ x.tile * p.2 := Int.mul_le_mul_of_nonneg_left (by omega) htile.le
      omega
    rw [if_pos hle, hzero]
    split
    · rename_i hone
      rw [hzero] at hlt
      have hplace : p.1 = 0 := by omega
      rw [hplace]
      ring
    · ring
  · rw [if_neg hle, if_neg (by omega)]
    ring

/-- A step in the tile goes forward. -/
theorem tileStride_nonneg (x : Axis) : 0 ≤ x.tileStride := by
  unfold tileStride
  split
  · exact le_rfl
  · exact x.stride_nonneg

/-- A step between tiles goes forward. -/
theorem restStride_nonneg (x : Axis) : 0 ≤ x.restStride := by
  unfold restStride
  split
  · exact le_rfl
  · exact mul_nonneg x.tile_pos.le x.stride_nonneg

/-- The pair that names a coordinate. -/
theorem existsUnique_pair (hc : x.InExtent c) : ∃! p, x.InTiles p ∧ x.cell p = c := by
  have htile := x.tile_pos
  obtain ⟨h0, hlt⟩ := hc
  refine ⟨(c % x.tile, c / x.tile), ⟨⟨Int.emod_nonneg _ htile.ne', Int.emod_lt_of_pos _ htile,
    Int.ediv_nonneg h0 htile.le, ?_⟩, Int.emod_add_mul_ediv _ _⟩, ?_⟩
  · have hcover : x.extent ≤ x.tiles * x.tile := le_upDiv_mul htile
    exact Int.ediv_lt_of_lt_mul htile (by omega)
  · rintro ⟨i, j⟩ ⟨⟨hi0, hi, -⟩, hcell⟩
    have hcell : i + x.tile * j = c := hcell
    obtain ⟨hmod, hdiv⟩ := digit_cons (q := j) hi0 hi
    rw [hcell] at hmod hdiv
    rw [hmod, hdiv]

end Axis

/-- The divided layout evaluates a pair of coordinates as the layout does the one it names. -/
theorem zipped_call {xs : List Axis} {ps : List (ℤ × ℤ)}
    (h : List.Forall₂ (fun x p => x.InTiles p ∧ x.InExtent (x.cell p)) xs ps) :
    ((Axis.zipped xs).call (.tuple [leaves (ps.map Prod.fst),
      leaves (ps.map Prod.snd)]) : Run ε ℤ) =
      (Axis.layout xs).call (leaves (List.zipWith Axis.cell xs ps)) := by
  obtain ⟨hlen, hin⟩ := List.forall₂_iff_zip.mp h
  -- all four lists are read off the zipped list
  obtain ⟨zs, hzs⟩ : ∃ zs, zs = xs.zip ps := ⟨_, rfl⟩
  have hxs : xs = zs.map Prod.fst := by rw [hzs, List.map_fst_zip hlen.le]
  have hps : ps = zs.map Prod.snd := by rw [hzs, List.map_snd_zip hlen.ge]
  have hzip : List.zipWith Axis.cell xs ps = zs.map fun z => z.1.cell z.2 := by
    rw [hzs, List.map_zip_eq_zipWith]
    rfl
  have hz : ∀ z ∈ zs, z.1.InTiles z.2 ∧ z.1.InExtent (z.1.cell z.2) := by
    intro z hz
    exact hin (hzs ▸ hz)
  have htile : ∀ z ∈ zs, z.2.1 < z.1.tile ∧ 0 ≤ z.2.1 * z.1.tileStride := by
    intro z hmem
    obtain ⟨⟨h0, hlt, -⟩, -⟩ := hz z hmem
    exact ⟨hlt, mul_nonneg h0 z.1.tileStride_nonneg⟩
  have hrest : ∀ z ∈ zs, z.2.2 < z.1.tiles ∧ 0 ≤ z.2.2 * z.1.restStride := by
    intro z hmem
    obtain ⟨⟨-, -, h0, hlt⟩, -⟩ := hz z hmem
    exact ⟨hlt, mul_nonneg h0 z.1.restStride_nonneg⟩
  have hcell : ∀ z ∈ zs, z.1.cell z.2 < z.1.extent ∧ 0 ≤ z.1.cell z.2 * z.1.stride := by
    intro z hmem
    obtain ⟨-, h0, hlt⟩ := hz z hmem
    exact ⟨hlt, mul_nonneg h0 z.1.stride_nonneg⟩
  have hsum : (zs.map fun z => z.2.1 * z.1.tileStride).sum +
      (zs.map fun z => z.2.2 * z.1.restStride).sum =
      (zs.map fun z => z.1.cell z.2 * z.1.stride).sum := by
    rw [← List.sum_map_add]
    congr 1
    refine List.map_congr_left fun z hmem => ?_
    exact Axis.cell_mul_stride (hz z hmem).1 (hz z hmem).2
  have htiles : 0 ≤ (zs.map fun z => z.2.1 * z.1.tileStride).sum :=
    List.sum_nonneg (List.forall_mem_map.mpr fun z hmem => (htile z hmem).2)
  have hrests : 0 ≤ (zs.map fun z => z.2.2 * z.1.restStride).sum :=
    List.sum_nonneg (List.forall_mem_map.mpr fun z hmem => (hrest z hmem).2)
  rw [hzip, hxs, hps, Layout.call, Layout.call, Axis.zipped, Axis.layout, leaves, leaves, leaves]
  simp only [List.map_map, Function.comp_def]
  rw [crd2idx_leaves hcell, ← hsum, ← exact_add htiles hrests, crd2idx, Run.debugAssert,
    if_pos (by simp)]
  show (crd2idx _ _ _ >>= fun o => I64.add 0 o >>= fun n => crd2idx _ _ _ >>= fun o =>
    I64.add n o >>= .ok : Run ε ℤ) = _
  rw [crd2idx_leaves htile, crd2idx_leaves hrest]
  generalize (zs.map fun z => z.2.1 * z.1.tileStride).sum = n
  by_cases hn : I64.Fits n
  · have hzero : I64.Fits (0 + n) := by rwa [zero_add]
    rw [I64.exact_of_fits hn]
    show (I64.exact (0 + n) >>= fun n => _) = _
    rw [I64.exact_of_fits hzero, zero_add]
    show (I64.exact _ >>= fun o => I64.add n o >>= .ok) = (I64.exact _ >>= fun o => I64.add n o)
    refine bind_congr fun o => ?_
    show I64.exact (n + o) >>= .ok = I64.exact (n + o)
    unfold I64.exact
    split
    · rfl
    · rfl
  · rw [I64.exact_of_not_fits hn]
    rfl

/-! ### The law -/

/-- Every coordinate is named by one list of pairs. -/
theorem existsUnique_pairs {xs : List Axis} {cs : List ℤ} (h : List.Forall₂ Axis.InExtent xs cs) :
    ∃! ps, List.Forall₂ Axis.InTiles xs ps ∧ List.zipWith Axis.cell xs ps = cs := by
  induction h with
  | nil =>
    refine ⟨[], ⟨.nil, rfl⟩, ?_⟩
    rintro ps ⟨hps, -⟩
    exact List.forall₂_nil_left_iff.mp hps
  | cons hx _ ih =>
    obtain ⟨p, ⟨hp, hcell⟩, hunique⟩ := Axis.existsUnique_pair hx
    obtain ⟨ps, ⟨hps, hcells⟩, huniques⟩ := ih
    refine ⟨p :: ps, ⟨.cons hp hps, by rw [List.zipWith_cons_cons, hcell, hcells]⟩, ?_⟩
    rintro _ ⟨hall, heq⟩
    cases hall with
    | cons hq hqs =>
      obtain ⟨hhead, htail⟩ := List.cons.inj heq
      rw [hunique _ ⟨hq, hhead⟩, huniques _ ⟨hqs, htail⟩]

/-- **Dividing a grid into tiles.**  The machine returns the divided grid unless a ceiling division
or the distance between two tiles overflows.  Of the divided grid, a pair of coordinates that names
a coordinate of the grid evaluates as that one does, and every coordinate is named by exactly one
pair, whether or not the tiles divide the extents. -/
theorem zippedDivide_spec (xs : List Axis) (h2 : 2 ≤ xs.length) :
    (zippedDivide (Axis.layout xs) (xs.map Axis.tile) =
      if ∀ x ∈ xs, x.DivideFits then .ok (Axis.zipped xs) else Run.panic .overflow) ∧
    (∀ ps, List.Forall₂ (fun x p => x.InTiles p ∧ x.InExtent (x.cell p)) xs ps →
      ((Axis.zipped xs).call (.tuple [leaves (ps.map Prod.fst),
        leaves (ps.map Prod.snd)]) : Run ε ℤ)
        = (Axis.layout xs).call (leaves (List.zipWith Axis.cell xs ps))) ∧
    ∀ cs, List.Forall₂ Axis.InExtent xs cs →
      ∃! ps, List.Forall₂ Axis.InTiles xs ps ∧ List.zipWith Axis.cell xs ps = cs :=
  ⟨zippedDivide_axes h2, fun _ => zipped_call, fun _ => existsUnique_pairs⟩

/-- A tail that the tile does not divide, and a tile larger than its mode. -/
theorem zippedDivide_spec_tail :
    zippedDivide ⟨.tuple [.leaf 6, .leaf 4], .tuple [.leaf 1, .leaf 6]⟩ [4, 9] =
      .ok ⟨.tuple [.tuple [.leaf 4, .leaf 9], .tuple [.leaf 2, .leaf 1]],
        .tuple [.tuple [.leaf 1, .leaf 6], .tuple [.leaf 4, .leaf 0]]⟩ :=
  (zippedDivide_spec (ε := Empty) [⟨6, 1, 4, by decide, by decide, by decide, by decide, by decide,
    by decide⟩, ⟨4, 6, 9, by decide, by decide, by decide, by decide, by decide, by decide⟩]
    (by decide)).1

/-- The ceiling division adds the extent and the tile first. -/
theorem zippedDivide_overflows :
    zippedDivide ⟨.tuple [.leaf 2, .leaf 2], .tuple [.leaf 1, .leaf 2]⟩ [9223372036854775807, 2] =
      Run.panic .overflow := by
  decide +kernel

end CudaOxide.Cute
