import CudaOxide.Lib.Digits
import CudaOxide.Lib.GridStride
import CudaOxide.Lib.Results
import CudaOxide.Lib.RowMajor
import CudaOxide.Tile.ValueFacts

/-!
# The schedule of a mapped partition

`for index in partition.iter_indices()` is compiled to a persistent loop over flat tile ids, and the
coordinates of a tile are computed from its id in wrapping 32-bit arithmetic
(`compile_intrinsic.rs`, `compile_expression.rs`).  Stores through such indices go to different
places because no index is minted twice.

* `emitSwizzle2d`, `mappedBids` — the generated arithmetic.
* `compileMappedLoop` — the loop, with the checks of the ranges.
* `emitSwizzle2d_columns` — groups of columns do not change the order of the tiles.
* `mapped_indices_partition` — every index of the ranges is minted once, and no other.
-/

namespace CudaOxide.Tile

open Lib Mir

/-! ### The generated arithmetic -/

/-- An operation on `i32`s. -/
def op (o : TileBinaryOp) (x y : ℤ) : Option ℤ := machineOp MachineType.i32.ty o x y

/-- `emit_swizzle_2d` -/
def emitSwizzle2d (tileId numBidM numBidN swizzleM swizzleN : ℤ) : Option (ℤ × ℤ) :=
  if swizzleM = 1 ∧ swizzleN = 1 then do
    let bidM ← op .div tileId numBidN
    let bidN ← op .rem tileId numBidN
    some (bidM, bidN)
  else if swizzleN = 1 then do
    let numBidInMBand ← op .mul swizzleM numBidN
    let groupMId ← op .div tileId numBidInMBand
    let firstBidM ← op .mul groupMId swizzleM
    let remainingM ← op .sub numBidM firstBidM
    let actualGroupSizeM ← op .min remainingM swizzleM
    let mBandStart ← op .mul groupMId numBidInMBand
    let tileInMBand ← op .sub tileId mBandStart
    let tileInGroupM ← op .rem tileInMBand actualGroupSizeM
    let bidM ← op .add firstBidM tileInGroupM
    let bidN ← op .div tileInMBand actualGroupSizeM
    some (bidM, bidN)
  else do
    let numBidInMBand ← op .mul swizzleM numBidN
    let groupMId ← op .div tileId numBidInMBand
    let firstBidM ← op .mul groupMId swizzleM
    let remainingM ← op .sub numBidM firstBidM
    let actualGroupSizeM ← op .min remainingM swizzleM
    let mBandStart ← op .mul groupMId numBidInMBand
    let tileInMBand ← op .sub tileId mBandStart
    let nGroupCapacity ← op .mul actualGroupSizeM swizzleN
    let groupNId ← op .div tileInMBand nGroupCapacity
    let firstBidN ← op .mul groupNId swizzleN
    let tileInNGroup ← op .rem tileInMBand nGroupCapacity
    let tileInGroupM ← op .rem tileInNGroup actualGroupSizeM
    let bidM ← op .add firstBidM tileInGroupM
    let tileInGroupN ← op .div tileInNGroup actualGroupSizeM
    let bidN ← op .add firstBidN tileInGroupN
    some (bidM, bidN)

/-- The leading axes, the last of them fastest. -/
def leadBids : List ℤ → ℤ → Option (List ℤ)
  | [], _ => some []
  | [_], lead => some [lead]
  | _ :: next :: rest, lead => do
    let stride ← rest.foldlM (op .mul) next
    let bid ← op .div lead stride
    let lead ← op .rem lead stride
    let bids ← leadBids (next :: rest) lead
    some (bid :: bids)

/-- `emit_mapped_partition_schedule`, behind its checks. -/
def mappedBids (numBids mapShape : List ℤ) (tileId : ℤ) : Option (List ℤ) :=
  let rank := mapShape.length
  if rank = 1 then some [tileId]
  else
    match numBids.drop (rank - 2), mapShape.drop (rank - 2) with
    | [numBidM, numBidN], [swizzleM, swizzleN] =>
      if rank = 2 then do
        let mn ← emitSwizzle2d tileId numBidM numBidN swizzleM swizzleN
        some [mn.1, mn.2]
      else do
        let innerTotal ← op .mul numBidM numBidN
        let lead ← op .div tileId innerTotal
        let innerTileId ← op .rem tileId innerTotal
        let bids ← leadBids (numBids.take (rank - 2)) lead
        let mn ← emitSwizzle2d innerTileId numBidM numBidN swizzleM swizzleN
        some (bids ++ [mn.1, mn.2])
    | _, _ => none

/-! ### The loop -/

/-- What the compiler reports. -/
inductive MapError where
  | negativeDim (axis : ℕ) (dim : ℤ)
  | noStreamedAxis
  | rangesWithOwnedAxes
  | rangeCount (rank given : ℕ)
  | leadingDim (axis : ℕ) (dim : ℤ)
  | rankOneDim (dim : ℤ)
  deriving DecidableEq, Repr

/-- The text of an error. -/
def MapError.message : MapError → String
  | negativeDim axis dim =>
    s!"mapped partition map dimensions must be OWNED (0) or positive: axis {axis} is {dim}"
  | noStreamedAxis => "mapped partition requires at least one streamed (non-OWNED) map axis"
  | rangesWithOwnedAxes => "sub-range iteration over a map with OWNED axes is not supported yet"
  | rangeCount rank given =>
    s!"sub-range iteration expects {rank} (start_tile, num_tiles) pairs, got {given}"
  | leadingDim axis dim =>
    "mapped partition schedules group only the trailing two axes: " ++
      s!"leading map axis {axis} must be 1, got {dim}"
  | rankOneDim dim => s!"rank-1 mapped partition maps must be [1], got [{dim}]"

/-- The first axis whose map dimension fails a test. -/
def findDim (bad : ℤ → Bool) (dims : List ℤ) : Option (ℕ × ℤ) :=
  (dims.zipIdx.find? fun d => bad d.1).map fun d => (d.2, d.1)

/-- The checks of `emit_mapped_partition_schedule`. -/
def checkSchedule (mapShape : List ℤ) : Except MapError Unit :=
  match findDim (· ≠ 1) (mapShape.take (mapShape.length - 2)) with
  | some (axis, dim) => .error (.leadingDim axis dim)
  | none =>
    match mapShape with
    | [dim] => if dim ≠ 1 then .error (.rankOneDim dim) else .ok ()
    | _ => .ok ()

/-- A `(start_tile, num_tiles)` pair; the literal `-1` is the rest of the axis. -/
structure AxisRange where
  start : ℤ
  len : Option ℤ
  deriving DecidableEq, Repr

/-- The length of a range that passes its checks.  They are made at compile time where the values
are constants, and by assertions otherwise. -/
def axisLen (numBid : ℤ) (range : AxisRange) : Option ℤ :=
  if range.start < 0 then none
  else
    match range.len with
    | none => if numBid < range.start then none else op .sub numBid range.start
    | some len =>
      if len < 0 then none
      else do
        let gridMinusLen ← op .sub numBid len
        if gridMinusLen < range.start then none else some len

/-- `OWNED_MAP_DIM` -/
def ownedMapDim : ℤ := 0

/-- The entries of the streamed axes. -/
def streamed {α : Type} : List ℤ → List α → List α
  | dim :: dims, x :: xs => if dim ≠ ownedMapDim then x :: streamed dims xs else streamed dims xs
  | _, _ => []

/-- The streamed coordinates between the zeros of the owned axes. -/
def interleave : List ℤ → List ℤ → Option (List ℤ)
  | [], _ => some []
  | dim :: dims, bids =>
    if dim ≠ ownedMapDim then
      match bids with
      | bid :: bids => (interleave dims bids).map (bid :: ·)
      | [] => none
    else (interleave dims bids).map (0 :: ·)

/-- The code of a loop: the number of its trips, and the coordinates of a tile id. -/
structure MappedLoop where
  total : ℤ
  coords : ℤ → Option (List ℤ)

/-- The lengths that the loop computes with. -/
def axisLens (indexSpace : List ℤ) : Option (List AxisRange) → Option (List ℤ)
  | some rs => (List.zipWith axisLen indexSpace rs).mapM id
  | none => some indexSpace

/-- The trips of the loop over the streamed axes. -/
def mappedTiles : List ℤ → Option ℤ
  | [] => none
  | len :: lens => lens.foldlM (op .mul) len

/-- The coordinates of a tile id: streamed axes follow the schedule, and the ranges shift them. -/
def loopCoords (mapShape lens : List ℤ) (ranges : Option (List AxisRange)) (tileId : ℤ) :
    Option (List ℤ) := do
  let bids ← mappedBids (streamed mapShape lens) (streamed mapShape mapShape) tileId
  let bids ← interleave mapShape bids
  match ranges with
  | some rs => (List.zipWith (fun r bid => op .add r.start bid) rs bids).mapM id
  | none => some bids

/-- The code of the loop.  `none` is a failed assertion. -/
def emitMappedLoop (mapShape indexSpace : List ℤ) (ranges : Option (List AxisRange)) :
    Option MappedLoop := do
  let lens ← axisLens indexSpace ranges
  let total ← mappedTiles (streamed mapShape lens)
  some ⟨total, loopCoords mapShape lens ranges⟩

/-- The checks of the map and of the number of ranges. -/
def checkMap (mapShape : List ℤ) (ranges : Option (List AxisRange)) : Except MapError Unit :=
  match findDim (· < 0) mapShape with
  | some (axis, dim) => .error (.negativeDim axis dim)
  | none =>
    if streamed mapShape mapShape = [] then .error .noStreamedAxis
    else
      match ranges with
      | none => checkSchedule (streamed mapShape mapShape)
      | some rs =>
        if ownedMapDim ∈ mapShape then .error .rangesWithOwnedAxes
        else if rs.length ≠ mapShape.length then .error (.rangeCount mapShape.length rs.length)
        else checkSchedule (streamed mapShape mapShape)

/-- `try_compile_mapped_partition_indices_for_loop` -/
def compileMappedLoop (mapShape indexSpace : List ℤ) (ranges : Option (List AxisRange)) :
    Except MapError (Option MappedLoop) :=
  (checkMap mapShape ranges).map fun _ => emitMappedLoop mapShape indexSpace ranges

/-! ### Operations that do not wrap -/

section Operations

variable {a b : ℕ}

/-- A small natural number does not wrap. -/
theorem wrap_natCast (h : a < 2 ^ 31) : MachineType.i32.ty.wrap (a : ℤ) = a :=
  MachineType.wrap_of_holds (t := .i32) ⟨(by decide : (-2 ^ 31 : ℤ) ≤ 0).trans
    (Int.natCast_nonneg a),
    Int.le_sub_one_of_lt (by exact_mod_cast h)⟩

/-- A sum in range does not wrap. -/
theorem op_add (h : a + b < 2 ^ 31) : op .add a b = some ((a + b : ℕ) : ℤ) := by
  rw [← wrap_natCast h, Nat.cast_add]
  rfl

/-- A difference that is not negative does not wrap. -/
theorem op_sub (h : b ≤ a) (ha : a < 2 ^ 31) : op .sub a b = some ((a - b : ℕ) : ℤ) := by
  rw [← wrap_natCast (show a - b < 2 ^ 31 by omega), Nat.cast_sub h]
  rfl

/-- A product in range does not wrap. -/
theorem op_mul (h : a * b < 2 ^ 31) : op .mul a b = some ((a * b : ℕ) : ℤ) := by
  rw [← wrap_natCast h, Nat.cast_mul]
  rfl

/-- The minimum. -/
theorem op_min : op .min a b = some ((min a b : ℕ) : ℤ) := by
  rw [Nat.cast_min]
  rfl

/-- A quotient. -/
theorem op_div (hb : 0 < b) (ha : a < 2 ^ 31) : op .div a b = some ((a / b : ℕ) : ℤ) := by
  have hne : (b : ℤ) ≠ 0 := by exact_mod_cast hb.ne'
  rw [← wrap_natCast ((Nat.div_le_self a b).trans_lt ha)]
  show (if (b : ℤ) = 0 then none else some _) = _
  rw [if_neg hne, Int.natCast_div, Int.tdiv_eq_ediv_of_nonneg (Int.natCast_nonneg a)]

/-- A remainder. -/
theorem op_rem (hb : 0 < b) (ha : a < 2 ^ 31) : op .rem a b = some ((a % b : ℕ) : ℤ) := by
  have hne : (b : ℤ) ≠ 0 := by exact_mod_cast hb.ne'
  rw [← wrap_natCast ((Nat.mod_le a b).trans_lt ha)]
  show (if (b : ℤ) = 0 then none else some _) = _
  rw [if_neg hne, Int.natCast_mod, Int.tmod_eq_emod_of_nonneg (Int.natCast_nonneg a)]

end Operations

/-- A factor may be wrapped. -/
theorem wrap_wrap_mul {ty : IntegerType} {a b : ℤ} :
    ty.wrap (ty.wrap a * b) = ty.wrap (a * b) := by
  unfold IntegerType.wrap
  rw [BitVec.ofInt_mul, IntegerType.ofInt_value, ← BitVec.ofInt_mul]

/-- Going on with a value that is known. -/
theorem bind_of_eq {α β : Type} {x : Option α} {f : α → Option β} {a : α} {out : Option β}
    (hx : x = some a) (h : f a = out) : (x >>= f) = out := by
  subst hx
  exact h

/-! ### Two axes -/

section Swizzle

variable {M N sm sn tile : ℕ}

/-- The part that the orders with bands have in common: the first row of the band, its rows, and the
tile in it. -/
theorem emitBand_eq {β : Type} {k : ℤ → ℤ → ℤ → Option β} {out : Option β} (hM : M * N < 2 ^ 31)
    (htile : tile < M * N) (hsm : 0 < sm) (hband : sm * N < 2 ^ 31)
    (hk : k (tile / (sm * N) * sm : ℕ) (Digits.groupRows sm M (tile / (sm * N) * sm) : ℕ)
      (tile % (sm * N) : ℕ) = out) :
    (do
      let numBidInMBand ← op .mul sm N
      let groupMId ← op .div tile numBidInMBand
      let firstBidM ← op .mul groupMId sm
      let remainingM ← op .sub M firstBidM
      let actualGroupSizeM ← op .min remainingM sm
      let mBandStart ← op .mul groupMId numBidInMBand
      let tileInMBand ← op .sub tile mBandStart
      k firstBidM actualGroupSizeM tileInMBand) = out := by
  have hMpos : 0 < M := Nat.pos_of_ne_zero fun h => by simp [h] at htile
  have hNpos : 0 < N := Nat.pos_of_ne_zero fun h => by simp [h] at htile
  have hMle : M ≤ M * N := Nat.le_mul_of_pos_right M hNpos
  obtain ⟨hfirst, -⟩ := Digits.ragged_rest hsm hNpos htile
  have hstart := Nat.div_mul_le_self tile (sm * N)
  have hrest : tile - tile / (sm * N) * (sm * N) = tile % (sm * N) := (Nat.mod_eq_sub_div_mul).symm
  have hactual : min (M - tile / (sm * N) * sm) sm =
      Digits.groupRows sm M (tile / (sm * N) * sm) := min_comm _ _
  refine bind_of_eq (op_mul hband) <|
    bind_of_eq (op_div (Nat.mul_pos hsm hNpos) (by omega)) <|
    bind_of_eq (op_mul (by omega)) <| bind_of_eq (op_sub hfirst.le (by omega)) <|
    bind_of_eq op_min <| bind_of_eq (op_mul (by omega)) <|
    bind_of_eq (op_sub hstart (by omega)) ?_
  rw [hactual, hrest]
  exact hk

/-- The order of two axes: bands of `sm` rows, each column by column.  Groups of columns do not
change the order. -/
theorem emitSwizzle2d_eq (hM : M * N < 2 ^ 31) (htile : tile < M * N) (hsm : 0 < sm) (hsn : 0 < sn)
    (hband : sm * N < 2 ^ 31) (hgroup : sm * sn < 2 ^ 31) :
    emitSwizzle2d tile M N sm sn = some
      (((Digits.raggedCrd sm M N tile).1 : ℤ), ((Digits.raggedCrd sm M N tile).2 : ℤ)) := by
  have hMpos : 0 < M := Nat.pos_of_ne_zero fun h => by simp [h] at htile
  have hNpos : 0 < N := Nat.pos_of_ne_zero fun h => by simp [h] at htile
  have hMle : M ≤ M * N := Nat.le_mul_of_pos_right M hNpos
  have hNle : N ≤ M * N := Nat.le_mul_of_pos_left N hMpos
  obtain ⟨hfirst, -⟩ := Digits.ragged_rest hsm hNpos htile
  obtain ⟨hrow, hcol⟩ := Digits.raggedCrd_mem hsm hNpos htile
  have hrows := Digits.groupRows_pos hsm hfirst
  have hrows_le : Digits.groupRows sm M (tile / (sm * N) * sm) ≤ sm := min_le_left _ _
  have hrest_le := Nat.mod_le tile (sm * N)
  unfold Digits.raggedCrd at hrow hcol ⊢
  simp only [Set.mem_Iio] at hrow hcol ⊢
  unfold emitSwizzle2d
  split
  · -- one row after the other
    rename_i hone
    obtain rfl : sm = 1 := by exact_mod_cast hone.1
    have hmod : Digits.groupRows 1 M (tile / (1 * N) * 1) = 1 := le_antisymm (min_le_left _ _) hrows
    rw [hmod, Nat.mod_one, Nat.div_one, Nat.one_mul, Nat.mul_one, Nat.add_zero]
    exact bind_of_eq (op_div hNpos (by omega)) (bind_of_eq (op_rem hNpos (by omega)) rfl)
  split
  · refine emitBand_eq hM htile hsm hband (k := fun firstBidM actualGroupSizeM tileInMBand => do
      let tileInGroupM ← op .rem tileInMBand actualGroupSizeM
      let bidM ← op .add firstBidM tileInGroupM
      let bidN ← op .div tileInMBand actualGroupSizeM
      some (bidM, bidN)) ?_
    exact bind_of_eq (op_rem hrows (by omega)) <| bind_of_eq (op_add (by omega)) <|
      bind_of_eq (op_div hrows (by omega)) rfl
  · refine emitBand_eq hM htile hsm hband (k := fun firstBidM actualGroupSizeM tileInMBand => do
      let nGroupCapacity ← op .mul actualGroupSizeM sn
      let groupNId ← op .div tileInMBand nGroupCapacity
      let firstBidN ← op .mul groupNId sn
      let tileInNGroup ← op .rem tileInMBand nGroupCapacity
      let tileInGroupM ← op .rem tileInNGroup actualGroupSizeM
      let bidM ← op .add firstBidM tileInGroupM
      let tileInGroupN ← op .div tileInNGroup actualGroupSizeM
      let bidN ← op .add firstBidN tileInGroupN
      some (bidM, bidN)) ?_
    generalize tile % (sm * N) = rest at *
    generalize tile / (sm * N) * sm = first at *
    generalize Digits.groupRows sm M first = rows at *
    -- a group of columns is a part of the band, so its tiles come in the order of the band
    have hcap : 0 < rows * sn := Nat.mul_pos hrows hsn
    have hcap_lt : rows * sn < 2 ^ 31 := (Nat.mul_le_mul_right sn hrows_le).trans_lt hgroup
    have hmod : rest % (rows * sn) % rows = rest % rows := Nat.mod_mul_right_mod _ _ _
    have hcols : rest / (rows * sn) * sn + rest % (rows * sn) / rows = rest / rows := by
      rw [Nat.mod_mul_right_div_self, ← Nat.div_div_eq_div_mul]
      exact Nat.div_add_mod' _ _
    have hpart : rest / (rows * sn) * sn ≤ rest / rows := hcols ▸ Nat.le_add_right _ _
    have hgroup_le : rest / (rows * sn) * sn < 2 ^ 31 := by omega
    have hin := Nat.mod_le rest (rows * sn)
    refine bind_of_eq (op_mul hcap_lt) <| bind_of_eq (op_div hcap (by omega)) <|
      bind_of_eq (op_mul hgroup_le) <| bind_of_eq (op_rem hcap (by omega)) <|
      bind_of_eq (op_rem hrows (by omega)) <| bind_of_eq (op_add (by omega)) <|
      bind_of_eq (op_div hrows (by omega)) <| bind_of_eq (op_add (by omega)) ?_
    rw [hmod, hcols]

/-- **Groups of columns have no effect**: the order with groups of `sn` columns is the order
without. -/
theorem emitSwizzle2d_columns (hM : M * N < 2 ^ 31) (htile : tile < M * N) (hsm : 0 < sm)
    (hsn : 0 < sn) (hband : sm * N < 2 ^ 31) (hgroup : sm * sn < 2 ^ 31) :
    emitSwizzle2d tile M N sm sn = emitSwizzle2d tile M N sm 1 := by
  have hsm_le : sm ≤ sm * sn := Nat.le_mul_of_pos_right sm hsn
  have hone := emitSwizzle2d_eq hM htile hsm Nat.one_pos hband (by omega)
  rw [emitSwizzle2d_eq hM htile hsm hsn hband hgroup]
  exact hone.symm

/-- The eleventh of 5 × 7 tiles, in bands of two rows and groups of three columns. -/
theorem emitSwizzle2d_columns_banded :
    emitSwizzle2d 11 5 7 2 3 = some (1, 5) ∧
      emitSwizzle2d 11 5 7 2 3 = emitSwizzle2d 11 5 7 2 1 :=
  ⟨by decide, @emitSwizzle2d_columns 5 7 2 3 11 (by decide) (by decide) (by decide) (by decide)
    (by decide) (by decide)⟩

end Swizzle

/-! ### All axes -/

section Axes

open RowMajor

variable {ls lead is : List ℕ} {M N sm sn tile acc : ℕ}

/-- The natural numbers as `i32`s. -/
def ints (ns : List ℕ) : List ℤ := ns.map Nat.cast

/-- A product of extents in range is computed. -/
theorem foldlM_mul (hpos : 0 < ls.prod) (h : acc * ls.prod < 2 ^ 31) :
    (ints ls).foldlM (op .mul) (acc : ℤ) = some ((acc * ls.prod : ℕ) : ℤ) := by
  induction ls generalizing acc with
  | nil => simp [ints]
  | cons l ls ih =>
    rw [List.prod_cons] at hpos h ⊢
    have hrest : 0 < ls.prod := Nat.pos_of_mul_pos_left hpos
    rw [← Nat.mul_assoc] at h ⊢
    have hle : acc * l ≤ acc * l * ls.prod := Nat.le_mul_of_pos_right _ hrest
    exact bind_of_eq (op_mul (by omega)) (ih hrest h)

/-- The leading axes in row-major order. -/
theorem leadBids_eq (h : ls.prod < 2 ^ 31) (htile : tile < ls.prod) :
    leadBids (ints ls) tile = some (ints (unravel ls tile)) := by
  induction ls generalizing tile with
  | nil => rfl
  | cons l ls ih =>
    rw [List.prod_cons] at h htile
    have hpos : 0 < ls.prod := Nat.pos_of_ne_zero fun hzero => by simp [hzero] at htile
    have hl : 0 < l := Nat.pos_of_ne_zero fun hzero => by simp [hzero] at htile
    have hle : ls.prod ≤ l * ls.prod := Nat.le_mul_of_pos_left _ hl
    cases ls with
    | nil => simp [leadBids, ints, unravel]
    | cons next rest =>
      have hrest : 0 < rest.prod := by
        rw [List.prod_cons] at hpos
        exact Nat.pos_of_mul_pos_left hpos
      have hnext : next * rest.prod < 2 ^ 31 := by
        rw [← List.prod_cons]
        omega
      have hstride : (ints rest).foldlM (op .mul) (next : ℤ) =
          some (((next :: rest).prod : ℕ) : ℤ) := by
        rw [List.prod_cons]
        exact foldlM_mul hrest hnext
      exact bind_of_eq hstride <| bind_of_eq (op_div hpos (by omega)) <|
        bind_of_eq (op_rem hpos (by omega)) <|
        bind_of_eq (ih (by omega) (Nat.mod_lt _ hpos)) rfl

/-- An index whose last two axes are set apart. -/
theorem inBox_append_pair : InBox is (lead ++ [M, N]) ↔
    ∃ js m n, is = js ++ [m, n] ∧ InBox js lead ∧ m < M ∧ n < N := by
  constructor
  · intro h
    have hdrop : InBox (is.drop lead.length) [M, N] := List.forall₂_drop_append is lead [M, N] h
    obtain ⟨m, _, hm, hrest, heq⟩ := List.forall₂_cons_right_iff.mp hdrop
    obtain ⟨n, _, hn, hnil, rfl⟩ := List.forall₂_cons_right_iff.mp hrest
    obtain rfl := List.forall₂_nil_right_iff.mp hnil
    exact ⟨is.take lead.length, m, n, by rw [← heq, List.take_append_drop],
      List.forall₂_take_append is lead [M, N] h, hm, hn⟩
  · rintro ⟨js, m, n, rfl, hjs, hm, hn⟩
    exact List.rel_append hjs (.cons hm (.cons hn .nil))

/-- The index of a tile, the last two axes in bands of `sm` rows. -/
def mappedIndex (lead : List ℕ) (M N sm tile : ℕ) : List ℕ :=
  let mn := Digits.raggedCrd sm M N (tile % (M * N))
  unravel lead (tile / (M * N)) ++ [mn.1, mn.2]

/-- The mapped index runs through the box once. -/
theorem mappedIndex_bijOn (lead : List ℕ) (hsm : 0 < sm) :
    Set.BijOn (mappedIndex lead M N sm) (Set.Iio (lead ++ [M, N]).prod)
      {is | InBox is (lead ++ [M, N])} := by
  rcases Nat.eq_zero_or_pos (M * N) with hzero | hpos
  · -- an empty axis: there is neither a tile nor an index
    have hprod : (lead ++ [M, N]).prod = 0 := by simp [hzero]
    have hnone : {is | InBox is (lead ++ [M, N])} = ∅ := by
      rw [Set.eq_empty_iff_forall_notMem]
      rintro _ hmem
      obtain ⟨_, m, n, rfl, -, hm, hn⟩ := inBox_append_pair.mp hmem
      rcases Nat.mul_eq_zero.mp hzero with rfl | rfl
      · exact absurd hm (Nat.not_lt_zero _)
      · exact absurd hn (Nat.not_lt_zero _)
    rw [hprod, hnone]
    simp
  · have hN : 0 < N := Nat.pos_of_mul_pos_left hpos
    have hcrd : Set.BijOn (Digits.raggedCrd sm M N) (Set.Iio (M * N)) (Set.Iio M ×ˢ Set.Iio N) :=
      Digits.raggedCrd_bijOn hsm hN
    have hpair := Digits.bijOn_digits (unravel_bijOn lead) hcrd
    have hjoin : Set.BijOn (fun p : List ℕ × ℕ × ℕ => p.1 ++ [p.2.1, p.2.2])
        ({is | InBox is lead} ×ˢ Set.Iio M ×ˢ Set.Iio N) {is | InBox is (lead ++ [M, N])} := by
      refine ⟨?_, ?_, ?_⟩
      · rintro ⟨js, m, n⟩ ⟨hjs, hm, hn⟩
        exact inBox_append_pair.mpr ⟨js, m, n, rfl, hjs, hm, hn⟩
      · rintro ⟨js, m, n⟩ ⟨hjs, -⟩ ⟨js', m', n'⟩ ⟨hjs', -⟩ heq
        obtain ⟨rfl, hmn⟩ := List.append_inj heq
          ((List.Forall₂.length_eq hjs).trans (List.Forall₂.length_eq hjs').symm)
        simp_all
      · rintro _ hmem
        obtain ⟨js, m, n, rfl, hjs, hm, hn⟩ := inBox_append_pair.mp hmem
        exact ⟨(js, m, n), ⟨hjs, hm, hn⟩, rfl⟩
    have hprod : (lead ++ [M, N]).prod = lead.prod * (M * N) := by simp
    rw [hprod]
    exact hjoin.comp hpair

/-- The block indices of a tile are its mapped index. -/
theorem mappedBids_eq {mlead : List ℤ} (hlen : mlead.length = lead.length)
    (hprod : (lead ++ [M, N]).prod < 2 ^ 31) (htile : tile < (lead ++ [M, N]).prod) (hsm : 0 < sm)
    (hsn : 0 < sn) (hband : sm * N < 2 ^ 31) (hgroup : sm * sn < 2 ^ 31) :
    mappedBids (ints (lead ++ [M, N])) (mlead ++ [(sm : ℤ), (sn : ℤ)]) tile =
      some (ints (mappedIndex lead M N sm tile)) := by
  have hsplit : (lead ++ [M, N]).prod = lead.prod * (M * N) := by simp
  rw [hsplit] at hprod htile
  have hpos : 0 < M * N := Nat.pos_of_ne_zero fun hzero => by simp [hzero] at htile
  have hlead : 0 < lead.prod := Nat.pos_of_ne_zero fun hzero => by simp [hzero] at htile
  have hle : M * N ≤ lead.prod * (M * N) := Nat.le_mul_of_pos_left _ hlead
  have hlead_le : lead.prod ≤ lead.prod * (M * N) := Nat.le_mul_of_pos_right _ hpos
  have hinner : tile % (M * N) < M * N := Nat.mod_lt _ hpos
  have hints : ints (lead ++ [M, N]) = ints lead ++ [(M : ℤ), (N : ℤ)] := by simp [ints]
  have hlen' : (ints lead).length = lead.length := List.length_map _
  have hrank : (mlead ++ [(sm : ℤ), (sn : ℤ)]).length = lead.length + 2 := by simp [hlen]
  have hout : ints (mappedIndex lead M N sm tile) = ints (unravel lead (tile / (M * N))) ++
      [((Digits.raggedCrd sm M N (tile % (M * N))).1 : ℤ),
        ((Digits.raggedCrd sm M N (tile % (M * N))).2 : ℤ)] := by
    simp [ints, mappedIndex]
  unfold mappedBids
  simp only [hrank, Nat.add_sub_cancel, hints, List.drop_left' hlen', List.drop_left' hlen,
    List.take_left' hlen', hout]
  rw [if_neg (by omega)]
  have hmn := emitSwizzle2d_eq (by omega) hinner hsm hsn hband hgroup
  split
  · -- no leading axis
    rename_i hnil
    obtain rfl : lead = [] := List.eq_nil_of_length_eq_zero (by omega)
    have htile' : tile % (M * N) = tile := Nat.mod_eq_of_lt (by simpa using htile)
    rw [htile'] at hmn ⊢
    exact bind_of_eq hmn rfl
  · exact bind_of_eq (op_mul (by omega)) <| bind_of_eq (op_div hpos (by omega)) <|
      bind_of_eq (op_rem hpos (by omega)) <|
      bind_of_eq (leadBids_eq (by omega) (Nat.div_lt_of_lt_mul (by rwa [Nat.mul_comm]))) <|
      bind_of_eq hmn rfl

/-- No product of the schedule leaves the `i32`s. -/
structure Fits (dims lens : List ℤ) : Prop where
  total : lens.prod < 2 ^ 31
  bands : ∀ ds sm sn ms M N, dims = ds ++ [sm, sn] → lens = ms ++ [M, N] →
    sm * N < 2 ^ 31 ∧ sm * sn < 2 ^ 31

/-- A list of two or more ends with two entries. -/
theorem exists_append_pair {α : Type} {xs : List α} (h : 2 ≤ xs.length) :
    ∃ ys a b, xs = ys ++ [a, b] := by
  rcases List.eq_nil_or_concat xs with rfl | ⟨zs, b, rfl⟩
  · cases h
  rcases List.eq_nil_or_concat zs with rfl | ⟨ys, a, rfl⟩
  · simp at h
  · exact ⟨ys, a, b, by simp⟩

/-- **The schedule of the streamed axes** numbers their indices. -/
theorem mappedBids_bijOn {dims : List ℤ} (hlen : dims.length = ls.length) (hne : dims ≠ [])
    (hpos : ∀ d ∈ dims, 0 < d) (hfits : Fits dims (ints ls)) :
    ∃ f : ℕ → List ℕ, Set.BijOn f (Set.Iio ls.prod) {is | InBox is ls} ∧
      ∀ tile < ls.prod, mappedBids (ints ls) dims tile = some (ints (f tile)) := by
  rcases Nat.lt_or_ge dims.length 2 with hlt | hge
  · have hone : dims.length = 1 := by
      have hlength := List.length_pos_iff.mpr hne
      omega
    obtain ⟨l, rfl⟩ := List.length_eq_one_iff.mp (hlen.symm.trans hone)
    refine ⟨unravel [l], unravel_bijOn [l], fun tile _ => ?_⟩
    rw [mappedBids, if_pos hone]
    simp [ints, unravel]
  · obtain ⟨ds, sm, sn, rfl⟩ := exists_append_pair hge
    obtain ⟨lead, M, N, rfl⟩ := exists_append_pair (hlen ▸ hge)
    have hsm : 0 < sm := hpos sm (by simp)
    have hsn : 0 < sn := hpos sn (by simp)
    obtain ⟨hband, hgroup⟩ := hfits.bands ds sm sn (ints lead) M N rfl (by simp [ints])
    have htotal : (lead ++ [M, N]).prod < 2 ^ 31 := by
      have htotal := hfits.total
      rw [ints, ← Nat.cast_list_prod] at htotal
      exact_mod_cast htotal
    lift sm to ℕ using hsm.le
    lift sn to ℕ using hsn.le
    have hsm : 0 < sm := by exact_mod_cast hsm
    refine ⟨mappedIndex lead M N sm, mappedIndex_bijOn lead hsm, fun tile htile => ?_⟩
    exact mappedBids_eq (by simpa using hlen) htotal htile hsm (by exact_mod_cast hsn)
      (by exact_mod_cast hband) (by exact_mod_cast hgroup)

end Axes

/-! ### The selected indices -/

section Selection

open RowMajor

/-- The first tile and the number of tiles of each axis. -/
def selection (indexSpace : List ℤ) : Option (List AxisRange) → List (ℤ × ℤ)
  | none => indexSpace.map fun numBid => (0, numBid)
  | some rs => List.zipWith (fun numBid r => (r.start, r.len.getD (numBid - r.start))) indexSpace rs

/-- The coordinates that the loop should run over: those of the ranges, and zero on owned axes. -/
def Selected : List ℤ → List (ℤ × ℤ) → List ℤ → Prop
  | dim :: dims, r :: rs, c :: cs =>
    (if dim = ownedMapDim then c = 0 else r.1 ≤ c ∧ c < r.1 + r.2) ∧ Selected dims rs cs
  | [], [], [] => True
  | _, _, _ => False

/-- The coordinates of an index of the streamed axes. -/
def place : List ℤ → List (ℤ × ℤ) → List ℕ → List ℤ
  | dim :: dims, r :: rs, is =>
    if dim = ownedMapDim then 0 :: place dims rs is
    else
      match is with
      | i :: is => (r.1 + i) :: place dims rs is
      | [] => []
  | _, _, _ => []

variable {dim : ℤ} {dims : List ℤ} {r : ℤ × ℤ} {rs : List (ℤ × ℤ)} {i : ℕ} {is js : List ℕ}
  {cs : List ℤ}

/-- An owned axis is placed at 0. -/
theorem place_owned (h : dim = ownedMapDim) :
    place (dim :: dims) (r :: rs) is = 0 :: place dims rs is := by
  simp only [place, h, if_true]

/-- A streamed axis is placed behind its start. -/
theorem place_streamed (h : dim ≠ ownedMapDim) :
    place (dim :: dims) (r :: rs) (i :: is) = (r.1 + i) :: place dims rs is := by
  simp only [place, h, if_false]

/-- The extents of the streamed axes. -/
def extents (dims : List ℤ) (rs : List (ℤ × ℤ)) : List ℕ :=
  streamed dims (rs.map fun r => r.2.toNat)

/-- What is placed is selected. -/
theorem selected_place (hlen : rs.length = dims.length) (h : InBox is (extents dims rs)) :
    Selected dims rs (place dims rs is) := by
  induction dims generalizing rs is with
  | nil =>
    obtain rfl := List.eq_nil_of_length_eq_zero hlen
    trivial
  | cons dim dims ih =>
    obtain _ | ⟨r, rs⟩ := rs
    · cases hlen
    rw [extents, List.map_cons, streamed] at h
    by_cases howned : dim = ownedMapDim
    · rw [if_neg (not_not.mpr howned)] at h
      rw [place_owned howned]
      exact ⟨by rw [if_pos howned], ih (by simpa using hlen) h⟩
    · rw [if_pos howned] at h
      obtain ⟨i, is, hi, hrest, rfl⟩ := List.forall₂_cons_right_iff.mp h
      rw [place_streamed howned]
      refine ⟨?_, ih (by simpa using hlen) hrest⟩
      rw [if_neg howned]
      omega

/-- What is selected is placed. -/
theorem exists_place (h : Selected dims rs cs) :
    ∃ is, InBox is (extents dims rs) ∧ place dims rs is = cs := by
  induction dims generalizing rs cs with
  | nil =>
    obtain _ | ⟨r, rs⟩ := rs <;> obtain _ | ⟨c, cs⟩ := cs <;> try exact h.elim
    exact ⟨[], .nil, rfl⟩
  | cons dim dims ih =>
    obtain _ | ⟨r, rs⟩ := rs <;> obtain _ | ⟨c, cs⟩ := cs <;> try exact h.elim
    obtain ⟨hc, hrest⟩ := h
    obtain ⟨is, his, rfl⟩ := ih hrest
    by_cases howned : dim = ownedMapDim
    · rw [if_pos howned] at hc
      refine ⟨is, ?_, ?_⟩
      · rw [extents, List.map_cons, streamed, if_neg (not_not.mpr howned)]
        exact his
      · rw [place_owned howned, hc]
    · rw [if_neg howned] at hc
      refine ⟨(c - r.1).toNat :: is, ?_, ?_⟩
      · rw [extents, List.map_cons, streamed, if_pos howned]
        exact .cons (by omega) his
      · rw [place_streamed howned, Int.toNat_of_nonneg (by omega), add_sub_cancel]

/-- Placing is injective. -/
theorem place_inj (hi : InBox is (extents dims rs)) (hj : InBox js (extents dims rs))
    (hlen : rs.length = dims.length) (h : place dims rs is = place dims rs js) : is = js := by
  induction dims generalizing rs is js with
  | nil =>
    obtain rfl := List.forall₂_nil_right_iff.mp (show InBox is [] from hi)
    exact (List.forall₂_nil_right_iff.mp (show InBox js [] from hj)).symm
  | cons dim dims ih =>
    obtain _ | ⟨r, rs⟩ := rs
    · cases hlen
    rw [extents, List.map_cons, streamed] at hi hj
    by_cases howned : dim = ownedMapDim
    · rw [if_neg (not_not.mpr howned)] at hi hj
      rw [place_owned howned, place_owned howned, List.cons.injEq] at h
      exact ih hi hj (by simpa using hlen) h.2
    · rw [if_pos howned] at hi hj
      obtain ⟨i, is, -, his, rfl⟩ := List.forall₂_cons_right_iff.mp hi
      obtain ⟨j, js, -, hjs, rfl⟩ := List.forall₂_cons_right_iff.mp hj
      rw [place_streamed howned, place_streamed howned, List.cons.injEq] at h
      obtain rfl : i = j := by
        have heq := h.1
        omega
      rw [ih his hjs (by simpa using hlen) h.2]

end Selection

/-! ### The compiled loop -/

section Loop

open RowMajor

variable {mapShape indexSpace : List ℤ} {ranges : Option (List AxisRange)} {loop : MappedLoop}

/-- What a range that passes its checks selects. -/
theorem axisLen_eq_some {numBid len : ℤ} {r : AxisRange} (hnum : 0 ≤ numBid ∧ numBid < 2 ^ 31)
    (hr : ∀ l, r.len = some l → l < 2 ^ 31) (h : axisLen numBid r = some len) :
    0 ≤ r.start ∧ 0 ≤ len ∧ r.start + len ≤ numBid ∧ len = r.len.getD (numBid - r.start) := by
  unfold axisLen at h
  split at h
  · cases h
  rename_i hstart
  have hstart : 0 ≤ r.start := not_lt.mp hstart
  have hsub : ∀ x, 0 ≤ x → x < 2 ^ 31 → op .sub numBid x = some (numBid - x) := by
    intro x hx hx'
    refine congrArg some (MachineType.wrap_of_holds (t := .i32) ?_)
    show (-2 ^ 31 : ℤ) ≤ _ ∧ _ ≤ (2 ^ 31 - 1 : ℤ)
    omega
  cases hlen : r.len with
  | none =>
    simp only [hlen] at h
    split at h
    · cases h
    · rw [hsub _ hstart (by omega), Option.some.injEq] at h
      subst h
      exact ⟨hstart, by omega, by omega, rfl⟩
  | some l =>
    simp only [hlen] at h
    split at h
    · cases h
    rw [hsub l (by omega) (hr l hlen)] at h
    have h : (if numBid - l < r.start then none else some l) = some len := h
    split at h
    · cases h
    · cases h
      exact ⟨hstart, by omega, by omega, rfl⟩

/-- No bad dimension was found. -/
theorem findDim_eq_none {bad : ℤ → Bool} {ds : List ℤ} (h : findDim bad ds = none) :
    ∀ d ∈ ds, bad d = false := by
  intro d hd
  obtain ⟨k, hk, rfl⟩ := List.mem_iff_getElem.mp hd
  have hnone := List.find?_eq_none.mp (Option.map_eq_none_iff.mp h) (ds[k], k)
    (List.mk_mem_zipIdx_iff_getElem?.mpr (List.getElem?_eq_getElem hk))
  simpa using hnone

/-- What the checks of a map say. -/
theorem checkMap_eq_ok (h : checkMap mapShape ranges = .ok ()) :
    (∀ dim ∈ mapShape, 0 ≤ dim) ∧ streamed mapShape mapShape ≠ [] ∧
      ∀ rs, ranges = some rs → ownedMapDim ∉ mapShape ∧ rs.length = mapShape.length := by
  unfold checkMap at h
  cases hdim : findDim (· < 0) mapShape with
  | some d => simp [hdim] at h
  | none =>
    simp only [hdim] at h
    split at h
    · cases h
    rename_i hne
    refine ⟨fun dim hd => ?_, hne, ?_⟩
    · simpa using findDim_eq_none hdim dim hd
    · rintro rs rfl
      simp only at h
      split at h
      · cases h
      split at h
      · cases h
      rename_i howned hlen
      exact ⟨howned, not_not.mp hlen⟩

/-- A list of successes. -/
theorem mapM_id_eq_some {α : Type} {xs : List (Option α)} {ys : List α} :
    xs.mapM id = some ys ↔ xs = ys.map some := by
  induction xs generalizing ys with
  | nil => cases ys <;> simp
  | cons x xs ih =>
    rw [List.mapM_cons]
    constructor
    · intro h
      obtain ⟨y, hx, hrest⟩ := Option.bind_eq_some_iff.mp h
      obtain ⟨zs, hzs, hys⟩ := Option.bind_eq_some_iff.mp hrest
      obtain rfl := Option.some.inj hys
      rw [ih.mp hzs, List.map_cons, ← hx]
      rfl
    · intro h
      obtain _ | ⟨y, ys⟩ := ys
      · cases h
      obtain ⟨rfl, hxs⟩ := List.cons.inj h
      exact bind_of_eq rfl (bind_of_eq (ih.mpr hxs) rfl)

/-- An axis whose range passes its checks: it starts in the grid and ends there. -/
def Within (numBid : ℤ) (r : ℤ × ℤ) : Prop := 0 ≤ r.1 ∧ 0 ≤ r.2 ∧ r.1 + r.2 ≤ numBid

/-- The checked lengths are those of the selection. -/
theorem axisLens_eq_some {lens : List ℤ} (hspace : ∀ n ∈ indexSpace, 0 ≤ n ∧ n < 2 ^ 31)
    (hlength : ∀ rs, ranges = some rs → rs.length = indexSpace.length)
    (hranges : ∀ rs, ranges = some rs → ∀ r ∈ rs, ∀ l, r.len = some l → l < 2 ^ 31)
    (h : axisLens indexSpace ranges = some lens) :
    lens = (selection indexSpace ranges).map Prod.snd ∧
      List.Forall₂ Within indexSpace (selection indexSpace ranges) := by
  cases ranges with
  | none =>
    obtain rfl : indexSpace = lens := Option.some.inj h
    refine ⟨by simp [selection], ?_⟩
    rw [selection, List.forall₂_map_right_iff, List.forall₂_same]
    exact fun n hn => ⟨le_rfl, (hspace n hn).1, (zero_add n).le⟩
  | some rs =>
    have h := mapM_id_eq_some.mp h
    have hlength := hlength rs rfl
    have hranges := hranges rs rfl
    rw [selection]
    clear * - h hlength hranges hspace
    induction indexSpace generalizing rs lens with
    | nil =>
      obtain rfl : lens = [] := by simpa using h.symm
      exact ⟨rfl, .nil⟩
    | cons n ns ih =>
      obtain _ | ⟨r, rs⟩ := rs
      · cases hlength
      obtain _ | ⟨l, lens⟩ := lens
      · cases h
      obtain ⟨hl, hrest⟩ := List.cons.inj h
      obtain ⟨hn, hspace⟩ := List.forall_mem_cons.mp hspace
      obtain ⟨hr, hranges⟩ := List.forall_mem_cons.mp hranges
      obtain ⟨rfl, hwithin⟩ := ih hspace rs hrest (by simpa using hlength) hranges
      obtain ⟨hstart, hlen, hend, heq⟩ := axisLen_eq_some hn hr hl
      refine ⟨by rw [List.zipWith_cons_cons, List.map_cons, heq], .cons ?_ hwithin⟩
      rw [heq] at hlen hend
      exact ⟨hstart, hlen, hend⟩

variable {dims : List ℤ} {sel : List (ℤ × ℤ)} {is : List ℕ}

/-- An owned axis has index 0. -/
theorem interleave_owned {dim : ℤ} {bids : List ℤ} (h : dim = ownedMapDim) :
    interleave (dim :: dims) bids = (interleave dims bids).map (0 :: ·) := by
  simp only [interleave, h, ne_eq, not_true_eq_false, if_false]

/-- A streamed axis takes the next block index. -/
theorem interleave_streamed {dim bid : ℤ} {bids : List ℤ} (h : dim ≠ ownedMapDim) :
    interleave (dim :: dims) (bid :: bids) = (interleave dims bids).map (bid :: ·) := by
  simp only [interleave, h, ne_eq, not_false_eq_true, if_true]

/-- Owned axes are given the coordinate zero. -/
theorem interleave_eq (hlen : sel.length = dims.length) (hzero : ∀ r ∈ sel, r.1 = 0)
    (h : InBox is (extents dims sel)) : interleave dims (ints is) = some (place dims sel is) := by
  induction dims generalizing sel is with
  | nil => rfl
  | cons dim dims ih =>
    obtain _ | ⟨r, sel⟩ := sel
    · cases hlen
    obtain ⟨hr, hzero⟩ := List.forall_mem_cons.mp hzero
    rw [extents, List.map_cons, streamed] at h
    by_cases howned : dim = ownedMapDim
    · rw [if_neg (not_not.mpr howned)] at h
      rw [place_owned howned, interleave_owned howned, ih (by simpa using hlen) hzero h,
        Option.map_some]
    · rw [if_pos howned] at h
      obtain ⟨i, is, -, his, rfl⟩ := List.forall₂_cons_right_iff.mp h
      rw [place_streamed howned, hr, zero_add]
      show interleave (dim :: dims) ((i : ℤ) :: ints is) = _
      rw [interleave_streamed howned, ih (by simpa using hlen) hzero his, Option.map_some]

/-- The starts are added to the coordinates. -/
theorem zipWith_add_eq {space : List ℤ} (howned : ownedMapDim ∉ dims)
    (hlen : sel.length = dims.length)
    (hspace : ∀ n ∈ space, n < 2 ^ 31) (hwithin : List.Forall₂ Within space sel)
    (h : InBox is (extents dims sel)) :
    List.zipWith (op .add) (sel.map Prod.fst) (place dims (sel.map fun r => (0, r.2)) is) =
      (place dims sel is).map some := by
  induction dims generalizing sel is space with
  | nil => simp [place]
  | cons dim dims ih =>
    obtain _ | ⟨r, sel⟩ := sel
    · cases hlen
    have hdim : dim ≠ ownedMapDim := (List.ne_of_not_mem_cons howned).symm
    have howned := List.not_mem_of_not_mem_cons howned
    obtain ⟨n, space, ⟨hstart, hpos, hend⟩, hrest, rfl⟩ := List.forall₂_cons_right_iff.mp hwithin
    obtain ⟨hn, hspace⟩ := List.forall_mem_cons.mp hspace
    rw [extents, List.map_cons, streamed, if_pos hdim] at h
    obtain ⟨i, is, hi, his, rfl⟩ := List.forall₂_cons_right_iff.mp h
    rw [List.map_cons, List.map_cons, place_streamed hdim, place_streamed hdim,
      List.zipWith_cons_cons, List.map_cons, ih howned (by simpa using hlen) hspace hrest his]
    congr 1
    show op .add r.1 (0 + (i : ℤ)) = _
    rw [zero_add]
    refine congrArg some (MachineType.wrap_of_holds (t := .i32) ?_)
    show (-2 ^ 31 : ℤ) ≤ _ ∧ _ ≤ (2 ^ 31 - 1 : ℤ)
    omega

/-- The products may wrap on the way to a total that fits. -/
theorem foldlM_wrap (acc : ℤ) (lens : List ℤ) :
    lens.foldlM (op .mul) (MachineType.i32.ty.wrap acc) =
      some (MachineType.i32.ty.wrap (acc * lens.prod)) := by
  induction lens generalizing acc with
  | nil =>
    rw [List.prod_nil, mul_one]
    rfl
  | cons len lens ih =>
    refine bind_of_eq (a := MachineType.i32.ty.wrap (acc * len)) ?_ ?_
    · exact congrArg some wrap_wrap_mul
    · rw [ih, List.prod_cons, mul_assoc]

/-- The number of mapped tiles. -/
theorem mappedTiles_eq {ls : List ℕ} (hne : ls ≠ []) (hle : ∀ l ∈ ls, l < 2 ^ 31)
    (h : ls.prod < 2 ^ 31) : mappedTiles (ints ls) = some (ls.prod : ℤ) := by
  obtain ⟨l, ls, rfl⟩ := List.exists_cons_of_ne_nil hne
  have hl : MachineType.i32.ty.wrap (l : ℤ) = l := wrap_natCast (hle l (by simp))
  show (ints ls).foldlM (op .mul) (l : ℤ) = _
  have hprod : (l : ℤ) * (ints ls).prod = ((l :: ls).prod : ℕ) := by
    rw [List.prod_cons, Nat.cast_mul, Nat.cast_list_prod]
    rfl
  rw [← hl, foldlM_wrap, hprod, wrap_natCast h]

/-- The extents of a selection are in range. -/
theorem extents_lt {space : List ℤ} (hspace : ∀ n ∈ space, n < 2 ^ 31)
    (hwithin : List.Forall₂ Within space sel) : ∀ l ∈ extents dims sel, l < 2 ^ 31 := by
  induction dims generalizing sel space with
  | nil => simp [extents, streamed]
  | cons dim dims ih =>
    obtain _ | ⟨r, sel⟩ := sel
    · simp [extents, streamed]
    obtain ⟨n, space, ⟨hstart, hpos, hend⟩, hrest, rfl⟩ := List.forall₂_cons_right_iff.mp hwithin
    obtain ⟨hn, hspace⟩ := List.forall_mem_cons.mp hspace
    have hall := ih hspace hrest
    rw [extents, List.map_cons, streamed]
    split
    · exact List.forall_mem_cons.mpr ⟨by omega, hall⟩
    · exact hall

/-- The lengths are natural numbers. -/
theorem ints_extents {space : List ℤ} (hwithin : List.Forall₂ Within space sel) :
    ints (extents dims sel) = streamed dims (sel.map Prod.snd) := by
  induction dims generalizing sel space with
  | nil => simp [extents, streamed, ints]
  | cons dim dims ih =>
    obtain _ | ⟨r, sel⟩ := sel
    · simp [extents, streamed, ints]
    obtain ⟨n, space, ⟨-, hpos, -⟩, hrest, rfl⟩ := List.forall₂_cons_right_iff.mp hwithin
    rw [extents, List.map_cons, List.map_cons, streamed, streamed]
    split
    · rw [← ih hrest]
      show ((r.2.toNat : ℤ)) :: ints (extents dims sel) = _
      rw [Int.toNat_of_nonneg hpos]
    · exact ih hrest

/-- Streaming keeps lengths equal. -/
theorem length_streamed {α β : Type} {xs : List α} {ys : List β} (hx : xs.length = dims.length)
    (hy : ys.length = dims.length) : (streamed dims xs).length = (streamed dims ys).length := by
  induction dims generalizing xs ys with
  | nil => rfl
  | cons dim dims ih =>
    obtain _ | ⟨x, xs⟩ := xs
    · cases hx
    obtain _ | ⟨y, ys⟩ := ys
    · cases hy
    have hrest : (streamed dims xs).length = (streamed dims ys).length :=
      ih (by simpa using hx) (by simpa using hy)
    rw [streamed, streamed]
    split
    · rw [List.length_cons, List.length_cons, hrest]
    · exact hrest

/-- Streamed dimensions are positive. -/
theorem pos_of_mem_streamed (hnonneg : ∀ dim ∈ dims, 0 ≤ dim) :
    ∀ d ∈ streamed dims dims, 0 < d := by
  induction dims with
  | nil => simp [streamed]
  | cons dim dims ih =>
    obtain ⟨hdim, hnonneg⟩ := List.forall_mem_cons.mp hnonneg
    rw [streamed]
    split
    · rename_i hne
      exact List.forall_mem_cons.mpr ⟨lt_of_le_of_ne hdim (Ne.symm hne), ih hnonneg⟩
    · exact ih hnonneg

/-- A selection has one range for each axis. -/
theorem length_selection (hlen : indexSpace.length = dims.length)
    (hlength : ∀ rs, ranges = some rs → rs.length = dims.length) :
    (selection indexSpace ranges).length = dims.length := by
  cases ranges with
  | none => rw [selection, List.length_map, hlen]
  | some rs => rw [selection, List.length_zipWith, hlen, hlength rs rfl, min_self]

/-- The coordinates of a tile: its index among the streamed axes, put in place. -/
theorem loopCoords_eq {lens : List ℤ} {tile : ℕ} (hlen : indexSpace.length = mapShape.length)
    (hspace : ∀ n ∈ indexSpace, n < 2 ^ 31)
    (howned : ∀ rs, ranges = some rs → ownedMapDim ∉ mapShape ∧ rs.length = mapShape.length)
    (hwithin : List.Forall₂ Within indexSpace (selection indexSpace ranges))
    (hbids : mappedBids (streamed mapShape lens) (streamed mapShape mapShape) tile = some (ints is))
    (his : InBox is (extents mapShape (selection indexSpace ranges))) :
    loopCoords mapShape lens ranges tile =
      some (place mapShape (selection indexSpace ranges) is) := by
  cases ranges with
  | none =>
    refine bind_of_eq hbids (bind_of_eq (interleave_eq ?_ ?_ his) rfl)
    · simpa [selection] using hlen
    · simp [selection]
  | some rs =>
    obtain ⟨hnot, hrs⟩ := howned rs rfl
    have hsel : (selection indexSpace (some rs)).length = mapShape.length :=
      length_selection hlen fun _ h => Option.some.inj h ▸ hrs
    have hstarts : (selection indexSpace (some rs)).map Prod.fst = rs.map AxisRange.start := by
      have hsnd : (indexSpace.zip rs).map Prod.snd = rs := List.map_snd_zip (by omega)
      rw [selection, List.map_zipWith, ← List.map_uncurry_zip_eq_zipWith]
      conv_rhs => rw [← hsnd, List.map_map]
      rfl
    have hzeros : extents mapShape ((selection indexSpace (some rs)).map fun r => (0, r.2)) =
        extents mapShape (selection indexSpace (some rs)) := by
      simp [extents, Function.comp_def]
    refine bind_of_eq hbids (bind_of_eq (interleave_eq (by simpa using hsel) ?_ (hzeros ▸ his)) ?_)
    · intro r hr
      obtain ⟨_, -, rfl⟩ := List.mem_map.mp hr
      rfl
    show (List.zipWith _ rs _).mapM id = _
    rw [mapM_id_eq_some, ← zipWith_add_eq hnot hsel hspace hwithin his, hstarts,
      List.zipWith_map_left]

/-- **The indices of a mapped partition.**  A loop that compiles, and whose checks of the ranges
pass, mints every selected index exactly once, whatever the number of tile blocks that share the
tiles: in one trip of one block.  It mints no other index, and all of them are tiles of the grid. -/
theorem mapped_indices_partition {W : ℕ}
    (hcompile : compileMappedLoop mapShape indexSpace ranges = .ok (some loop))
    (hlen : indexSpace.length = mapShape.length) (hspace : ∀ n ∈ indexSpace, 0 ≤ n ∧ n < 2 ^ 31)
    (hranges : ∀ rs, ranges = some rs → ∀ r ∈ rs, ∀ l, r.len = some l → l < 2 ^ 31)
    (hfits : Fits (streamed mapShape mapShape)
      (streamed mapShape ((selection indexSpace ranges).map Prod.snd))) (hW : 0 < W) :
    (∀ coords, Selected mapShape (selection indexSpace ranges) coords →
      ∃! trip : ℕ × ℕ, trip.1 < W ∧ ∃ tile : ℕ,
        (visits loop.total.toNat W trip.1)[trip.2]? = some tile ∧ loop.coords tile = some coords) ∧
      (∀ tile : ℕ, (tile : ℤ) < loop.total → ∃ coords, loop.coords tile = some coords ∧
        Selected mapShape (selection indexSpace ranges) coords) ∧
      List.Forall₂ Within indexSpace (selection indexSpace ranges) := by
  obtain ⟨_, hcheck, hemit⟩ := Results.map_eq_ok.mp hcompile
  obtain ⟨hnonneg, hne, howned⟩ := checkMap_eq_ok hcheck
  obtain ⟨lens, hlens, hemit⟩ := Option.bind_eq_some_iff.mp hemit
  obtain ⟨total, htotal, hemit⟩ := Option.bind_eq_some_iff.mp hemit
  obtain rfl := Option.some.inj hemit
  have hlength : ∀ rs, ranges = some rs → rs.length = indexSpace.length := fun rs hrs =>
    (howned rs hrs).2.trans hlen.symm
  obtain ⟨rfl, hwithin⟩ := axisLens_eq_some hspace hlength hranges hlens
  have hlt : ∀ n ∈ indexSpace, n < 2 ^ 31 := fun n hn => (hspace n hn).2
  have hsel : (selection indexSpace ranges).length = mapShape.length :=
    length_selection hlen fun rs hrs => (howned rs hrs).2
  -- the streamed axes, their lengths as natural numbers
  set sel := selection indexSpace ranges with hselDef
  set ls := extents mapShape sel with hls
  have hints : ints ls = streamed mapShape (sel.map Prod.snd) := ints_extents hwithin
  have hlsLength : (streamed mapShape mapShape).length = ls.length :=
    length_streamed rfl (by rw [List.length_map, hsel])
  have hlsne : ls ≠ [] := by
    rintro hnil
    rw [hnil, List.length_nil, List.length_eq_zero_iff] at hlsLength
    exact hne hlsLength
  rw [← hints] at hfits htotal
  have hprod : ls.prod < 2 ^ 31 := by
    have hprod := hfits.total
    rw [ints, ← Nat.cast_list_prod] at hprod
    exact_mod_cast hprod
  obtain rfl : (ls.prod : ℤ) = total := by
    have heq := mappedTiles_eq hlsne (extents_lt hlt hwithin) hprod
    exact Option.some.inj (heq.symm.trans htotal)
  obtain ⟨f, hbij, hf⟩ := mappedBids_bijOn hlsLength hne (pos_of_mem_streamed hnonneg) hfits
  have hcoords : ∀ tile < ls.prod,
      loopCoords mapShape (sel.map Prod.snd) ranges tile = some (place mapShape sel (f tile)) := by
    intro tile htile
    refine loopCoords_eq hlen hlt howned hwithin ?_ (hbij.mapsTo htile)
    rw [← hints]
    exact hf tile htile
  refine ⟨fun coords hcoords_sel => ?_, fun tile htile => ?_, hwithin⟩
  · obtain ⟨is, his, rfl⟩ := exists_place hcoords_sel
    obtain ⟨tile, htile, rfl⟩ := hbij.surjOn his
    obtain ⟨trip, ⟨htrip, hvisit⟩, huniq⟩ := existsUnique_visit hW htile
    refine ⟨trip, ⟨htrip, tile, hvisit, hcoords tile htile⟩, ?_⟩
    rintro trip' ⟨htrip', tile', hvisit', htile'⟩
    have hlt' : tile' < ls.prod := ((getElem?_visits hW).mp hvisit').2
    have heq := place_inj (hbij.mapsTo hlt') his hsel
      (Option.some.inj ((hcoords tile' hlt').symm.trans htile'))
    rw [hbij.injOn hlt' htile heq] at hvisit'
    exact huniq trip' ⟨htrip', hvisit'⟩
  · have hlt' : tile < ls.prod := Int.ofNat_lt.mp htile
    exact ⟨_, hcoords tile hlt', selected_place hsel (hbij.mapsTo hlt')⟩

/-- The ranges for two streamed axes. -/
theorem fits_pair {sm sn M N : ℤ} (htotal : M * N < 2 ^ 31) (hband : sm * N < 2 ^ 31)
    (hgroup : sm * sn < 2 ^ 31) : Fits [sm, sn] [M, N] where
  total := by simpa using htotal
  bands := by
    intro ds sm' sn' ms M' N' hdims hlens
    have hdims := congrArg List.reverse hdims
    have hlens := congrArg List.reverse hlens
    simp only [List.reverse_append, List.reverse_cons, List.reverse_nil, List.nil_append,
      List.cons_append, List.cons.injEq] at hdims hlens
    obtain ⟨rfl, rfl, -⟩ := hdims
    obtain ⟨rfl, rfl, -⟩ := hlens
    exact ⟨hband, hgroup⟩

/-- An owned axis, and two that are streamed in bands of two rows: three tile blocks share the 35
tiles. -/
theorem mapped_indices_partition_banded :
    compileMappedLoop [0, 2, 3] [4, 5, 7] none =
        .ok (some ⟨35, loopCoords [0, 2, 3] [4, 5, 7] none⟩) ∧
      ∃! trip : ℕ × ℕ, trip.1 < 3 ∧ ∃ tile : ℕ, (visits 35 3 trip.1)[trip.2]? = some tile ∧
        loopCoords [0, 2, 3] [4, 5, 7] none tile = some [0, 4, 6] :=
  ⟨rfl, (@mapped_indices_partition [0, 2, 3] [4, 5, 7] none
    ⟨35, loopCoords [0, 2, 3] [4, 5, 7] none⟩ 3 rfl rfl (by decide) (fun _ h => by cases h)
    (fits_pair (by decide) (by decide) (by decide)) (by decide)).1 [0, 4, 6]
    (by simp [Selected, selection, ownedMapDim])⟩

end Loop

end CudaOxide.Tile
