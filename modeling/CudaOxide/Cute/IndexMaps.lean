import CudaOxide.Lib.Bytes
import CudaOxide.Lib.Digits
import CudaOxide.Lib.Word

namespace CudaOxide.Cute

open Lib Digits

/-!
# Index maps without a layout

`layout.rs` evaluates a few fixed layouts by divisions and remainders on machine words.

* `idx2crdGrouped2d_bijOn` — the grouped tile order visits every tile of the grid once.
* `sm1xxBlockScale_spec` — the bytes of the block scales, and
* `sm100Burst_spec` — the words of a burst: each fills an interval, and no operation overflows.
-/

variable {ε : Type}

/-! ### The machine functions -/

/-- `idx2crd_col_major_2d` -/
def idx2crdColMajor2d (idx rows : ℕ) : ℕ × ℕ :=
  if rows = 0 then (0, 0) else (idx % rows, idx / rows)

/-- `GROUP_M` is a compile-time constant, and so is the assertion on it. -/
def idx2crdGrouped2d (GROUP_M tile mTiles nTiles : ℕ) : Run ε (ℕ × ℕ) := do
  Run.assert (0 < GROUP_M)
  let groupM := if GROUP_M ≤ mTiles then GROUP_M else mTiles
  let groupTiles ← Word.U32.mul groupM nTiles
  let unpacked := idx2crdColMajor2d tile groupTiles
  let firstM ← Word.U32.mul unpacked.2 groupM
  let remM ← Word.U32.sub mTiles firstM
  let actualM := if groupM ≤ remM then groupM else remM
  let inGroup := idx2crdColMajor2d unpacked.1 actualM
  let mTile ← Word.U32.add firstM inGroup.1
  .ok (mTile, inGroup.2)

/-- `crd2idx_row_major_2d` -/
def crd2idxRowMajor2d (row col cols : ℕ) : Run ε ℕ := do
  let line ← Usize.mul row cols
  Usize.add line col

/-- `crd2idx_row_major_3d` -/
def crd2idxRowMajor3d (i0 i1 i2 d1 d2 : ℕ) : Run ε ℕ := do
  let plane ← Usize.mul i0 d1
  let line ← Usize.add plane i1
  let lines ← Usize.mul line d2
  Usize.add lines i2

/-- `x as u32` -/
def asU32 (x : ℕ) : ℕ := x % 2 ^ 32

/-- `sm1xx_scale_atom_word_offset` -/
def sm1xxScaleAtomWordOffset (row : ℕ) : Run ε ℕ :=
  let quarters := idx2crdColMajor2d (asU32 (row % 128)) 32
  crd2idxRowMajor2d quarters.1 quarters.2 4

/-- `sm1xx_block_scale_crd2idx` -/
def sm1xxBlockScaleCrd2idx (batch row group restM restK : ℕ) : Run ε ℕ := do
  let rows := idx2crdColMajor2d (asU32 row) 128
  let groups := idx2crdColMajor2d (asU32 group) 4
  let atomIdx ← crd2idxRowMajor3d batch rows.2 groups.2 restM restK
  let wordInAtom ← sm1xxScaleAtomWordOffset rows.1
  let byteInAtom ← crd2idxRowMajor2d wordInAtom groups.1 4
  crd2idxRowMajor2d atomIdx byteInAtom 512

/-- `sm100_noswizzle_burst_u64_crd2idx` -/
def sm100NoswizzleBurstU64Crd2idx (ROWS groupBatch rowInTile scaleGroup kBursts : ℕ) :
    Run ε ℕ := do
  let bursts := idx2crdColMajor2d (asU32 scaleGroup) 32
  let words := idx2crdColMajor2d bursts.1 2
  let steps := idx2crdColMajor2d words.2 2
  let burstIdx ← crd2idxRowMajor2d groupBatch bursts.2 kBursts
  let stepStride ← Usize.mul ROWS 4
  let stepPart ← Usize.mul steps.2 stepStride
  let halfStride ← Usize.mul ROWS 2
  let halfPart ← Usize.mul steps.1 halfStride
  let planes ← Usize.add stepPart halfPart
  let rowPart ← Usize.mul rowInTile 2
  let lines ← Usize.add planes rowPart
  let subU64 ← Usize.add lines words.1
  let burstStride ← Usize.mul ROWS 32
  crd2idxRowMajor2d burstIdx subU64 burstStride

/-- A coordinate in columns of a positive height. -/
theorem idx2crdColMajor2d_of_pos {idx rows : ℕ} (h : 0 < rows) :
    idx2crdColMajor2d idx rows = (idx % rows, idx / rows) := if_neg h.ne'

/-! ### Tiles in groups -/

section Grouped

variable {GROUP_M mTiles nTiles tile : ℕ}

/-- The machine numbers the grid by groups of at most `GROUP_M` rows. -/
theorem idx2crdGrouped2d_eq (hg : 0 < GROUP_M) (hm : 0 < mTiles) (hn : 0 < nTiles)
    (hfits : mTiles * nTiles < 2 ^ 32) (htile : tile < mTiles * nTiles) :
    (idx2crdGrouped2d GROUP_M tile mTiles nTiles : Run ε (ℕ × ℕ)) =
      .ok (raggedCrd (min GROUP_M mTiles) mTiles nTiles tile) := by
  have hmin : (if GROUP_M ≤ mTiles then GROUP_M else mTiles) = min GROUP_M mTiles := rfl
  have hw : 0 < min GROUP_M mTiles := lt_min hg hm
  have hle : min GROUP_M mTiles * nTiles ≤ mTiles * nTiles :=
    Nat.mul_le_mul_right _ (min_le_right _ _)
  rw [idx2crdGrouped2d, Run.assert, if_pos hg]
  simp only [hmin]
  set w := min GROUP_M mTiles with hwdef
  obtain ⟨hfirst, -⟩ := ragged_rest hw hn htile
  set first := tile / (w * nTiles) * w with hfirstdef
  have hcols : mTiles ≤ mTiles * nTiles := Nat.le_mul_of_pos_right _ hn
  have hfirst32 : first < 2 ^ 32 := by omega
  have hactual : (if w ≤ mTiles - first then w else mTiles - first) = groupRows w mTiles first :=
    rfl
  have hrows : 0 < groupRows w mTiles first := groupRows_pos hw hfirst
  have hrow : first + tile % (w * nTiles) % groupRows w mTiles first < mTiles := by
    have h := raggedCrd_mem hw hn htile
    exact h.1
  have hrow32 : first + tile % (w * nTiles) % groupRows w mTiles first < 2 ^ 32 := by omega
  show (do let groupTiles ← Word.U32.mul w nTiles; _) = _
  rw [Word.U32.mul_eq_ok.mpr ⟨by omega, rfl⟩]
  show (do let firstM ← Word.U32.mul (idx2crdColMajor2d tile (w * nTiles)).2 w; _) = _
  rw [idx2crdColMajor2d_of_pos (Nat.mul_pos hw hn), Word.U32.mul_eq_ok.mpr ⟨hfirst32, rfl⟩]
  show (do let remM ← Word.U32.sub mTiles first; _) = _
  rw [Word.U32.sub_eq_ok.mpr ⟨hfirst.le, rfl⟩]
  show (do
    let mTile ← Word.U32.add first (idx2crdColMajor2d (tile % (w * nTiles))
      (if w ≤ mTiles - first then w else mTiles - first)).1
    _) = _
  rw [hactual, idx2crdColMajor2d_of_pos hrows, Word.U32.add_eq_ok.mpr ⟨hrow32, rfl⟩]
  rfl

/-- **The grouped order visits every tile once**, whatever the size of the last group. -/
theorem idx2crdGrouped2d_bijOn (hg : 0 < GROUP_M) (hm : 0 < mTiles) (hn : 0 < nTiles)
    (hfits : mTiles * nTiles < 2 ^ 32) :
    ∃ crd : ℕ → ℕ × ℕ,
      (∀ tile < mTiles * nTiles,
        (idx2crdGrouped2d GROUP_M tile mTiles nTiles : Run ε (ℕ × ℕ)) = .ok (crd tile)) ∧
      Set.BijOn crd (Set.Iio (mTiles * nTiles)) (Set.Iio mTiles ×ˢ Set.Iio nTiles) :=
  ⟨raggedCrd (min GROUP_M mTiles) mTiles nTiles,
    fun _ htile => idx2crdGrouped2d_eq hg hm hn hfits htile, raggedCrd_bijOn (lt_min hg hm) hn⟩

/-- Seven rows in groups of four: the last group has three. -/
theorem idx2crdGrouped2d_bijOn_seven :
    ∃ crd : ℕ → ℕ × ℕ,
      (∀ tile < 7 * 2, (idx2crdGrouped2d 4 tile 7 2 : Run Unit (ℕ × ℕ)) = .ok (crd tile)) ∧
      Set.BijOn crd (Set.Iio (7 * 2)) (Set.Iio 7 ×ˢ Set.Iio 2) :=
  idx2crdGrouped2d_bijOn (by decide) (by decide) (by decide) (by decide)

end Grouped

/-! ### Offsets on machine words -/

/-- The cast keeps what it has room for. -/
theorem asU32_of_lt {x : ℕ} (h : x < 2 ^ 32) : asU32 x = x := Nat.mod_eq_of_lt h

/-- A row-major index that is in range does not overflow. -/
theorem crd2idxRowMajor2d_eq {row col cols : ℕ} (h : row * cols + col < 2 ^ 64) :
    (crd2idxRowMajor2d row col cols : Run ε ℕ) = .ok (row * cols + col) := by
  rw [crd2idxRowMajor2d, Usize.mul_eq_ok.mpr ⟨by omega, rfl⟩]
  exact Usize.add_eq_ok.mpr ⟨h, rfl⟩

/-- The same in three dimensions: the product of the last dimension bounds the ones before. -/
theorem crd2idxRowMajor3d_eq {i0 i1 i2 d1 d2 : ℕ} (hd : 0 < d2)
    (h : (i0 * d1 + i1) * d2 + i2 < 2 ^ 64) :
    (crd2idxRowMajor3d i0 i1 i2 d1 d2 : Run ε ℕ) = .ok ((i0 * d1 + i1) * d2 + i2) := by
  have hline : i0 * d1 + i1 ≤ (i0 * d1 + i1) * d2 := Nat.le_mul_of_pos_right _ hd
  rw [crd2idxRowMajor3d, Usize.mul_eq_ok.mpr ⟨by omega, rfl⟩]
  show (do let line ← Usize.add (i0 * d1) i1; _) = _
  rw [Usize.add_eq_ok.mpr ⟨by omega, rfl⟩]
  show (do let lines ← Usize.mul (i0 * d1 + i1) d2; _) = _
  rw [Usize.mul_eq_ok.mpr ⟨by omega, rfl⟩]
  exact Usize.add_eq_ok.mpr ⟨h, rfl⟩

/-! ### Block scales -/

section BlockScale

variable {nb restM restK batch row group : ℕ}

/-- The byte of a scale: atoms of 512 bytes, one after the other, and in each atom the quarters
of its rows interleaved. -/
def blockScaleOffset (restM restK : ℕ) (crd : ℕ × ℕ × ℕ) : ℕ :=
  ((crd.1 * restM + crd.2.1 / 128) * restK + crd.2.2 / 4) * 512 +
    ((crd.2.1 % 128 % 32 * 4 + crd.2.1 % 128 / 32) * 4 + crd.2.2 % 4)

/-- A coordinate in range has an offset in range. -/
theorem blockScaleOffset_lt (hb : batch < nb) (hr : row < 128 * restM) (hg : group < 4 * restK) :
    blockScaleOffset restM restK (batch, row, group) < nb * restM * restK * 512 := by
  have hblock : row / 128 < restM := Nat.div_lt_of_lt_mul hr
  have hk : group / 4 < restK := Nat.div_lt_of_lt_mul hg
  exact pack_lt (pack_lt (pack_lt hb hblock) hk) (by omega)

/-- The place of a scale in its atom determines the row and the group there. -/
theorem atomPlace_inj {r r' g g' : ℕ} (hr : r < 128) (hr' : r' < 128) (hg : g < 4) (hg' : g' < 4)
    (h : (r % 32 * 4 + r / 32) * 4 + g = (r' % 32 * 4 + r' / 32) * 4 + g') : r = r' ∧ g = g' := by
  obtain ⟨hword, hgroup⟩ := pack_inj hg hg' h
  obtain ⟨hlow, hquarter⟩ := pack_inj (by omega) (by omega) hword
  exact ⟨by omega, hgroup⟩

/-- **The offsets of the block scales fill an interval.** -/
theorem blockScaleOffset_bijOn (nb restM restK : ℕ) :
    Set.BijOn (blockScaleOffset restM restK)
      (Set.Iio nb ×ˢ Set.Iio (128 * restM) ×ˢ Set.Iio (4 * restK))
      (Set.Iio (nb * restM * restK * 512)) := by
  refine bijOn_of_injOn (by ring) ?_ ?_
  · rintro ⟨batch, row, group⟩ ⟨hb, hr, hg⟩
    exact blockScaleOffset_lt hb hr hg
  · rintro ⟨batch, row, group⟩ ⟨-, hr, hg⟩ ⟨batch', row', group'⟩ ⟨-, hr', hg'⟩ heq
    have hblock : row / 128 < restM := Nat.div_lt_of_lt_mul hr
    have hblock' : row' / 128 < restM := Nat.div_lt_of_lt_mul hr'
    have hk : group / 4 < restK := Nat.div_lt_of_lt_mul hg
    have hk' : group' / 4 < restK := Nat.div_lt_of_lt_mul hg'
    -- the atom, then the place in it
    obtain ⟨hatom, hplace⟩ := pack_inj (by dsimp only; omega) (by dsimp only; omega) heq
    obtain ⟨hblocks, hk_eq⟩ := pack_inj hk hk' hatom
    obtain ⟨hbatch, hblock_eq⟩ := pack_inj hblock hblock' hblocks
    obtain ⟨hrow, hgroup⟩ := atomPlace_inj (Nat.mod_lt row (by decide))
      (Nat.mod_lt row' (by decide)) (Nat.mod_lt group (by decide))
      (Nat.mod_lt group' (by decide)) hplace
    have hbatch : batch = batch' := hbatch
    rw [hbatch, ← Nat.div_add_mod row 128, ← Nat.div_add_mod row' 128,
      ← Nat.div_add_mod group 4, ← Nat.div_add_mod group' 4, hblock_eq, hrow, hk_eq, hgroup]

/-- The machine computes the offset of a coordinate in range. -/
theorem sm1xxBlockScaleCrd2idx_eq (hb : batch < nb) (hr : row < 128 * restM)
    (hg : group < 4 * restK) (hr32 : row < 2 ^ 32) (hg32 : group < 2 ^ 32)
    (hfits : nb * restM * restK * 512 < 2 ^ 64) :
    (sm1xxBlockScaleCrd2idx batch row group restM restK : Run ε ℕ) =
      .ok (blockScaleOffset restM restK (batch, row, group)) := by
  have hlt := lt_trans (blockScaleOffset_lt hb hr hg) hfits
  have hsplit : blockScaleOffset restM restK (batch, row, group) =
      ((batch * restM + row / 128) * restK + group / 4) * 512 +
        ((row % 128 % 32 * 4 + row % 128 / 32) * 4 + group % 4) := rfl
  have hmod : row % 128 % 128 = row % 128 := Nat.mod_mod _ _
  rw [sm1xxBlockScaleCrd2idx, asU32_of_lt hr32, asU32_of_lt hg32,
    idx2crdColMajor2d_of_pos (by decide), idx2crdColMajor2d_of_pos (by decide)]
  show (do let atomIdx ← crd2idxRowMajor3d batch (row / 128) (group / 4) restM restK; _) = _
  rw [crd2idxRowMajor3d_eq (by omega) (by omega), sm1xxScaleAtomWordOffset, hmod,
    asU32_of_lt (by omega), idx2crdColMajor2d_of_pos (by decide)]
  show (do let wordInAtom ← crd2idxRowMajor2d (row % 128 % 32) (row % 128 / 32) 4; _) = _
  rw [crd2idxRowMajor2d_eq (by omega)]
  show (do let byteInAtom ← crd2idxRowMajor2d _ (group % 4) 4; _) = _
  rw [crd2idxRowMajor2d_eq (by omega)]
  exact crd2idxRowMajor2d_eq hlt

end BlockScale

/-! ### Words of a burst -/

section Burst

variable {ROWS nb kBursts batch row group : ℕ}

/-- The word of a scale group in its burst: sixteen columns of `ROWS` rows of two words. -/
def burstPlace (ROWS row group : ℕ) : ℕ := (group % 32 / 2 * ROWS + row) * 2 + group % 2

/-- The offset of a coordinate: its burst, and its place in the burst. -/
def burstOffset (ROWS kBursts : ℕ) (crd : ℕ × ℕ × ℕ) : ℕ :=
  (crd.1 * kBursts + crd.2.2 / 32) * (ROWS * 32) + burstPlace ROWS crd.2.1 crd.2.2

/-- A place lies in its burst. -/
theorem burstPlace_lt (hr : row < ROWS) (group : ℕ) : burstPlace ROWS row group < ROWS * 32 := by
  have hcolumn : group % 32 / 2 * ROWS + row < 16 * ROWS := pack_lt (by omega) hr
  unfold burstPlace
  omega

/-- A coordinate in range has an offset in range. -/
theorem burstOffset_lt (hb : batch < nb) (hr : row < ROWS) (hg : group < 32 * kBursts) :
    burstOffset ROWS kBursts (batch, row, group) < nb * kBursts * ROWS * 32 := by
  have hburst : group / 32 < kBursts := Nat.div_lt_of_lt_mul hg
  rw [Nat.mul_assoc _ ROWS]
  exact pack_lt (pack_lt hb hburst) (burstPlace_lt hr group)

/-- **The words of the bursts fill an interval.** -/
theorem burstOffset_bijOn (ROWS nb kBursts : ℕ) :
    Set.BijOn (burstOffset ROWS kBursts)
      (Set.Iio nb ×ˢ Set.Iio ROWS ×ˢ Set.Iio (32 * kBursts))
      (Set.Iio (nb * kBursts * ROWS * 32)) := by
  refine bijOn_of_injOn (by ring) ?_ ?_
  · rintro ⟨batch, row, group⟩ ⟨hb, hr, hg⟩
    exact burstOffset_lt hb hr hg
  · rintro ⟨batch, row, group⟩ ⟨-, hr, hg⟩ ⟨batch', row', group'⟩ ⟨-, hr', hg'⟩ heq
    have hburst : group / 32 < kBursts := Nat.div_lt_of_lt_mul hg
    have hburst' : group' / 32 < kBursts := Nat.div_lt_of_lt_mul hg'
    -- the burst, the column and the row in it, and the word
    obtain ⟨hbursts, hplace⟩ := pack_inj (burstPlace_lt hr group) (burstPlace_lt hr' group') heq
    obtain ⟨hbatch, hburst_eq⟩ := pack_inj hburst hburst' hbursts
    obtain ⟨hcolumns, hword⟩ := pack_inj (by omega) (by omega) hplace
    obtain ⟨hcolumn, hrow⟩ := pack_inj hr hr' hcolumns
    have hgroup : group = group' := by
      have hburst_eq : group / 32 = group' / 32 := hburst_eq
      omega
    have hbatch : batch = batch' := hbatch
    have hrow : row = row' := hrow
    rw [hbatch, hrow, hgroup]

/-- The machine computes the offset of a coordinate in range. -/
theorem sm100NoswizzleBurstU64Crd2idx_eq (hb : batch < nb) (hr : row < ROWS)
    (hg : group < 32 * kBursts) (hg32 : group < 2 ^ 32)
    (hfits : nb * kBursts * ROWS * 32 < 2 ^ 64) :
    (sm100NoswizzleBurstU64Crd2idx ROWS batch row group kBursts : Run ε ℕ) =
      .ok (burstOffset ROWS kBursts (batch, row, group)) := by
  have hlt := lt_trans (burstOffset_lt hb hr hg) hfits
  have hplace_lt := burstPlace_lt hr group
  have hburst : batch * kBursts + group / 32 < nb * kBursts :=
    pack_lt hb (Nat.div_lt_of_lt_mul hg)
  have htile : ROWS * 32 < 2 ^ 64 := by
    refine lt_of_le_of_lt ?_ hfits
    rw [Nat.mul_assoc _ ROWS]
    exact Nat.le_mul_of_pos_left _ (by omega)
  have hbursts : batch * kBursts + group / 32 ≤ (batch * kBursts + group / 32) * (ROWS * 32) :=
    Nat.le_mul_of_pos_right _ (by omega)
  have hoffset : burstOffset ROWS kBursts (batch, row, group) =
      (batch * kBursts + group / 32) * (ROWS * 32) + burstPlace ROWS row group := rfl
  -- step and half are the digits of the column
  have hplace : group % 32 / 2 / 2 * (ROWS * 4) + group % 32 / 2 % 2 * (ROWS * 2) + row * 2 +
      group % 32 % 2 = burstPlace ROWS row group := by
    have hcolumn := Nat.div_add_mod (group % 32 / 2) 2
    have hword : group % 32 % 2 = group % 2 := by omega
    calc group % 32 / 2 / 2 * (ROWS * 4) + group % 32 / 2 % 2 * (ROWS * 2) + row * 2 +
          group % 32 % 2
        = ((2 * (group % 32 / 2 / 2) + group % 32 / 2 % 2) * ROWS + row) * 2 + group % 32 % 2 := by
          ring
      _ = burstPlace ROWS row group := by rw [hcolumn, hword, burstPlace]
  rw [sm100NoswizzleBurstU64Crd2idx, asU32_of_lt hg32, idx2crdColMajor2d_of_pos (by decide)]
  show (do let burstIdx ← crd2idxRowMajor2d batch (group / 32) kBursts; _) = _
  rw [crd2idxRowMajor2d_eq (by omega), idx2crdColMajor2d_of_pos (by decide),
    idx2crdColMajor2d_of_pos (by decide)]
  show (do let stepStride ← Usize.mul ROWS 4; _) = _
  rw [Usize.mul_eq_ok.mpr ⟨by omega, rfl⟩]
  show (do let stepPart ← Usize.mul (group % 32 / 2 / 2) (ROWS * 4); _) = _
  rw [Usize.mul_eq_ok.mpr ⟨by omega, rfl⟩]
  show (do let halfStride ← Usize.mul ROWS 2; _) = _
  rw [Usize.mul_eq_ok.mpr ⟨by omega, rfl⟩]
  show (do let halfPart ← Usize.mul (group % 32 / 2 % 2) (ROWS * 2); _) = _
  rw [Usize.mul_eq_ok.mpr ⟨by omega, rfl⟩]
  show (do let planes ← Usize.add (group % 32 / 2 / 2 * (ROWS * 4)) _; _) = _
  rw [Usize.add_eq_ok.mpr ⟨by omega, rfl⟩]
  show (do let rowPart ← Usize.mul row 2; _) = _
  rw [Usize.mul_eq_ok.mpr ⟨by omega, rfl⟩]
  show (do let lines ← Usize.add _ (row * 2); _) = _
  rw [Usize.add_eq_ok.mpr ⟨by omega, rfl⟩]
  show (do let subU64 ← Usize.add _ (group % 32 % 2); _) = _
  rw [Usize.add_eq_ok.mpr ⟨by omega, hplace⟩]
  show (do let burstStride ← Usize.mul ROWS 32; _) = _
  rw [Usize.mul_eq_ok.mpr ⟨htile, rfl⟩]
  exact crd2idxRowMajor2d_eq hlt

end Burst

/-! ### Filled boxes -/

/-- The run `f` returns on the whole box `a × b × c`, and its values fill `[0, n)`. -/
def FillsBox (f : ℕ → ℕ → ℕ → Run ε ℕ) (a b c n : ℕ) : Prop :=
  ∃ off : ℕ × ℕ × ℕ → ℕ, (∀ i < a, ∀ j < b, ∀ k < c, f i j k = .ok (off (i, j, k))) ∧
    Set.BijOn off (Set.Iio a ×ˢ Set.Iio b ×ˢ Set.Iio c) (Set.Iio n)

variable {f : ℕ → ℕ → ℕ → Run ε ℕ} {a b c n : ℕ}

/-- Two places of a filled box have different values. -/
theorem FillsBox.inj (h : FillsBox f a b c n) {i j k j' k' : ℕ} (hi : i < a) (hj : j < b)
    (hk : k < c) (hj' : j' < b) (hk' : k' < c) (heq : f i j k = f i j' k') : j = j' ∧ k = k' := by
  obtain ⟨off, hoff, hbij⟩ := h
  rw [hoff i hi j hj k hk, hoff i hi j' hj' k' hk'] at heq
  have hmem : (i, j, k) ∈ Set.Iio a ×ˢ Set.Iio b ×ˢ Set.Iio c := ⟨hi, hj, hk⟩
  have hmem' : (i, j', k') ∈ Set.Iio a ×ˢ Set.Iio b ×ˢ Set.Iio c := ⟨hi, hj', hk'⟩
  have hsame := hbij.injOn hmem hmem' (Except.ok.inj heq)
  simp only [Prod.mk.injEq, true_and] at hsame
  exact hsame

/-- The scales of `nb` batches, `restM` row blocks and `restK` group blocks fill an interval. -/
def BlockScaleFills (ε : Type) (nb restM restK : ℕ) : Prop :=
  FillsBox (fun batch row group => (sm1xxBlockScaleCrd2idx batch row group restM restK : Run ε ℕ))
    nb (128 * restM) (4 * restK) (nb * restM * restK * 512)

/-- The words of `nb` batches of `kBursts` bursts fill an interval. -/
def BurstFills (ε : Type) (ROWS nb kBursts : ℕ) : Prop :=
  FillsBox (fun batch row group =>
      (sm100NoswizzleBurstU64Crd2idx ROWS batch row group kBursts : Run ε ℕ))
    nb ROWS (32 * kBursts) (nb * kBursts * ROWS * 32)

/-- **Where the block scales fill their interval**: rows and groups must survive the casts. -/
theorem blockScaleFills_iff {nb restM restK : ℕ} (hfits : nb * restM * restK * 512 < 2 ^ 64) :
    BlockScaleFills ε nb restM restK ↔
      (0 < nb * restM * restK → 128 * restM ≤ 2 ^ 32 ∧ 4 * restK ≤ 2 ^ 32) := by
  constructor
  -- a row or a group past the cast collides with its rest
  · intro hfills hpos
    have hK : 0 < restK := Nat.pos_of_mul_pos_left hpos
    have hM : 0 < restM := Nat.pos_of_mul_pos_left (Nat.pos_of_mul_pos_right hpos)
    have hb : 0 < nb := Nat.pos_of_mul_pos_right (Nat.pos_of_mul_pos_right hpos)
    constructor
    · by_contra hlarge
      have hwrap : (sm1xxBlockScaleCrd2idx 0 (2 ^ 32) 0 restM restK : Run ε ℕ) =
          sm1xxBlockScaleCrd2idx 0 0 0 restM restK := rfl
      obtain ⟨hrow, -⟩ := hfills.inj hb (by omega) (by omega) (by omega) (by omega) hwrap
      exact absurd hrow (by decide)
    · by_contra hlarge
      have hwrap : (sm1xxBlockScaleCrd2idx 0 0 (2 ^ 32) restM restK : Run ε ℕ) =
          sm1xxBlockScaleCrd2idx 0 0 0 restM restK := rfl
      obtain ⟨-, hgroup⟩ := hfills.inj hb (by omega) (by omega) (by omega) (by omega) hwrap
      exact absurd hgroup (by decide)
  · intro hcasts
    refine ⟨blockScaleOffset restM restK, ?_, blockScaleOffset_bijOn nb restM restK⟩
    intro batch hb row hr group hg
    have hpos : 0 < nb * restM * restK :=
      Nat.mul_pos (Nat.mul_pos (by omega) (by omega)) (by omega)
    obtain ⟨hM, hK⟩ := hcasts hpos
    exact sm1xxBlockScaleCrd2idx_eq hb hr hg (by omega) (by omega) hfits

/-- **Where the words of the bursts fill their interval.** -/
theorem burstFills_iff {ROWS nb kBursts : ℕ} (hfits : nb * kBursts * ROWS * 32 < 2 ^ 64) :
    BurstFills ε ROWS nb kBursts ↔
      (0 < nb * kBursts * ROWS → 32 * kBursts ≤ 2 ^ 32) := by
  constructor
  · intro hfills hpos
    have hR : 0 < ROWS := Nat.pos_of_mul_pos_left hpos
    have hk : 0 < kBursts := Nat.pos_of_mul_pos_left (Nat.pos_of_mul_pos_right hpos)
    have hb : 0 < nb := Nat.pos_of_mul_pos_right (Nat.pos_of_mul_pos_right hpos)
    by_contra hlarge
    have hwrap : (sm100NoswizzleBurstU64Crd2idx ROWS 0 0 (2 ^ 32) kBursts : Run ε ℕ) =
        sm100NoswizzleBurstU64Crd2idx ROWS 0 0 0 kBursts := rfl
    obtain ⟨-, hgroup⟩ := hfills.inj hb hR (by omega) hR (by omega) hwrap
    exact absurd hgroup (by decide)
  · intro hcasts
    refine ⟨burstOffset ROWS kBursts, ?_, burstOffset_bijOn ROWS nb kBursts⟩
    intro batch hb row hr group hg
    have hpos : 0 < nb * kBursts * ROWS :=
      Nat.mul_pos (Nat.mul_pos (by omega) (by omega)) (by omega)
    have hcast := hcasts hpos
    exact sm100NoswizzleBurstU64Crd2idx_eq hb hr hg (by omega) hfits

/-- **The index maps of the scale factors.** Where the number of places is a `u32`, both maps fill
their interval; where it is a `usize`, they do so exactly when the casts keep rows and groups. -/
theorem scaleIndexMaps_spec :
    (∀ nb restM restK : ℕ,
      (nb * restM * restK * 512 < 2 ^ 32 → BlockScaleFills ε nb restM restK) ∧
      (nb * restM * restK * 512 < 2 ^ 64 → (BlockScaleFills ε nb restM restK ↔
        (0 < nb * restM * restK → 128 * restM ≤ 2 ^ 32 ∧ 4 * restK ≤ 2 ^ 32)))) ∧
    (∀ ROWS nb kBursts : ℕ,
      (nb * kBursts * ROWS * 32 < 2 ^ 32 → BurstFills ε ROWS nb kBursts) ∧
      (nb * kBursts * ROWS * 32 < 2 ^ 64 → (BurstFills ε ROWS nb kBursts ↔
        (0 < nb * kBursts * ROWS → 32 * kBursts ≤ 2 ^ 32)))) := by
  constructor
  · intro nb restM restK
    refine ⟨fun h32 => ?_, fun h64 => blockScaleFills_iff h64⟩
    refine (blockScaleFills_iff (by omega)).mpr fun hpos => ?_
    have hM : restM ≤ nb * restM * restK := by
      rw [Nat.mul_right_comm]
      exact Nat.le_mul_of_pos_left _ (Nat.pos_of_mul_pos_right (Nat.mul_right_comm nb _ _ ▸ hpos))
    have hK : restK ≤ nb * restM * restK :=
      Nat.le_mul_of_pos_left _ (Nat.pos_of_mul_pos_right hpos)
    omega
  · intro ROWS nb kBursts
    refine ⟨fun h32 => ?_, fun h64 => burstFills_iff h64⟩
    refine (burstFills_iff (by omega)).mpr fun hpos => ?_
    have hk : kBursts ≤ nb * kBursts * ROWS := by
      rw [Nat.mul_right_comm]
      exact Nat.le_mul_of_pos_left _ (Nat.pos_of_mul_pos_right (Nat.mul_right_comm nb _ _ ▸ hpos))
    omega

/-- Two batches of three row blocks and two group blocks; two batches of three bursts of 128
rows. -/
theorem scaleIndexMaps_spec_two :
    BlockScaleFills Unit 2 3 2 ∧ BurstFills Unit 128 2 3 ∧
    (0 < 2 * 3 * 2 → 128 * 3 ≤ 2 ^ 32 ∧ 4 * 2 ≤ 2 ^ 32) ∧ (0 < 2 * 3 * 128 → 32 * 3 ≤ 2 ^ 32) := by
  have hscales := (scaleIndexMaps_spec (ε := Unit)).1 2 3 2
  have hbursts := (scaleIndexMaps_spec (ε := Unit)).2 128 2 3
  have hs := hscales.1 (by decide)
  have hb := hbursts.1 (by decide)
  exact ⟨hs, hb, (hscales.2 (by decide)).mp hs, (hbursts.2 (by decide)).mp hb⟩

/-- One row too many for the cast: rows `0` and `2 ^ 32` share their byte. -/
theorem not_blockScaleFills : ¬BlockScaleFills Unit 1 33554433 1 := by
  intro hfills
  have hcasts := (blockScaleFills_iff (by decide)).mp hfills (by decide)
  exact absurd hcasts.1 (by decide)

end CudaOxide.Cute
