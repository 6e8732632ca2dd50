import CudaOxide.Cute.ByteOffsets
import CudaOxide.Cute.Validation.ThreadValue
import CudaOxide.Lib.Safe

namespace CudaOxide.Cute

open Lib

/-!
# Tiles that feed `ldmatrix`

`validation/ldmatrix.rs` walks over the eight-column segments of a shared tile: each must be sixteen
aligned bytes in a row.

* `validateLdmatrixSource_safe` — the inputs on which the check does not panic.
-/

variable {l : ComposedLayout} {rows columns row block base element : ℤ}

/-- One pass of the innermost loop: the element is next to the one before. -/
def ldmatrixElement (smemByteLayout : ComposedLayout) (rows row block base element : ℤ) :
    Run ValidationError Unit := do
  let blockStart ← I64.mul block 8
  let column ← I64.add blockStart element
  let columnStart ← I64.mul rows column
  let cell ← I64.add row columnStart
  let byte ← Run.okOr (smemByteLayout.checkedCall (.leaf cell))
    (.invalidCount "ldmatrix segment element is unmappable" cell)
  let byteInAtom ← I64.mul element 2
  let expected ← I64.add base byteInAtom
  Run.reject (byte ≠ expected) (.atomNotContiguous row block byteInAtom expected byte)

/-- One segment: eight elements of a row. -/
def ldmatrixSegment (smemByteLayout : ComposedLayout) (rows row block : ℤ) :
    Run ValidationError Unit := do
  let blockStart ← I64.mul block 8
  let columnStart ← I64.mul rows blockStart
  let firstCell ← I64.add row columnStart
  let base ← Run.okOr (smemByteLayout.checkedCall (.leaf firstCell))
    (.invalidCount "ldmatrix segment base is unmappable" firstCell)
  Run.reject (base.tmod 16 ≠ 0) (.atomStartMisaligned row block base 16)
  (Int.range 1 8).forM (ldmatrixElement smemByteLayout rows row block base)

/-- Every segment of the tile is aligned and contiguous. -/
def validateLdmatrixSource (smemByteLayout : ComposedLayout) (rows columns : ℤ) :
    Run ValidationError Unit := do
  let rows ← positiveCount "ldmatrix rows" rows
  let columns ← positiveCount "ldmatrix columns" columns
  if rows % 8 ≠ 0 ∨ columns % 8 ≠ 0 then do
    let value ← I64.mul rows columns
    Run.fail (.invalidCount "ldmatrix tile extents must be multiples of 8" value)
  else do
    let total ← Run.okOr (I64.checkedMul rows columns)
      (.countTooLarge "ldmatrix tile elements" 9223372036854775807)
    hostCount "ldmatrix tile elements" total
    (Int.range 0 rows).forM fun row =>
      (Int.range 0 (columns / 8)).forM (ldmatrixSegment smemByteLayout rows row)

/-! ### Panics -/

/-- The check of a count does not panic. -/
theorem positiveCount_safe (name : String) (n : ℤ) : (positiveCount name n).Safe :=
  Run.Safe.ite (fun _ => Run.Safe.fail _) fun _ => Run.Safe.ok _

/-- The numbers that name a cell are below the number of cells. -/
theorem cell_bounds {column : ℤ} (hrow : row ∈ Set.Ico 0 rows)
    (hcolumn : column ∈ Set.Ico 0 columns) :
    column ≤ rows * column ∧ 0 ≤ row + rows * column ∧ row + rows * column < rows * columns := by
  obtain ⟨h0, hlt⟩ := hrow
  have hrows : 0 ≤ rows := h0.trans hlt.le
  have hstart : 1 * column ≤ rows * column :=
    Int.mul_le_mul_of_nonneg_right (by omega) hcolumn.1
  have hnext : rows * (column + 1) ≤ rows * columns := Int.mul_le_mul_of_nonneg_left hcolumn.2 hrows
  have hcol0 := hcolumn.1
  rw [mul_add, mul_one] at hnext
  rw [one_mul] at hstart
  exact ⟨hstart, by omega, by omega⟩

/-- Reading an element of a segment does not overflow: the rows and columns are bounded before. -/
theorem ldmatrixElement_safe (hrow : row ∈ Set.Ico 0 rows) (htotal : rows * columns ≤ 2 ^ 20)
    (hblock : block ∈ Set.Ico 0 (columns / 8)) (helement : element ∈ Set.Ico (1 : ℤ) 8)
    (hbase : I64.Fits base) (halign : base.tmod 16 = 0) :
    (ldmatrixElement l rows row block base element).Safe := by
  obtain ⟨hb0, hb⟩ := hblock
  obtain ⟨he0, he⟩ := helement
  have hin : block * 8 + element ∈ Set.Ico 0 columns := ⟨by omega, by omega⟩
  obtain ⟨hcolumn, hcell, hlt⟩ := cell_bounds hrow hin
  obtain ⟨hrow0, hrowlt⟩ := hrow
  obtain ⟨q, rfl⟩ := Int.dvd_of_tmod_eq_zero halign
  obtain ⟨hbaselow, hbasehigh⟩ := hbase
  refine Run.Safe.exact_bind ⟨by omega, by omega⟩ ?_
  refine Run.Safe.exact_bind ⟨by omega, by omega⟩ ?_
  refine Run.Safe.exact_bind ⟨by omega, by omega⟩ ?_
  refine Run.Safe.exact_bind ⟨by omega, by omega⟩ ?_
  refine (Run.Safe.okOr _ _).bind fun byte _ => ?_
  refine Run.Safe.exact_bind ⟨by omega, by omega⟩ ?_
  -- the base is a multiple of sixteen, so that fifteen more bytes fit
  refine Run.Safe.exact_bind ⟨by omega, by omega⟩ ?_
  exact Run.Safe.reject _ _

/-- So checking a segment does not. -/
theorem ldmatrixSegment_safe (hrow : row ∈ Set.Ico 0 rows) (htotal : rows * columns ≤ 2 ^ 20)
    (hblock : block ∈ Set.Ico 0 (columns / 8)) : (ldmatrixSegment l rows row block).Safe := by
  obtain ⟨hb0, hb⟩ := hblock
  have hin : block * 8 ∈ Set.Ico 0 columns := ⟨by omega, by omega⟩
  obtain ⟨hcolumn, hcell, hlt⟩ := cell_bounds hrow hin
  obtain ⟨hrow0, hrowlt⟩ := hrow
  refine Run.Safe.exact_bind ⟨by omega, by omega⟩ ?_
  refine Run.Safe.exact_bind ⟨by omega, by omega⟩ ?_
  refine Run.Safe.exact_bind ⟨by omega, by omega⟩ ?_
  refine (Run.Safe.okOr _ _).bind fun base hbase => ?_
  refine (Run.Safe.reject _ _).bind fun _ halign => ?_
  refine Run.Safe.forM fun element helement => ?_
  exact ldmatrixElement_safe ⟨hrow0, hrowlt⟩ htotal ⟨hb0, hb⟩ (Int.mem_range_iff.mp helement)
    (ComposedLayout.fits_of_checkedCall (Run.okOr_eq_ok.mp hbase))
    (not_not.mp (Run.reject_eq_ok.mp halign))

/-- **When the check does not panic.**  The only unchecked product is the one that reports extents
which are no multiples of eight. -/
theorem validateLdmatrixSource_safe : (validateLdmatrixSource l rows columns).Safe ↔
    (0 < rows → 0 < columns → 8 ∣ rows ∧ 8 ∣ columns ∨ I64.Fits (rows * columns)) := by
  constructor
  · intro hsafe hrows hcolumns
    by_contra hover
    obtain ⟨hmul, hfits⟩ := not_or.mp hover
    refine hsafe .overflow ?_
    rw [validateLdmatrixSource, positiveCount, if_neg hrows.not_ge, positiveCount,
      if_neg hcolumns.not_ge]
    show (if rows % 8 ≠ 0 ∨ columns % 8 ≠ 0 then I64.mul rows columns >>= _ else _) = _
    rw [if_pos (by omega), I64.mul, I64.exact, if_neg hfits]
    rfl
  · intro hcond
    refine (positiveCount_safe _ _).bind fun _ hcount => ?_
    obtain ⟨hrows, rfl⟩ := positiveCount_eq_ok.mp hcount
    refine (positiveCount_safe _ _).bind fun _ hcount => ?_
    obtain ⟨hcolumns, rfl⟩ := positiveCount_eq_ok.mp hcount
    refine Run.Safe.ite (fun hmul => ?_) fun hmul => ?_
    · have hfits := (hcond hrows hcolumns).resolve_left (by omega)
      exact Run.Safe.exact_bind hfits (Run.Safe.fail _)
    · refine (Run.Safe.okOr _ _).bind fun total htotal => ?_
      obtain ⟨-, rfl⟩ := I64.checkedMul_eq_some.mp (Run.okOr_eq_ok.mp htotal)
      refine (Run.Safe.reject _ _).bind fun _ hcount => ?_
      have hle := not_or.mp (Run.reject_eq_ok.mp hcount)
      refine Run.Safe.forM fun row hrow => Run.Safe.forM fun block hblock => ?_
      exact ldmatrixSegment_safe (Int.mem_range_iff.mp hrow) (not_lt.mp hle.1)
        (Int.mem_range_iff.mp hblock)

/-- Where the check does not panic, a number of elements out of range is an error. -/
theorem validateLdmatrixSource_fail (hfits : ¬I64.Fits (rows * columns))
    (hsafe : (validateLdmatrixSource l rows columns).Safe) :
    ∃ e, validateLdmatrixSource l rows columns = Run.fail e := by
  rcases le_or_gt rows 0 with hrows | hrows
  · refine ⟨.invalidCount "ldmatrix rows" rows, ?_⟩
    rw [validateLdmatrixSource, positiveCount, if_pos hrows]
    rfl
  rcases le_or_gt columns 0 with hcolumns | hcolumns
  · refine ⟨.invalidCount "ldmatrix columns" columns, ?_⟩
    rw [validateLdmatrixSource, positiveCount, if_neg hrows.not_ge, positiveCount, if_pos hcolumns]
    rfl
  have hmul := (validateLdmatrixSource_safe.mp hsafe hrows hcolumns).resolve_right hfits
  refine ⟨.countTooLarge "ldmatrix tile elements" 9223372036854775807, ?_⟩
  rw [validateLdmatrixSource, positiveCount, if_neg hrows.not_ge, positiveCount,
    if_neg hcolumns.not_ge]
  show (if rows % 8 ≠ 0 ∨ columns % 8 ≠ 0 then _ else
    Run.okOr (I64.checkedMul rows columns) _ >>= _) = _
  rw [if_neg (by omega), I64.checkedMul, I64.checked, if_neg hfits]
  rfl

end CudaOxide.Cute
