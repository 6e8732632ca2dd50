import CudaOxide.Lib.Bytes

namespace CudaOxide.Cute

open Lib

/-!
# Copies at the edge of a matrix

`predication.rs` plans the source of one copy atom: a pointer offset, and how many bytes are read
from there. `u64` has the width of `usize`, so its operations are those of `Usize`.

* `planUniformCpAsyncSource_eq_ok` — what an accepted plan is.
* `planUniformCpAsyncSource_spec` — a plan reads whole elements of its own row, from an aligned
  start; the atoms of a row read each column once.
-/

/-- A matrix in global memory; the leading dimension is its row pitch in elements. -/
structure GmemMatrixBounds where
  rows : ℕ
  columns : ℕ
  leadingDim : ℕ
  baseAlignmentBytes : ℕ

/-- The first element of a copy. -/
structure AtomCoord where
  row : ℕ
  column : ℕ

/-- Where a copy reads: at its own place, or at an aligned one of which it uses nothing. -/
inductive SafeSourceOffset where
  | inBounds (elementOffset : ℕ)
  | alignedFallback (elementOffset : ℕ)
  deriving DecidableEq

/-- The offset of the place, either way. -/
def SafeSourceOffset.elementOffset : SafeSourceOffset → ℕ
  | .inBounds elementOffset => elementOffset
  | .alignedFallback elementOffset => elementOffset

/-- The bytes that a copy reads from the matrix, and where; the others are zeros. -/
structure PredicatedSource where
  sourceBytes : ℕ
  sourceOffset : SafeSourceOffset
  deriving DecidableEq

/-- `PredicationError` -/
inductive PredicationError where
  | unsupportedAtomBytes (bytes : ℕ)
  | zeroElementBytes
  | atomSplitsElement (atomBytes elementBytes : ℕ)
  | leadingDimensionTooSmall (columns leadingDim : ℕ)
  | insufficientBaseAlignment (required guaranteed : ℕ)
  | elementOffsetOverflow
  | byteOffsetOverflow (elementOffset elementBytes : ℕ)
  | misalignedAtomStart (byteOffset atomBytes : ℕ)
  deriving DecidableEq

/-- `a.is_multiple_of(b)` is `b ∣ a`, also for `b = 0`. -/
def planUniformCpAsyncSource (matrix : GmemMatrixBounds) (atom : AtomCoord)
    (atomBytes elementBytes : ℕ) : Run PredicationError PredicatedSource := do
  Run.reject (atomBytes ∉ [4, 8, 16]) (.unsupportedAtomBytes atomBytes)
  Run.reject (elementBytes = 0) .zeroElementBytes
  Run.reject (¬elementBytes ∣ atomBytes) (.atomSplitsElement atomBytes elementBytes)
  Run.reject (matrix.leadingDim < matrix.columns)
    (.leadingDimensionTooSmall matrix.columns matrix.leadingDim)
  Run.reject (matrix.baseAlignmentBytes = 0 ∨ ¬atomBytes ∣ matrix.baseAlignmentBytes)
    (.insufficientBaseAlignment atomBytes matrix.baseAlignmentBytes)
  -- logical bounds come before any address arithmetic
  if matrix.rows ≤ atom.row ∨ matrix.columns ≤ atom.column then
    .ok ⟨0, .alignedFallback 0⟩
  else
    let elementOffset ← Run.okOr
      ((Usize.checkedMul atom.row matrix.leadingDim).bind fun rowStart =>
        Usize.checkedAdd rowStart atom.column)
      .elementOffsetOverflow
    let byteOffset ← Run.okOr (Usize.checkedMul elementOffset elementBytes)
      (.byteOffsetOverflow elementOffset elementBytes)
    Run.reject (¬atomBytes ∣ byteOffset) (.misalignedAtomStart byteOffset atomBytes)
    let atomElements ← Usize.div atomBytes elementBytes
    let availableElements ← Usize.sub matrix.columns atom.column
    let copiedElements := min availableElements atomElements
    let sourceBytes ← Usize.mul copiedElements elementBytes
    -- `u32::try_from(…).expect(…)`
    Run.assert (sourceBytes < 2 ^ 32)
    .ok ⟨sourceBytes, .inBounds elementOffset⟩

/-! ### What is planned -/

/-- The checks that do not depend on the atom. -/
structure CopyShape (matrix : GmemMatrixBounds) (atomBytes elementBytes : ℕ) : Prop where
  width : atomBytes ∈ [4, 8, 16]
  element_pos : 0 < elementBytes
  whole : elementBytes ∣ atomBytes
  pitch : matrix.columns ≤ matrix.leadingDim
  base_pos : 0 < matrix.baseAlignmentBytes
  base : atomBytes ∣ matrix.baseAlignmentBytes

/-- The element at the start of the atom. -/
def startElement (matrix : GmemMatrixBounds) (atom : AtomCoord) : ℕ :=
  atom.row * matrix.leadingDim + atom.column

variable {matrix : GmemMatrixBounds} {atom : AtomCoord} {atomBytes elementBytes : ℕ}
  {source : PredicatedSource}

/-- A copy holds at least one element. -/
theorem CopyShape.elements_pos (h : CopyShape matrix atomBytes elementBytes) :
    0 < atomBytes / elementBytes := by
  have hpos : 0 < atomBytes := by
    have hwidth := h.width
    simp only [List.mem_cons, List.not_mem_nil, or_false] at hwidth
    omega
  exact Nat.div_pos (Nat.le_of_dvd hpos h.whole) h.element_pos

/-- A copy is at most sixteen bytes long. -/
theorem CopyShape.atomBytes_le (h : CopyShape matrix atomBytes elementBytes) : atomBytes ≤ 16 := by
  have hwidth := h.width
  simp only [List.mem_cons, List.not_mem_nil, or_false] at hwidth
  omega

/-- An atom in bounds reads up to its width or to the end of the row. -/
def sourceInBounds (matrix : GmemMatrixBounds) (atom : AtomCoord) (atomBytes elementBytes : ℕ) :
    PredicatedSource :=
  ⟨min (matrix.columns - atom.column) (atomBytes / elementBytes) * elementBytes,
    .inBounds (startElement matrix atom)⟩

/-- No copy reads more than it writes. -/
theorem copied_le (matrix : GmemMatrixBounds) (atom : AtomCoord) (atomBytes elementBytes : ℕ) :
    min (matrix.columns - atom.column) (atomBytes / elementBytes) * elementBytes ≤ atomBytes :=
  le_trans (Nat.mul_le_mul_right _ (min_le_right _ _)) (Nat.div_mul_le_self _ _)

/-- **What an accepted plan is.** -/
theorem planUniformCpAsyncSource_eq_ok :
    planUniformCpAsyncSource matrix atom atomBytes elementBytes = .ok source ↔
      CopyShape matrix atomBytes elementBytes ∧
      (((matrix.rows ≤ atom.row ∨ matrix.columns ≤ atom.column) ∧
          source = ⟨0, .alignedFallback 0⟩) ∨
        (atom.row < matrix.rows ∧ atom.column < matrix.columns ∧
          startElement matrix atom < 2 ^ 64 ∧
          startElement matrix atom * elementBytes < 2 ^ 64 ∧
          atomBytes ∣ startElement matrix atom * elementBytes ∧
          source = sourceInBounds matrix atom atomBytes elementBytes)) := by
  constructor
  -- the checks, in the order of the code
  · intro h
    obtain ⟨_, hwidth, h₁⟩ := Run.bind_eq_ok.mp h
    obtain ⟨_, helement, h₂⟩ := Run.bind_eq_ok.mp h₁
    obtain ⟨_, hwhole, h₃⟩ := Run.bind_eq_ok.mp h₂
    obtain ⟨_, hpitch, h₄⟩ := Run.bind_eq_ok.mp h₃
    obtain ⟨_, hbase, h₅⟩ := Run.bind_eq_ok.mp h₄
    have hbase := not_or.mp (Run.reject_eq_ok.mp hbase)
    have hshape : CopyShape matrix atomBytes elementBytes :=
      ⟨not_not.mp (Run.reject_eq_ok.mp hwidth),
        Nat.pos_of_ne_zero (Run.reject_eq_ok.mp helement), not_not.mp (Run.reject_eq_ok.mp hwhole),
        not_lt.mp (Run.reject_eq_ok.mp hpitch), Nat.pos_of_ne_zero hbase.1, not_not.mp hbase.2⟩
    refine ⟨hshape, ?_⟩
    -- a piece outside copies nothing; inside, the start has to be computed
    by_cases houtside : matrix.rows ≤ atom.row ∨ matrix.columns ≤ atom.column
    · rw [if_pos houtside] at h₅
      exact Or.inl ⟨houtside, (Except.ok.inj h₅).symm⟩
    · rw [if_neg houtside] at h₅
      have hinside := not_or.mp houtside
      obtain ⟨start, hstart, h₆⟩ := Run.bind_eq_ok.mp h₅
      obtain ⟨byte, hbyte, h₇⟩ := Run.bind_eq_ok.mp h₆
      obtain ⟨_, haligned, h₈⟩ := Run.bind_eq_ok.mp h₇
      obtain ⟨elements, helements, h₉⟩ := Run.bind_eq_ok.mp h₈
      obtain ⟨available, havailable, h₁₀⟩ := Run.bind_eq_ok.mp h₉
      obtain ⟨bytes, hbytes, h₁₁⟩ := Run.bind_eq_ok.mp h₁₀
      obtain ⟨_, _, h₁₂⟩ := Run.bind_eq_ok.mp h₁₁
      obtain ⟨rowStart, hrow, hsum⟩ := Option.bind_eq_some_iff.mp (Run.okOr_eq_ok.mp hstart)
      obtain ⟨-, rfl⟩ := Usize.checkedMul_eq_some.mp hrow
      obtain ⟨hfits, rfl⟩ := Usize.checkedAdd_eq_some.mp hsum
      obtain ⟨hbyteFits, rfl⟩ := Usize.checkedMul_eq_some.mp (Run.okOr_eq_ok.mp hbyte)
      rw [Usize.div_eq_ok hshape.element_pos] at helements
      cases helements
      obtain ⟨-, rfl⟩ := Usize.sub_eq_ok.mp havailable
      obtain ⟨-, rfl⟩ := Usize.mul_eq_ok.mp hbytes
      exact Or.inr ⟨not_le.mp hinside.1, not_le.mp hinside.2, hfits, hbyteFits,
        not_not.mp (Run.reject_eq_ok.mp haligned), (Except.ok.inj h₁₂).symm⟩
  · rintro ⟨hshape, hcase⟩
    -- every check passes, and every product is bounded by the one that fits
    have hbase : ¬(matrix.baseAlignmentBytes = 0 ∨ ¬atomBytes ∣ matrix.baseAlignmentBytes) :=
      not_or.mpr ⟨hshape.base_pos.ne', not_not.mpr hshape.base⟩
    unfold planUniformCpAsyncSource
    refine Run.bind_eq_ok.mpr ⟨(), Run.reject_eq_ok.mpr (not_not.mpr hshape.width), ?_⟩
    refine Run.bind_eq_ok.mpr ⟨(), Run.reject_eq_ok.mpr hshape.element_pos.ne', ?_⟩
    refine Run.bind_eq_ok.mpr ⟨(), Run.reject_eq_ok.mpr (not_not.mpr hshape.whole), ?_⟩
    refine Run.bind_eq_ok.mpr ⟨(), Run.reject_eq_ok.mpr (not_lt.mpr hshape.pitch), ?_⟩
    refine Run.bind_eq_ok.mpr ⟨(), Run.reject_eq_ok.mpr hbase, ?_⟩
    rcases hcase with ⟨houtside, rfl⟩ | ⟨hrow, hcol, hfits, hbyteFits, haligned, rfl⟩
    · rw [if_pos houtside]
    -- the row start is below the start of the element
    · have hcopied := copied_le matrix atom atomBytes elementBytes
      have hsmall := hshape.atomBytes_le
      have hrowFits : atom.row * matrix.leadingDim < 2 ^ 64 :=
        lt_of_le_of_lt (Nat.le_add_right _ _) hfits
      rw [if_neg (not_or.mpr ⟨not_le.mpr hrow, not_le.mpr hcol⟩)]
      refine Run.bind_eq_ok.mpr ⟨startElement matrix atom, Run.okOr_eq_ok.mpr ?_, ?_⟩
      · rw [Usize.checkedMul_eq_some.mpr ⟨hrowFits, rfl⟩]
        exact Usize.checkedAdd_eq_some.mpr ⟨hfits, rfl⟩
      refine Run.bind_eq_ok.mpr ⟨startElement matrix atom * elementBytes,
        Run.okOr_eq_ok.mpr (Usize.checkedMul_eq_some.mpr ⟨hbyteFits, rfl⟩), ?_⟩
      refine Run.bind_eq_ok.mpr ⟨(), Run.reject_eq_ok.mpr (not_not.mpr haligned), ?_⟩
      refine Run.bind_eq_ok.mpr ⟨_, Usize.div_eq_ok hshape.element_pos, ?_⟩
      refine Run.bind_eq_ok.mpr ⟨_, Usize.sub_eq_ok.mpr ⟨hcol.le, rfl⟩, ?_⟩
      refine Run.bind_eq_ok.mpr ⟨_, Usize.mul_eq_ok.mpr ⟨by omega, rfl⟩, ?_⟩
      exact Run.bind_eq_ok.mpr ⟨(), Run.assert_eq_ok.mpr (by omega), rfl⟩

/-! ### The atoms of a row -/

/-- The elements that a plan reads. -/
def PredicatedSource.elements (source : PredicatedSource) (elementBytes : ℕ) : Set ℕ :=
  Set.Ico source.sourceOffset.elementOffset
    (source.sourceOffset.elementOffset + source.sourceBytes / elementBytes)

/-- The elements that a copy inside the matrix reads are those of its row, up to the edge. -/
theorem mem_elements_inBounds (h : CopyShape matrix atomBytes elementBytes) {e : ℕ} :
    e ∈ (sourceInBounds matrix atom atomBytes elementBytes).elements elementBytes ↔
      startElement matrix atom ≤ e ∧
        e < startElement matrix atom +
          min (matrix.columns - atom.column) (atomBytes / elementBytes) := by
  show e ∈ Set.Ico (startElement matrix atom) (startElement matrix atom +
    min (matrix.columns - atom.column) (atomBytes / elementBytes) * elementBytes / elementBytes) ↔ _
  rw [Nat.mul_div_cancel _ h.element_pos, Set.mem_Ico]

/-- The plan of an atom that starts in the row `row < rows`. -/
theorem eq_sourceInBounds (hrow : atom.row < matrix.rows) (hcol : atom.column < matrix.columns)
    (h : planUniformCpAsyncSource matrix atom atomBytes elementBytes = .ok source) :
    source = sourceInBounds matrix atom atomBytes elementBytes := by
  obtain ⟨-, ⟨houtside, -⟩ | ⟨-, -, -, -, -, rfl⟩⟩ := planUniformCpAsyncSource_eq_ok.mp h
  · omega
  · rfl

/-- **The atoms of a row copy each column once.** -/
theorem exists_unique_atom {row : ℕ} {sources : ℕ → PredicatedSource} (hrow : row < matrix.rows)
    (hplans : ∀ k, k * (atomBytes / elementBytes) < matrix.columns →
      planUniformCpAsyncSource matrix ⟨row, k * (atomBytes / elementBytes)⟩ atomBytes elementBytes =
        .ok (sources k))
    {column : ℕ} (hcolumn : column < matrix.columns) :
    ∃! k, k * (atomBytes / elementBytes) < matrix.columns ∧
      row * matrix.leadingDim + column ∈ (sources k).elements elementBytes := by
  have hfirst := hplans 0 (by omega)
  have hshape := (planUniformCpAsyncSource_eq_ok.mp hfirst).1
  have hwidth := hshape.elements_pos
  -- an atom covers the columns whose quotient is its number
  have hcovers : ∀ k, k * (atomBytes / elementBytes) < matrix.columns →
      (row * matrix.leadingDim + column ∈ (sources k).elements elementBytes ↔
        column / (atomBytes / elementBytes) = k) := by
    intro k hk
    rw [eq_sourceInBounds hrow hk (hplans k hk), mem_elements_inBounds hshape, startElement,
      Nat.div_eq_iff hwidth]
    dsimp only
    omega
  refine ⟨column / (atomBytes / elementBytes), ?_, ?_⟩
  · have hlt : column / (atomBytes / elementBytes) * (atomBytes / elementBytes) <
        matrix.columns := lt_of_le_of_lt (Nat.div_mul_le_self _ _) hcolumn
    exact ⟨hlt, (hcovers _ hlt).mpr rfl⟩
  · rintro k ⟨hk, hmem⟩
    exact ((hcovers k hk).mp hmem).symm

/-- **What a plan promises.** Of every accepted plan: whole elements, at most the width of the
atom, an aligned start, nothing outside the atom's row, and nothing at all (from the base) for an
atom that starts outside the matrix. Of the atoms of a row: each column is read once. -/
theorem planUniformCpAsyncSource_spec (matrix : GmemMatrixBounds) (atomBytes elementBytes : ℕ) :
    (∀ atom source,
      planUniformCpAsyncSource matrix atom atomBytes elementBytes = .ok source →
      let start := source.sourceOffset.elementOffset * elementBytes
      elementBytes ∣ source.sourceBytes ∧ source.sourceBytes ≤ atomBytes ∧ atomBytes ∣ start ∧
      (matrix.rows ≤ atom.row ∨ matrix.columns ≤ atom.column →
        source = ⟨0, .alignedFallback 0⟩) ∧
      (0 < source.sourceBytes → atom.row < matrix.rows ∧
        atom.row * matrix.leadingDim * elementBytes ≤ start ∧
        start + source.sourceBytes ≤
          (atom.row * matrix.leadingDim + matrix.columns) * elementBytes)) ∧
    (∀ row < matrix.rows, ∀ sources : ℕ → PredicatedSource,
      (∀ k, k * (atomBytes / elementBytes) < matrix.columns →
        planUniformCpAsyncSource matrix ⟨row, k * (atomBytes / elementBytes)⟩ atomBytes
          elementBytes = .ok (sources k)) →
      ∀ column < matrix.columns, ∃! k, k * (atomBytes / elementBytes) < matrix.columns ∧
        row * matrix.leadingDim + column ∈ (sources k).elements elementBytes) := by
  refine ⟨?_, fun row hrow sources hplans column hcolumn =>
    exists_unique_atom hrow hplans hcolumn⟩
  intro atom source h
  obtain ⟨hshape, ⟨houtside, rfl⟩ | ⟨hrow, hcol, -, -, haligned, rfl⟩⟩ :=
    planUniformCpAsyncSource_eq_ok.mp h
  · refine ⟨Nat.dvd_zero _, Nat.zero_le _, ?_, fun _ => rfl, fun hpos => absurd hpos ?_⟩
    · show atomBytes ∣ 0 * elementBytes
      rw [Nat.zero_mul]
      exact Nat.dvd_zero _
    · exact Nat.lt_irrefl 0
  · refine ⟨Nat.dvd_mul_left _ _, copied_le matrix atom atomBytes elementBytes, haligned,
      fun houtside => ?_, fun _ => ⟨hrow, ?_, ?_⟩⟩
    · omega
    · exact Nat.mul_le_mul_right _ (Nat.le_add_right _ _)
    · show startElement matrix atom * elementBytes +
        min (matrix.columns - atom.column) (atomBytes / elementBytes) * elementBytes ≤ _
      rw [← Nat.add_mul, startElement]
      refine Nat.mul_le_mul_right _ ?_
      omega

/-- Three rows of ten columns with padding: full, partial and outside atoms. -/
theorem planUniformCpAsyncSource_spec_padded :
    4 ∣ 8 ∧ ∃! k, k * 4 < 10 ∧ 1 * 12 + 9 ∈
      (PredicatedSource.elements (sourceInBounds ⟨3, 10, 12, 16⟩ ⟨1, k * 4⟩ 16 4) 4) := by
  obtain ⟨hplan, hrow⟩ := planUniformCpAsyncSource_spec ⟨3, 10, 12, 16⟩ 16 4
  have hsource := hplan ⟨1, 8⟩ ⟨8, .inBounds 20⟩ (by decide)
  refine ⟨hsource.1, hrow 1 (by decide) (fun k => sourceInBounds ⟨3, 10, 12, 16⟩ ⟨1, k * 4⟩ 16 4)
    ?_ 9 (by decide)⟩
  intro k hk
  have hk : k < 3 := by
    have hk : k * 4 < 10 := hk
    omega
  interval_cases k
  · decide
  · decide
  · decide

end CudaOxide.Cute
