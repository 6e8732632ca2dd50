import CudaOxide.Cute.Validation.Ldmatrix

namespace CudaOxide.Cute

open Lib

/-!
# Tiles that TMA can encode

`validation/tma.rs` accepts the row-major tiles that TMA writes, with at most one of the byte
swizzles `S<B,4,3>`, and names the alignment of the shared base that keeps a swizzle's phase.

* `validateTmaEncodable_ok` — what an accepted layout looks like.
* `tmaPhaseAlignmentBytes_spec` — the alignment is the smallest power of two that lets the swizzle
  move with the base.
* `validateTmaEncodable_safe`, `products_safe` — where the checks of this module and of `ldmatrix`
  do not panic.
-/

variable {l : ComposedLayout} {elementBytes columns : ℤ}

/-- The swizzle is one that TMA encodes, and its span is the pitch of the tile. -/
def validateTmaSwizzle (swizzle : Swizzle) (columns elementBytes : ℤ) :
    Run ValidationError Unit :=
  if swizzle.numBits = 0 then .ok () else do
    let mBytes ← I64.add swizzle.numBase (trailingZeros elementBytes)
    Run.reject (3 < swizzle.numBits ∨ mBytes ≠ 4 ∨ swizzle.numShift ≠ 3)
      (.invalidCount "swizzle is not one of TMA's encodable byte-unit S<B,4,3> modes"
        swizzle.numBits)
    let pitchBytes ← I64.mul columns elementBytes
    Run.reject (pitchBytes ≠ 16 * 2 ^ swizzle.numBits)
      (.invalidCount "swizzled TMA tile pitch must equal the swizzle span" pitchBytes)

/-- The tile of two modes is row-major and unshifted, and its swizzle can be encoded. -/
def validateTmaTile (smemLayout : ComposedLayout) (rowMode columnMode : Layout)
    (rows columns elementBytes : ℤ) : Run ValidationError Unit :=
  if rowMode.stride.flatten ≠ [columns] ∨ columnMode.stride.flatten ≠ [1] then do
    let value ← I64.mul rows columns
    Run.fail (.invalidCount
      "TMA tile must be row-major (row stride = columns, column stride = 1)" value)
  else do
    Run.reject (smemLayout.offset ≠ 0)
      (.invalidCount "TMA cannot express a composed offset" smemLayout.offset)
    validateTmaSwizzle smemLayout.inner columns elementBytes

/-- The layout is one of the arrangements that TMA can encode. -/
def validateTmaEncodable (smemLayout : ComposedLayout) (elementBytes : ℤ) :
    Run ValidationError Unit := do
  let elementBytes ← positiveCount "TMA element bytes" elementBytes
  let less ← I64.sub elementBytes 1
  Run.reject (BitVec.ofInt 64 elementBytes &&& BitVec.ofInt 64 less ≠ 0)
    (.invalidCount "TMA element byte width must be a power of two" elementBytes)
  Run.reject (smemLayout.unit ≠ .elements)
    (.invalidCount "TMA shared layout offsets must count elements" 0)
  match smemLayout.outer.modes with
  | [rowMode, columnMode] => do
    let rows ← Run.okOr rowMode.checkedSize (.arithmeticOverflow "TMA tile rows")
    let columns ← Run.okOr columnMode.checkedSize (.arithmeticOverflow "TMA tile columns")
    let rows ← positiveCount "TMA tile rows" rows
    let columns ← positiveCount "TMA tile columns" columns
    validateTmaTile smemLayout rowMode columnMode rows columns elementBytes
  | modes => Run.fail (.tvRank modes.length)

/-- The alignment of the shared base that one phase of the swizzle needs, in bytes. -/
def tmaPhaseAlignmentBytes (smemLayout : ComposedLayout) (elementBytes : ℤ) :
    Run ValidationError ℤ := do
  validateTmaEncodable smemLayout elementBytes
  if smemLayout.inner.numBits = 0 then .ok 16 else do
    let phaseBits := 4 + smemLayout.inner.numBits + 3
    Run.reject (4294967295 < phaseBits)
      (.arithmeticOverflow "TMA swizzle phase alignment exponent")
    Run.reject (64 ≤ phaseBits) (.arithmeticOverflow "TMA swizzle phase alignment")
    .ok (1#64 <<< phaseBits).toInt

/-! ### Accepted layouts -/

/-- The swizzles that TMA encodes, as the check leaves them. -/
structure TmaSwizzle (swizzle : Swizzle) (columns elementBytes : ℤ) : Prop where
  numBits : swizzle.numBits ≤ 3
  numBase : swizzle.numBase + trailingZeros elementBytes = 4
  numShift : swizzle.numShift = 3
  pitch : columns * elementBytes = 16 * 2 ^ swizzle.numBits

/-- A swizzle that is accepted is none, or one of the hardware's. -/
theorem validateTmaSwizzle_ok {s : Swizzle}
    (h : validateTmaSwizzle s columns elementBytes = .ok ()) :
    s.numBits = 0 ∨ TmaSwizzle s columns elementBytes := by
  unfold validateTmaSwizzle at h
  split at h
  · exact Or.inl ‹_›
  · simp only [I64.add, I64.mul, Run.bind_eq_ok, I64.exact_eq_ok, Run.reject_eq_ok, not_or, not_not,
      not_lt] at h
    obtain ⟨_, ⟨_, rfl⟩, _, ⟨hbits, hbase, hshift⟩, _, ⟨_, rfl⟩, hpitch⟩ := h
    exact Or.inr ⟨hbits, by exact_mod_cast hbase, hshift, hpitch⟩

/-- A row-major tile of `columns` columns. -/
def RowMajor (rowMode columnMode : Layout) (columns : ℤ) : Prop :=
  rowMode.stride.flatten = [columns] ∧ columnMode.stride.flatten = [1]

/-- What the encoder's check accepts: a row-major matrix of elements, without offset. -/
theorem validateTmaEncodable_ok (h : validateTmaEncodable l elementBytes = .ok ()) :
    l.unit = .elements ∧ l.offset = 0 ∧ ∃ rowMode columnMode columns,
      l.outer.modes = [rowMode, columnMode] ∧ columnMode.checkedSize = some columns ∧
      RowMajor rowMode columnMode columns ∧
      (l.inner.numBits = 0 ∨ TmaSwizzle l.inner columns elementBytes) := by
  simp only [validateTmaEncodable, Run.bind_eq_ok, positiveCount_eq_ok, Run.reject_eq_ok,
    not_not] at h
  obtain ⟨_, ⟨_, rfl⟩, _, _, _, _, _, hunit, h⟩ := h
  split at h
  · rename_i rowMode columnMode hmodes
    simp only [Run.bind_eq_ok, Run.okOr_eq_ok, positiveCount_eq_ok] at h
    obtain ⟨rows, _, columns, hcolumns, _, ⟨_, rfl⟩, _, ⟨_, rfl⟩, h⟩ := h
    unfold validateTmaTile at h
    split at h
    · obtain ⟨_, _, h⟩ := Run.bind_eq_ok.mp h
      cases h
    · rename_i hmajor
      obtain ⟨hrow, hcolumn⟩ := not_or.mp hmajor
      obtain ⟨_, hoffset, h⟩ := Run.bind_eq_ok.mp h
      exact ⟨hunit, not_not.mp (Run.reject_eq_ok.mp hoffset), rowMode, columnMode, columns, hmodes,
        hcolumns, ⟨not_not.mp hrow, not_not.mp hcolumn⟩, validateTmaSwizzle_ok h⟩
  · cases h

/-! ### The phase -/

/-- The byte swizzle of an accepted layout. -/
theorem up_eq_of_tmaSwizzle {s : Swizzle} (h : TmaSwizzle s columns elementBytes) :
    s.up (trailingZeros elementBytes) = ⟨s.numBits, 4, 3⟩ := by
  rw [Swizzle.up, h.numBase, h.numShift]

/-- A swizzle of the hardware is valid. -/
theorem valid_tmaSwizzle {s : Swizzle} (h : TmaSwizzle s columns elementBytes) :
    Swizzle.Valid ⟨s.numBits, 4, 3⟩ := by
  have hbits := h.numBits
  exact ⟨hbits, by show 4 + s.numBits + 3 ≤ 32; omega⟩

/-- **The alignment of the shared base.**  The byte swizzle of an accepted layout moves with every
base that is a multiple of the alignment, and when it has bits, with the multiples of no smaller
power of two. -/
theorem tmaPhaseAlignmentBytes_spec {alignment : ℤ}
    (h : tmaPhaseAlignmentBytes l elementBytes = .ok alignment) :
    (l.inner.up (trailingZeros elementBytes)).MovesWithBase alignment ∧
    (l.inner.numBits ≠ 0 → IsLeast {A | (∃ k : ℕ, A = 2 ^ k) ∧
      (l.inner.up (trailingZeros elementBytes)).MovesWithBase A} alignment) ∧
    ∀ b, l.toByteOffsets elementBytes = .ok b →
      b.inner = l.inner.up (trailingZeros elementBytes) := by
  obtain ⟨_, hencodable, h⟩ := Run.bind_eq_ok.mp h
  obtain ⟨hunit, -, rowMode, columnMode, columns, -, -, -, hswizzle⟩ :=
    validateTmaEncodable_ok hencodable
  have hbytes : ∀ b, l.toByteOffsets elementBytes = .ok b →
      b.inner = l.inner.up (trailingZeros elementBytes) := by
    intro b hb
    obtain ⟨k, hk, rfl, hinner⟩ := ComposedLayout.toByteOffsets_inner hunit hb
    rw [hinner, trailingZeros_two_pow hk]
  split at h
  · rename_i hbits
    refine ⟨?_, fun hne => absurd hbits hne, hbytes⟩
    intro base x _ _ _ _ _
    have hup : (l.inner.up (trailingZeros elementBytes)).numBits = 0 := hbits
    rw [Swizzle.apply_of_numBits_eq_zero hup, Swizzle.apply_of_numBits_eq_zero hup]
  · rename_i hbits
    have htma := hswizzle.resolve_left hbits
    have hle := htma.numBits
    simp only [Run.bind_eq_ok, Run.reject_eq_ok] at h
    obtain ⟨_, _, _, _, h⟩ := h
    have hleast := Swizzle.isLeast_movesWithBase (valid_tmaSwizzle htma) hbits
      (show (0 : ℤ) ≤ 3 by decide)
    have halign : alignment = 2 ^ Swizzle.fieldsEnd ⟨l.inner.numBits, 4, 3⟩ := by
      rw [← Except.ok.inj h]
      show (1#64 <<< (4 + l.inner.numBits + 3)).toInt = 2 ^ (4 + l.inner.numBits + 3)
      generalize l.inner.numBits = bits at hle
      interval_cases bits <;> rfl
    rw [up_eq_of_tmaSwizzle htma, halign]
    exact ⟨hleast.1.2, fun _ => hleast, up_eq_of_tmaSwizzle htma ▸ hbytes⟩

/-- Two-byte elements in rows of 128 bytes, with all three bits. -/
theorem tmaPhaseAlignmentBytes_spec_wide :
    ((Swizzle.mk 3 3 3).up (trailingZeros 2)).MovesWithBase 1024 :=
  (tmaPhaseAlignmentBytes_spec (l := ⟨⟨3, 3, 3⟩, 0, ⟨.tuple [.leaf 8, .leaf 64],
    .tuple [.leaf 64, .leaf 1]⟩, .elements, by decide⟩) (by decide +kernel)).1

/-! ### Panics -/

/-- The test of the bits is the test for a power of two. -/
theorem and_pred_eq_zero_iff (hpos : 0 < elementBytes) (hfits : I64.Fits elementBytes) :
    BitVec.ofInt 64 elementBytes &&& BitVec.ofInt 64 (elementBytes - 1) = 0 ↔
      ∃ k : ℕ, elementBytes = 2 ^ k := by
  obtain ⟨n, rfl⟩ := Int.eq_ofNat_of_zero_le hpos.le
  have hn : n ≠ 0 := by omega
  have hlt : n < 2 ^ 64 := by
    have := hfits.2
    omega
  have hless : ((n : ℤ) - 1) = ((n - 1 : ℕ) : ℤ) := by omega
  have hpow : (n &&& (n - 1)) = 0 ↔ ∃ k, n = 2 ^ k := Nat.and_sub_one_eq_zero_iff_isPowerOfTwo hn
  rw [hless, BitVec.ofInt_natCast, BitVec.ofInt_natCast, ← BitVec.toNat_inj, BitVec.toNat_and,
    BitVec.toNat_ofNat, BitVec.toNat_ofNat, Nat.mod_eq_of_lt hlt, Nat.mod_eq_of_lt (by omega)]
  refine hpow.trans ?_
  constructor
  · rintro ⟨k, rfl⟩
    exact ⟨k, by push_cast; rfl⟩
  · rintro ⟨k, hk⟩
    exact ⟨k, by exact_mod_cast hk⟩

/-- The swizzle passes every test before the one of the pitch. -/
def ReachesPitch (s : Swizzle) (elementBytes : ℤ) : Prop :=
  s.numBits ≠ 0 ∧ s.numBits ≤ 3 ∧ s.numBase + trailingZeros elementBytes = 4 ∧ s.numShift = 3

/-- The check of a swizzle overflows only in the pitch, where it gets that far. -/
theorem validateTmaSwizzle_safe {s : Swizzle} (hs : s.Valid) :
    (validateTmaSwizzle s columns elementBytes).Safe ↔
      (ReachesPitch s elementBytes → I64.Fits (columns * elementBytes)) := by
  have hzeros := trailingZeros_le elementBytes
  have hend := hs.2
  have hadd : I64.Fits (s.numBase + trailingZeros elementBytes) := ⟨by omega, by omega⟩
  unfold validateTmaSwizzle
  split
  · rename_i hbits
    exact iff_of_true (Run.Safe.ok _) fun h => absurd hbits h.1
  · rename_i hbits
    simp only [I64.add, I64.mul, Run.safe_bind, Run.safe_exact, Run.safe_reject, I64.exact_eq_ok,
      Run.reject_eq_ok, not_or, not_not, not_lt, implies_true, and_true, true_and]
    constructor
    · rintro ⟨-, h⟩ ⟨-, hle, hbase, hshift⟩
      exact h _ ⟨hadd, rfl⟩ () ⟨hle, by exact_mod_cast hbase, hshift⟩
    · intro h
      refine ⟨hadd, ?_⟩
      rintro _ ⟨-, rfl⟩ _ ⟨hle, hbase, hshift⟩
      exact h ⟨hbits, hle, by exact_mod_cast hbase, hshift⟩

/-- The products formed for a tile of two modes are `i64`s. -/
def TileProductsFit (l : ComposedLayout) (rowMode columnMode : Layout)
    (rows columns elementBytes : ℤ) : Prop :=
  (¬RowMajor rowMode columnMode columns → I64.Fits (rows * columns)) ∧
  (RowMajor rowMode columnMode columns → l.offset = 0 → ReachesPitch l.inner elementBytes →
    I64.Fits (columns * elementBytes))

/-- The check of a tile overflows only in its products. -/
theorem validateTmaTile_safe {rowMode columnMode : Layout} {rows : ℤ} :
    (validateTmaTile l rowMode columnMode rows columns elementBytes).Safe ↔
      TileProductsFit l rowMode columnMode rows columns elementBytes := by
  unfold validateTmaTile TileProductsFit
  split
  · rename_i hor
    have hmajor : ¬RowMajor rowMode columnMode columns := by
      rintro ⟨hrow, hcolumn⟩
      exact hor.elim (· hrow) (· hcolumn)
    simp only [I64.mul, Run.safe_bind, Run.safe_exact, Run.safe_fail, implies_true, and_true,
      hmajor, not_false_eq_true, forall_const, false_implies]
  · rename_i hor
    obtain ⟨hrow, hcolumn⟩ := not_or.mp hor
    have hmajor : RowMajor rowMode columnMode columns := ⟨not_not.mp hrow, not_not.mp hcolumn⟩
    simp only [Run.safe_bind, Run.safe_reject, Run.reject_eq_ok, not_not, true_and, hmajor,
      validateTmaSwizzle_safe l.valid, not_true_eq_false, false_implies, forall_const]

/-- The products that the check of a layout forms are `i64`s: the number of cells it reports of a
tile that is not row-major, and the pitch of one that passes all other tests. -/
def TmaProductsFit (l : ComposedLayout) (elementBytes : ℤ) : Prop :=
  (∃ k : ℕ, elementBytes = 2 ^ k) → l.unit = .elements →
    ∀ rowMode columnMode rows columns, l.outer.modes = [rowMode, columnMode] →
      rowMode.checkedSize = some rows → columnMode.checkedSize = some columns →
      TileProductsFit l rowMode columnMode rows columns elementBytes

/-- **When the check of a TMA tile does not panic.** -/
theorem validateTmaEncodable_safe (hfits : I64.Fits elementBytes) :
    (validateTmaEncodable l elementBytes).Safe ↔ TmaProductsFit l elementBytes := by
  constructor
  · rintro hsafe hpow hunit rowMode columnMode rows columns hmodes hrows hcolumns
    have hpos : 0 < elementBytes := by
      obtain ⟨k, rfl⟩ := hpow
      positivity
    have hless : I64.Fits (elementBytes - 1) := ⟨by omega, by have := hfits.2; omega⟩
    have hbits := (and_pred_eq_zero_iff hpos hfits).mpr hpow
    obtain ⟨hrowspos, hrowseq⟩ := checkedTupleSize_ok hrows
    obtain ⟨hcolumnspos, hcolumnseq⟩ := checkedTupleSize_ok hcolumns
    -- every step before the tile returns
    simp only [validateTmaEncodable, hmodes, Run.safe_bind] at hsafe
    have h := (hsafe.2 _ (positiveCount_eq_ok.mpr ⟨hpos, rfl⟩)).2 _ (I64.exact_of_fits hless)
    have h := (h.2 () (Run.reject_eq_ok.mpr (not_not.mpr hbits))).2 ()
      (Run.reject_eq_ok.mpr (not_not.mpr hunit))
    have h := (h.2 _ (Run.okOr_eq_ok.mpr hrows)).2 _ (Run.okOr_eq_ok.mpr hcolumns)
    have h := (h.2 _ (positiveCount_eq_ok.mpr ⟨hrowseq ▸ hrowspos.prod_pos, rfl⟩)).2 _
      (positiveCount_eq_ok.mpr ⟨hcolumnseq ▸ hcolumnspos.prod_pos, rfl⟩)
    exact validateTmaTile_safe.mp h
  · intro hcond
    refine (positiveCount_safe _ _).bind fun _ hcount => ?_
    obtain ⟨hpos, rfl⟩ := positiveCount_eq_ok.mp hcount
    refine Run.Safe.exact_bind ⟨by omega, by have := hfits.2; omega⟩ ?_
    refine (Run.Safe.reject _ _).bind fun _ hbits => ?_
    have hpow := (and_pred_eq_zero_iff hpos hfits).mp (not_not.mp (Run.reject_eq_ok.mp hbits))
    refine (Run.Safe.reject _ _).bind fun _ hunit => ?_
    have hunit := not_not.mp (Run.reject_eq_ok.mp hunit)
    split
    · rename_i rowMode columnMode hmodes
      refine (Run.Safe.okOr _ _).bind fun rows hrows => ?_
      refine (Run.Safe.okOr _ _).bind fun columns hcolumns => ?_
      refine (positiveCount_safe _ _).bind fun _ hcount => ?_
      obtain ⟨-, rfl⟩ := positiveCount_eq_ok.mp hcount
      refine (positiveCount_safe _ _).bind fun _ hcount => ?_
      obtain ⟨-, rfl⟩ := positiveCount_eq_ok.mp hcount
      exact validateTmaTile_safe.mpr (hcond hpow hunit rowMode columnMode rows columns hmodes
        (Run.okOr_eq_ok.mp hrows) (Run.okOr_eq_ok.mp hcolumns))
    · exact Run.Safe.fail _

/-- The alignment is computed without further panics. -/
theorem tmaPhaseAlignmentBytes_safe : (tmaPhaseAlignmentBytes l elementBytes).Safe ↔
    (validateTmaEncodable l elementBytes).Safe := by
  have hrest : ∀ u : Unit, validateTmaEncodable l elementBytes = .ok u →
      (if l.inner.numBits = 0 then .ok 16 else do
        Run.reject (4294967295 < 4 + l.inner.numBits + 3)
          (.arithmeticOverflow "TMA swizzle phase alignment exponent")
        Run.reject (64 ≤ 4 + l.inner.numBits + 3)
          (.arithmeticOverflow "TMA swizzle phase alignment")
        .ok (1#64 <<< (4 + l.inner.numBits + 3)).toInt : Run ValidationError ℤ).Safe := by
    intro _ _
    refine Run.Safe.ite (fun _ => Run.Safe.ok _) fun _ => ?_
    exact (Run.Safe.reject _ _).bind fun _ _ => (Run.Safe.reject _ _).bind fun _ _ => Run.Safe.ok _
  rw [tmaPhaseAlignmentBytes, Run.safe_bind]
  exact ⟨And.left, fun h => ⟨h, hrest⟩⟩

/-- **The products of the three checks.**  Each check returns, and reports a number of elements out
of range as an error, exactly where the products that it forms unchecked fit. -/
theorem layoutChecks_safe (l : ComposedLayout) (rows columns elementBytes : ℤ)
    (hfits : I64.Fits elementBytes) :
    ((validateLdmatrixSource l rows columns).Safe ∧ (¬I64.Fits (rows * columns) →
        ∃ e, validateLdmatrixSource l rows columns = Run.fail e) ↔
      (0 < rows → 0 < columns → 8 ∣ rows ∧ 8 ∣ columns ∨ I64.Fits (rows * columns))) ∧
    ((validateTmaEncodable l elementBytes).Safe ↔ TmaProductsFit l elementBytes) ∧
    ((tmaPhaseAlignmentBytes l elementBytes).Safe ↔ TmaProductsFit l elementBytes) := by
  refine ⟨?_, validateTmaEncodable_safe hfits,
    tmaPhaseAlignmentBytes_safe.trans (validateTmaEncodable_safe hfits)⟩
  rw [← validateLdmatrixSource_safe]
  exact ⟨And.left, fun hsafe => ⟨hsafe, fun hover => validateLdmatrixSource_fail hover hsafe⟩⟩

/-- A `16 × 8` tile of two-byte elements. -/
theorem layoutChecks_safe_small : (validateLdmatrixSource
    ⟨⟨0, 4, 3⟩, 0, ⟨.leaf 128, .leaf 2⟩, .bytes, by decide⟩ 16 8).Safe :=
  ((layoutChecks_safe _ 16 8 2 (by decide)).1.mpr fun _ _ => Or.inl ⟨by decide, by decide⟩).1

/-- Extents whose product is reported unchecked; a square of `2 ^ 32` columns of stride one, whose
cells are counted for the report; a single row of `2 ^ 62` elements of four bytes, whose pitch is
formed. -/
theorem layoutChecks_overflow :
    validateLdmatrixSource ⟨⟨0, 4, 3⟩, 0, ⟨.leaf 8, .leaf 2⟩, .bytes, by decide⟩ (2 ^ 62 + 1) 8 =
      Run.panic .overflow ∧
    validateTmaEncodable ⟨⟨0, 4, 3⟩, 0, ⟨.tuple [.leaf (2 ^ 32), .leaf (2 ^ 32)],
      .tuple [.leaf 1, .leaf 1]⟩, .elements, by decide⟩ 1 = Run.panic .overflow ∧
    tmaPhaseAlignmentBytes ⟨⟨3, 2, 3⟩, 0, ⟨.tuple [.leaf 1, .leaf (2 ^ 62)],
      .tuple [.leaf (2 ^ 62), .leaf 1]⟩, .elements, by decide⟩ 4 = Run.panic .overflow := by
  decide +kernel

end CudaOxide.Cute
