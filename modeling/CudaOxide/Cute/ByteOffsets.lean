import CudaOxide.Cute.Coordinates
import CudaOxide.Cute.Swizzle

namespace CudaOxide.Cute

open Lib Strided

/-!
# From elements to bytes

`to_byte_offsets` of `cute-layout/src/composed.rs` scales the strides and the fixed offset of a
composed layout by the size of an element, and moves both fields of its swizzle up.

* `Swizzle.apply_up` — the moved swizzle of a scaled offset is the scaled swizzle of the offset.
* `offsetAt_scale`, `offsetFits_of_scale` — scaling the strides scales every offset, and whatever
  fits scaled fits unscaled.
* `toByteOffsets_checkedCall` — the byte form of a layout, coordinate by coordinate.
-/

/-- What fits scaled fits unscaled. -/
theorem fits_of_scale {x e : ℤ} (he : 0 < e) (h : I64.Fits (x * e)) : I64.Fits x := by
  obtain ⟨hlow, hhigh⟩ := h
  rcases le_or_gt 0 x with h0 | h0
  · have hle : x * 1 ≤ x * e := Int.mul_le_mul_of_nonneg_left he h0
    exact ⟨by omega, by omega⟩
  · have hle : x * e ≤ x * 1 := Int.mul_le_mul_of_nonpos_left h0.le he
    exact ⟨by omega, by omega⟩

/-! ### The exponent of an element size -/

/-- The check accepts powers of two only. -/
theorem exists_two_pow {e : ℤ} (h : isPositivePowerOfTwo e = true) : ∃ k : ℕ, e = 2 ^ k := by
  simp only [isPositivePowerOfTwo, decide_eq_true_eq] at h
  obtain ⟨hpos, hlog⟩ := h
  refine ⟨e.toNat.log2, ?_⟩
  calc e = (e.toNat : ℤ) := (Int.toNat_of_nonneg hpos.le).symm
    _ = 2 ^ e.toNat.log2 := by exact_mod_cast hlog

/-- The exponent of a power of two is read off its trailing zeros. -/
theorem trailingZeros_two_pow {k : ℕ} (hk : k < 64) : trailingZeros (2 ^ k) = k := by
  have hbit : ∀ i, (BitVec.ofInt 64 (2 ^ k)).getLsbD i = decide (i = k) := by
    intro i
    have hcast : ((2 : ℤ) ^ k) = ((2 ^ k : ℕ) : ℤ) := by push_cast; rfl
    rw [hcast, BitVec.ofInt_natCast, BitVec.getLsbD_ofNat, Nat.testBit_two_pow]
    by_cases hik : k = i
    · subst hik
      simp [hk]
    · simp [hik, Ne.symm hik]
  simp only [trailingZeros, hbit]
  have hfind : (List.range 64).find? (fun i => decide (i = k)) = some k := by
    rw [List.find?_eq_some_iff_getElem]
    refine ⟨by simp, k, by simpa using hk, by simp, ?_⟩
    intro j hj
    simpa using hj.ne
  rw [hfind]
  rfl

/-- No element size beyond `2 ^ 63` has a small exponent. -/
theorem trailingZeros_two_pow_of_le {k : ℕ} (hk : 64 ≤ k) : trailingZeros (2 ^ k) = 64 := by
  have hzero : BitVec.ofInt 64 (2 ^ k) = 0#64 := by
    apply BitVec.eq_of_toNat_eq
    rw [BitVec.toNat_ofInt]
    have hdvd : ((2 ^ 64 : ℕ) : ℤ) ∣ 2 ^ k := by
      push_cast
      exact pow_dvd_pow 2 hk
    rw [Int.emod_eq_zero_of_dvd hdvd]
    rfl
  rw [trailingZeros, hzero]
  rfl

/-- A word of 64 bits has at most 64 trailing zeros. -/
theorem trailingZeros_le (n : ℤ) : trailingZeros n ≤ 64 := by
  unfold trailingZeros
  cases hfind : (List.range 64).find? fun i => (BitVec.ofInt 64 n).getLsbD i with
  | none => exact le_rfl
  | some i => exact (List.mem_range.mp (List.mem_of_find?_eq_some hfind)).le

namespace Swizzle

variable {s : Swizzle} {k : ℕ} {x : ℤ}

/-- Both fields moved `k` bits up. -/
def up (s : Swizzle) (k : ℕ) : Swizzle := ⟨s.numBits, s.numBase + k, s.numShift⟩

/-- A swizzle that is shifted up ends higher by the shift. -/
theorem fieldsEnd_up (s : Swizzle) (k : ℕ) : (s.up k).fieldsEnd = s.fieldsEnd + k := by
  show s.numBase + k + s.numBits + s.numShift.natAbs = s.numBase + s.numBits + s.numShift.natAbs + k
  omega

/-- The bits it moves are shifted along. -/
theorem moved_up (s : Swizzle) (k x : ℕ) : (s.up k).moved (x * 2 ^ k) = s.moved x * 2 ^ k := by
  have hsource : s.numBase + k + s.numShift.toNat = s.numBase + s.numShift.toNat + k := by omega
  have htarget : s.numBase + k + (-s.numShift).toNat = s.numBase + (-s.numShift).toNat + k := by
    omega
  rw [moved_eq, moved_eq]
  simp only [up]
  rw [hsource, htarget, pow_add 2 _ k, pow_add 2 _ k,
    Nat.mul_div_mul_right _ _ (Nat.two_pow_pos k), Nat.mul_assoc]

/-- Scaling the offset and moving the fields up scales the swizzled offset, for either direction of
the shift and either sign of the offset. -/
theorem apply_up (h : s.Valid) (hup : (s.up k).Valid) (hx : I64.Fits (x * 2 ^ k)) :
    (s.up k).apply (x * 2 ^ k) = s.apply x * 2 ^ k := by
  have hfits : I64.Fits x := fits_of_scale (by positivity) hx
  have hend := fieldsEnd_le h
  have hendup := fieldsEnd_le hup
  -- split the offset behind the fields
  obtain ⟨q, r, hrlt, rfl⟩ := exists_low_bits s.fieldsEnd x
  have hscaled : (q * 2 ^ s.fieldsEnd + r) * 2 ^ k =
      q * 2 ^ (s.up k).fieldsEnd + ((r * 2 ^ k : ℕ) : ℤ) := by
    rw [fieldsEnd_up]
    push_cast
    ring
  have hxor : r * 2 ^ k ^^^ s.moved r * 2 ^ k = (r ^^^ s.moved r) * 2 ^ k := by
    rw [← Nat.shiftLeft_eq, ← Nat.shiftLeft_eq, ← Nat.shiftLeft_eq, Nat.shiftLeft_xor_distrib]
  have hrup : r * 2 ^ k < 2 ^ (s.up k).fieldsEnd := by
    rw [fieldsEnd_up, pow_add]
    exact Nat.mul_lt_mul_of_pos_right hrlt (Nat.two_pow_pos k)
  rw [hscaled] at hx ⊢
  rw [apply_add hup le_rfl (by omega) hrup hx, moved_up, hxor,
    apply_add h le_rfl (by omega) hrlt hfits, fieldsEnd_up]
  push_cast
  ring

end Swizzle

/-! ### Scaled strides -/

variable {e : ℤ}

/-- Scaled strides scale the walk. -/
theorem eval_zip_scale (ns ds : List ℤ) (e c : ℤ) :
    eval (ns.zip (ds.map (· * e))) c = eval (ns.zip ds) c * e := by
  induction ns generalizing ds c with
  | nil => simp
  | cons n ns ih =>
    cases ds with
    | nil => simp
    | cons d ds =>
      simp only [List.map_cons, List.zip_cons_cons, eval_cons, ih]
      ring

mutual

/-- The parentheses stay, and every leaf is scaled. -/
theorem checkedScaleTuple_spec : {d d' : IntTuple} → checkedScaleTuple e d = some d' →
    (∀ s : IntTuple, s.Congruent d' ↔ s.Congruent d) ∧ d'.flatten = d.flatten.map (· * e)
  | .leaf v, d', h => by
    simp only [checkedScaleTuple, Option.map_eq_some_iff, I64.checkedMul_eq_some] at h
    obtain ⟨_, ⟨_, rfl⟩, rfl⟩ := h
    refine ⟨?_, rfl⟩
    rintro (_ | _) <;> simp
  | .tuple ts, d', h => by
    simp only [checkedScaleTuple, Option.map_eq_some_iff] at h
    obtain ⟨ts', hts, rfl⟩ := h
    obtain ⟨hcs, hflats⟩ := checkedScaleTuples_spec hts
    refine ⟨?_, hflats⟩
    rintro (_ | ss)
    · simp
    · exact hcs ss

/-- Scaling keeps the tree and multiplies every stride. -/
theorem checkedScaleTuples_spec : {ds ds' : List IntTuple} → checkedScaleTuples e ds = some ds' →
    (∀ ss : List IntTuple, IntTuple.CongruentAll ss ds' ↔ IntTuple.CongruentAll ss ds) ∧
      IntTuple.flattenAll ds' = (IntTuple.flattenAll ds).map (· * e)
  | [], ds', h => by
    cases h
    exact ⟨fun _ => Iff.rfl, rfl⟩
  | d :: ds, ds', h => by
    simp only [checkedScaleTuples, Option.bind_eq_bind, Option.bind_eq_some_iff] at h
    obtain ⟨d', hd, ds', hds, heq⟩ := h
    cases heq
    obtain ⟨hc, hflat⟩ := checkedScaleTuple_spec hd
    obtain ⟨hcs, hflats⟩ := checkedScaleTuples_spec hds
    refine ⟨?_, ?_⟩
    · rintro (_ | ⟨s, ss⟩)
      · simp
      · simp [hc, hcs]
    · rw [IntTuple.flattenAll_cons, hflat, hflats, IntTuple.flattenAll_cons, List.map_append]

end

/-- So a tree with scaled strides scales every offset. -/
theorem eval_scale {s d d' : IntTuple} (h : checkedScaleTuple e d = some d') (c : ℤ) :
    eval (s.flatten.zip d'.flatten) c = eval (s.flatten.zip d.flatten) c * e := by
  rw [(checkedScaleTuple_spec h).2, eval_zip_scale]

mutual

/-- Scaling the strides scales every offset. -/
theorem offsetAt_scale : {c s d d' : IntTuple} → checkedScaleTuple e d = some d' →
    offsetAt c s d' = offsetAt c s d * e
  | .leaf c, s, d, d', h => by
    rw [offsetAt_leaf, offsetAt_leaf, eval_scale h]
  | .tuple cs, .tuple ss, .tuple ds, d', h => by
    simp only [checkedScaleTuple, Option.map_eq_some_iff] at h
    obtain ⟨ds', hds, rfl⟩ := h
    rw [offsetAt_tuple, offsetAt_tuple, offsetAtAll_scale hds]
  | .tuple cs, .leaf s, d, d', h => by
    rw [offsetAt, offsetAt, zero_mul] <;> simp
  | .tuple cs, .tuple ss, .leaf d, d', h => by
    simp only [checkedScaleTuple, Option.map_eq_some_iff] at h
    obtain ⟨_, _, rfl⟩ := h
    rw [offsetAt, offsetAt, zero_mul] <;> simp

/-- Scaled strides scale the offset of every coordinate. -/
theorem offsetAtAll_scale : {cs ss ds ds' : List IntTuple} → checkedScaleTuples e ds = some ds' →
    offsetAtAll cs ss ds' = offsetAtAll cs ss ds * e
  | c :: cs, s :: ss, d :: ds, ds', h => by
    simp only [checkedScaleTuples, Option.bind_eq_bind, Option.bind_eq_some_iff] at h
    obtain ⟨d', hd, ds', hds, heq⟩ := h
    cases heq
    rw [offsetAtAll, offsetAtAll, offsetAt_scale hd, offsetAtAll_scale hds, add_mul]
  | [], ss, ds, ds', h => by
    simp [offsetAtAll]
  | c :: cs, [], ds, ds', h => by
    simp [offsetAtAll]
  | c :: cs, s :: ss, [], ds', h => by
    cases h
    simp [offsetAtAll]

end

mutual

/-- Whatever fits with the strides scaled fits. -/
theorem offsetFits_of_scale (he : 0 < e) : {c s d d' : IntTuple} →
    checkedScaleTuple e d = some d' → OffsetFits c s d' → OffsetFits c s d
  | .leaf c, .leaf s, .leaf d, d', h, hfits => by
    simp only [checkedScaleTuple, Option.map_eq_some_iff, I64.checkedMul_eq_some] at h
    obtain ⟨_, ⟨_, rfl⟩, rfl⟩ := h
    rw [OffsetFits] at hfits ⊢
    exact fits_of_scale he (by rwa [Int.mul_assoc])
  | .tuple cs, .tuple ss, .tuple ds, d', h, hfits => by
    simp only [checkedScaleTuple, Option.map_eq_some_iff] at h
    obtain ⟨ds', hds, rfl⟩ := h
    rw [OffsetFits] at hfits ⊢
    exact offsetFitsTuple_of_scale he hds (by rwa [zero_mul])
  | .leaf c, .tuple ss, .tuple ds, d', h, hfits => by
    simp only [checkedScaleTuple, Option.map_eq_some_iff] at h
    obtain ⟨ds', hds, rfl⟩ := h
    rw [OffsetFits] at hfits ⊢
    exact ⟨hfits.1, offsetFitsFlat_of_scale he hds (by rw [zero_mul]; exact hfits.2)⟩
  | .tuple cs, .leaf s, d, d', _, _ => by rw [OffsetFits] <;> simp
  | .tuple cs, .tuple ss, .leaf d, d', _, _ => by rw [OffsetFits] <;> simp
  | .leaf c, .leaf s, .tuple ds, d', _, _ => by rw [OffsetFits] <;> simp
  | .leaf c, .tuple ss, .leaf d, d', _, _ => by rw [OffsetFits] <;> simp

/-- What fits after the scaling fitted before. -/
theorem offsetFitsTuple_of_scale (he : 0 < e) : {ss cs ds ds' : List IntTuple} → {sum : ℤ} →
    checkedScaleTuples e ds = some ds' → OffsetFitsTuple (sum * e) cs ss ds' →
    OffsetFitsTuple sum cs ss ds
  | s :: ss, c :: cs, d :: ds, ds', sum, h, hfits => by
    simp only [checkedScaleTuples, Option.bind_eq_bind, Option.bind_eq_some_iff] at h
    obtain ⟨d', hd, ds', hds, heq⟩ := h
    cases heq
    rw [OffsetFitsTuple, offsetAt_scale hd, ← add_mul] at hfits
    rw [OffsetFitsTuple]
    obtain ⟨hfit, hsum, hfits⟩ := hfits
    exact ⟨offsetFits_of_scale he hd hfit, fits_of_scale he hsum,
      offsetFitsTuple_of_scale he hds hfits⟩
  | [], cs, ds, ds', sum, _, _ => by rw [OffsetFitsTuple] <;> simp
  | s :: ss, [], ds, ds', sum, _, _ => by rw [OffsetFitsTuple] <;> simp
  | s :: ss, c :: cs, [], ds', sum, _, _ => by rw [OffsetFitsTuple] <;> simp

/-- The same for a flat coordinate. -/
theorem offsetFitsFlat_of_scale (he : 0 < e) : {ss ds ds' : List IntTuple} → {rem idx : ℤ} →
    checkedScaleTuples e ds = some ds' → OffsetFitsFlat rem (idx * e) ss ds' →
    OffsetFitsFlat rem idx ss ds
  | s :: ss, d :: ds, ds', rem, idx, h, hfits => by
    simp only [checkedScaleTuples, Option.bind_eq_bind, Option.bind_eq_some_iff] at h
    obtain ⟨d', hd, ds', hds, heq⟩ := h
    cases heq
    rw [OffsetFitsFlat, offsetAt_scale hd, ← add_mul] at hfits
    rw [OffsetFitsFlat]
    obtain ⟨hfit, hsum, hfits⟩ := hfits
    exact ⟨offsetFits_of_scale he hd hfit, fits_of_scale he hsum,
      offsetFitsFlat_of_scale he hds hfits⟩
  | [], ds, ds', rem, idx, _, _ => by rw [OffsetFitsFlat] <;> simp
  | s :: ss, [], ds', rem, idx, _, _ => by rw [OffsetFitsFlat] <;> simp

end

namespace ComposedLayout

variable {a b : ComposedLayout} {c : IntTuple} {v : ℤ}

/-! ### The byte form -/

/-- The checked call: the outer offset, the sum, then the swizzle. -/
theorem checkedCall_eq_some : a.checkedCall c = some v ↔ ∃ o, a.outer.checkedCall c = some o ∧
    I64.Fits (a.offset + o) ∧ v = a.inner.apply (a.offset + o) := by
  simp only [checkedCall, checkedCallWithOuterDelta, Option.bind_eq_bind, Option.bind_eq_some_iff,
    I64.checkedAdd_eq_some]
  constructor
  · rintro ⟨o, ho, _, ⟨hfits, rfl⟩, _, ⟨_, rfl⟩, hv⟩
    rw [add_zero] at hv
    exact ⟨o, ho, hfits, (Option.some.inj hv).symm⟩
  · rintro ⟨o, ho, hfits, rfl⟩
    exact ⟨o, ho, _, ⟨hfits, rfl⟩, _, ⟨by rwa [add_zero], rfl⟩, by rw [add_zero]⟩

/-- What the checked call returns is an `i64`. -/
theorem fits_of_checkedCall (h : a.checkedCall c = some v) : I64.Fits v := by
  obtain ⟨o, -, hfits, rfl⟩ := checkedCall_eq_some.mp h
  obtain ⟨w, happ, -⟩ := Swizzle.exists_word_apply a.valid hfits
  have hlow := w.le_toInt
  have hhigh := w.toInt_lt
  rw [← happ]
  exact ⟨hlow, by omega⟩

/-- The element size is a power of two, and the fields of the swizzle move up by its exponent. -/
theorem toByteOffsets_inner (hunit : a.unit = .elements) (hb : a.toByteOffsets e = .ok b) :
    ∃ k < 64, e = 2 ^ k ∧ b.inner = a.inner.up k := by
  simp only [toByteOffsets, hunit, reduceCtorEq, if_false, Run.bind_eq_ok, Run.reject_eq_ok] at hb
  obtain ⟨_, hpow, _, _, hb⟩ := hb
  obtain ⟨k, rfl⟩ := exists_two_pow (by simpa using hpow)
  by_cases hinner : Swizzle.Valid ⟨a.inner.numBits, a.inner.numBase + trailingZeros (2 ^ k),
      a.inner.numShift⟩
  · rw [dif_pos hinner] at hb
    simp only [Run.bind_eq_ok, Run.okOr_eq_ok, Layout.new] at hb
    obtain ⟨_, _, _, _, _, _, hb⟩ := hb
    cases hb
    have hk : k < 64 := by
      by_contra hk
      have hend : a.inner.numBase + trailingZeros (2 ^ k) + a.inner.numBits +
          a.inner.numShift.natAbs ≤ 32 := hinner.2
      rw [trailingZeros_two_pow_of_le (by omega)] at hend
      omega
    refine ⟨k, hk, rfl, ?_⟩
    show a.inner.up (trailingZeros (2 ^ k)) = a.inner.up k
    rw [trailingZeros_two_pow hk]
  · rw [dif_neg hinner] at hb
    cases hb

/-- The byte form evaluates a coordinate exactly where the element form does and the scaled numbers
stay in the `i64` range, to the scaled offset. -/
theorem toByteOffsets_checkedCall (hunit : a.unit = .elements) (hb : a.toByteOffsets e = .ok b) :
    b.checkedCall c = some v ↔ ∃ w, a.checkedCall c = some w ∧ v = e * w ∧
      OffsetFits c b.outer.shape b.outer.stride ∧
      I64.Fits (b.offset + offsetAt c b.outer.shape b.outer.stride) := by
  obtain ⟨_, _, hoffset, hshape, hstride⟩ := toByteOffsets_elements hunit hb
  obtain ⟨k, -, rfl, hinner⟩ := toByteOffsets_inner hunit hb
  have hpos : (0 : ℤ) < 2 ^ k := by positivity
  have hcong : b.outer.shape.Congruent b.outer.stride ↔ a.outer.shape.Congruent a.outer.stride := by
    rw [hshape]
    exact (checkedScaleTuple_spec hstride).1 a.outer.shape
  have hsum : b.offset + offsetAt c b.outer.shape b.outer.stride =
      (a.offset + offsetAt c a.outer.shape a.outer.stride) * 2 ^ k := by
    rw [hoffset, hshape, offsetAt_scale hstride, add_mul]
  have hvalid : (a.inner.up k).Valid := hinner ▸ b.valid
  simp only [checkedCall_eq_some, Layout.checkedCall, checkedCrd2idx_iff]
  constructor
  · rintro ⟨o, ⟨hc, hp, hcoord, hfits, rfl⟩, hin, rfl⟩
    rw [hsum] at hin
    refine ⟨_, ⟨_, ⟨hcong.mp hc, hshape ▸ hp, hshape ▸ hcoord, ?_, rfl⟩, fits_of_scale hpos hin,
      rfl⟩, ?_, hfits, by rwa [hsum]⟩
    · rw [hshape] at hfits
      exact offsetFits_of_scale hpos hstride hfits
    · rw [hsum, hinner, Swizzle.apply_up a.valid hvalid hin, Int.mul_comm]
  · rintro ⟨w, ⟨o, ⟨hc, hp, hcoord, -, rfl⟩, -, rfl⟩, rfl, hfits, hin⟩
    refine ⟨_, ⟨hcong.mpr hc, hshape ▸ hp, hshape ▸ hcoord, hfits, rfl⟩, hin, ?_⟩
    rw [hsum] at hin
    rw [hsum, hinner, Swizzle.apply_up a.valid hvalid hin, Int.mul_comm]

/-- **Converting to bytes.**  The result counts bytes, and converting it again leaves it as it is;
where its evaluation returns an offset, the element form returns it divided by the size of an
element; and where the element form returns one, so does the byte form unless a scaled number leaves
the `i64` range. -/
theorem toByteOffsets_spec (hunit : a.unit = .elements) (hb : a.toByteOffsets e = .ok b) :
    b.unit = .bytes ∧ (∀ e', b.toByteOffsets e' = .ok b) ∧
    (∀ c v, b.checkedCall c = some v → ∃ w, a.checkedCall c = some w ∧ v = e * w) ∧
    ∀ c w, a.checkedCall c = some w → OffsetFits c b.outer.shape b.outer.stride →
      I64.Fits (b.offset + offsetAt c b.outer.shape b.outer.stride) →
      b.checkedCall c = some (e * w) := by
  obtain ⟨hbytes, -⟩ := toByteOffsets_elements hunit hb
  refine ⟨hbytes, ?_, ?_, ?_⟩
  · intro e'
    rw [toByteOffsets, if_pos hbytes]
  · intro c v hv
    obtain ⟨w, hw, hvw, -⟩ := (toByteOffsets_checkedCall hunit hb).mp hv
    exact ⟨w, hw, hvw⟩
  · intro c w hw hfits hin
    exact (toByteOffsets_checkedCall hunit hb).mpr ⟨w, hw, rfl, hfits, hin⟩

/-- Four-byte elements behind a negative offset, with a shift to the left. -/
theorem toByteOffsets_spec_negative : ∃ w,
    (ComposedLayout.mk ⟨2, 2, -3⟩ (-5) ⟨.tuple [.leaf 2, .leaf 3], .tuple [.leaf 3, .leaf 1]⟩
      .elements (by decide)).checkedCall (.tuple [.leaf 0, .leaf 2]) = some w ∧ -396 = 4 * w :=
  (toByteOffsets_spec (b := ⟨⟨2, 4, -3⟩, -20, ⟨.tuple [.leaf 2, .leaf 3],
    .tuple [.leaf 12, .leaf 4]⟩, .bytes, by decide⟩) rfl rfl).2.2.1 _ _ (by decide +kernel)

/-- The three strides cancel at the corner of the element layout; in bytes the first two already add
up to `2 ^ 63`, and the corner has no offset. -/
theorem toByteOffsets_overflows :
    (ComposedLayout.mk ⟨0, 4, 3⟩ 0 ⟨.tuple [.leaf 2, .leaf 2, .leaf 2],
        .tuple [.leaf (2 ^ 61), .leaf (2 ^ 61), .leaf (-2 ^ 62)]⟩ .elements
          (by decide)).toByteOffsets
      2 = .ok ⟨⟨0, 5, 3⟩, 0, ⟨.tuple [.leaf 2, .leaf 2, .leaf 2],
        .tuple [.leaf (2 ^ 62), .leaf (2 ^ 62), .leaf (-2 ^ 63)]⟩, .bytes, by decide⟩ ∧
    (ComposedLayout.mk ⟨0, 4, 3⟩ 0 ⟨.tuple [.leaf 2, .leaf 2, .leaf 2],
        .tuple [.leaf (2 ^ 61), .leaf (2 ^ 61), .leaf (-2 ^ 62)]⟩ .elements (by decide)).checkedCall
      (.tuple [.leaf 1, .leaf 1, .leaf 1]) = some 0 ∧
    (ComposedLayout.mk ⟨0, 5, 3⟩ 0 ⟨.tuple [.leaf 2, .leaf 2, .leaf 2],
        .tuple [.leaf (2 ^ 62), .leaf (2 ^ 62), .leaf (-2 ^ 63)]⟩ .bytes (by decide)).checkedCall
      (.tuple [.leaf 1, .leaf 1, .leaf 1]) = none :=
  ⟨rfl, by decide +kernel, by decide +kernel⟩

end ComposedLayout

end CudaOxide.Cute
