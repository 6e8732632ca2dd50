import CudaOxide.Cute.Layout

namespace CudaOxide.Cute

open Lib Strided

/-!
# Coordinates of a layout

What `checked_call` of `cute-layout/src/layout.rs` accepts.  A coordinate follows the parentheses of
the shape, and one number may stand for a whole group; such a flat coordinate is unpacked leftmost
mode fastest.

* `IsCoord` — the coordinates of a shape that are in range; `offsetAt` — their offsets over `ℤ`.
* `OffsetFits` — every number that the evaluation forms is an `i64`.
* `checkedCrd2idx_iff` — the checked evaluator returns the offset exactly for such coordinates.
* `offsetFits_of_forward` — with strides that run forward nothing overflows that the offset does
  not.
-/

variable {ε : Type}

/-! ### Coordinates over the integers -/

/-- Every extent of a shape is positive. -/
def Positive (ns : List ℤ) : Prop := ∀ n ∈ ns, 0 < n

instance (ns : List ℤ) : Decidable (Positive ns) := inferInstanceAs (Decidable (∀ n ∈ ns, 0 < n))

mutual

/-- The coordinate has the parentheses of the shape, where a number may stand for a whole group, and
every number is in range. -/
def IsCoord : IntTuple → IntTuple → Prop
  | .leaf c, s => 0 ≤ c ∧ c < s.flatten.prod
  | .tuple cs, .tuple ss => IsCoordAll cs ss
  | .tuple _, .leaf _ => False

/-- The coordinates of each mode are in range. -/
def IsCoordAll : List IntTuple → List IntTuple → Prop
  | [], [] => True
  | c :: cs, s :: ss => IsCoord c s ∧ IsCoordAll cs ss
  | _, _ => False

end

mutual

/-- The offset of a coordinate over `ℤ`: a number walks the flat modes of its group. -/
def offsetAt : IntTuple → IntTuple → IntTuple → ℤ
  | .leaf c, s, d => eval (s.flatten.zip d.flatten) c
  | .tuple cs, .tuple ss, .tuple ds => offsetAtAll cs ss ds
  | .tuple _, _, _ => 0

/-- The sum of the offsets of the modes. -/
def offsetAtAll : List IntTuple → List IntTuple → List IntTuple → ℤ
  | c :: cs, s :: ss, d :: ds => offsetAt c s d + offsetAtAll cs ss ds
  | _, _, _ => 0

end

mutual

/-- No number that the evaluation of a coordinate forms leaves the `i64` range: the cells of a group
that is unpacked, the contributions of the leaves, and the partial sums. -/
def OffsetFits : IntTuple → IntTuple → IntTuple → Prop
  | .leaf c, .leaf _, .leaf d => I64.Fits (c * d)
  | .tuple cs, .tuple ss, .tuple ds => OffsetFitsTuple 0 cs ss ds
  | .leaf c, .tuple ss, .tuple ds =>
    I64.Fits (IntTuple.flattenAll ss).prod ∧ OffsetFitsFlat c 0 ss ds
  | _, _, _ => True
termination_by structural _ s => s

/-- No sum of the loop over a tuple overflows. -/
def OffsetFitsTuple (sum : ℤ) : List IntTuple → List IntTuple → List IntTuple → Prop
  | c :: cs, s :: ss, d :: ds =>
    OffsetFits c s d ∧ I64.Fits (sum + offsetAt c s d) ∧
      OffsetFitsTuple (sum + offsetAt c s d) cs ss ds
  | _, _, _ => True
termination_by structural _ ss => ss

/-- No sum of the loop over a flat coordinate overflows. -/
def OffsetFitsFlat (rem idx : ℤ) : List IntTuple → List IntTuple → Prop
  | s :: ss, d :: ds =>
    OffsetFits (.leaf (rem % s.flatten.prod)) s d ∧
      I64.Fits (idx + offsetAt (.leaf rem) s d) ∧
      OffsetFitsFlat (rem / s.flatten.prod) (idx + offsetAt (.leaf rem) s d) ss ds
  | _, _ => True
termination_by structural ss => ss

end

/-- A flat coordinate is in range below the number of cells. -/
@[simp] theorem isCoord_leaf {c : ℤ} {s : IntTuple} :
    IsCoord (.leaf c) s ↔ 0 ≤ c ∧ c < s.flatten.prod := by
  rw [IsCoord]

/-- A tuple is in range mode by mode. -/
@[simp] theorem isCoord_tuple {cs ss : List IntTuple} :
    IsCoord (.tuple cs) (.tuple ss) ↔ IsCoordAll cs ss := by
  rw [IsCoord]

@[simp] theorem isCoordAll_cons {c s : IntTuple} {cs ss : List IntTuple} :
    IsCoordAll (c :: cs) (s :: ss) ↔ IsCoord c s ∧ IsCoordAll cs ss := by
  rw [IsCoordAll]

@[simp] theorem offsetAt_leaf {c : ℤ} {s d : IntTuple} :
    offsetAt (.leaf c) s d = eval (s.flatten.zip d.flatten) c := by
  rw [offsetAt]

@[simp] theorem offsetAt_tuple {cs ss ds : List IntTuple} :
    offsetAt (.tuple cs) (.tuple ss) (.tuple ds) = offsetAtAll cs ss ds := by
  rw [offsetAt]

/-- A coordinate in range has one part for each mode. -/
theorem IsCoordAll.length_eq {cs ss : List IntTuple} (h : IsCoordAll cs ss) :
    cs.length = ss.length := by
  induction cs generalizing ss with
  | nil =>
    cases ss with
    | nil => rfl
    | cons s ss => exact absurd h (by simp [IsCoordAll])
  | cons c cs ih =>
    cases ss with
    | nil => exact absurd h (by simp [IsCoordAll])
    | cons s ss => rw [List.length_cons, List.length_cons, ih (isCoordAll_cons.mp h).2]

/-! ### The number of cells -/

@[simp] theorem positive_nil : Positive [] := List.forall_mem_nil _

@[simp] theorem positive_append {ms ns : List ℤ} :
    Positive (ms ++ ns) ↔ Positive ms ∧ Positive ns := List.forall_mem_append

/-- Positive extents have a positive product. -/
theorem Positive.prod_pos {ns : List ℤ} (h : Positive ns) : 0 < ns.prod :=
  List.prod_pos h

/-- The extents of a walk are those of its shape. -/
theorem pos_zip {ns ds : List ℤ} (h : Positive ns) : Pos (ns.zip ds) := fun m hm =>
  h m.1 (List.of_mem_zip hm).1

/-- A number below one that fits fits. -/
theorem fits_of_le {x y : ℤ} (h0 : 0 ≤ x) (hxy : x ≤ y) (hy : I64.Fits y) : I64.Fits x :=
  ⟨by omega, hxy.trans hy.2⟩

/-- The factors of a product that fits. -/
theorem fits_of_mul {x y : ℤ} (hx : 0 < x) (hy : 0 < y) (h : I64.Fits (x * y)) :
    I64.Fits x ∧ I64.Fits y :=
  ⟨fits_of_le hx.le (le_mul_of_one_le_right hx.le hy) h,
    fits_of_le hy.le (le_mul_of_one_le_left hy.le hx) h⟩

mutual

/-- The checked size is the product of positive extents. -/
theorem checkedTupleSize_ok : {t : IntTuple} → {n : ℤ} → checkedTupleSize t = some n →
    Positive t.flatten ∧ n = t.flatten.prod
  | .leaf v, n, h => by
    rw [checkedTupleSize] at h
    split at h
    · cases h
      simpa [Positive] using ‹0 < v›
    · cases h
  | .tuple ts, n, h => by
    have hall : Positive (IntTuple.flattenAll ts) ∧ n = 1 * (IntTuple.flattenAll ts).prod :=
      checkedTupleSizeFrom_ok h
    rwa [one_mul] at hall

/-- The same from an accumulator on. -/
theorem checkedTupleSizeFrom_ok : {ts : List IntTuple} → {acc n : ℤ} →
    checkedTupleSizeFrom acc ts = some n →
    Positive (IntTuple.flattenAll ts) ∧ n = acc * (IntTuple.flattenAll ts).prod
  | [], acc, n, h => by
    cases h
    simp
  | t :: ts, acc, n, h => by
    simp only [checkedTupleSizeFrom, Option.bind_eq_bind, Option.bind_eq_some_iff,
      I64.checkedMul_eq_some] at h
    obtain ⟨k, hk, _, ⟨-, rfl⟩, h⟩ := h
    obtain ⟨hpos, rfl⟩ := checkedTupleSize_ok hk
    obtain ⟨hposs, rfl⟩ := checkedTupleSizeFrom_ok h
    rw [IntTuple.flattenAll_cons, positive_append, List.prod_append, mul_assoc]
    exact ⟨⟨hpos, hposs⟩, rfl⟩

end

mutual

/-- Positive extents are counted when their product is an `i64`. -/
theorem checkedTupleSize_eq : {t : IntTuple} → Positive t.flatten → I64.Fits t.flatten.prod →
    checkedTupleSize t = some t.flatten.prod
  | .leaf v, hpos, _ => by
    have hv : 0 < v := hpos v (by simp)
    rw [checkedTupleSize, if_pos hv]
    simp
  | .tuple ts, hpos, hfits => by
    have hall : checkedTupleSizeFrom 1 ts = some (1 * (IntTuple.flattenAll ts).prod) :=
      checkedTupleSizeFrom_eq one_pos hpos (by rwa [one_mul])
    rwa [one_mul] at hall

/-- The checked size of positive extents whose product fits. -/
theorem checkedTupleSizeFrom_eq : {ts : List IntTuple} → {acc : ℤ} → 0 < acc →
    Positive (IntTuple.flattenAll ts) → I64.Fits (acc * (IntTuple.flattenAll ts).prod) →
    checkedTupleSizeFrom acc ts = some (acc * (IntTuple.flattenAll ts).prod)
  | [], acc, _, _, _ => by simp [checkedTupleSizeFrom]
  | t :: ts, acc, hacc, hpos, hfits => by
    rw [IntTuple.flattenAll_cons] at hpos hfits ⊢
    obtain ⟨hpt, hpts⟩ := positive_append.mp hpos
    rw [List.prod_append, ← mul_assoc] at hfits ⊢
    have ht := hpt.prod_pos
    have hts := hpts.prod_pos
    have hat : 0 < acc * t.flatten.prod := mul_pos hacc ht
    obtain ⟨hfirst, -⟩ := fits_of_mul hat hts hfits
    obtain ⟨-, hsize⟩ := fits_of_mul hacc ht hfirst
    simp only [checkedTupleSizeFrom, checkedTupleSize_eq hpt hsize, Option.bind_eq_bind,
      Option.bind_some, I64.checkedMul_of_fits hfirst]
    exact checkedTupleSizeFrom_eq hat hpts hfits

end

/-! ### What the checked evaluator accepts -/

/-- A flat coordinate of a group has a low digit in the first member and the rest in the others. -/
theorem flat_digits {c : ℤ} {s : IntTuple} {ss : List IntTuple} (h0 : 0 ≤ c)
    (hpos : 0 < s.flatten.prod) (hc : c < s.flatten.prod * (IntTuple.flattenAll ss).prod) :
    (0 ≤ c % s.flatten.prod ∧ c % s.flatten.prod < s.flatten.prod) ∧
      0 ≤ c / s.flatten.prod ∧ c / s.flatten.prod < (IntTuple.flattenAll ss).prod :=
  ⟨⟨Int.emod_nonneg c hpos.ne', Int.emod_lt_of_pos c hpos⟩, Int.ediv_nonneg h0 hpos.le,
    Int.ediv_lt_of_lt_mul hpos (by rwa [mul_comm])⟩

/-- Walking a group walks its first member and then the others. -/
theorem eval_modesAll_cons {s d : IntTuple} {ss ds : List IntTuple} (h : s.Congruent d)
    (hpos : Positive s.flatten) (c : ℤ) :
    eval (modesAll (s :: ss) (d :: ds)) c =
      eval (s.flatten.zip d.flatten) c + eval (modesAll ss ds) (c / s.flatten.prod) := by
  rw [modesAll_cons h, eval_append (pos_zip hpos), size_zip h.length_flatten]

/-- The walk of a tree repeats after its cells. -/
theorem eval_zip_emod {s d : IntTuple} (h : s.Congruent d) (hpos : Positive s.flatten) (c : ℤ) :
    eval (s.flatten.zip d.flatten) (c % s.flatten.prod) = eval (s.flatten.zip d.flatten) c := by
  rw [← size_zip h.length_flatten, eval_emod_size (pos_zip hpos)]

/-- The last member of a group is given all that is left, which is below its size. -/
theorem lastDigit_eq {c : ℤ} {s : IntTuple} {ss : List IntTuple} (h0 : 0 ≤ c)
    (hc : c < s.flatten.prod * (IntTuple.flattenAll ss).prod) :
    (if ss.isEmpty then c else c.tmod s.flatten.prod) = c % s.flatten.prod := by
  split
  · have hnil : ss = [] := List.isEmpty_iff.mp ‹_›
    subst hnil
    rw [Int.emod_eq_of_lt h0 (by simpa using hc)]
  · exact Int.tmod_eq_emod_of_nonneg h0

mutual

/-- What is accepted is a coordinate in range, and its offset is returned. -/
theorem checkedCrd2idx_ok : {s c d : IntTuple} → {v : ℤ} → checkedCrd2idx c s d = some v →
    s.Congruent d ∧ Positive s.flatten ∧ IsCoord c s ∧ OffsetFits c s d ∧ v = offsetAt c s d
  | .leaf s, .leaf c, .leaf d, v, h => by
    rw [checkedCrd2idx] at h
    split at h
    · rename_i hrange
      obtain ⟨hfits, rfl⟩ := I64.checkedMul_eq_some.mp h
      have hs : 0 < s := by omega
      refine ⟨rfl, by simpa [Positive] using hs, by simpa using hrange, ?_, ?_⟩
      · rwa [OffsetFits]
      · simp [Int.emod_eq_of_lt hrange.1 hrange.2]
    · cases h
  | .tuple ss, .tuple cs, .tuple ds, v, h => by
    rw [checkedCrd2idx] at h
    split at h
    · rename_i hlen
      obtain ⟨hcong, hpos, hcoord, hfits, rfl⟩ := checkedCrd2idxTuple_ok hlen.1 hlen.2 h
      refine ⟨hcong, hpos, isCoord_tuple.mpr hcoord, ?_, ?_⟩
      · rwa [OffsetFits]
      · rw [zero_add, offsetAt_tuple]
    · cases h
  | .tuple ss, .leaf c, .tuple ds, v, h => by
    rw [checkedCrd2idx] at h
    split at h
    · rename_i hguard
      simp only [Option.bind_eq_bind, Option.bind_eq_some_iff] at h
      obtain ⟨total, htotal, h⟩ := h
      split at h
      · rename_i hlt
        have hfits := fits_of_checkedTupleSizeFrom (by decide) htotal
        obtain ⟨hpos, rfl⟩ := checkedTupleSizeFrom_ok htotal
        rw [one_mul] at hfits hlt
        obtain ⟨hcong, hflat, rfl⟩ := checkedCrd2idxFlat_ok hguard.1 hpos hguard.2 hlt h
        refine ⟨hcong, hpos, isCoord_leaf.mpr ⟨hguard.2, hlt⟩, ?_, ?_⟩
        · rw [OffsetFits]
          exact ⟨hfits, hflat⟩
        · rw [zero_add, offsetAt_leaf]
          rfl
      · cases h
    · cases h
  | .leaf _, .tuple _, _, _, h => by cases h
  | .tuple _, .tuple _, .leaf _, _, h => by cases h
  | .leaf _, .leaf _, .tuple _, _, h => by cases h
  | .tuple _, .leaf _, .leaf _, _, h => by cases h

/-- What the checked loop over a tuple accepts, and what it returns. -/
theorem checkedCrd2idxTuple_ok : {ss cs ds : List IntTuple} → {sum v : ℤ} →
    cs.length = ss.length → ss.length = ds.length → checkedCrd2idxTuple sum cs ss ds = some v →
    IntTuple.CongruentAll ss ds ∧ Positive (IntTuple.flattenAll ss) ∧ IsCoordAll cs ss ∧
      OffsetFitsTuple sum cs ss ds ∧ v = sum + offsetAtAll cs ss ds
  | [], [], [], sum, v, _, _, h => by
    rw [checkedCrd2idxTuple] at h
    · cases h
      refine ⟨rfl, positive_nil, ?_, ?_, ?_⟩
      · rw [IsCoordAll]
        trivial
      · rw [OffsetFitsTuple]
        · trivial
        · simp
      · simp [offsetAtAll]
    · simp
  | s :: ss, c :: cs, d :: ds, sum, v, hcs, hds, h => by
    simp only [checkedCrd2idxTuple, Option.bind_eq_bind, Option.bind_eq_some_iff,
      I64.checkedAdd_eq_some] at h
    obtain ⟨o, ho, _, ⟨hsum, rfl⟩, h⟩ := h
    obtain ⟨hc, hp, hcoord, hfits, rfl⟩ := checkedCrd2idx_ok ho
    obtain ⟨hcs, hps, hcoords, hfitss, rfl⟩ :=
      checkedCrd2idxTuple_ok (Nat.succ.inj hcs) (Nat.succ.inj hds) h
    refine ⟨IntTuple.congruentAll_cons.mpr ⟨hc, hcs⟩, positive_append.mpr ⟨hp, hps⟩,
      isCoordAll_cons.mpr ⟨hcoord, hcoords⟩, ?_, ?_⟩
    · rw [OffsetFitsTuple]
      exact ⟨hfits, hsum, hfitss⟩
    · rw [offsetAtAll, add_assoc]

/-- What the checked loop over a flat coordinate accepts, and what it returns. -/
theorem checkedCrd2idxFlat_ok : {ss ds : List IntTuple} → {rem idx v : ℤ} →
    ss.length = ds.length → Positive (IntTuple.flattenAll ss) → 0 ≤ rem →
    rem < (IntTuple.flattenAll ss).prod → checkedCrd2idxFlat rem idx ss ds = some v →
    IntTuple.CongruentAll ss ds ∧ OffsetFitsFlat rem idx ss ds ∧
      v = idx + eval (modesAll ss ds) rem
  | [], [], rem, idx, v, _, _, _, _, h => by
    rw [checkedCrd2idxFlat] at h
    · cases h
      refine ⟨rfl, ?_, by simp [modesAll]⟩
      rw [OffsetFitsFlat]
      · trivial
      · simp
    · simp
  | s :: ss, d :: ds, rem, idx, v, hlen, hpos, h0, hlt, h => by
    obtain ⟨hp, hps⟩ := positive_append.mp hpos
    rw [IntTuple.flattenAll_cons, List.prod_append] at hlt
    obtain ⟨hlow, hq0, hq⟩ := flat_digits h0 hp.prod_pos hlt
    simp only [checkedCrd2idxFlat, Option.bind_eq_bind, Option.bind_eq_some_iff] at h
    obtain ⟨sz, hsz, h⟩ := h
    obtain ⟨-, rfl⟩ := checkedTupleSize_ok hsz
    rw [if_pos hp.prod_pos, lastDigit_eq h0 hlt, Int.tdiv_eq_ediv_of_nonneg h0] at h
    simp only [Option.bind_eq_some_iff, I64.checkedAdd_eq_some] at h
    obtain ⟨o, ho, _, ⟨hsum, rfl⟩, h⟩ := h
    obtain ⟨hc, -, -, hfits, rfl⟩ := checkedCrd2idx_ok ho
    rw [offsetAt_leaf, eval_zip_emod hc hp] at h hsum
    obtain ⟨hcs, hfitss, rfl⟩ := checkedCrd2idxFlat_ok (Nat.succ.inj hlen) hps hq0 hq h
    refine ⟨IntTuple.congruentAll_cons.mpr ⟨hc, hcs⟩, ?_, ?_⟩
    · rw [OffsetFitsFlat, offsetAt_leaf]
      exact ⟨hfits, hsum, hfitss⟩
    · rw [eval_modesAll_cons hc hp, add_assoc]

end

mutual

/-- A coordinate in range whose evaluation stays in the `i64` range is accepted. -/
theorem checkedCrd2idx_eq : {s c d : IntTuple} → s.Congruent d → Positive s.flatten →
    IsCoord c s → OffsetFits c s d → checkedCrd2idx c s d = some (offsetAt c s d)
  | .leaf s, .leaf c, .leaf d, _, _, hcoord, hfits => by
    have hrange : 0 ≤ c ∧ c < s := by simpa using hcoord
    rw [OffsetFits] at hfits
    rw [checkedCrd2idx, if_pos hrange, I64.checkedMul_of_fits hfits]
    simp [Int.emod_eq_of_lt hrange.1 hrange.2]
  | .tuple ss, .tuple cs, .tuple ds, hc, hpos, hcoord, hfits => by
    have hcoords := isCoord_tuple.mp hcoord
    rw [OffsetFits] at hfits
    rw [checkedCrd2idx, if_pos ⟨hcoords.length_eq, IntTuple.CongruentAll.length_eq hc⟩,
      checkedCrd2idxTuple_eq hc hpos hcoords hfits, zero_add, offsetAt_tuple]
  | .tuple ss, .leaf c, .tuple ds, hc, hpos, hcoord, hfits => by
    obtain ⟨h0, hlt⟩ := isCoord_leaf.mp hcoord
    rw [OffsetFits] at hfits
    obtain ⟨hsize, hflat⟩ := hfits
    have htotal : checkedTupleSizeFrom 1 ss = some (1 * (IntTuple.flattenAll ss).prod) :=
      checkedTupleSizeFrom_eq one_pos hpos (by rwa [one_mul])
    -- the flat coordinate lies below the size, so the range check passes
    have hin : c < 1 * (IntTuple.flattenAll ss).prod := by rwa [one_mul]
    rw [checkedCrd2idx, if_pos ⟨IntTuple.CongruentAll.length_eq hc, h0⟩, htotal]
    show (if c < 1 * (IntTuple.flattenAll ss).prod then _ else _) = _
    rw [if_pos hin, checkedCrd2idxFlat_eq hc hpos hsize h0 hlt hflat, zero_add, offsetAt_leaf]
    rfl

/-- The checked loop over a tuple accepts what is in range and does not overflow. -/
theorem checkedCrd2idxTuple_eq : {ss cs ds : List IntTuple} → {sum : ℤ} →
    IntTuple.CongruentAll ss ds → Positive (IntTuple.flattenAll ss) → IsCoordAll cs ss →
    OffsetFitsTuple sum cs ss ds →
    checkedCrd2idxTuple sum cs ss ds = some (sum + offsetAtAll cs ss ds)
  | [], [], [], sum, _, _, _, _ => by
    rw [checkedCrd2idxTuple]
    · simp [offsetAtAll]
    · simp
  | s :: ss, c :: cs, d :: ds, sum, hc, hpos, hcoord, hfits => by
    obtain ⟨hs, hss⟩ := IntTuple.congruentAll_cons.mp hc
    obtain ⟨hp, hps⟩ := positive_append.mp hpos
    obtain ⟨hcoord, hcoords⟩ := isCoordAll_cons.mp hcoord
    rw [OffsetFitsTuple] at hfits
    obtain ⟨hfit, hsum, hfits⟩ := hfits
    simp only [checkedCrd2idxTuple, checkedCrd2idx_eq hs hp hcoord hfit, Option.bind_eq_bind,
      Option.bind_some, I64.checkedAdd_of_fits hsum]
    rw [checkedCrd2idxTuple_eq hss hps hcoords hfits, offsetAtAll, add_assoc]

/-- The checked loop over a flat coordinate accepts what is in range and does not overflow. -/
theorem checkedCrd2idxFlat_eq : {ss ds : List IntTuple} → {rem idx : ℤ} →
    IntTuple.CongruentAll ss ds → Positive (IntTuple.flattenAll ss) →
    I64.Fits (IntTuple.flattenAll ss).prod → 0 ≤ rem → rem < (IntTuple.flattenAll ss).prod →
    OffsetFitsFlat rem idx ss ds →
    checkedCrd2idxFlat rem idx ss ds = some (idx + eval (modesAll ss ds) rem)
  | [], [], rem, idx, _, _, _, _, _, _ => by
    rw [checkedCrd2idxFlat]
    · simp [modesAll]
    · simp
  | s :: ss, d :: ds, rem, idx, hc, hpos, hsize, h0, hlt, hfits => by
    obtain ⟨hs, hss⟩ := IntTuple.congruentAll_cons.mp hc
    obtain ⟨hp, hps⟩ := positive_append.mp hpos
    rw [IntTuple.flattenAll_cons, List.prod_append] at hlt hsize
    obtain ⟨hlow, hq0, hq⟩ := flat_digits h0 hp.prod_pos hlt
    rw [OffsetFitsFlat, offsetAt_leaf] at hfits
    obtain ⟨hfit, hsum, hfits⟩ := hfits
    obtain ⟨hsz, hrest⟩ := fits_of_mul hp.prod_pos hps.prod_pos hsize
    have hdigit := checkedCrd2idx_eq hs hp (isCoord_leaf.mpr hlow) hfit
    rw [offsetAt_leaf, eval_zip_emod hs hp] at hdigit
    simp only [checkedCrd2idxFlat, checkedTupleSize_eq hp hsz, Option.bind_eq_bind,
      Option.bind_some, if_pos hp.prod_pos, lastDigit_eq h0 hlt, hdigit,
      I64.checkedAdd_of_fits hsum, Int.tdiv_eq_ediv_of_nonneg h0]
    rw [checkedCrd2idxFlat_eq hss hps hrest hq0 hq hfits, eval_modesAll_cons hs hp, add_assoc]

end

/-- **What the checked evaluator accepts.** -/
theorem checkedCrd2idx_iff {c s d : IntTuple} {v : ℤ} : checkedCrd2idx c s d = some v ↔
    s.Congruent d ∧ Positive s.flatten ∧ IsCoord c s ∧ OffsetFits c s d ∧ v = offsetAt c s d := by
  constructor
  · exact checkedCrd2idx_ok
  · rintro ⟨hc, hpos, hcoord, hfits, rfl⟩
    exact checkedCrd2idx_eq hc hpos hcoord hfits

/-- **The checked evaluator.**  It returns `v` only for a layout of matching parentheses and
positive extents and a coordinate in range, flat numbers standing for groups, and then `v` is the
offset over `ℤ`; and where no number the evaluation forms leaves the `i64` range, it returns that
offset, as the unchecked evaluator does. -/
theorem checkedCall_spec (l : Layout) (c : IntTuple) :
    (∀ v, l.checkedCall c = some v → l.shape.Congruent l.stride ∧ Positive l.shape.flatten ∧
      IsCoord c l.shape ∧ v = offsetAt c l.shape l.stride) ∧
    (l.shape.Congruent l.stride → Positive l.shape.flatten → IsCoord c l.shape →
      OffsetFits c l.shape l.stride → ∃ v, l.checkedCall c = some v ∧
        (l.call c : Run ε ℤ) = .ok v) := by
  refine ⟨fun v h => ?_, fun hc hpos hcoord hfits => ?_⟩
  · obtain ⟨hc, hpos, hcoord, -, hv⟩ := checkedCrd2idx_ok h
    exact ⟨hc, hpos, hcoord, hv⟩
  · have h : l.checkedCall c = some (offsetAt c l.shape l.stride) :=
      checkedCrd2idx_eq hc hpos hcoord hfits
    exact ⟨_, h, l.call_of_checkedCall h⟩

/-- A flat coordinate in a nested place, and one that names the whole layout. -/
theorem checkedCall_spec_nested : ∃ v, (Layout.mk (.tuple [.tuple [.leaf 2, .leaf 2], .leaf 3])
      (.tuple [.tuple [.leaf 1, .leaf 6], .leaf 2])).checkedCall (.tuple [.leaf 3, .leaf 2]) =
        some v ∧
    ((Layout.mk (.tuple [.tuple [.leaf 2, .leaf 2], .leaf 3])
      (.tuple [.tuple [.leaf 1, .leaf 6], .leaf 2])).call (.tuple [.leaf 3, .leaf 2]) :
        Run Empty ℤ) = .ok v := by
  refine (checkedCall_spec _ _).2 (by decide) (by decide) ?_ ?_
  · simp [IsCoordAll, IntTuple.flattenAll]
  · simp [OffsetFits, OffsetFitsTuple, OffsetFitsFlat, IntTuple.flattenAll, offsetAt, eval]
    decide

/-- The flat coordinate `4` of a `2 × 3` tile is accepted, though it has no parentheses. -/
theorem checkedCall_flat :
    (Layout.mk (.tuple [.leaf 2, .leaf 3]) (.tuple [.leaf 3, .leaf 1])).checkedCall (.leaf 4) =
        some 2 ∧
      ¬(IntTuple.leaf 4).Congruent (.tuple [.leaf 2, .leaf 3]) :=
  ⟨by decide, IntTuple.not_congruent_leaf_tuple⟩

/-! ### Strides that run forward -/

mutual

/-- A forward tree has no negative offset. -/
theorem offsetAt_nonneg : {c s d : IntTuple} → s.Congruent d → Positive s.flatten →
    Forward (s.flatten.zip d.flatten) → IsCoord c s → 0 ≤ offsetAt c s d
  | .leaf c, s, d, _, hpos, hfwd, hcoord => by
    rw [offsetAt_leaf]
    exact eval_nonneg_of_forward (pos_zip hpos) hfwd (isCoord_leaf.mp hcoord).1
  | .tuple cs, .tuple ss, .tuple ds, hc, hpos, hfwd, hcoord => by
    rw [offsetAt_tuple]
    exact offsetAtAll_nonneg hc hpos hfwd (isCoord_tuple.mp hcoord)

/-- Nor has a list of them. -/
theorem offsetAtAll_nonneg : {cs ss ds : List IntTuple} → IntTuple.CongruentAll ss ds →
    Positive (IntTuple.flattenAll ss) → Forward (modesAll ss ds) → IsCoordAll cs ss →
    0 ≤ offsetAtAll cs ss ds
  | [], _, _, _, _, _, _ => by simp [offsetAtAll]
  | c :: cs, s :: ss, d :: ds, hc, hpos, hfwd, hcoord => by
    obtain ⟨hs, hss⟩ := IntTuple.congruentAll_cons.mp hc
    obtain ⟨hp, hps⟩ := positive_append.mp hpos
    rw [modesAll_cons hs] at hfwd
    obtain ⟨hn, hns⟩ := forward_append.mp hfwd
    obtain ⟨hcoord, hcoords⟩ := isCoordAll_cons.mp hcoord
    rw [offsetAtAll]
    exact add_nonneg (offsetAt_nonneg hs hp hn hcoord) (offsetAtAll_nonneg hss hps hns hcoords)

end

mutual

/-- Where the strides run forward, nothing overflows but the number of cells and the offset. -/
theorem offsetFits_of_forward : {s c d : IntTuple} → s.Congruent d → Positive s.flatten →
    Forward (s.flatten.zip d.flatten) → I64.Fits s.flatten.prod → IsCoord c s →
    offsetAt c s d ≤ 9223372036854775807 → OffsetFits c s d
  | .leaf s, .leaf c, .leaf d, hc, hpos, hfwd, _, hcoord, hmax => by
    have h0 := offsetAt_nonneg hc hpos hfwd hcoord
    have hrange : 0 ≤ c ∧ c < s := by simpa using hcoord
    have hoff : offsetAt (.leaf c) (.leaf s) (.leaf d) = c * d := by
      simp [Int.emod_eq_of_lt hrange.1 hrange.2]
    rw [hoff] at h0 hmax
    rw [OffsetFits]
    exact ⟨by omega, hmax⟩
  | .tuple ss, .tuple cs, .tuple ds, hc, hpos, hfwd, hsize, hcoord, hmax => by
    rw [OffsetFits]
    rw [offsetAt_tuple] at hmax
    exact offsetFitsTuple_of_forward hc hpos hfwd hsize (isCoord_tuple.mp hcoord) le_rfl
      (by rwa [zero_add])
  | .tuple ss, .leaf c, .tuple ds, hc, hpos, hfwd, hsize, hcoord, hmax => by
    obtain ⟨h0, hlt⟩ := isCoord_leaf.mp hcoord
    rw [OffsetFits]
    rw [offsetAt_leaf] at hmax
    exact ⟨hsize, offsetFitsFlat_of_forward hc hpos hfwd hsize h0 hlt le_rfl (by rwa [zero_add])⟩

/-- In a forward layout no sum is larger than the last one. -/
theorem offsetFitsTuple_of_forward : {ss cs ds : List IntTuple} → {sum : ℤ} →
    IntTuple.CongruentAll ss ds → Positive (IntTuple.flattenAll ss) → Forward (modesAll ss ds) →
    I64.Fits (IntTuple.flattenAll ss).prod → IsCoordAll cs ss → 0 ≤ sum →
    sum + offsetAtAll cs ss ds ≤ 9223372036854775807 → OffsetFitsTuple sum cs ss ds
  | [], [], [], sum, _, _, _, _, _, _, _ => by
    rw [OffsetFitsTuple]
    · trivial
    · simp
  | s :: ss, c :: cs, d :: ds, sum, hc, hpos, hfwd, hsize, hcoord, hsum, hmax => by
    obtain ⟨hs, hss⟩ := IntTuple.congruentAll_cons.mp hc
    obtain ⟨hp, hps⟩ := positive_append.mp hpos
    rw [modesAll_cons hs] at hfwd
    obtain ⟨hn, hns⟩ := forward_append.mp hfwd
    obtain ⟨hcoord, hcoords⟩ := isCoordAll_cons.mp hcoord
    rw [IntTuple.flattenAll_cons, List.prod_append] at hsize
    obtain ⟨hsz, hrestz⟩ := fits_of_mul hp.prod_pos hps.prod_pos hsize
    have hfirst := offsetAt_nonneg hs hp hn hcoord
    have hrest := offsetAtAll_nonneg hss hps hns hcoords
    rw [offsetAtAll] at hmax
    rw [OffsetFitsTuple]
    exact ⟨offsetFits_of_forward hs hp hn hsz hcoord (by omega), ⟨by omega, by omega⟩,
      offsetFitsTuple_of_forward hss hps hns hrestz hcoords (by omega) (by omega)⟩

/-- The same for a flat coordinate. -/
theorem offsetFitsFlat_of_forward : {ss ds : List IntTuple} → {rem idx : ℤ} →
    IntTuple.CongruentAll ss ds → Positive (IntTuple.flattenAll ss) → Forward (modesAll ss ds) →
    I64.Fits (IntTuple.flattenAll ss).prod → 0 ≤ rem → rem < (IntTuple.flattenAll ss).prod →
    0 ≤ idx → idx + eval (modesAll ss ds) rem ≤ 9223372036854775807 →
    OffsetFitsFlat rem idx ss ds
  | [], [], rem, idx, _, _, _, _, _, _, _, _ => by
    rw [OffsetFitsFlat]
    · trivial
    · simp
  | s :: ss, d :: ds, rem, idx, hc, hpos, hfwd, hsize, h0, hlt, hidx, hmax => by
    obtain ⟨hs, hss⟩ := IntTuple.congruentAll_cons.mp hc
    obtain ⟨hp, hps⟩ := positive_append.mp hpos
    rw [modesAll_cons hs] at hfwd
    obtain ⟨hn, hns⟩ := forward_append.mp hfwd
    rw [IntTuple.flattenAll_cons, List.prod_append] at hsize hlt
    obtain ⟨hsz, hrestz⟩ := fits_of_mul hp.prod_pos hps.prod_pos hsize
    obtain ⟨hlow, hq0, hq⟩ := flat_digits h0 hp.prod_pos hlt
    rw [eval_modesAll_cons hs hp] at hmax
    have hfirst : 0 ≤ eval (s.flatten.zip d.flatten) rem :=
      eval_nonneg_of_forward (pos_zip hp) hn h0
    have hrest : 0 ≤ eval (modesAll ss ds) (rem / s.flatten.prod) :=
      eval_nonneg_of_forward (pos_zip hps) hns hq0
    have hdigit : offsetAt (.leaf (rem % s.flatten.prod)) s d ≤ 9223372036854775807 := by
      rw [offsetAt_leaf, eval_zip_emod hs hp]
      omega
    rw [OffsetFitsFlat, offsetAt_leaf]
    exact ⟨offsetFits_of_forward hs hp hn hsz (isCoord_leaf.mpr hlow) hdigit,
      ⟨by omega, by omega⟩,
      offsetFitsFlat_of_forward hss hps hns hrestz hq0 hq (by omega) (by omega)⟩

end

end CudaOxide.Cute
