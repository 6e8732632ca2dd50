import CudaOxide.Lib.Axes
import CudaOxide.Lib.LowBit
import CudaOxide.Lib.Run

namespace CudaOxide.Tile

open Lib

/-!
# Specialization bits

The launcher infers from a tensor's pointer, shape and strides what a kernel may be compiled for
(`specialization.rs`), and the optimization hints cap it (`hints.rs`).

* `DivHint`, `computeSpec` — the divisors that are read off the values; `computeSpecIn` is the
  function in a build that checks or wraps the products of the disjointness test.
* `fromValue_divisor`, `fromPtr_divisor` — they are the greatest common divisors with 16.
* `ProductsFit` — the products that the test forms are `i32`s: a build with checks returns.
* `elementsDisjoint_sound` — then elements that are said to be disjoint are.
* `OptimizationHints.applyCompileOptions` — the options of a launch override the hints of an entry.
-/

/-! ### Divisors -/

/-- `DivHint`: a divisor and its bound. -/
structure DivHint where
  divisor : Int32
  max : Int32
  deriving DecidableEq, Repr

/-- `max_pow2_divisor`, without the bound of 16. -/
def maxPow2DivisorUnclamped (val : Int32) : Int32 :=
  if val = 0 then 16
  -- the lowest set bit of the least `i32` is not a positive `i32`
  else if val = Int32.minValue then (1 : Int32) <<< 30
  else val &&& -val

/-- `u64::trailing_zeros` -/
def trailingZeros (x : UInt64) : ℕ := x.toBitVec.ctz.toNat

namespace DivHint

/-- `DivHint::from_value`. -/
def fromValue (val : Int32) : DivHint where
  divisor := min (maxPow2DivisorUnclamped val) 16
  max := 16

/-- `DivHint::from_ptr`. -/
def fromPtr (ptr : UInt64) : DivHint where
  divisor := 1 <<< Int32.ofNat (min (trailingZeros ptr) 4)
  max := 16

end DivHint

/-- `SpecializationBits`: one entry for each axis, and the alignment of the pointer in bytes. -/
structure SpecializationBits where
  shapeDiv : List DivHint
  strideDiv : List DivHint
  strideOne : List Bool
  basePtrDiv : DivHint
  elementsDisjoint : Bool
  deriving DecidableEq, Repr

/-- The order of tuples, by which the axes are sorted. -/
def strideLe (a b : Int32 × Int32) : Bool := a.1 < b.1 || (a.1 == b.1 && a.2 ≤ b.2)

/-- The axes as the test takes them: the stride and the extent, in the order of the strides. -/
def sortedAxes (shape strides : List Int32) : List (Int32 × Int32) :=
  (strides.zip shape).mergeSort strideLe

/-- What `compute_spec` returns where nothing panics, which needs as many strides as extents.  The
products of the disjointness test wrap, as they do in a release build. -/
def computeSpec (basePtr : UInt64) (shape strides : List Int32) : SpecializationBits :=
  let strides := strides.take shape.length
  let sorted := sortedAxes shape strides
  { shapeDiv := shape.map DivHint.fromValue
    strideDiv := strides.map DivHint.fromValue
    strideOne := strides.map (· == 1)
    basePtrDiv := DivHint.fromPtr basePtr
    elementsDisjoint := sorted.head?.all (fun a => 0 < a.1) &&
      (sorted.zip sorted.tail).all fun w => 0 < w.2.1 && w.1.1 * w.1.2 ≤ w.2.1 }

/-- The number fits `i32`. -/
def FitsI32 (x : ℤ) : Prop := -2147483648 ≤ x ∧ x ≤ 2147483647

instance (x : ℤ) : Decidable (FitsI32 x) := inferInstanceAs (Decidable (_ ∧ _))

/-- `x * y` on `i32` -/
def mulI32 {ε : Type} (b : Build) (x y : Int32) : Run ε Int32 :=
  if FitsI32 (x.toInt * y.toInt) then .ok (x * y) else Run.overflowed b (x * y)

/-- The loop over the windows of two axes; it leaves `disjoint` as it is if it runs to the end. -/
def disjointWindows {ε : Type} (b : Build) (disjoint : Bool) : List (Int32 × Int32) → Run ε Bool
  | w₀ :: w₁ :: axes =>
    if w₁.1 ≤ 0 then .ok false
    else do
      let reach ← mulI32 b w₀.1 w₀.2
      if w₁.1 < reach then .ok false else disjointWindows b disjoint (w₁ :: axes)
  | _ => .ok disjoint

/-- `compute_spec` in a build that checks or wraps. -/
def computeSpecIn {ε : Type} (b : Build) (basePtr : UInt64) (shape strides : List Int32) :
    Run ε SpecializationBits :=
  -- `strides[i]` is read for every axis
  if strides.length < shape.length then Run.panic .indexOutOfBounds
  else do
    let sorted := sortedAxes shape strides
    let elementsDisjoint ← disjointWindows b (sorted.head?.all fun a => 0 < a.1) sorted
    let strides := strides.take shape.length
    .ok { shapeDiv := shape.map DivHint.fromValue
          strideDiv := strides.map DivHint.fromValue
          strideOne := strides.map (· == 1)
          basePtrDiv := DivHint.fromPtr basePtr
          elementsDisjoint := elementsDisjoint }

/-! ### What the divisors are -/

/-- A power of two below the sign bit is positive. -/
private theorem toInt_twoPow {c : ℕ} (hc : c < 31) : (BitVec.twoPow 32 c).toInt = 2 ^ c := by
  interval_cases c <;> rfl

/-- The minimum of two words is that of their numbers. -/
theorem toInt_min (a b : Int32) : (min a b).toInt = min a.toInt b.toInt := by
  show (if a ≤ b then a else b).toInt = _
  rw [min_def]
  simp only [Int32.le_iff_toInt_le]
  split <;> rfl

/-- The hint of a value is its greatest common divisor with 16. -/
theorem fromValue_divisor (val : Int32) :
    (DivHint.fromValue val).divisor.toInt = Int.gcd val.toInt 16 := by
  show (min (maxPow2DivisorUnclamped val) 16).toInt = _
  rw [toInt_min]
  unfold maxPow2DivisorUnclamped
  split
  · subst val
    rfl
  split
  · subst val
    rfl
  rename_i hzero hmin
  set c := val.toBitVec.ctz.toNat with hc
  have hgcd : Int.gcd val.toInt 16 = 2 ^ min c 4 :=
    LowBit.gcd_toInt_two_pow (w := 32) (k := 4) (x := val.toBitVec) (by decide)
  have hne : val.toBitVec ≠ 0#32 := fun h => hzero (Int32.toBitVec_inj.mp h)
  have hlow : (val &&& -val).toBitVec = BitVec.twoPow 32 c := by
    rw [Int32.toBitVec_and, Int32.toBitVec_neg]
    exact LowBit.and_neg_eq_twoPow hne
  have hc31 : c < 31 := by
    by_contra! hle
    have hdvd : 2 ^ 31 ∣ val.toBitVec.toNat := (LowBit.two_pow_dvd_toNat_iff (by decide)).mpr hle
    have hlt : val.toBitVec.toNat < 2 ^ 32 := val.toBitVec.isLt
    have hpos : val.toBitVec.toNat ≠ 0 := fun h => hne (BitVec.eq_of_toNat_eq h)
    have htop : val.toBitVec.toNat = 2 ^ 31 := by omega
    exact hmin (Int32.toBitVec_inj.mp (BitVec.eq_of_toNat_eq htop))
  have hint : (val &&& -val).toInt = 2 ^ c := by
    rw [← Int32.toInt_toBitVec, hlow, toInt_twoPow hc31]
  rw [hint, hgcd]
  show min (2 ^ c) 16 = ((2 ^ min c 4 : ℕ) : ℤ)
  obtain hle | hgt := Nat.lt_or_ge c 4
  · interval_cases c <;> rfl
  · have hpow : (2 : ℤ) ^ 4 ≤ 2 ^ c := pow_le_pow_right₀ (by decide) hgt
    rw [Nat.min_eq_right hgt, min_eq_right (by omega)]
    rfl

/-- The hint of a pointer is its greatest common divisor with 16. -/
theorem fromPtr_divisor (ptr : UInt64) :
    (DivHint.fromPtr ptr).divisor.toInt = Nat.gcd ptr.toNat 16 := by
  have hgcd : Nat.gcd ptr.toNat 16 = 2 ^ min (trailingZeros ptr) 4 :=
    LowBit.gcd_two_pow (w := 64) (k := 4) (x := ptr.toBitVec) (by decide)
  rw [hgcd]
  have hle : min (trailingZeros ptr) 4 ≤ 4 := Nat.min_le_right _ _
  unfold DivHint.fromPtr
  dsimp only
  generalize min (trailingZeros ptr) 4 = c at hle
  interval_cases c <;> rfl

/-! ### Disjoint elements -/

section Disjoint

variable {ε : Type} {b : Build} {basePtr : UInt64} {shape strides : List Int32} {i j : List ℤ}
  {axes : List (Int32 × Int32)} {disjoint : Bool} {spec : SpecializationBits}

/-- The products that the test forms before it finds an overlap are `i32`s. -/
def ProductsFit : List (Int32 × Int32) → Prop
  | w₀ :: w₁ :: axes => 0 < w₁.1 → FitsI32 (w₀.1.toInt * w₀.2.toInt) ∧
      (w₀.1.toInt * w₀.2.toInt ≤ w₁.1.toInt → ProductsFit (w₁ :: axes))
  | _ => True

/-- Windows that fit one by one fit. -/
theorem productsFit_of_forall (h : ∀ w ∈ axes, FitsI32 (w.1.toInt * w.2.toInt)) :
    ProductsFit axes := by
  induction axes with
  | nil => trivial
  | cons w₀ axes ih =>
    obtain ⟨hfit, h⟩ := List.forall_mem_cons.mp h
    cases axes with
    | nil => trivial
    | cons w₁ axes => exact fun _ => ⟨hfit, fun _ => ih h⟩

/-- Axes that fit in the tensor's order fit in order of strides. -/
theorem productsFit_of_axes
    (h : ∀ w ∈ strides.zip shape, FitsI32 (w.1.toInt * w.2.toInt)) :
    ProductsFit (sortedAxes shape strides) :=
  productsFit_of_forall fun w hw => h w (List.mem_mergeSort.mp hw)

/-- A product that fits is computed in every build. -/
theorem mulI32_of_fits {x y : Int32} (h : FitsI32 (x.toInt * y.toInt)) :
    (mulI32 b x y : Run ε Int32) = .ok (x * y) := if_pos h

/-- In a checked build the product fits. -/
theorem fits_of_mulI32 {x y z : Int32} (h : (mulI32 .checked x y : Run ε Int32) = .ok z) :
    FitsI32 (x.toInt * y.toInt) := by
  by_contra hover
  rw [mulI32, if_neg hover] at h
  exact absurd h Run.panic_ne_ok

/-- A product that fits is exact. -/
theorem toInt_mul_of_fits {x y : Int32} (h : FitsI32 (x.toInt * y.toInt)) :
    (x * y).toInt = x.toInt * y.toInt := by
  obtain ⟨h0, h1⟩ := h
  rw [Int32.toInt_mul]
  exact Int.bmod_eq_of_le (by norm_num; omega) (by norm_num; omega)

/-- A build that wraps makes every comparison. -/
theorem disjointWindows_wrapping (disjoint : Bool) (axes : List (Int32 × Int32)) :
    (disjointWindows .wrapping disjoint axes : Run ε Bool) = .ok (disjoint &&
      (axes.zip axes.tail).all fun w => 0 < w.2.1 && w.1.1 * w.1.2 ≤ w.2.1) := by
  induction axes with
  | nil => simp [disjointWindows]
  | cons w₀ axes ih =>
    cases axes with
    | nil => simp [disjointWindows]
    | cons w₁ axes =>
      have hmul : (mulI32 .wrapping w₀.1 w₀.2 : Run ε Int32) = .ok (w₀.1 * w₀.2) := ite_self _
      rw [disjointWindows, hmul, List.tail_cons, List.zip_cons_cons, List.all_cons]
      show (if w₁.1 ≤ 0 then _ else if w₁.1 < w₀.1 * w₀.2 then _ else _) = _
      split
      · rename_i hle
        simp [Int32.not_lt.mpr hle]
      · rename_i hpos
        rw [decide_eq_true (Int32.not_le.mp hpos), Bool.true_and]
        split
        · rename_i hlt
          simp [Int32.not_le.mpr hlt]
        · rename_i hge
          rw [ih, decide_eq_true (Int32.not_lt.mp hge), Bool.true_and]
          rfl

/-- Where the products fit, every build makes the same comparisons. -/
theorem disjointWindows_of_fits (b : Build) (h : ProductsFit axes) :
    (disjointWindows b disjoint axes : Run ε Bool) = disjointWindows .wrapping disjoint axes := by
  induction axes with
  | nil => rfl
  | cons w₀ axes ih =>
    cases axes with
    | nil => rfl
    | cons w₁ axes =>
      unfold disjointWindows
      by_cases hle : w₁.1 ≤ 0
      · rw [if_pos hle, if_pos hle]
      · obtain ⟨hfit, hrest⟩ := h (Int32.not_le.mp hle)
        rw [if_neg hle, if_neg hle, mulI32_of_fits hfit, mulI32_of_fits hfit]
        show (if w₁.1 < w₀.1 * w₀.2 then _ else _) = (if w₁.1 < w₀.1 * w₀.2 then _ else _)
        by_cases hlt : w₁.1 < w₀.1 * w₀.2
        · rw [if_pos hlt, if_pos hlt]
        · rw [if_neg hlt, if_neg hlt]
          refine ih (hrest ?_)
          rw [← toInt_mul_of_fits hfit]
          exact Int32.le_iff_toInt_le.mp (Int32.not_lt.mp hlt)

/-- A build with checks forms no product that does not fit. -/
theorem productsFit_of_checked {x : Bool}
    (h : (disjointWindows .checked disjoint axes : Run ε Bool) = .ok x) : ProductsFit axes := by
  induction axes with
  | nil => trivial
  | cons w₀ axes ih =>
    cases axes with
    | nil => trivial
    | cons w₁ axes =>
      intro hpos
      rw [disjointWindows, if_neg (Int32.not_le.mpr hpos)] at h
      obtain ⟨reach, hmul, h⟩ := Run.bind_eq_ok.mp h
      have hfit := fits_of_mulI32 hmul
      refine ⟨hfit, fun hle => ih ?_⟩
      obtain rfl := Except.ok.inj (hmul.symm.trans (mulI32_of_fits hfit))
      rwa [if_neg] at h
      rw [Int32.not_lt, Int32.le_iff_toInt_le, toInt_mul_of_fits hfit]
      exact hle

/-- Strides past the rank are ignored. -/
theorem sortedAxes_take (shape strides : List Int32) :
    sortedAxes shape (strides.take shape.length) = sortedAxes shape strides := by
  have hzip : (strides.take shape.length).zip shape = strides.zip shape := by
    rw [List.zip_eq_zip_take_min, (List.zip_eq_zip_take_min : strides.zip shape = _)]
    simp [List.take_take, Nat.min_comm]
  rw [sortedAxes, sortedAxes, hzip]

/-- A build that wraps returns wherever there are enough strides. -/
theorem computeSpecIn_wrapping (hlen : shape.length ≤ strides.length) :
    (computeSpecIn .wrapping basePtr shape strides : Run ε _) =
      .ok (computeSpec basePtr shape strides) := by
  rw [computeSpecIn, if_neg (by omega)]
  show (disjointWindows .wrapping _ (sortedAxes shape strides) >>= fun elementsDisjoint => _) = _
  rw [disjointWindows_wrapping, computeSpec, sortedAxes_take]
  rfl

/-- Where the products fit, every build returns the same bits. -/
theorem computeSpecIn_of_fits (b : Build) (hlen : shape.length ≤ strides.length)
    (hfit : ProductsFit (sortedAxes shape strides)) :
    (computeSpecIn b basePtr shape strides : Run ε _) =
      .ok (computeSpec basePtr shape strides) := by
  rw [← computeSpecIn_wrapping hlen, computeSpecIn, computeSpecIn, if_neg (by omega),
    if_neg (by omega)]
  show (disjointWindows b _ (sortedAxes shape strides) >>= fun elementsDisjoint => _) = _
  rw [disjointWindows_of_fits b hfit]

/-- **When a build with checks returns.** -/
theorem computeSpecIn_checked_iff :
    (∃ spec, (computeSpecIn .checked basePtr shape strides : Run ε _) = .ok spec) ↔
      shape.length ≤ strides.length ∧ ProductsFit (sortedAxes shape strides) := by
  constructor
  · rintro ⟨spec, h⟩
    unfold computeSpecIn at h
    split at h
    · exact absurd h Run.panic_ne_ok
    · obtain ⟨elementsDisjoint, hrun, -⟩ := Run.bind_eq_ok.mp h
      exact ⟨by omega, productsFit_of_checked hrun⟩
  · rintro ⟨hlen, hfit⟩
    exact ⟨_, computeSpecIn_of_fits .checked hlen hfit⟩

/-- What `elements_disjoint` compares. -/
theorem elementsDisjoint_iff : (computeSpec basePtr shape strides).elementsDisjoint = true ↔
    (∀ a ∈ (sortedAxes shape strides).head?, 0 < a.1) ∧
      ∀ w ∈ (sortedAxes shape strides).zip (sortedAxes shape strides).tail,
        0 < w.2.1 ∧ w.1.1 * w.1.2 ≤ w.2.1 := by
  unfold computeSpec
  simp only [sortedAxes_take, Bool.and_eq_true, List.all_eq_true, Option.all_eq_true,
    decide_eq_true_eq]
  rfl

/-- Where the products fit, the comparisons that succeed chain the axes. -/
theorem isChain_of_fits (hfit : ProductsFit axes)
    (h : ∀ w ∈ axes.zip axes.tail, 0 < w.2.1 ∧ w.1.1 * w.1.2 ≤ w.2.1) :
    axes.IsChain fun w₀ w₁ => w₀.1.toInt * w₀.2.toInt ≤ w₁.1.toInt := by
  induction axes with
  | nil => exact .nil
  | cons w₀ axes ih =>
    cases axes with
    | nil => exact .singleton w₀
    | cons w₁ axes =>
      obtain ⟨⟨hpos, hle⟩, h⟩ := List.forall_mem_cons.mp h
      obtain ⟨hproduct, hrest⟩ := hfit hpos
      have hle : w₀.1.toInt * w₀.2.toInt ≤ w₁.1.toInt := by
        rw [← toInt_mul_of_fits hproduct]
        exact Int32.le_iff_toInt_le.mp hle
      exact .cons_cons hle (ih (hrest hle) h)

/-- **Elements that are said to be disjoint are.**  A build with checks returns exactly where there
are enough strides and the products of the test fit.  Where they do, different indices have
different offsets if any build says so; the offsets are integers. -/
theorem elementsDisjoint_sound :
    ((∃ spec, (computeSpecIn .checked basePtr shape strides : Run ε _) = .ok spec) ↔
        shape.length ≤ strides.length ∧ ProductsFit (sortedAxes shape strides)) ∧
      ∀ b spec, (computeSpecIn b basePtr shape strides : Run ε _) = .ok spec →
        ProductsFit (sortedAxes shape strides) → spec.elementsDisjoint = true →
          ∀ i j, Axes.InRange (shape.map Int32.toInt) i → Axes.InRange (shape.map Int32.toInt) j →
            Axes.offset (strides.map Int32.toInt) i = Axes.offset (strides.map Int32.toInt) j →
              i = j := by
  refine ⟨computeSpecIn_checked_iff, fun b spec hrun hfit hdisjoint i j hi hj heq => ?_⟩
  have hlen : shape.length ≤ strides.length := by
    unfold computeSpecIn at hrun
    split at hrun
    · exact absurd hrun Run.panic_ne_ok
    · omega
  obtain rfl := Except.ok.inj (hrun.symm.trans (computeSpecIn_of_fits b hlen hfit))
  obtain ⟨hhead, hwindows⟩ := elementsDisjoint_iff.mp hdisjoint
  let toInts : Int32 × Int32 → ℤ × ℤ := Prod.map Int32.toInt Int32.toInt
  have hindependent : Axes.Independent ((sortedAxes shape strides).map toInts) := by
    apply Axes.independent_of_chain
    · intro a ha
      rw [List.head?_map] at ha
      obtain ⟨w, hw, rfl⟩ := Option.map_eq_some_iff.mp ha
      exact Int32.lt_iff_toInt_lt.mp (hhead w hw)
    · rw [List.isChain_map]
      exact isChain_of_fits hfit hwindows
  have hperm : ((sortedAxes shape strides).map toInts).Perm
      ((strides.map Int32.toInt).zip (shape.map Int32.toInt)) := by
    rw [List.zip_map]
    exact (List.mergeSort_perm _ _).map _
  exact Axes.offset_injOn (hindependent.perm hperm) (by simpa using hlen) hi hj heq

/-- Axes in order of strides stay as they are. -/
theorem sortedAxes_of_sorted (h : (strides.zip shape).Pairwise fun a b => strideLe a b = true) :
    sortedAxes shape strides = strides.zip shape :=
  List.mergeSort_of_pairwise h

/-- The rows of a matrix that is stored column by column: no two elements are at the same place. -/
theorem elementsDisjoint_sound_rows : ∀ i j, Axes.InRange ([8, 4].map Int32.toInt) i →
    Axes.InRange ([8, 4].map Int32.toInt) j →
      Axes.offset ([1, 8].map Int32.toInt) i = Axes.offset ([1, 8].map Int32.toInt) j → i = j := by
  have hsorted : sortedAxes [8, 4] [1, 8] = [(1, 8), (8, 4)] := sortedAxes_of_sorted (by decide)
  have hfit : ProductsFit (sortedAxes [8, 4] [1, 8]) := by
    rw [hsorted]
    exact productsFit_of_forall (by simp [FitsI32])
  have hdisjoint : (computeSpec 0 [8, 4] [1, 8]).elementsDisjoint = true := by
    rw [elementsDisjoint_iff, hsorted]
    simp
  exact (elementsDisjoint_sound (ε := Empty)).2 .checked (computeSpec 0 [8, 4] [1, 8])
    (computeSpecIn_of_fits .checked (by decide) hfit) hfit hdisjoint

/-- The product of the first axis wraps to zero, so that the second one seems to step over it. -/
theorem elementsDisjoint_wraps : ∃ spec,
    (computeSpecIn .wrapping 0 [65536, 2] [65536, 131072] : Run Empty _) = .ok spec ∧
      spec.elementsDisjoint = true ∧
      Axes.InRange ([65536, 2].map Int32.toInt) [2, 0] ∧
      Axes.InRange ([65536, 2].map Int32.toInt) [0, 1] ∧
      Axes.offset ([65536, 131072].map Int32.toInt) [2, 0] =
        Axes.offset ([65536, 131072].map Int32.toInt) [0, 1] := by
  have hsorted : sortedAxes [65536, 2] [65536, 131072] = [(65536, 65536), (131072, 2)] :=
    sortedAxes_of_sorted (by simp [strideLe])
  have hrun : (computeSpecIn .wrapping 0 [65536, 2] [65536, 131072] : Run Empty _) = .ok
      { shapeDiv := [65536, 2].map DivHint.fromValue
        strideDiv := [65536, 131072].map DivHint.fromValue
        strideOne := [false, false]
        basePtrDiv := DivHint.fromPtr 0
        elementsDisjoint := true } := by
    rw [computeSpecIn, hsorted]
    rfl
  exact ⟨_, hrun, rfl, by simp [Axes.InRange], by simp [Axes.InRange], by simp [Axes.offset]⟩

end Disjoint

/-! ### Optimization hints -/

/-- The hints of one GPU. -/
structure SMHints where
  gpuName : String
  numCtaInCga : Option Int32
  occupancy : Option Int32
  maxDivisibility : Option Int32
  numWorkerWarpsPerCta : Option Int32
  minCtasPerSm : Option Int32
  deriving DecidableEq, Repr

/-- No hints for a GPU. -/
def SMHints.new (gpuName : String) : SMHints := ⟨gpuName, none, none, none, none, none⟩

/-- The options of a launch that become hints. -/
structure CompileOptions where
  occupancy : Option Int32
  numCtaInCga : Option Int32
  maxDivisibility : Option Int32
  numWorkerWarpsPerCta : Option Int32
  minCtasPerSm : Option Int32
  deriving DecidableEq, Repr

/-- The hints of a kernel, by GPU. -/
structure OptimizationHints where
  targetGpuName : Option String
  tileAsHints : String → Option SMHints

namespace OptimizationHints

/-- No hints at all. -/
def empty : OptimizationHints := ⟨none, fun _ => none⟩

/-- `get_sm_hints`. -/
def getSmHints (h : OptimizationHints) (key : String) : Option SMHints := h.tileAsHints key

/-- `apply_compile_options`: the options override the hints of the target. -/
def applyCompileOptions (h : OptimizationHints) (options : CompileOptions) : OptimizationHints :=
  if options.occupancy.isNone && options.numCtaInCga.isNone && options.maxDivisibility.isNone &&
      options.numWorkerWarpsPerCta.isNone && options.minCtasPerSm.isNone then h
  else
    let targetArch := h.targetGpuName.getD "sm_100"
    let sm := (h.tileAsHints targetArch).getD (SMHints.new targetArch)
    { h with
      tileAsHints := Function.update h.tileAsHints targetArch <| some { sm with
        occupancy := options.occupancy.or sm.occupancy
        numCtaInCga := options.numCtaInCga.or sm.numCtaInCga
        maxDivisibility := options.maxDivisibility.or sm.maxDivisibility
        minCtasPerSm := options.minCtasPerSm.or sm.minCtasPerSm
        numWorkerWarpsPerCta := options.numWorkerWarpsPerCta.or sm.numWorkerWarpsPerCta } }

/-- The cap that `TensorInput::new` reads for its target. -/
def maxDivisibility (h : OptimizationHints) : Option Int32 :=
  h.targetGpuName.bind fun gpu => (h.getSmHints gpu).bind SMHints.maxDivisibility

/-- The option of the launch, else the hint of the entry; without a target neither is read. -/
theorem maxDivisibility_applyCompileOptions (h : OptimizationHints) (options : CompileOptions) :
    (h.applyCompileOptions options).maxDivisibility =
      h.targetGpuName.bind fun _ => options.maxDivisibility.or h.maxDivisibility := by
  unfold applyCompileOptions maxDivisibility
  split
  · rename_i hnone
    have hmax : options.maxDivisibility = none := by simp_all
    cases htarget : h.targetGpuName with
    | none => rfl
    | some gpu => simp [hmax]
  · cases htarget : h.targetGpuName with
    | none => rfl
    | some gpu =>
      simp only [Option.bind_some, getSmHints, Option.getD_some, Function.update_self]
      cases h.tileAsHints gpu with
      | none => rfl
      | some sm => rfl

end OptimizationHints

end CudaOxide.Tile
