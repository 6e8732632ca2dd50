import CudaOxide.Lib.Corners
import CudaOxide.Lib.Run
import Mathlib.Data.Nat.Size

/-!
# Interval arithmetic of the tile compiler

An integer value is tracked by an inclusive interval of `i64`s.  `boundsFromBop` computes the
interval of a result from those of the operands.

* `Bounds` and its operators — corners of the box for the operators that go one way along its sides,
  a bound of their own for `%` and the bitwise operators.
* `TileBinaryOp.eval` — what the operators mean over the integers.
* `boundsFromBop_sound` — the result of the operands lies in the interval of the result.
-/

namespace CudaOxide.Tile

open Lib

/-! ### Operators and intervals -/

/-- `TileBinaryOp`. -/
inductive TileBinaryOp where
  | add | sub | mul | div | ceilDiv | trueDiv | rem
  | eq | ne | lt | le | gt | ge
  | min | max
  | bitAnd | bitOr | bitXor
  | shl | shr
  deriving DecidableEq, Repr

/-- `saturating_add` and its like return the nearest `i64`. -/
def saturate (x : ℤ) : ℤ := max (-9223372036854775808) (min x 9223372036854775807)

/-- The integers from `start` to `stop`, both included. -/
structure Bounds where
  start : ℤ
  stop : ℤ
  deriving DecidableEq, Repr

namespace Bounds

/-- The interval of one value. -/
def exact (value : ℤ) : Bounds := ⟨value, value⟩

/-- `is_exact`. -/
def isExact (b : Bounds) : Bool := b.stop = b.start

instance : Membership ℤ Bounds := ⟨fun b x => b.start ≤ x ∧ x ≤ b.stop⟩

instance (x : ℤ) (b : Bounds) : Decidable (x ∈ b) := inferInstanceAs (Decidable (_ ∧ _))

/-- The ends are `i64`s. -/
def Fits (b : Bounds) : Prop := I64.Fits b.start ∧ I64.Fits b.stop

instance (b : Bounds) : Decidable b.Fits := inferInstanceAs (Decidable (_ ∧ _))

/-- The least and the greatest of the four `possible_bounds`. -/
def corners (f : ℤ → ℤ → ℤ) (a b : Bounds) : Bounds where
  start := cornerMin f a.start a.stop b.start b.stop
  stop := cornerMax f a.start a.stop b.start b.stop

/-- `Bounds::add`, saturating. -/
def add (a b : Bounds) : Bounds := corners (fun x y => saturate (x + y)) a b

/-- `Bounds::sub`, saturating. -/
def sub (a b : Bounds) : Bounds := corners (fun x y => saturate (x - y)) a b

/-- `Bounds::mul`, saturating. -/
def mul (a b : Bounds) : Bounds := corners (fun x y => saturate (x * y)) a b

/-- Aborts where an end of `b` is zero; `boundsFromBop` rejects these divisors before. -/
def div (a b : Bounds) : Bounds := corners (fun x y => saturate (x.tdiv y)) a b

/-- A remainder is smaller than its divisor, no larger than its dividend, and has its sign. -/
def rem (a b : Bounds) : Bounds :=
  if a.isExact && b.isExact then exact (a.start.tmod b.start)
  else
    let m := max |b.start| |b.stop| - 1
    { start := if 0 ≤ a.start then 0 else max a.start (-m)
      stop := if a.stop ≤ 0 then 0 else min a.stop m }

end Bounds

/-- `div_ceil_i64`. -/
def divCeilI64 (lhs rhs : ℤ) : ℤ :=
  let quotient := saturate (lhs.tdiv rhs)
  if lhs.tmod rhs = 0 then quotient
  else if decide (0 < lhs) = decide (0 < rhs) then saturate (quotient + 1)
  else quotient

/-- `bop_bounds`. -/
def bopBounds (a b : Bounds) (f : ℤ → ℤ → ℤ) : Bounds :=
  if a.isExact && b.isExact then .exact (f a.start b.start) else .corners f a b

/-- A comparison as an `i64`. -/
def asI64 (p : Prop) [Decidable p] : ℤ := if p then 1 else 0

/-! ### Bitwise operators -/

/-- `BitwiseOp`. -/
inductive BitwiseOp where
  | and
  | or
  | xor
  deriving DecidableEq, Repr

namespace BitwiseOp

/-- The operator on words. -/
def apply (op : BitwiseOp) {w : ℕ} (x y : BitVec w) : BitVec w :=
  match op with
  | .and => x &&& y
  | .or => x ||| y
  | .xor => x ^^^ y

/-- The operator on `i64`s. -/
def eval (op : BitwiseOp) (x y : ℤ) : ℤ :=
  (op.apply (BitVec.ofInt 64 x) (BitVec.ofInt 64 y)).toInt

end BitwiseOp

/-- `leading_zeros` of an `i64` that is not negative. -/
def leadingZeros (v : ℤ) : ℕ := 64 - v.toNat.size

/-- The least `2^n - 1` that covers `v`. -/
def onesOver (v : ℤ) : ℤ :=
  let n := 64 - leadingZeros v
  if n = 0 then 0 else if 63 ≤ n then 9223372036854775807 else 2 ^ n - 1

/-- How many bits `v` needs in two's complement.  The leading ones of a negative number are the
leading zeros of its complement. -/
def signedBits (v : ℤ) : ℕ :=
  if 0 ≤ v then 65 - leadingZeros v else 65 - leadingZeros (-v - 1)

/-- `bitwise_bounds`. -/
def bitwiseBounds (op : BitwiseOp) (a b : Bounds) : Bounds :=
  if a.isExact && b.isExact then .exact (op.eval a.start b.start)
  else if 0 ≤ a.start ∧ 0 ≤ b.start then
    match op with
    | .and => ⟨0, min a.stop b.stop⟩
    | .or => ⟨max a.start b.start, onesOver (BitwiseOp.or.eval a.stop b.stop)⟩
    | .xor => ⟨0, onesOver (BitwiseOp.or.eval a.stop b.stop)⟩
  else
    let k := max (max (signedBits a.start) (signedBits a.stop))
      (max (signedBits b.start) (signedBits b.stop))
    if 64 ≤ k then ⟨-9223372036854775808, 9223372036854775807⟩
    else ⟨-2 ^ (k - 1), 2 ^ (k - 1) - 1⟩

/-! ### The transfer of intervals -/

/-- `bounds_from_bop`. -/
def boundsFromBop (op : TileBinaryOp) (a b : Bounds) : Option Bounds :=
  -- an operator with a divisor is given up where the divisor may be zero
  let unlessZero (r : Bounds) : Option Bounds := if b.start ≤ 0 ∧ 0 ≤ b.stop then none else some r
  match op with
  | .shl | .shr => none
  | .div | .trueDiv => unlessZero (a.div b)
  | .ceilDiv => unlessZero (bopBounds a b divCeilI64)
  | .rem => unlessZero (a.rem b)
  | .add => some (a.add b)
  | .sub => some (a.sub b)
  | .mul => some (a.mul b)
  | .eq =>
    if a.isExact && b.isExact then some (.exact (asI64 (a.start = b.start)))
    else if a.stop < b.start ∨ b.stop < a.start then some (.exact 0)
    else some ⟨0, 1⟩
  | .ne =>
    if a.isExact && b.isExact then some (.exact (asI64 (a.start ≠ b.start)))
    else if a.stop < b.start ∨ b.stop < a.start then some (.exact 1)
    else some ⟨0, 1⟩
  | .lt => some (bopBounds a b fun x y => asI64 (x < y))
  | .le => some (bopBounds a b fun x y => asI64 (x ≤ y))
  | .gt => some (bopBounds a b fun x y => asI64 (y < x))
  | .ge => some (bopBounds a b fun x y => asI64 (y ≤ x))
  | .min => some (bopBounds a b min)
  | .max => some (bopBounds a b max)
  | .bitAnd => some (bitwiseBounds .and a b)
  | .bitOr => some (bitwiseBounds .or a b)
  | .bitXor => some (bitwiseBounds .xor a b)

/-- The result of the operator over the integers; the intervals know nothing of shifts. -/
def TileBinaryOp.eval (op : TileBinaryOp) (x y : ℤ) : Option ℤ :=
  match op with
  | .add => some (x + y)
  | .sub => some (x - y)
  | .mul => some (x * y)
  | .div | .trueDiv => if y = 0 then none else some (x.tdiv y)
  | .ceilDiv => if y = 0 then none else some (-(-x).fdiv y)
  | .rem => if y = 0 then none else some (x.tmod y)
  | .eq => some (asI64 (x = y))
  | .ne => some (asI64 (x ≠ y))
  | .lt => some (asI64 (x < y))
  | .le => some (asI64 (x ≤ y))
  | .gt => some (asI64 (y < x))
  | .ge => some (asI64 (y ≤ x))
  | .min => some (Min.min x y)
  | .max => some (Max.max x y)
  | .bitAnd => some (BitwiseOp.and.eval x y)
  | .bitOr => some (BitwiseOp.or.eval x y)
  | .bitXor => some (BitwiseOp.xor.eval x y)
  | .shl | .shr => none

/-! ### Operators whose extremes are at the corners -/

/-- Saturation is monotone. -/
theorem saturate_mono : Monotone saturate := fun _ _ hle =>
  max_le_max_left _ (min_le_min_right _ hle)

/-- A value that fits is not saturated. -/
theorem saturate_of_fits {x : ℤ} (h : I64.Fits x) : saturate x = x := by
  unfold saturate
  unfold I64.Fits at h
  omega

section Corners

variable {a b : Bounds} {x y : ℤ} {f : ℤ → ℤ → ℤ}

/-- The image of a box is between its corners. -/
theorem Bounds.mem_corners (hf : OneWay f (Set.Icc a.start a.stop) (Set.Icc b.start b.stop))
    (hx : x ∈ a) (hy : y ∈ b) : f x y ∈ corners f a b :=
  hf.mem_corners hx hy

/-- An exact interval holds one value. -/
theorem Bounds.eq_of_isExact (h : a.isExact = true) (hx : x ∈ a) : x = a.start := by
  have hstop : a.stop = a.start := by simpa [Bounds.isExact] using h
  have := hx.1
  have := hx.2
  omega

/-- A value is in its own interval. -/
theorem Bounds.mem_exact (v : ℤ) : v ∈ exact v := ⟨le_rfl, le_rfl⟩

/-- The image of a box is in `bopBounds`. -/
theorem mem_bopBounds (hf : OneWay f (Set.Icc a.start a.stop) (Set.Icc b.start b.stop))
    (hx : x ∈ a) (hy : y ∈ b) : f x y ∈ bopBounds a b f := by
  unfold bopBounds
  split
  · rename_i hexact
    rw [Bool.and_eq_true] at hexact
    rw [Bounds.eq_of_isExact hexact.1 hx, Bounds.eq_of_isExact hexact.2 hy]
    exact Bounds.mem_exact _
  · exact Bounds.mem_corners hf hx hy

/-- A truth value is monotone. -/
theorem asI64_le_asI64 {p q : Prop} [Decidable p] [Decidable q] (h : p → q) :
    asI64 p ≤ asI64 q := by
  unfold asI64
  by_cases hp : p
  · rw [if_pos hp, if_pos (h hp)]
  · rw [if_neg hp]
    split <;> omega

/-- A truth value is 0 or 1. -/
theorem asI64_mem (p : Prop) [Decidable p] : asI64 p ∈ (⟨0, 1⟩ : Bounds) := by
  unfold asI64
  split
  · exact ⟨by decide, by decide⟩
  · exact ⟨by decide, by decide⟩

variable {s t : Set ℤ}

/-- `<` goes one way in both arguments. -/
theorem oneWay_lt : OneWay (fun x y : ℤ => asI64 (x < y)) s t where
  row _ _ := Or.inr fun _ _ _ _ hle => asI64_le_asI64 hle.trans_lt
  column _ _ := Or.inl fun _ _ _ _ hle => asI64_le_asI64 fun h => h.trans_le hle

/-- `≤` goes one way in both arguments. -/
theorem oneWay_le : OneWay (fun x y : ℤ => asI64 (x ≤ y)) s t where
  row _ _ := Or.inr fun _ _ _ _ hle => asI64_le_asI64 hle.trans
  column _ _ := Or.inl fun _ _ _ _ hle => asI64_le_asI64 fun h => h.trans hle

/-- `>` goes one way in both arguments. -/
theorem oneWay_gt : OneWay (fun x y : ℤ => asI64 (y < x)) s t where
  row _ _ := Or.inl fun _ _ _ _ hle => asI64_le_asI64 fun h => h.trans_le hle
  column _ _ := Or.inr fun _ _ _ _ hle => asI64_le_asI64 hle.trans_lt

/-- `≥` goes one way in both arguments. -/
theorem oneWay_ge : OneWay (fun x y : ℤ => asI64 (y ≤ x)) s t where
  row _ _ := Or.inl fun _ _ _ _ hle => asI64_le_asI64 fun h => h.trans hle
  column _ _ := Or.inr fun _ _ _ _ hle => asI64_le_asI64 hle.trans

/-- A divisor of which zero is excluded keeps its sign. -/
theorem Bounds.sign_of_not_mem_zero (h : ¬(b.start ≤ 0 ∧ 0 ≤ b.stop)) :
    (∀ y ∈ Set.Icc b.start b.stop, 0 < y) ∨ ∀ y ∈ Set.Icc b.start b.stop, y < 0 := by
  by_cases hstart : b.start ≤ 0
  · right
    intro y hy
    have := hy.2
    omega
  · left
    intro y hy
    have := hy.1
    omega

/-- Negation is antitone. -/
theorem neg_antitone : Antitone fun z : ℤ => -z := fun _ _ => neg_le_neg

/-- Truncated division goes one way when the divisor keeps its sign. -/
theorem oneWay_tdiv_of_sign (ht : (∀ y ∈ t, 0 < y) ∨ ∀ y ∈ t, y < 0) :
    OneWay (fun x y : ℤ => x.tdiv y) s t := by
  rcases ht with ht | ht
  · exact oneWay_tdiv ht
  · -- turn both arguments around
    have hflip := (oneWay_tdiv (s := Set.univ) (t := {y | 0 < y}) fun _ h => h).comp_left
      neg_antitone (Set.mapsTo_univ _ s)
    have hmaps : Set.MapsTo (fun z : ℤ => -z) t {y | 0 < y} := fun y hy => neg_pos.mpr (ht y hy)
    exact (hflip.comp_right neg_antitone hmaps).congr fun x _ y _ => by
      rw [Int.neg_tdiv, Int.tdiv_neg, neg_neg]

/-- Rounded-up division goes one way when the divisor keeps its sign. -/
theorem oneWay_ceil_of_sign (ht : (∀ y ∈ t, 0 < y) ∨ ∀ y ∈ t, y < 0) :
    OneWay (fun x y : ℤ => -(-x).fdiv y) s t := by
  rcases ht with ht | ht
  · exact (oneWay_ceilDiv ht).congr fun x _ y hy => by
      rw [Int.fdiv_eq_ediv_of_nonneg _ (ht y hy).le]
  · have hflip := (oneWay_ceilDiv (s := Set.univ) (t := {y | 0 < y}) fun _ h => h).comp_left
      neg_antitone (Set.mapsTo_univ _ s)
    have hmaps : Set.MapsTo (fun z : ℤ => -z) t {y | 0 < y} := fun y hy => neg_pos.mpr (ht y hy)
    exact (hflip.comp_right neg_antitone hmaps).congr fun x _ y hy => by
      rw [neg_neg, ← Int.fdiv_eq_ediv_of_nonneg _ (neg_nonneg.mpr (ht y hy).le), ← Int.neg_fdiv_neg,
        neg_neg]

end Corners

/-! ### Division -/

/-- Both signs may be flipped in a rounded-up quotient. -/
theorem divCeilI64_neg_neg {x y : ℤ} (hx : x ≠ 0) (hy : y ≠ 0) :
    divCeilI64 (-x) (-y) = divCeilI64 x y := by
  have hsign : (decide (0 < -x) = decide (0 < -y)) ↔ (decide (0 < x) = decide (0 < y)) := by
    simp only [decide_eq_decide]
    omega
  unfold divCeilI64
  simp only [Int.neg_tdiv, Int.tdiv_neg, neg_neg, Int.neg_tmod, Int.tmod_neg, neg_eq_zero, hsign]

/-- The rounded-up quotient by a positive divisor. -/
theorem divCeilI64_of_pos {x y : ℤ} (hy : 0 < y) : divCeilI64 x y = saturate (-(-x / y)) := by
  have hdivmod := Int.tmod_add_mul_tdiv x y
  set q := x.tdiv y
  set r := x.tmod y with hr
  have hlt : r < y := Int.tmod_lt_of_pos x hy
  have hgt : -y < r := Int.lt_tmod_of_pos x hy
  unfold divCeilI64
  rcases lt_trichotomy r 0 with hneg | hzero | hpos
  · -- a negative dividend is rounded up already
    have hx : ¬0 < x := fun hx => absurd (Int.tmod_nonneg y hx.le) (not_le.mpr hneg)
    have hceil : -x / y = -q := (Int.ediv_emod_unique hy (r := -r)).mpr ⟨by linarith, by
      omega, by omega⟩ |>.1
    rw [hceil, neg_neg, if_neg hneg.ne, if_neg (by simp [hx, hy])]
  · have hceil : -x / y = -q := (Int.ediv_emod_unique hy (r := 0)).mpr
      ⟨by linarith, le_rfl, hy⟩ |>.1
    rw [hceil, neg_neg, if_pos hzero]
  · have hx : 0 < x := by
      by_contra hx
      have := Int.tmod_nonneg (a := -x) y (by omega)
      rw [Int.neg_tmod] at this
      omega
    have hceil : -x / y = -q - 1 :=
      (Int.ediv_emod_unique hy (r := y - r)).mpr ⟨by linarith, by omega, by omega⟩ |>.1
    have hq : 0 ≤ q := Int.tdiv_nonneg hx.le hy.le
    rw [hceil, if_neg hpos.ne', if_pos (by simp [hx, hy])]
    unfold saturate
    omega

/-- The source rounds up. -/
theorem divCeilI64_eq {x y : ℤ} (hy : y ≠ 0) : divCeilI64 x y = saturate (-(-x).fdiv y) := by
  rcases lt_or_gt_of_ne hy with hneg | hpos
  · by_cases hx : x = 0
    · simp [hx, divCeilI64]
    · rw [← divCeilI64_neg_neg hx hy, divCeilI64_of_pos (neg_pos.mpr hneg), neg_neg,
        ← Int.fdiv_eq_ediv_of_nonneg _ (neg_pos.mpr hneg).le, ← Int.neg_fdiv_neg, neg_neg]
  · rw [divCeilI64_of_pos hpos, Int.fdiv_eq_ediv_of_nonneg _ hpos.le]

section Division

variable {a b : Bounds} {x y : ℤ}

/-- A rounded-up quotient is in the bounds of the corners. -/
theorem mem_ceilBounds (hb : ¬(b.start ≤ 0 ∧ 0 ≤ b.stop)) (hx : x ∈ a) (hy : y ∈ b) :
    saturate (-(-x).fdiv y) ∈ bopBounds a b divCeilI64 := by
  have hsign := Bounds.sign_of_not_mem_zero hb
  have hne : ∀ z ∈ Set.Icc b.start b.stop, z ≠ 0 := by
    intro z hz
    rcases hsign with h | h
    · exact (h z hz).ne'
    · exact (h z hz).ne
  have hone : OneWay divCeilI64 (Set.Icc a.start a.stop) (Set.Icc b.start b.stop) :=
    ((oneWay_ceil_of_sign hsign).comp saturate_mono).congr fun _ _ z hz =>
      (divCeilI64_eq (hne z hz)).symm
  rw [← divCeilI64_eq (hne y hy)]
  exact mem_bopBounds hone hx hy

/-- A quotient is in the bounds of the division. -/
theorem mem_div (hb : ¬(b.start ≤ 0 ∧ 0 ≤ b.stop)) (hx : x ∈ a) (hy : y ∈ b) :
    saturate (x.tdiv y) ∈ a.div b :=
  Bounds.mem_corners
    ((oneWay_tdiv_of_sign (Bounds.sign_of_not_mem_zero hb)).comp saturate_mono) hx hy

/-- A remainder is smaller than its divisor, no larger than its dividend, and has its sign. -/
theorem tmod_bounds (hy : y ≠ 0) :
    |x.tmod y| ≤ |y| - 1 ∧ |x.tmod y| ≤ |x| ∧ (0 ≤ x → 0 ≤ x.tmod y) ∧ (x ≤ 0 → x.tmod y ≤ 0) := by
  have hnat := Int.natAbs_tmod x y
  have hlt := Nat.mod_lt x.natAbs (Int.natAbs_pos.mpr hy)
  have hle := Nat.mod_le x.natAbs y.natAbs
  simp only [Int.abs_eq_natAbs]
  refine ⟨by omega, by omega, fun hx => Int.tmod_nonneg y hx, fun hx => ?_⟩
  have hneg := Int.tmod_nonneg (a := -x) y (by omega)
  rw [Int.neg_tmod] at hneg
  omega

/-- A remainder is in the bounds of the remainder. -/
theorem mem_rem (hb : ¬(b.start ≤ 0 ∧ 0 ≤ b.stop)) (hx : x ∈ a) (hy : y ∈ b) :
    x.tmod y ∈ a.rem b := by
  unfold Bounds.rem
  split
  · rename_i hexact
    rw [Bool.and_eq_true] at hexact
    rw [Bounds.eq_of_isExact hexact.1 hx, Bounds.eq_of_isExact hexact.2 hy]
    exact Bounds.mem_exact _
  · obtain ⟨hx₁, hx₂⟩ := hx
    obtain ⟨hy₁, hy₂⟩ := hy
    have habs : |y| ≤ max |b.start| |b.stop| := abs_le_max_abs_abs hy₁ hy₂
    obtain ⟨hlt, hle, hnonneg, hnonpos⟩ := tmod_bounds (x := x) (y := y) (by omega)
    have hm := abs_le.mp (hlt.trans (sub_le_sub_right habs 1))
    -- a dividend of one sign has no larger remainder than its end on that side
    constructor
    · show (if 0 ≤ a.start then 0 else _) ≤ _
      split
      · exact hnonneg (by omega)
      · refine max_le ?_ hm.1
        rcases le_total 0 x with hx | hx
        · have := hnonneg hx
          omega
        · rw [abs_of_nonpos hx] at hle
          have := (abs_le.mp hle).1
          omega
    · show _ ≤ (if a.stop ≤ 0 then 0 else _)
      split
      · exact hnonpos (by omega)
      · refine le_min ?_ hm.2
        rcases le_total 0 x with hx | hx
        · rw [abs_of_nonneg hx] at hle
          have := (abs_le.mp hle).2
          omega
        · have := hnonpos hx
          omega

end Division

/-! ### Bitwise operators on intervals -/

section Bitwise

variable {op : BitwiseOp} {a b : Bounds} {x y v : ℤ} {k m : ℕ}

namespace BitwiseOp

/-- The operator on natural numbers. -/
def nat (op : BitwiseOp) (m n : ℕ) : ℕ :=
  match op with
  | .and => m &&& n
  | .or => m ||| n
  | .xor => m ^^^ n

/-- A bitwise operation on words is one on their numbers. -/
theorem toNat_apply {w : ℕ} (u v : BitVec w) : (op.apply u v).toNat = op.nat u.toNat v.toNat := by
  cases op with
  | and => exact BitVec.toNat_and ..
  | or => exact BitVec.toNat_or ..
  | xor => exact BitVec.toNat_xor ..

/-- A bitwise operation stays below a power of two. -/
theorem nat_lt_two_pow {n : ℕ} (hm : m < 2 ^ n) (hk : k < 2 ^ n) : op.nat m k < 2 ^ n := by
  cases op with
  | and => exact Nat.and_lt_two_pow m hk
  | or => exact Nat.or_lt_two_pow hm hk
  | xor => exact Nat.xor_lt_two_pow hm hk

/-- Words may be extended by their signs before or after the operator. -/
theorem apply_signExtend {w w' : ℕ} (u v : BitVec w) :
    op.apply (u.signExtend w') (v.signExtend w') = (op.apply u v).signExtend w' := by
  cases op with
  | and => exact BitVec.signExtend_and.symm
  | or => exact BitVec.signExtend_or.symm
  | xor => exact BitVec.signExtend_xor.symm

/-- A bitwise operation stays in `i64`. -/
theorem eval_fits (op : BitwiseOp) (x y : ℤ) : I64.Fits (op.eval x y) := by
  have hlo := BitVec.le_toInt (op.apply (BitVec.ofInt 64 x) (BitVec.ofInt 64 y))
  have hhi := BitVec.toInt_lt (x := op.apply (BitVec.ofInt 64 x) (BitVec.ofInt 64 y))
  unfold I64.Fits eval
  omega

/-- Where both operands have room in `k` bits, the high bits are copies of the sign. -/
theorem eval_of_fits (hk : 0 < k) (hk64 : k ≤ 64) (hx : -2 ^ (k - 1) ≤ x ∧ x < 2 ^ (k - 1))
    (hy : -2 ^ (k - 1) ≤ y ∧ y < 2 ^ (k - 1)) :
    op.eval x y = (op.apply (BitVec.ofInt k x) (BitVec.ofInt k y)).toInt := by
  have hword : ∀ z : ℤ, -2 ^ (k - 1) ≤ z ∧ z < 2 ^ (k - 1) →
      BitVec.ofInt 64 z = (BitVec.ofInt k z).signExtend 64 := by
    intro z hz
    have hpow : (2 : ℤ) ^ k = 2 * 2 ^ (k - 1) := by rw [← pow_succ', Nat.sub_add_cancel hk]
    have hmono : (2 : ℤ) ^ (k - 1) ≤ 2 ^ 63 := pow_le_pow_right₀ (by decide) (by omega)
    apply BitVec.eq_of_toInt_eq
    rw [BitVec.toInt_signExtend_of_le hk64, BitVec.toInt_ofInt, BitVec.toInt_ofInt,
      Int.bmod_eq_of_le_mul_two (by push_cast; omega) (by push_cast; omega),
      Int.bmod_eq_of_le_mul_two (by push_cast; omega) (by push_cast; omega)]
  rw [eval, hword x hx, hword y hy, apply_signExtend, BitVec.toInt_signExtend_of_le hk64]

/-- On numbers that are not negative it is the operator on natural numbers. -/
theorem eval_of_nonneg (hx : 0 ≤ x ∧ x ≤ 9223372036854775807)
    (hy : 0 ≤ y ∧ y ≤ 9223372036854775807) : op.eval x y = op.nat x.toNat y.toNat := by
  have hword : ∀ z : ℤ, 0 ≤ z ∧ z ≤ 9223372036854775807 →
      (BitVec.ofInt 64 z).toNat = z.toNat := by
    intro z hz
    rw [BitVec.toNat_ofInt, Int.emod_eq_of_lt hz.1 (by omega)]
  have hlt : op.nat x.toNat y.toNat < 2 ^ 63 := nat_lt_two_pow (by omega) (by omega)
  unfold eval
  rw [BitVec.toInt_eq_toNat_of_lt, toNat_apply, hword x hx, hword y hy]
  rw [toNat_apply, hword x hx, hword y hy]
  omega

end BitwiseOp

/-- The signed bits of a value are those of its magnitude and a sign. -/
theorem signedBits_eq (hv : I64.Fits v) :
    signedBits v = (if 0 ≤ v then v.toNat.size else (-v - 1).toNat.size) + 1 := by
  unfold I64.Fits at hv
  have hsize : ∀ n : ℕ, n < 2 ^ 63 → n.size ≤ 63 := fun n hn => Nat.size_le.mpr hn
  unfold signedBits leadingZeros
  split
  · have := hsize v.toNat (by omega)
    omega
  · have := hsize (-v - 1).toNat (by omega)
    omega

/-- A value lies in the range of its signed bits. -/
theorem fits_of_signedBits_le (hv : I64.Fits v) (h : signedBits v ≤ k) :
    -2 ^ (k - 1) ≤ v ∧ v < 2 ^ (k - 1) := by
  have hpow : (2 : ℤ) ^ (k - 1) = ((2 ^ (k - 1) : ℕ) : ℤ) := by push_cast; rfl
  rw [signedBits_eq hv] at h
  by_cases h0 : 0 ≤ v
  · rw [if_pos h0] at h
    have := Nat.size_le.mp (show v.toNat.size ≤ k - 1 by omega)
    omega
  · rw [if_neg h0] at h
    have := Nat.size_le.mp (show (-v - 1).toNat.size ≤ k - 1 by omega)
    omega

/-- A value of no more bits is below the ones. -/
theorem le_onesOver (hv : 0 ≤ v ∧ v ≤ 9223372036854775807) (h : m.size ≤ v.toNat.size) :
    (m : ℤ) ≤ onesOver v := by
  have hsize : v.toNat.size ≤ 63 := Nat.size_le.mpr (by omega)
  have hn : 64 - leadingZeros v = v.toNat.size := by
    unfold leadingZeros
    omega
  have hm := Nat.lt_size_self m
  have hle : 2 ^ m.size ≤ 2 ^ v.toNat.size := Nat.pow_le_pow_right (by decide) h
  unfold onesOver
  rw [hn]
  simp only
  by_cases h0 : v.toNat.size = 0
  · rw [if_pos h0]
    rw [h0] at hle
    omega
  · rw [if_neg h0]
    split
    · have : 2 ^ v.toNat.size ≤ 2 ^ 63 := Nat.pow_le_pow_right (by decide) hsize
      omega
    · have : (2 : ℤ) ^ v.toNat.size = ((2 ^ v.toNat.size : ℕ) : ℤ) := by push_cast; rfl
      omega

/-- Every number of an interval has room in the bits of both ends. -/
theorem Bounds.fits_of_signedBits (ha : a.Fits) (hx : x ∈ a) (hstart : signedBits a.start ≤ k)
    (hstop : signedBits a.stop ≤ k) : -2 ^ (k - 1) ≤ x ∧ x < 2 ^ (k - 1) :=
  ⟨(fits_of_signedBits_le ha.1 hstart).1.trans hx.1,
    lt_of_le_of_lt hx.2 (fits_of_signedBits_le ha.2 hstop).2⟩

/-- The bits of two numbers, set over the ends of their intervals. -/
theorem size_nat_le {op : BitwiseOp} {m n m' n' : ℕ} (hm : m ≤ m') (hn : n ≤ n') :
    (op.nat m n).size ≤ (BitwiseOp.or.nat m' n').size := by
  have hlt := Nat.lt_size_self (BitwiseOp.or.nat m' n')
  apply Nat.size_le.mpr
  apply BitwiseOp.nat_lt_two_pow
  · exact (hm.trans Nat.left_le_or).trans_lt hlt
  · exact (hn.trans Nat.right_le_or).trans_lt hlt

/-- Both operands lie in intervals without negative numbers. -/
theorem eval_mem_nonneg (op : BitwiseOp) (ha : a.Fits) (hb : b.Fits) (hx : x ∈ a) (hy : y ∈ b)
    (ha0 : 0 ≤ a.start)
    (hb0 : 0 ≤ b.start) :
    0 ≤ op.eval x y ∧ (op = .and → op.eval x y ≤ min a.stop b.stop) ∧
      (op = .or → max a.start b.start ≤ op.eval x y) ∧
      op.eval x y ≤ onesOver (BitwiseOp.or.eval a.stop b.stop) := by
  obtain ⟨hx₁, hx₂⟩ := hx
  obtain ⟨hy₁, hy₂⟩ := hy
  have ha2 := ha.2
  have hb2 := hb.2
  unfold I64.Fits at ha2 hb2
  have hends : BitwiseOp.or.eval a.stop b.stop = BitwiseOp.or.nat a.stop.toNat b.stop.toNat :=
    BitwiseOp.eval_of_nonneg (by omega) (by omega)
  have hends_lt : BitwiseOp.or.nat a.stop.toNat b.stop.toNat < 2 ^ 63 :=
    BitwiseOp.nat_lt_two_pow (by omega) (by omega)
  rw [BitwiseOp.eval_of_nonneg (by omega) (by omega)]
  refine ⟨by positivity, ?_, ?_, ?_⟩
  · rintro rfl
    have hl : x.toNat &&& y.toNat ≤ x.toNat := Nat.and_le_left
    have hr : x.toNat &&& y.toNat ≤ y.toNat := Nat.and_le_right
    show ((x.toNat &&& y.toNat : ℕ) : ℤ) ≤ _
    omega
  · rintro rfl
    have hl : x.toNat ≤ x.toNat ||| y.toNat := Nat.left_le_or
    have hr : y.toNat ≤ x.toNat ||| y.toNat := Nat.right_le_or
    show _ ≤ ((x.toNat ||| y.toNat : ℕ) : ℤ)
    omega
  · rw [hends]
    apply le_onesOver (by omega)
    rw [Int.toNat_natCast]
    exact size_nat_le (by omega) (by omega)

/-- A bitwise result is in the bitwise bounds. -/
theorem mem_bitwiseBounds (ha : a.Fits) (hb : b.Fits) (hx : x ∈ a) (hy : y ∈ b) :
    op.eval x y ∈ bitwiseBounds op a b := by
  unfold bitwiseBounds
  by_cases hexact : (a.isExact && b.isExact) = true
  · rw [if_pos hexact]
    rw [Bool.and_eq_true] at hexact
    rw [Bounds.eq_of_isExact hexact.1 hx, Bounds.eq_of_isExact hexact.2 hy]
    exact Bounds.mem_exact _
  rw [if_neg hexact]
  by_cases hsign : 0 ≤ a.start ∧ 0 ≤ b.start
  · rw [if_pos hsign]
    obtain ⟨hnonneg, hand, hor, hones⟩ := eval_mem_nonneg op ha hb hx hy hsign.1 hsign.2
    cases op with
    | and => exact ⟨hnonneg, hand rfl⟩
    | or => exact ⟨hor rfl, hones⟩
    | xor => exact ⟨hnonneg, hones⟩
  · rw [if_neg hsign]
    set k := max (max (signedBits a.start) (signedBits a.stop))
      (max (signedBits b.start) (signedBits b.stop)) with hk
    have hpos : 0 < k := by
      have := signedBits_eq ha.1
      omega
    simp only
    by_cases hwide : 64 ≤ k
    · rw [if_pos hwide]
      exact op.eval_fits x y
    · rw [if_neg hwide]
      have hxk := Bounds.fits_of_signedBits ha hx (k := k) (by omega) (by omega)
      have hyk := Bounds.fits_of_signedBits hb hy (k := k) (by omega) (by omega)
      rw [BitwiseOp.eval_of_fits hpos (by omega) hxk hyk]
      exact ⟨BitVec.le_toInt _, Int.le_sub_one_of_lt (BitVec.toInt_lt)⟩

end Bitwise

/-! ### Soundness -/

/-- What lies between bounds that fit fits. -/
theorem Bounds.fits_of_mem {a : Bounds} {x : ℤ} (ha : a.Fits) (hx : x ∈ a) : I64.Fits x :=
  ⟨ha.1.1.trans hx.1, hx.2.trans ha.2.2⟩

/-- A truth value fits. -/
theorem fits_asI64 (p : Prop) [Decidable p] : I64.Fits (asI64 p) := by
  unfold asI64 I64.Fits
  split <;> omega

/-- A remainder fits. -/
theorem fits_tmod {x y : ℤ} (hx : I64.Fits x) (hy : y ≠ 0) : I64.Fits (x.tmod y) := by
  obtain ⟨-, hle, hnonneg, hnonpos⟩ := tmod_bounds (x := x) hy
  unfold I64.Fits at hx ⊢
  rcases le_total 0 x with h0 | h0
  · rw [abs_of_nonneg h0] at hle
    have := (abs_le.mp hle).2
    have := hnonneg h0
    omega
  · rw [abs_of_nonpos h0] at hle
    have := (abs_le.mp hle).1
    have := hnonpos h0
    omega

/-- A result that is an `i64` is not saturated. -/
theorem saturate_mem {r : Bounds} {z : ℤ} (hz : I64.Fits z) (h : z ∈ r) : saturate z ∈ r := by
  rwa [saturate_of_fits hz]

/-- Equality is decided by exact or disjoint intervals only. -/
theorem eq_of_overlap {a b : Bounds} {x y : ℤ} (hx : x ∈ a) (hy : y ∈ b) :
    ((a.isExact && b.isExact) = true → (x = y ↔ a.start = b.start)) ∧
      (a.stop < b.start ∨ b.stop < a.start → x ≠ y) := by
  constructor
  · intro hexact
    rw [Bool.and_eq_true] at hexact
    rw [Bounds.eq_of_isExact hexact.1 hx, Bounds.eq_of_isExact hexact.2 hy]
  · intro hdisjoint hxy
    have := hx.1
    have := hx.2
    have := hy.1
    have := hy.2
    omega

/-- **The transfer of intervals is sound.**  Where it gives an interval, the operator is defined on
the operands, and its result, saturated to an `i64`, lies in the interval. -/
theorem boundsFromBop_sound {op : TileBinaryOp} {a b r : Bounds} {x y : ℤ} (ha : a.Fits)
    (hb : b.Fits) (hx : x ∈ a) (hy : y ∈ b) (h : boundsFromBop op a b = some r) :
    ∃ z, op.eval x y = some z ∧ saturate z ∈ r := by
  have hfx := Bounds.fits_of_mem ha hx
  have hfy := Bounds.fits_of_mem hb hy
  -- an interval without 0 has no 0 in it
  have hy0 : ¬(b.start ≤ 0 ∧ 0 ≤ b.stop) → y ≠ 0 := by
    rintro hb rfl
    exact hb hy
  cases op with
  -- the monotone operations, saturated at the corners
  | add =>
    cases h
    exact ⟨_, rfl, Bounds.mem_corners (oneWay_add.comp saturate_mono) hx hy⟩
  | sub =>
    cases h
    exact ⟨_, rfl, Bounds.mem_corners (oneWay_sub.comp saturate_mono) hx hy⟩
  | mul =>
    cases h
    exact ⟨_, rfl, Bounds.mem_corners (oneWay_mul.comp saturate_mono) hx hy⟩
  -- a division folds when the divisor cannot be 0
  | div =>
    simp only [boundsFromBop, Option.ite_none_left_eq_some, Option.some.injEq] at h
    obtain ⟨hb0, rfl⟩ := h
    exact ⟨_, if_neg (hy0 hb0), mem_div hb0 hx hy⟩
  | trueDiv =>
    simp only [boundsFromBop, Option.ite_none_left_eq_some, Option.some.injEq] at h
    obtain ⟨hb0, rfl⟩ := h
    exact ⟨_, if_neg (hy0 hb0), mem_div hb0 hx hy⟩
  | ceilDiv =>
    simp only [boundsFromBop, Option.ite_none_left_eq_some, Option.some.injEq] at h
    obtain ⟨hb0, rfl⟩ := h
    exact ⟨_, if_neg (hy0 hb0), mem_ceilBounds hb0 hx hy⟩
  | rem =>
    simp only [boundsFromBop, Option.ite_none_left_eq_some, Option.some.injEq] at h
    obtain ⟨hb0, rfl⟩ := h
    exact ⟨_, if_neg (hy0 hb0), saturate_mem (fits_tmod hfx (hy0 hb0)) (mem_rem hb0 hx hy)⟩
  -- an equality folds when both sides are exact or the intervals are disjoint
  | eq =>
    obtain ⟨hexact, hdisjoint⟩ := eq_of_overlap hx hy
    refine ⟨_, rfl, saturate_mem (fits_asI64 _) ?_⟩
    simp only [boundsFromBop] at h
    split at h
    · rename_i hc
      cases h
      simp only [hexact hc]
      exact Bounds.mem_exact _
    · split at h
      · rename_i hc
        cases h
        rw [asI64, if_neg (hdisjoint hc)]
        exact Bounds.mem_exact _
      · cases h
        exact asI64_mem _
  | ne =>
    obtain ⟨hexact, hdisjoint⟩ := eq_of_overlap hx hy
    refine ⟨_, rfl, saturate_mem (fits_asI64 _) ?_⟩
    simp only [boundsFromBop] at h
    split at h
    · rename_i hc
      cases h
      simp only [ne_eq, hexact hc]
      exact Bounds.mem_exact _
    · split at h
      · rename_i hc
        cases h
        rw [asI64, if_pos (hdisjoint hc)]
        exact Bounds.mem_exact _
      · cases h
        exact asI64_mem _
  -- a comparison is monotone in both operands
  | lt =>
    cases h
    exact ⟨_, rfl, saturate_mem (fits_asI64 _) (mem_bopBounds oneWay_lt hx hy)⟩
  | le =>
    cases h
    exact ⟨_, rfl, saturate_mem (fits_asI64 _) (mem_bopBounds oneWay_le hx hy)⟩
  | gt =>
    cases h
    exact ⟨_, rfl, saturate_mem (fits_asI64 _) (mem_bopBounds oneWay_gt hx hy)⟩
  | ge =>
    cases h
    exact ⟨_, rfl, saturate_mem (fits_asI64 _) (mem_bopBounds oneWay_ge hx hy)⟩
  | min =>
    cases h
    have hfits : I64.Fits (min x y) := ⟨le_min hfx.1 hfy.1, (min_le_left _ _).trans hfx.2⟩
    exact ⟨_, rfl, saturate_mem hfits (mem_bopBounds oneWay_min hx hy)⟩
  | max =>
    cases h
    have hfits : I64.Fits (max x y) := ⟨hfx.1.trans (le_max_left _ _), max_le hfx.2 hfy.2⟩
    exact ⟨_, rfl, saturate_mem hfits (mem_bopBounds oneWay_max hx hy)⟩
  -- the bitwise operations have bounds of their own
  | bitAnd =>
    cases h
    exact ⟨_, rfl, saturate_mem (BitwiseOp.eval_fits ..) (mem_bitwiseBounds ha hb hx hy)⟩
  | bitOr =>
    cases h
    exact ⟨_, rfl, saturate_mem (BitwiseOp.eval_fits ..) (mem_bitwiseBounds ha hb hx hy)⟩
  | bitXor =>
    cases h
    exact ⟨_, rfl, saturate_mem (BitwiseOp.eval_fits ..) (mem_bitwiseBounds ha hb hx hy)⟩
  -- shifts are not folded
  | shl => cases h
  | shr => cases h

end CudaOxide.Tile
