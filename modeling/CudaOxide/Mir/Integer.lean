import CudaOxide.Lib.Word

/-!
# Integer types and the arithmetic of the loop analysis

A value of an integer type is kept as the integer it stands for: an `i8` lies in `[-128, 127]`, a
`u8` in `[0, 255]`.  Two arithmetics meet here.

* `IntegerType.wrap` — the arithmetic of the program: a result is cut to the width of its type,
  `value (BitVec.ofInt width z)`.
* `I128` — the arithmetic of the compiler: the analysis computes in `i128`, and gives up where a
  checked operation overflows.
* `integerValueBounds` — the range of a type as the unroller sees it.
-/

namespace CudaOxide.Mir

/-! ### Checked `i128` arithmetic -/

namespace I128

/-- The integers an `i128` holds. -/
def Fits (x : ℤ) : Prop := -2 ^ 127 ≤ x ∧ x ≤ 2 ^ 127 - 1

instance (x : ℤ) : Decidable (Fits x) := inferInstanceAs (Decidable (_ ∧ _))

/-- The value, if it fits `i128`. -/
def checked (x : ℤ) : Option ℤ := if Fits x then some x else none

/-- `checked_add`, `checked_sub`, `checked_mul` and `checked_neg`: `None` on overflow. -/
def checkedAdd (a b : ℤ) : Option ℤ := checked (a + b)

/-- `checked_sub` of `i128`. -/
def checkedSub (a b : ℤ) : Option ℤ := checked (a - b)

/-- `checked_mul` of `i128`. -/
def checkedMul (a b : ℤ) : Option ℤ := checked (a * b)

/-- `checked_neg` of `i128`. -/
def checkedNeg (a : ℤ) : Option ℤ := checked (-a)

variable {a b c : ℤ}

/-- `checked` succeeds exactly on values that fit. -/
theorem checked_eq_some : checked a = some b ↔ Fits a ∧ a = b := by
  unfold checked
  split <;> simp_all

/-- A checked sum is the exact sum in range. -/
@[simp] theorem checkedAdd_eq_some : checkedAdd a b = some c ↔ Fits (a + b) ∧ a + b = c :=
  checked_eq_some

/-- A checked difference is the exact difference in range. -/
@[simp] theorem checkedSub_eq_some : checkedSub a b = some c ↔ Fits (a - b) ∧ a - b = c :=
  checked_eq_some

/-- A checked product is the exact product in range. -/
@[simp] theorem checkedMul_eq_some : checkedMul a b = some c ↔ Fits (a * b) ∧ a * b = c :=
  checked_eq_some

/-- A checked negation is the exact negation in range. -/
@[simp] theorem checkedNeg_eq_some : checkedNeg a = some c ↔ Fits (-a) ∧ -a = c :=
  checked_eq_some

end I128

/-! ### Integer types -/

/-- How an integer type reads its high bit. -/
inductive Signedness where
  | signed
  | unsigned
  | signless
  deriving DecidableEq, Repr

/-- An integer type of the MIR. -/
structure IntegerType where
  width : ℕ
  signedness : Signedness
  deriving DecidableEq, Repr

namespace IntegerType

variable (ty : IntegerType)

/-- The integer a word stands for.  Signless words compare as unsigned ones. -/
def value (x : BitVec ty.width) : ℤ :=
  match ty.signedness with
  | .signed => x.toInt
  | .unsigned | .signless => x.toNat

/-- The value left of `z` when it is cut to the width of the type. -/
def wrap (z : ℤ) : ℤ := ty.value (BitVec.ofInt ty.width z)

/-- The least and the greatest value of the type. -/
def lo : ℤ :=
  match ty.signedness with
  | .signed => -2 ^ (ty.width - 1)
  | .unsigned | .signless => 0

/-- The greatest value of the type. -/
def hi : ℤ :=
  match ty.signedness with
  | .signed => 2 ^ (ty.width - 1) - 1
  | .unsigned | .signless => 2 ^ ty.width - 1

variable {ty} {z a b : ℤ}

/-- Reading a word and writing it back changes no bit. -/
@[simp] theorem ofInt_value (x : BitVec ty.width) : BitVec.ofInt ty.width (ty.value x) = x := by
  unfold value
  split
  · exact BitVec.ofInt_toInt
  · simp
  · simp

/-- Wrapping does not change the bits. -/
@[simp] theorem ofInt_wrap : BitVec.ofInt ty.width (ty.wrap z) = BitVec.ofInt ty.width z :=
  ofInt_value _

/-- Wrapping is idempotent. -/
@[simp] theorem wrap_wrap : ty.wrap (ty.wrap z) = ty.wrap z := by
  show ty.value (BitVec.ofInt ty.width (ty.wrap z)) = _
  rw [ofInt_wrap]
  rfl

/-- Sums may be cut at every step or once at the end. -/
@[simp] theorem wrap_wrap_add : ty.wrap (ty.wrap a + b) = ty.wrap (a + b) := by
  unfold wrap
  rw [BitVec.ofInt_add, ofInt_value, ← BitVec.ofInt_add]

/-- A summand may be wrapped. -/
@[simp] theorem wrap_add_wrap : ty.wrap (a + ty.wrap b) = ty.wrap (a + b) := by
  rw [add_comm, wrap_wrap_add, add_comm]

/-- A minuend may be wrapped. -/
@[simp] theorem wrap_wrap_sub : ty.wrap (ty.wrap a - b) = ty.wrap (a - b) := by
  rw [sub_eq_add_neg, wrap_wrap_add, ← sub_eq_add_neg]

/-- A subtrahend may be wrapped. -/
theorem wrap_sub_wrap : ty.wrap (a - ty.wrap b) = ty.wrap (a - b) := by
  unfold wrap
  rw [sub_eq_add_neg, BitVec.ofInt_add, BitVec.ofInt_neg, ofInt_value, ← BitVec.ofInt_neg,
    ← BitVec.ofInt_add, ← sub_eq_add_neg]

/-- The range is two halves. -/
theorem two_pow_pred (hw : 0 < ty.width) : (2 : ℤ) ^ ty.width = 2 * 2 ^ (ty.width - 1) := by
  rw [← pow_succ', Nat.sub_add_cancel hw]

/-- A value of the type is not cut. -/
theorem wrap_eq_self (hw : 0 < ty.width) (hlo : ty.lo ≤ z) (hhi : z ≤ ty.hi) : ty.wrap z = z := by
  have htwo := two_pow_pred hw
  unfold wrap value
  unfold lo at hlo
  unfold hi at hhi
  -- the signed range is cut at half the width, the others at the whole
  cases hs : ty.signedness with
  | signed =>
    simp only [hs] at hlo hhi ⊢
    rw [BitVec.toInt_ofInt]
    exact Int.bmod_eq_of_le_mul_two (by push_cast; omega) (by push_cast; omega)
  | unsigned =>
    simp only [hs] at hlo hhi ⊢
    rw [BitVec.toNat_ofInt]
    push_cast
    rw [Int.emod_eq_of_lt hlo (by omega)]
    exact Int.toNat_of_nonneg hlo
  | signless =>
    simp only [hs] at hlo hhi ⊢
    rw [BitVec.toNat_ofInt]
    push_cast
    rw [Int.emod_eq_of_lt hlo (by omega)]
    exact Int.toNat_of_nonneg hlo

/-- A value is at least the lower bound. -/
theorem lo_le_value (x : BitVec ty.width) : ty.lo ≤ ty.value x := by
  unfold lo value
  cases hs : ty.signedness with
  | signed => simpa using BitVec.le_toInt x
  | unsigned => simp
  | signless => simp

/-- A value is at most the upper bound. -/
theorem value_le_hi (x : BitVec ty.width) : ty.value x ≤ ty.hi := by
  unfold hi value
  have hlt := x.isLt
  have hpow : ((2 ^ ty.width : ℕ) : ℤ) = 2 ^ ty.width := by push_cast; rfl
  cases hs : ty.signedness with
  | signed =>
    have := BitVec.toInt_lt (x := x)
    simp only
    omega
  | unsigned => simp only; omega
  | signless => simp only; omega

/-- A wrapped value is at least the lower bound. -/
theorem lo_le_wrap : ty.lo ≤ ty.wrap z := lo_le_value _

/-- A wrapped value is at most the upper bound. -/
theorem wrap_le_hi : ty.wrap z ≤ ty.hi := value_le_hi _

/-- The width of the range. -/
theorem hi_sub_lo (hw : 0 < ty.width) : ty.hi - ty.lo = 2 ^ ty.width - 1 := by
  have htwo := two_pow_pred hw
  unfold hi lo
  cases hs : ty.signedness with
  | signed => simp only; omega
  | unsigned => simp
  | signless => simp

/-- Wrapping has the range as its period. -/
theorem wrap_add_two_pow : ty.wrap (z + 2 ^ ty.width) = ty.wrap z := by
  unfold wrap
  congr 1
  apply BitVec.eq_of_toNat_eq
  simp [BitVec.toNat_ofInt]

/-- One step past the greatest value starts again at the least, and the other way round. -/
theorem wrap_of_hi_lt (hw : 0 < ty.width) (h : ty.hi < z) (hz : z ≤ ty.hi + 2 ^ ty.width) :
    ty.wrap z = z - 2 ^ ty.width := by
  have hspan := hi_sub_lo hw
  have heq : ty.wrap (z - 2 ^ ty.width + 2 ^ ty.width) = ty.wrap (z - 2 ^ ty.width) :=
    wrap_add_two_pow
  rw [sub_add_cancel] at heq
  rw [heq]
  exact wrap_eq_self hw (by omega) (by omega)

/-- Below the range by less than a period, wrapping adds one. -/
theorem wrap_of_lt_lo (hw : 0 < ty.width) (h : z < ty.lo) (hz : ty.lo - 2 ^ ty.width ≤ z) :
    ty.wrap z = z + 2 ^ ty.width := by
  have hspan := hi_sub_lo hw
  rw [← wrap_add_two_pow]
  exact wrap_eq_self hw (by omega) (by omega)

end IntegerType

/-! ### The range of a type, as the unroller sees it -/

/-- `integer_value_bounds`: `None` for widths outside 1 to 128; unsigned 128-bit values above
`i128::MAX` are left out. -/
def integerValueBounds (ty : IntegerType) : Option (ℤ × ℤ) :=
  if ty.width = 0 ∨ 128 < ty.width then none
  else
    match ty.signedness with
    | .signed =>
      if ty.width = 128 then some (-2 ^ 127, 2 ^ 127 - 1)
      else some (-2 ^ (ty.width - 1), 2 ^ (ty.width - 1) - 1)
    | .unsigned | .signless =>
      if 127 ≤ ty.width then some (0, 2 ^ 127 - 1) else some (0, 2 ^ ty.width - 1)

/-- The bounds lie inside the type, and start at its least value. -/
theorem integerValueBounds_spec {ty : IntegerType} {min max : ℤ}
    (h : integerValueBounds ty = some (min, max)) :
    0 < ty.width ∧ min = ty.lo ∧ max ≤ ty.hi := by
  unfold integerValueBounds at h
  split at h
  · cases h
  rename_i hw
  refine ⟨by omega, ?_⟩
  unfold IntegerType.lo IntegerType.hi
  cases hs : ty.signedness with
  | signed =>
    simp only [hs] at h ⊢
    -- both branches give the signed range of the width
    split at h
    · rename_i h128
      simp only [Option.some.injEq, Prod.mk.injEq] at h
      rw [h128]
      omega
    · simp only [Option.some.injEq, Prod.mk.injEq] at h
      omega
  | unsigned =>
    simp only [hs] at h ⊢
    -- at width 128 the upper half is left out
    split at h
    · rename_i hle
      simp only [Option.some.injEq, Prod.mk.injEq] at h
      have := pow_le_pow_right₀ (by decide : (1 : ℤ) ≤ 2) hle
      omega
    · simp only [Option.some.injEq, Prod.mk.injEq] at h
      omega
  | signless =>
    simp only [hs] at h ⊢
    split at h
    · rename_i hle
      simp only [Option.some.injEq, Prod.mk.injEq] at h
      have := pow_le_pow_right₀ (by decide : (1 : ℤ) ≤ 2) hle
      omega
    · simp only [Option.some.injEq, Prod.mk.injEq] at h
      omega

/-- Nothing wraps between the bounds that the compiler computes. -/
theorem wrap_of_mem_bounds {ty : IntegerType} {min max z : ℤ}
    (h : integerValueBounds ty = some (min, max)) (hmin : min ≤ z) (hmax : z ≤ max) :
    ty.wrap z = z := by
  obtain ⟨hw, rfl, hhi⟩ := integerValueBounds_spec h
  exact IntegerType.wrap_eq_self hw hmin (hmax.trans hhi)

/-! ### Comparisons -/

/-- The comparison of a test `lhs <pred> rhs`. -/
inductive CmpPred where
  | lt
  | le
  | gt
  | ge
  deriving DecidableEq, Repr

namespace CmpPred

/-- The test that is true exactly when this one is false. -/
def negate : CmpPred → CmpPred
  | lt => ge
  | le => gt
  | gt => le
  | ge => lt

/-- The same test with its sides exchanged. -/
def swap : CmpPred → CmpPred
  | lt => gt
  | gt => lt
  | le => ge
  | ge => le

/-- What the comparison says about two values of one integer type. -/
def holds (p : CmpPred) (a b : ℤ) : Bool :=
  match p with
  | lt => a < b
  | le => a ≤ b
  | gt => b < a
  | ge => b ≤ a

variable {p : CmpPred} {a b : ℤ}

/-- The negated comparison. -/
@[simp] theorem holds_negate : p.negate.holds a b = !p.holds a b := by
  cases p <;> simp only [negate, holds, ← decide_not, not_lt, not_le]

/-- The swapped comparison. -/
@[simp] theorem holds_swap : p.swap.holds a b = p.holds b a := by
  cases p <;> rfl

/-- A constant may be moved from one side of a test to the other. -/
theorem holds_sub {c : ℤ} : p.holds a (b - c) = p.holds (a + c) b := by
  cases p <;> simp only [holds, decide_eq_decide] <;> omega

end CmpPred

end CudaOxide.Mir
