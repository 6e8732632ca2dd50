import CudaOxide.Lib.Rounding
import CudaOxide.TileIr.Encoding

/-!
# Eight-bit floats

The casts of an `f64` to `f8E4M3FN` and `f8E5M2` (`convert_to_f8` of
`cutile-ir/src/bytecode/encoding.rs`).  Floats stand as their bits; their values are rational
numbers.

* `convertToF8` — the cast, with its paths for special, large, subnormal and normal numbers.
* `convertToF8_eq` — every path gives the sign and the rounded number in the row of the format, cut
  off at the top.
* `f8_nearest` — the casts round to nearest, ties to even, and are monotone.
-/

namespace CudaOxide.TileIr

open CudaOxide.Lib Rounding

/-! ### The casts -/

/-- `round_shift_right_ties_even`. -/
def roundShiftRightTiesEven (value shift : ℕ) : ℕ :=
  if shift = 0 then value
  else if 64 ≤ shift then 0
  else
    let truncated := value >>> shift
    let remainderMask := 1 <<< shift - 1
    let remainder := value &&& remainderMask
    let half := 1 <<< (shift - 1)
    let shouldRoundUp := half < remainder ∨ remainder = half ∧ truncated &&& 1 = 1
    truncated + if shouldRoundUp then 1 else 0

/-- A format of eight bits. -/
structure F8Format where
  expBits : ℕ
  manBits : ℕ
  bias : ℤ
  /-- All ones are the only NaN, and there is no infinity. -/
  nanOnlyAllOnes : Bool

namespace F8Format

/-- The format with three bits behind the point. -/
def e4m3fn : F8Format := ⟨4, 3, 7, true⟩

/-- The format with two bits behind the point. -/
def e5m2 : F8Format := ⟨5, 2, 15, false⟩

variable (f : F8Format)

/-- The greatest exponent code. -/
def maxExp : ℤ := 1 <<< f.expBits - 1

/-- The bits behind the point. -/
def manMask : ℕ := 1 <<< f.manBits - 1

/-- `(sign << 7) | ((exp as u8) << man_bits) | mantissa` -/
def pack (sign : ℕ) (exp : ℤ) (mantissa : ℕ) : UInt8 :=
  UInt8.ofNat (sign <<< 7 ||| (exp.toNat % 256) <<< f.manBits ||| mantissa)

/-- The code of the greatest finite value. -/
def maxFinite (sign : ℕ) : UInt8 :=
  if f.nanOnlyAllOnes then f.pack sign f.maxExp (f.manMask - 1)
  else f.pack sign (f.maxExp - 1) f.manMask

end F8Format

/-- The sign bit of an `f64`. -/
def f64Sign (bits : UInt64) : ℕ := bits.toNat >>> 63 &&& 1

/-- The exponent code of an `f64`. -/
def f64Exp (bits : UInt64) : ℕ := bits.toNat >>> 52 &&& 0x7FF

/-- The bits of an `f64` behind the point. -/
def f64Man (bits : UInt64) : ℕ := bits.toNat &&& (1 <<< 52 - 1)

/-- The significand and its exponent: a subnormal number has no leading one. -/
def f64Parts (bits : UInt64) : ℕ × ℤ :=
  if f64Exp bits = 0 then (f64Man bits, -1022)
  else (1 <<< 52 ||| f64Man bits, (f64Exp bits : ℤ) - 1023)

/-- `convert_to_f8` -/
def convertToF8 (bits : UInt64) (f : F8Format) : UInt8 :=
  let sign := f64Sign bits
  if f64Exp bits = 0x7FF then
    if f64Man bits ≠ 0 then
      if f.nanOnlyAllOnes then f.pack sign f.maxExp f.manMask else f.pack sign f.maxExp 1
    else if !f.nanOnlyAllOnes then f.pack sign f.maxExp 0
    else f.maxFinite sign
  -- `value == 0.0 || value == -0.0`
  else if f64Exp bits = 0 ∧ f64Man bits = 0 then UInt8.ofNat (sign <<< 7)
  else
    let significand := (f64Parts bits).1
    let unbiased := (f64Parts bits).2
    if significand = 0 then UInt8.ofNat (sign <<< 7)
    else
      let targetExp := unbiased + f.bias
      if targetExp > f.maxExp ∨ !f.nanOnlyAllOnes ∧ targetExp ≥ f.maxExp then
        if !f.nanOnlyAllOnes then f.pack sign f.maxExp 0 else f.maxFinite sign
      else if targetExp ≤ 0 then
        let shift := 1 - targetExp
        let subnormalMan := roundShiftRightTiesEven significand (52 - f.manBits + shift).toNat
        if subnormalMan = 0 then UInt8.ofNat (sign <<< 7)
        else if subnormalMan ≥ 1 <<< f.manBits then UInt8.ofNat (sign <<< 7 ||| 1 <<< f.manBits)
        else UInt8.ofNat (sign <<< 7 ||| (subnormalMan % 256 &&& f.manMask))
      else
        let rounded := roundShiftRightTiesEven significand (52 - f.manBits)
        let carry := rounded = 1 <<< (f.manBits + 1)
        let targetExp := if carry then targetExp + 1 else targetExp
        let mantissa := if carry then 0 else rounded % 256 &&& f.manMask
        if targetExp > f.maxExp ∨
            f.nanOnlyAllOnes ∧ targetExp = f.maxExp ∧ mantissa = f.manMask then f.maxFinite sign
        else if !f.nanOnlyAllOnes ∧ targetExp ≥ f.maxExp then f.pack sign f.maxExp 0
        else f.pack sign targetExp mantissa

/-- `f64_to_f8_e4m3fn`. -/
def f64ToF8E4M3FN (bits : UInt64) : UInt8 := convertToF8 bits .e4m3fn

/-- `f64_to_f8_e5m2`. -/
def f64ToF8E5M2 (bits : UInt64) : UInt8 := convertToF8 bits .e5m2

example : f64ToF8E4M3FN 0x407d000000000000 = 0x7E ∧ f64ToF8E5M2 0x40EE000000000000 = 0x7C := by
  decide

/-! ### Values -/

/-- The value of an `f64` that is not infinite and not a NaN. -/
def f64Value (bits : UInt64) : ℚ :=
  (if f64Sign bits = 1 then -1 else 1) * ((f64Parts bits).1 * 2 ^ ((f64Parts bits).2 - 52))

namespace F8Format

/-- The value of a code without its sign, read as a number.  The infinities of `f8E5M2` count as the
power of two behind the largest number. -/
def magnitude (f : F8Format) (code : ℕ) : ℚ :=
  if code / 2 ^ f.manBits = 0 then (code % 2 ^ f.manBits : ℕ) * 2 ^ (1 - f.bias - f.manBits)
  else (2 ^ f.manBits + code % 2 ^ f.manBits : ℕ) *
    2 ^ ((code / 2 ^ f.manBits : ℕ) - f.bias - f.manBits)

/-- The value of a code. -/
def value (f : F8Format) (code : UInt8) : ℚ :=
  (if 128 ≤ code.toNat then -1 else 1) * f.magnitude (code.toNat % 128)

/-- The code of the largest number, or of the infinity. -/
def top (f : F8Format) : ℕ :=
  if f.nanOnlyAllOnes then (2 ^ f.expBits - 1) * 2 ^ f.manBits + (2 ^ f.manBits - 2)
  else (2 ^ f.expBits - 1) * 2 ^ f.manBits

/-- A sign, an exponent and a significand fill the eight bits. -/
structure Fits (f : F8Format) : Prop where
  width : f.expBits + f.manBits = 7
  exp : 1 ≤ f.expBits
  man : 1 ≤ f.manBits
  bias_nonneg : 0 ≤ f.bias
  bias_le : f.bias ≤ 1022

/-- The first format is one that the conversion handles. -/
theorem fits_e4m3fn : e4m3fn.Fits := ⟨by decide, by decide, by decide, by decide, by decide⟩

/-- The second format is one that the conversion handles. -/
theorem fits_e5m2 : e5m2.Fits := ⟨by decide, by decide, by decide, by decide, by decide⟩

end F8Format

/-! ### Rounding a shift -/

/-- The shift rounds to the nearest integer, to the even one in the middle. -/
theorem roundShiftRightTiesEven_cases {value shift : ℕ} (hshift : 0 < shift)
    (hvalue : value < 2 ^ 63) :
    roundShiftRightTiesEven value shift = value / 2 ^ shift ∧
        2 * (value % 2 ^ shift) ≤ 2 ^ shift ∧
        (2 * (value % 2 ^ shift) = 2 ^ shift → Even (value / 2 ^ shift)) ∨
      roundShiftRightTiesEven value shift = value / 2 ^ shift + 1 ∧
        2 ^ shift ≤ 2 * (value % 2 ^ shift) ∧
        (2 * (value % 2 ^ shift) = 2 ^ shift → Even (value / 2 ^ shift + 1)) := by
  unfold roundShiftRightTiesEven
  rw [if_neg hshift.ne']
  by_cases hlarge : 64 ≤ shift
  · -- less than half of one is left
    have hpow : 2 ^ 64 ≤ 2 ^ shift := Nat.pow_le_pow_right two_pos hlarge
    have hdiv : value / 2 ^ shift = 0 := Nat.div_eq_of_lt (by omega)
    have hmod : value % 2 ^ shift = value := Nat.mod_eq_of_lt (by omega)
    rw [if_pos hlarge, hdiv, hmod]
    exact .inl ⟨rfl, by omega, fun _ => Even.zero⟩
  · rw [if_neg hlarge]
    simp only [Nat.shiftRight_eq_div_pow, Nat.one_shiftLeft, Nat.and_two_pow_sub_one_eq_mod,
      Nat.and_one_is_mod]
    have hhalf : 2 ^ shift = 2 * 2 ^ (shift - 1) := by
      rw [← pow_succ', Nat.sub_add_cancel hshift]
    split_ifs with hup
    · refine .inr ⟨rfl, ?_, fun htie => ?_⟩
      · rcases hup with hup | ⟨hup, -⟩ <;> omega
      · rcases hup with hup | ⟨-, hodd⟩
        · omega
        · rw [Nat.even_add_one, Nat.even_iff]
          omega
    · refine .inl ⟨rfl, by omega, fun htie => ?_⟩
      rw [Nat.even_iff]
      omega

/-! ### The parts of an `f64` -/

section Parts

variable {bits : UInt64}

/-- The sign is 0 or 1. -/
theorem f64Sign_le : f64Sign bits ≤ 1 := by
  rw [f64Sign, Nat.and_one_is_mod]
  omega

/-- The bits behind the point fit 52 bits. -/
theorem f64Man_lt (bits : UInt64) : f64Man bits < 2 ^ 52 := by
  rw [f64Man, Nat.one_shiftLeft, Nat.and_two_pow_sub_one_eq_mod]
  exact Nat.mod_lt _ (by positivity)

/-- The parts of a normal number. -/
theorem f64Parts_of_normal (h : f64Exp bits ≠ 0) :
    f64Parts bits = (2 ^ 52 + f64Man bits, (f64Exp bits : ℤ) - 1023) := by
  rw [f64Parts, if_neg h, ← Nat.shiftLeft_add_eq_or_of_lt (f64Man_lt bits), Nat.one_shiftLeft]

/-- A significand has at most 53 bits. -/
theorem significand_lt (bits : UInt64) : (f64Parts bits).1 < 2 ^ 53 := by
  have hman := f64Man_lt bits
  by_cases h : f64Exp bits = 0
  · rw [f64Parts, if_pos h]
    show f64Man bits < 2 ^ 53
    omega
  · rw [f64Parts_of_normal h]
    show 2 ^ 52 + f64Man bits < 2 ^ 53
    omega

/-- Above the smallest exponent, a number has a leading one. -/
theorem le_significand (h : -1022 < (f64Parts bits).2) : 2 ^ 52 ≤ (f64Parts bits).1 := by
  by_cases hexp : f64Exp bits = 0
  · rw [f64Parts, if_pos hexp] at h
    exact absurd h (lt_irrefl _)
  · rw [f64Parts_of_normal hexp]
    exact Nat.le_add_right _ _

end Parts

/-! ### The rounded number -/

namespace F8Format

variable (f : F8Format) (bits : UInt64)

/-- The exponent code that the number asks for. -/
def targetExp : ℤ := (f64Parts bits).2 + f.bias

/-- The binades below the number; the subnormal numbers and the first binade count as one. -/
def binade : ℕ := (f.targetExp bits - 1).toNat

/-- How many bits of the significand go. -/
def shift : ℕ := (53 - f.manBits + (f.binade bits - f.targetExp bits)).toNat

/-- The significand rounded to the precision of its binade. -/
def rounded : ℕ := roundShiftRightTiesEven (f64Parts bits).1 (f.shift bits)

/-- The rounded number in the row of the format, which goes on behind `top`. -/
def number : ℕ := f.binade bits * 2 ^ f.manBits + f.rounded bits

variable {f bits}

/-- The formats have few bits behind the point. -/
theorem Fits.man_le (hf : f.Fits) : f.manBits ≤ 6 := by
  have := hf.width
  have := hf.exp
  omega

/-- Some bits are always shifted out. -/
theorem shift_pos (bits : UInt64) (hf : f.Fits) : 0 < f.shift bits := by
  have := hf.man_le
  unfold shift binade
  omega

/-- The shift of a normal number. -/
theorem shift_of_normal (h : 0 < f.targetExp bits) (hf : f.Fits) :
    f.shift bits = 52 - f.manBits := by
  have := hf.man_le
  unfold shift binade
  omega

/-- The shift of a subnormal number. -/
theorem shift_of_subnormal (h : f.targetExp bits ≤ 0) (hf : f.Fits) :
    f.binade bits = 0 ∧ f.shift bits = (52 - f.manBits + (1 - f.targetExp bits)).toNat ∧
      53 - f.manBits ≤ f.shift bits := by
  have := hf.man_le
  unfold shift binade
  omega

/-- A normal number keeps its leading one. -/
theorem le_truncated (h : 0 < f.targetExp bits) (hf : f.Fits) :
    2 ^ f.manBits ≤ (f64Parts bits).1 / 2 ^ f.shift bits := by
  have hman := hf.man_le
  have hle : 2 ^ 52 ≤ (f64Parts bits).1 := by
    refine le_significand ?_
    have := hf.bias_le
    unfold targetExp at h
    omega
  rw [shift_of_normal h hf, Nat.le_div_iff_mul_le (by positivity), ← pow_add,
    show f.manBits + (52 - f.manBits) = 52 by omega]
  exact hle

/-- What the shift leaves of the significand. -/
theorem truncated_mem (bits : UInt64) (hf : f.Fits) :
    (f64Parts bits).1 / 2 ^ f.shift bits < 2 ^ (f.manBits + 1) ∧
      (f.binade bits = 0 ∨ 2 ^ f.manBits ≤ (f64Parts bits).1 / 2 ^ f.shift bits) := by
  have hman := hf.man_le
  have hlt := significand_lt bits
  by_cases h : 0 < f.targetExp bits
  · refine ⟨?_, .inr (le_truncated h hf)⟩
    rw [shift_of_normal h hf, Nat.div_lt_iff_lt_mul (by positivity), ← pow_add,
      show f.manBits + 1 + (52 - f.manBits) = 53 by omega]
    exact hlt
  · obtain ⟨hzero, -, hshift⟩ := shift_of_subnormal (not_lt.mp h) hf
    refine ⟨?_, .inl hzero⟩
    rw [Nat.div_lt_iff_lt_mul (by positivity), ← pow_add]
    exact hlt.trans_le (Nat.pow_le_pow_right two_pos (by omega))

/-- Below the first binade, a carry reaches the smallest normal number. -/
theorem rounded_le_of_subnormal (h : f.targetExp bits ≤ 0) (hf : f.Fits) :
    f.rounded bits ≤ 2 ^ f.manBits := by
  obtain ⟨-, -, hshift⟩ := shift_of_subnormal h hf
  have hman := hf.man_le
  have hlt := significand_lt bits
  have hdiv : (f64Parts bits).1 / 2 ^ f.shift bits < 2 ^ f.manBits := by
    rw [Nat.div_lt_iff_lt_mul (by positivity), ← pow_add]
    exact hlt.trans_le (Nat.pow_le_pow_right two_pos (by omega))
  unfold rounded
  rcases roundShiftRightTiesEven_cases (shift_pos bits hf)
    (hlt.trans (by norm_num : 2 ^ 53 < 2 ^ 63)) with ⟨heq, -⟩ | ⟨heq, -⟩ <;> omega

/-- A normal number rounds into its binade or to the next power. -/
theorem rounded_of_normal (h : 0 < f.targetExp bits) (hf : f.Fits) :
    2 ^ f.manBits ≤ f.rounded bits ∧ f.rounded bits ≤ 2 ^ (f.manBits + 1) := by
  have hle := le_truncated h hf
  obtain ⟨hlt, -⟩ := truncated_mem bits hf
  unfold rounded
  rcases roundShiftRightTiesEven_cases (shift_pos bits hf)
    ((significand_lt bits).trans (by norm_num : 2 ^ 53 < 2 ^ 63)) with ⟨heq, -⟩ | ⟨heq, -⟩ <;> omega

end F8Format

/-! ### Every path gives the rounded number -/

namespace F8Format

variable {f : F8Format} {bits : UInt64} {sign : ℕ}

/-- The greatest exponent code, as a number. -/
theorem maxExp_eq (f : F8Format) : f.maxExp = ((2 ^ f.expBits - 1 : ℕ) : ℤ) := by
  have : 1 ≤ 2 ^ f.expBits := Nat.one_le_two_pow
  unfold maxExp
  rw [Nat.one_shiftLeft]
  push_cast [this]
  rfl

/-- The bits behind the point, as a number. -/
theorem manMask_eq (f : F8Format) : f.manMask = 2 ^ f.manBits - 1 := by
  rw [manMask, Nat.one_shiftLeft]

/-- The three parts of a code do not overlap. -/
theorem pack_eq (hf : f.Fits) (sign : ℕ) {exp mantissa : ℕ} (hexp : exp < 2 ^ f.expBits)
    (hman : mantissa < 2 ^ f.manBits) :
    f.pack sign exp mantissa = UInt8.ofNat (sign * 128 + (exp * 2 ^ f.manBits + mantissa)) := by
  have hbyte : 2 ^ f.expBits ≤ 2 ^ 6 :=
    Nat.pow_le_pow_right two_pos (by have := hf.width; have := hf.man; omega)
  have hsmall : exp <<< f.manBits < 2 ^ 7 := by
    rw [Nat.shiftLeft_eq, ← hf.width, pow_add]
    exact Nat.mul_lt_mul_of_pos_right hexp (by positivity)
  have hhigh : sign <<< 7 + exp <<< f.manBits = (sign * 2 ^ f.expBits + exp) <<< f.manBits := by
    rw [Nat.shiftLeft_eq, Nat.shiftLeft_eq, Nat.shiftLeft_eq, ← hf.width, pow_add]
    ring
  rw [pack, Int.toNat_natCast, Nat.mod_eq_of_lt (show exp < 256 by omega),
    ← Nat.shiftLeft_add_eq_or_of_lt hsmall, hhigh, ← Nat.shiftLeft_add_eq_or_of_lt hman, ← hhigh,
    Nat.shiftLeft_eq, Nat.shiftLeft_eq, Nat.add_assoc]

/-- The sign bit stands above the code. -/
theorem or_low {low : ℕ} (h : low < 128) : sign <<< 7 ||| low = sign * 128 + low := by
  rw [← Nat.shiftLeft_add_eq_or_of_lt (show low < 2 ^ 7 from h), Nat.shiftLeft_eq]

/-- The largest number of a format that has no infinity, and else the infinity. -/
theorem overflow_eq (hf : f.Fits) (sign : ℕ) :
    (if !f.nanOnlyAllOnes then f.pack sign f.maxExp 0 else f.maxFinite sign) =
      UInt8.ofNat (sign * 128 + f.top) := by
  have hone : 1 ≤ 2 ^ f.expBits := Nat.one_le_two_pow
  have htwo : 2 ≤ 2 ^ f.manBits := Nat.le_self_pow (by have := hf.man; omega) 2
  rw [maxExp_eq]
  unfold maxFinite top
  cases f.nanOnlyAllOnes with
  | false =>
    rw [Bool.not_false, if_pos rfl, pack_eq hf sign (by omega) (by omega)]
    simp
  | true =>
    rw [Bool.not_true, if_neg Bool.false_ne_true, if_pos rfl, if_pos rfl, maxExp_eq, manMask_eq,
      pack_eq hf sign (by omega) (by omega), Nat.sub_sub]

/-- There are bits behind the point. -/
theorem two_le_pow_man (hf : f.Fits) : 2 ≤ 2 ^ f.manBits :=
  Nat.le_self_pow (by have := hf.man; omega) 2

/-- There are exponent bits. -/
theorem two_le_pow_exp (hf : f.Fits) : 2 ≤ 2 ^ f.expBits :=
  Nat.le_self_pow (by have := hf.exp; omega) 2

/-- A power of two is at most the greatest finite code. -/
theorem pow_man_le_top (hf : f.Fits) : 2 ^ f.manBits ≤ f.top := by
  have hexp := two_le_pow_exp hf
  have hle : 1 * 2 ^ f.manBits ≤ (2 ^ f.expBits - 1) * 2 ^ f.manBits :=
    Nat.mul_le_mul_right _ (by omega)
  unfold top
  split <;> omega

/-- A number whose exponent is past the largest one is cut off. -/
theorem top_le_of_exp {exp mantissa : ℕ} (hf : f.Fits)
    (h : 2 ^ f.expBits - 1 ≤ exp) (hnan : f.nanOnlyAllOnes = true →
      2 ^ f.expBits ≤ exp ∨ 2 ^ f.manBits - 1 ≤ mantissa) :
    f.top ≤ exp * 2 ^ f.manBits + mantissa := by
  have hexp := two_le_pow_exp hf
  have hman := two_le_pow_man hf
  have hle : (2 ^ f.expBits - 1) * 2 ^ f.manBits ≤ exp * 2 ^ f.manBits := Nat.mul_le_mul_right _ h
  unfold top
  split
  · rename_i hkind
    rcases hnan hkind with hpast | hones
    · have hmore : (2 ^ f.expBits - 1 + 1) * 2 ^ f.manBits ≤ exp * 2 ^ f.manBits :=
        Nat.mul_le_mul_right _ (by omega)
      rw [Nat.add_mul, Nat.one_mul] at hmore
      omega
    · omega
  · omega

/-- A number whose exponent is not past the largest one is not cut off. -/
theorem le_top_of_exp {exp mantissa : ℕ} (hman : mantissa < 2 ^ f.manBits)
    (h : if f.nanOnlyAllOnes then exp < 2 ^ f.expBits - 1 ∨
      exp = 2 ^ f.expBits - 1 ∧ mantissa < 2 ^ f.manBits - 1 else exp < 2 ^ f.expBits - 1) :
    exp * 2 ^ f.manBits + mantissa ≤ f.top := by
  have hbelow : exp < 2 ^ f.expBits - 1 →
      exp * 2 ^ f.manBits + 2 ^ f.manBits ≤ (2 ^ f.expBits - 1) * 2 ^ f.manBits := by
    intro hlt
    have := Nat.mul_le_mul_right (2 ^ f.manBits) (Nat.succ_le_of_lt hlt)
    rwa [Nat.succ_mul] at this
  unfold top
  split
  · rename_i hkind
    rw [if_pos hkind] at h
    rcases h with hlt | ⟨rfl, hlt⟩
    · have := hbelow hlt
      omega
    · omega
  · rename_i hkind
    rw [if_neg hkind] at h
    have := hbelow h
    omega

/-- The exponent and the mantissa after rounding a normal number: a carry goes up one binade. -/
theorem normal_parts (h : 0 < f.targetExp bits) (hf : f.Fits) :
    ∃ exp mantissa : ℕ, mantissa < 2 ^ f.manBits ∧
      f.number bits = exp * 2 ^ f.manBits + mantissa ∧ (exp : ℤ) ≤ f.targetExp bits + 1 ∧
      (if f.rounded bits = 1 <<< (f.manBits + 1) then f.targetExp bits + 1
        else f.targetExp bits) = exp ∧
      (if f.rounded bits = 1 <<< (f.manBits + 1) then 0
        else f.rounded bits % 256 &&& f.manMask) = mantissa := by
  obtain ⟨hlo, hhi⟩ := rounded_of_normal h hf
  have hman := two_le_pow_man hf
  have hsix : 2 ^ f.manBits ≤ 2 ^ 6 := Nat.pow_le_pow_right two_pos hf.man_le
  have hbinade : (f.binade bits : ℤ) = f.targetExp bits - 1 := by
    unfold binade
    omega
  rw [Nat.one_shiftLeft]
  rw [pow_succ] at hhi ⊢
  by_cases hcarry : f.rounded bits = 2 ^ f.manBits * 2
  · refine ⟨f.binade bits + 2, 0, by omega, ?_, by omega, ?_, ?_⟩
    · rw [number, hcarry]
      ring
    · rw [if_pos hcarry]
      push_cast
      omega
    · rw [if_pos hcarry]
  · obtain ⟨r, hr⟩ := Nat.exists_eq_add_of_le hlo
    refine ⟨f.binade bits + 1, r, by omega, ?_, by omega, ?_, ?_⟩
    · rw [number, hr]
      ring
    · rw [if_neg hcarry]
      push_cast
      omega
    · rw [if_neg hcarry, manMask_eq, Nat.and_two_pow_sub_one_eq_mod,
        Nat.mod_eq_of_lt (show f.rounded bits < 256 by omega), hr, Nat.add_mod_left,
        Nat.mod_eq_of_lt (by omega)]

/-- Zeros and numbers that are too small come out as zero. -/
theorem number_of_zero (h : (f64Parts bits).1 = 0) (hf : f.Fits) : f.number bits = 0 := by
  have hsub : f.targetExp bits ≤ 0 := by
    by_contra hpos
    have hle := le_truncated (not_le.mp hpos) hf
    rw [h, Nat.zero_div] at hle
    have := two_le_pow_man hf
    omega
  rw [number, (shift_of_subnormal hsub hf).1, rounded, h, Nat.zero_mul, Nat.zero_add]
  rcases roundShiftRightTiesEven_cases (shift_pos bits hf) (by norm_num : 0 < 2 ^ 63) with
    ⟨heq, -⟩ | ⟨-, hle, -⟩
  · rw [heq, Nat.zero_div]
  · rw [Nat.zero_mod] at hle
    have : 0 < 2 ^ f.shift bits := by positivity
    omega

/-- The path of the numbers below the first binade. -/
theorem subnormal_eq (h : f.targetExp bits ≤ 0) (hf : f.Fits) (sign : ℕ) :
    (if f.rounded bits = 0 then UInt8.ofNat (sign <<< 7)
      else if f.rounded bits ≥ 1 <<< f.manBits then UInt8.ofNat (sign <<< 7 ||| 1 <<< f.manBits)
      else UInt8.ofNat (sign <<< 7 ||| (f.rounded bits % 256 &&& f.manMask))) =
        UInt8.ofNat (sign * 128 + min (f.number bits) f.top) := by
  have hle := rounded_le_of_subnormal h hf
  have htop := pow_man_le_top hf
  have hsix : 2 ^ f.manBits ≤ 2 ^ 6 := Nat.pow_le_pow_right two_pos hf.man_le
  have hnumber : f.number bits = f.rounded bits := by
    rw [number, (shift_of_subnormal h hf).1, Nat.zero_mul, Nat.zero_add]
  rw [hnumber, Nat.min_eq_left (hle.trans htop), Nat.one_shiftLeft]
  split_ifs with hzero hcarry
  · rw [hzero, Nat.shiftLeft_eq]
    rfl
  · rw [or_low (by omega), show f.rounded bits = 2 ^ f.manBits by omega]
  · rw [manMask_eq, Nat.and_two_pow_sub_one_eq_mod,
      Nat.mod_eq_of_lt (show f.rounded bits < 256 by omega), Nat.mod_eq_of_lt (by omega),
      or_low (by omega)]

/-- The end of the path of the normal numbers: what is too large is cut off. -/
theorem finish_eq (hf : f.Fits) (sign : ℕ) {exp mantissa : ℕ} (hman : mantissa < 2 ^ f.manBits)
    (hfinite : f.nanOnlyAllOnes = false → (exp : ℤ) ≤ f.maxExp) :
    (if (exp : ℤ) > f.maxExp ∨ f.nanOnlyAllOnes ∧ (exp : ℤ) = f.maxExp ∧ mantissa = f.manMask then
        f.maxFinite sign
      else if !f.nanOnlyAllOnes ∧ (exp : ℤ) ≥ f.maxExp then f.pack sign f.maxExp 0
      else f.pack sign exp mantissa) =
        UInt8.ofNat (sign * 128 + min (exp * 2 ^ f.manBits + mantissa) f.top) := by
  have hover := overflow_eq hf sign
  have hexp := two_le_pow_exp hf
  rw [maxExp_eq, manMask_eq] at *
  cases hkind : f.nanOnlyAllOnes with
  | true =>
    simp only [hkind, Bool.not_true, Bool.false_eq_true, if_false, false_and, if_false] at hover ⊢
    split_ifs with hlarge
    · rw [hover, Nat.min_eq_right]
      refine top_le_of_exp hf ?_ fun _ => ?_
      · rcases hlarge with hlarge | ⟨-, hlarge, -⟩ <;> omega
      · rcases hlarge with hlarge | ⟨-, -, hlarge⟩ <;> omega
    · have hsmall : exp < 2 ^ f.expBits - 1 ∨
          exp = 2 ^ f.expBits - 1 ∧ mantissa < 2 ^ f.manBits - 1 := by
        by_contra hno
        refine hlarge ?_
        by_cases hlt : ((2 ^ f.expBits - 1 : ℕ) : ℤ) < exp
        · exact .inl hlt
        · exact .inr ⟨trivial, by omega, by omega⟩
      rw [pack_eq hf sign (by omega) hman, Nat.min_eq_left]
      exact le_top_of_exp hman (by rw [if_pos hkind]; exact hsmall)
  | false =>
    have hle := hfinite hkind
    simp only [hkind, Bool.not_false, if_true, Bool.false_eq_true, false_and, or_false, true_and]
      at hover ⊢
    rw [if_neg (by omega)]
    split_ifs with hlarge
    · rw [hover, Nat.min_eq_right]
      exact top_le_of_exp hf (by omega) fun h => absurd (hkind ▸ h) Bool.false_ne_true
    · rw [pack_eq hf sign (by omega) hman, Nat.min_eq_left]
      exact le_top_of_exp hman (by rw [if_neg (by rw [hkind]; exact Bool.false_ne_true)]; omega)

/-- **Every path gives the sign and the rounded number, cut off at the top.** -/
theorem convertToF8_eq (hf : f.Fits) (hfinite : f64Exp bits ≠ 0x7FF) :
    convertToF8 bits f = UInt8.ofNat (f64Sign bits * 128 + min (f.number bits) f.top) := by
  -- a number without significand rounds to 0
  have hzero : (f64Parts bits).1 = 0 →
      UInt8.ofNat (f64Sign bits <<< 7) =
        UInt8.ofNat (f64Sign bits * 128 + min (f.number bits) f.top) := by
    intro h
    rw [number_of_zero h hf, Nat.zero_min, Nat.shiftLeft_eq]
    rfl
  have htarget : (f64Parts bits).2 + f.bias = f.targetExp bits := rfl
  unfold convertToF8
  dsimp only
  rw [if_neg hfinite]
  -- the tests of the code, in its order
  by_cases hsigned : f64Exp bits = 0 ∧ f64Man bits = 0
  · rw [if_pos hsigned]
    refine hzero ?_
    rw [f64Parts, if_pos hsigned.1]
    exact hsigned.2
  rw [if_neg hsigned]
  by_cases hsig : (f64Parts bits).1 = 0
  · rw [if_pos hsig]
    exact hzero hsig
  rw [if_neg hsig, htarget]
  have hexp := two_le_pow_exp hf
  have hmax := maxExp_eq f
  by_cases hlarge : f.targetExp bits > f.maxExp ∨
      (!f.nanOnlyAllOnes) = true ∧ f.targetExp bits ≥ f.maxExp
  · -- too large before rounding
    have hpos : 0 < f.targetExp bits := by omega
    have hbinade : (f.binade bits : ℤ) = f.targetExp bits - 1 := by
      unfold binade
      omega
    rw [if_pos hlarge, overflow_eq hf, Nat.min_eq_right]
    obtain ⟨r, hr⟩ := Nat.exists_eq_add_of_le (rounded_of_normal hpos hf).1
    rw [number, hr, ← Nat.add_assoc, ← Nat.succ_mul]
    refine top_le_of_exp hf (by omega) fun hkind => .inl ?_
    rcases hlarge with hlarge | ⟨hkind', -⟩
    · omega
    · rw [hkind] at hkind'
      cases hkind'
  rw [if_neg hlarge]
  by_cases hsub : f.targetExp bits ≤ 0
  -- a subnormal code is what rounding leaves
  · rw [if_pos hsub, ← (shift_of_subnormal hsub hf).2.1]
    exact subnormal_eq hsub hf _
  · have hpos := not_le.mp hsub
    obtain ⟨exp, mantissa, hman, hnumber, hle, hexp', hman'⟩ := normal_parts hpos hf
    rw [if_neg hsub, ← shift_of_normal hpos hf]
    change (if _ then _ else _) = _
    rw [show roundShiftRightTiesEven (f64Parts bits).1 (f.shift bits) = f.rounded bits from rfl,
      hexp', hman', hnumber]
    refine finish_eq hf _ hman fun hkind => ?_
    rw [hkind] at hlarge
    simp only [Bool.not_false, true_and, not_or, not_lt, ge_iff_le, not_le] at hlarge
    omega

/-! ### The rounded number is the nearest -/

/-- The smallest positive value. -/
def unit (f : F8Format) : ℚ := 2 ^ (1 - f.bias - f.manBits)

/-- The values of the codes without their signs, and on behind the largest one. -/
def row (f : F8Format) (code : ℕ) : ℚ := f.unit * grid f.manBits code

/-- The unit is positive. -/
theorem unit_pos (f : F8Format) : 0 < f.unit := by
  unfold unit
  positivity

/-- The values of the codes increase. -/
theorem strictMono_row (f : F8Format) : StrictMono f.row := by
  intro a b hab
  exact mul_lt_mul_of_pos_left (by exact_mod_cast strictMono_grid _ hab) f.unit_pos

/-- Code 0 has value 0. -/
theorem row_zero (f : F8Format) : f.row 0 = 0 := by
  have : 0 < 2 ^ f.manBits := by positivity
  rw [row, grid, if_pos this, Nat.cast_zero, mul_zero]

/-- No magnitude is negative. -/
theorem row_nonneg (f : F8Format) (code : ℕ) : 0 ≤ f.row code := by
  rw [← f.row_zero]
  exact f.strictMono_row.monotone (Nat.zero_le _)

/-- The magnitude of a code is its row entry. -/
theorem magnitude_eq (f : F8Format) (code : ℕ) : f.magnitude code = f.row code := by
  have hpos : 0 < 2 ^ f.manBits := by positivity
  unfold magnitude row unit grid
  by_cases hsmall : code < 2 ^ f.manBits
  · rw [if_pos (Nat.div_eq_of_lt hsmall), if_pos hsmall, Nat.mod_eq_of_lt hsmall, mul_comm]
  · obtain ⟨e, he⟩ := Nat.exists_eq_add_of_le
      ((Nat.one_le_div_iff hpos).mpr (not_lt.mp hsmall))
    have hexp : ((1 + e : ℕ) : ℤ) - f.bias - f.manBits = (1 - f.bias - f.manBits) + (e : ℤ) := by
      push_cast
      ring
    rw [if_neg (by omega), if_neg hsmall, he, hexp, zpow_add₀ two_ne_zero, zpow_natCast,
      Nat.add_sub_cancel_left, Nat.cast_mul]
    push_cast
    ring

/-- The value of an `f64` without its sign, in units of the binade it is rounded in. -/
theorem abs_f64Value_eq (hf : f.Fits) :
    ((f64Parts bits).1 : ℚ) * 2 ^ ((f64Parts bits).2 - 52) =
      f.unit * 2 ^ f.binade bits * ((f64Parts bits).1 / 2 ^ f.shift bits) := by
  have hshift : (f.shift bits : ℤ) = 53 - f.manBits + (f.binade bits - f.targetExp bits) := by
    have := hf.man_le
    unfold shift binade
    omega
  have hexp : (f64Parts bits).2 - 52 =
      1 - f.bias - f.manBits + (f.binade bits : ℤ) - (f.shift bits : ℤ) := by
    rw [hshift, targetExp]
    ring
  rw [hexp, zpow_sub₀ two_ne_zero, zpow_add₀ two_ne_zero, zpow_natCast, zpow_natCast, unit]
  ring

/-- **The rounded number is a neighbour, and the nearer one.** -/
theorem nearest_number (hf : f.Fits) (bits : UInt64) :
    Nearest f.row f.top ((f64Parts bits).1 * 2 ^ ((f64Parts bits).2 - 52))
      (min (f.number bits) f.top) := by
  obtain ⟨hlt, hbinade⟩ := truncated_mem bits hf
  have hlo := grid_eq hlt.le hbinade
  have hhi := grid_eq (Nat.succ_le_of_lt hlt) (hbinade.imp_right Nat.le_succ_of_le)
  have hscale : 0 < f.unit * 2 ^ f.binade bits := mul_pos f.unit_pos (by positivity)
  have hpow : (0 : ℚ) < 2 ^ f.shift bits := by positivity
  have hmod := Nat.mod_lt (f64Parts bits).1 (show 0 < 2 ^ f.shift bits by positivity)
  have hsplit := Nat.div_add_mod (f64Parts bits).1 (2 ^ f.shift bits)
  -- `t` is what is left, `r` is what goes
  obtain ⟨t, ht⟩ : ∃ t, (f64Parts bits).1 / 2 ^ f.shift bits = t := ⟨_, rfl⟩
  obtain ⟨r, hr⟩ : ∃ r, (f64Parts bits).1 % 2 ^ f.shift bits = r := ⟨_, rfl⟩
  have hcases := roundShiftRightTiesEven_cases (shift_pos bits hf)
    ((significand_lt bits).trans (by norm_num : 2 ^ 53 < 2 ^ 63))
  rw [ht] at hlo hhi hsplit hcases
  rw [hr] at hsplit hmod hcases
  have hvalue : ((f64Parts bits).1 : ℚ) * 2 ^ ((f64Parts bits).2 - 52) =
      f.unit * 2 ^ f.binade bits * (t + r / 2 ^ f.shift bits) := by
    rw [abs_f64Value_eq hf, ← hsplit]
    push_cast
    field_simp
  have hrowLo : f.row (f.binade bits * 2 ^ f.manBits + t) = f.unit * 2 ^ f.binade bits * t := by
    rw [row, hlo]
    push_cast
    ring
  have hrowHi : f.row (f.binade bits * 2 ^ f.manBits + t + 1) =
      f.unit * 2 ^ f.binade bits * (t + 1) := by
    rw [row, Nat.add_assoc, hhi]
    push_cast
    ring
  have hfrac : (0 : ℚ) ≤ r / 2 ^ f.shift bits := by positivity
  have hfrac' : (r : ℚ) / 2 ^ f.shift bits < 1 := by
    rw [div_lt_one hpow]
    exact_mod_cast hmod
  have heven : Even (f.binade bits * 2 ^ f.manBits) := by
    refine Even.mul_left ?_ _
    exact (Nat.even_pow.mpr ⟨even_two, by have := hf.man; omega⟩)
  have hmid : f.row (f.binade bits * 2 ^ f.manBits + t) +
      f.row (f.binade bits * 2 ^ f.manBits + t + 1) -
        2 * ((f64Parts bits).1 * 2 ^ ((f64Parts bits).2 - 52)) =
      f.unit * 2 ^ f.binade bits / 2 ^ f.shift bits * (2 ^ f.shift bits - 2 * r) := by
    rw [hrowLo, hrowHi, hvalue]
    field_simp
    ring
  have hsmall : 0 < f.unit * 2 ^ f.binade bits / 2 ^ f.shift bits := div_pos hscale hpow
  refine nearest_of_between (k := f.binade bits * 2 ^ f.manBits + t) f.strictMono_row ?_ ?_ ?_ f.top
  · rw [hrowLo, hvalue]
    exact mul_le_mul_of_nonneg_left (by linarith) hscale.le
  · rw [hrowHi, hvalue]
    exact mul_le_mul_of_nonneg_left (by linarith) hscale.le
  · have htie : 2 * ((f64Parts bits).1 * 2 ^ ((f64Parts bits).2 - 52)) =
        f.row (f.binade bits * 2 ^ f.manBits + t) +
          f.row (f.binade bits * 2 ^ f.manBits + t + 1) → 2 * r = 2 ^ f.shift bits := by
      intro heq
      have hzero : (2 : ℚ) ^ f.shift bits - 2 * r = 0 := by
        have hprod := hmid.symm.trans (by linarith : _ = (0 : ℚ))
        exact (mul_eq_zero.mp hprod).resolve_left hsmall.ne'
      have hcast : (2 * r : ℚ) = 2 ^ f.shift bits := by linarith
      exact_mod_cast hcast
    rcases hcases with ⟨hround, hle, hpar⟩ | ⟨hround, hle, hpar⟩
    · refine .inl ⟨by rw [number, rounded, hround], ?_, fun heq => heven.add (hpar (htie heq))⟩
      have hnonneg : (0 : ℚ) ≤ 2 ^ f.shift bits - 2 * r := by
        have : (2 * r : ℚ) ≤ 2 ^ f.shift bits := by exact_mod_cast hle
        linarith
      have := mul_nonneg hsmall.le hnonneg
      linarith
    · refine .inr ⟨by rw [number, rounded, hround, Nat.add_assoc], ?_, fun heq => ?_⟩
      · have hnonpos : (2 : ℚ) ^ f.shift bits - 2 * r ≤ 0 := by
          have : (2 : ℚ) ^ f.shift bits ≤ 2 * r := by exact_mod_cast hle
          linarith
        have := mul_nonpos_of_nonneg_of_nonpos hsmall.le hnonpos
        linarith
      · rw [Nat.add_assoc]
        exact heven.add (hpar (htie heq))

/-- Finite codes leave the sign bit free. -/
theorem top_lt (hf : f.Fits) : f.top < 128 := by
  have htwo := two_le_pow_man hf
  have hone := two_le_pow_exp hf
  have hprod : 2 ^ f.expBits * 2 ^ f.manBits = 128 := by rw [← pow_add, hf.width]; rfl
  have hsub : (2 ^ f.expBits - 1) * 2 ^ f.manBits + 2 ^ f.manBits = 128 := by
    rw [← Nat.succ_mul, Nat.succ_eq_add_one, Nat.sub_add_cancel (by omega), hprod]
  unfold top
  split <;> omega

end F8Format

/-! ### The casts round to nearest -/

/-- Of the values of the format, `r` has the nearest, with the sign of the argument; where two are
nearest, the significand of `r` is even. -/
structure RoundsToNearest (f : F8Format) (bits : UInt64) (r : UInt8) : Prop where
  sign : r.toNat / 128 = f64Sign bits
  le_top : r.toNat % 128 ≤ f.top
  nearest : ∀ c : UInt8, c.toNat % 128 ≤ f.top →
    |f.value r - f64Value bits| ≤ |f.value c - f64Value bits|
  tie : ∀ c : UInt8, c.toNat % 128 ≤ f.top → f.value c ≠ f.value r →
    |f.value c - f64Value bits| = |f.value r - f64Value bits| → Even r.toNat

section Nearest

variable {f : F8Format} {bits bits' : UInt64}

/-- The value of an `f64` without its sign. -/
def f64Abs (bits : UInt64) : ℚ := (f64Parts bits).1 * 2 ^ ((f64Parts bits).2 - 52)

/-- A magnitude is not negative. -/
theorem f64Abs_nonneg (bits : UInt64) : 0 ≤ f64Abs bits := by
  unfold f64Abs
  positivity

/-- The magnitude is the absolute value. -/
theorem abs_f64Value (bits : UInt64) : |f64Value bits| = f64Abs bits := by
  have hnonneg := f64Abs_nonneg bits
  show |(if f64Sign bits = 1 then -1 else 1) * f64Abs bits| = _
  split
  · rw [neg_one_mul, abs_neg, abs_of_nonneg hnonneg]
  · rw [one_mul, abs_of_nonneg hnonneg]

/-- What the cast returns: the sign, and the nearest value without it. -/
theorem convertToF8_spec (hf : f.Fits) (hfinite : f64Exp bits ≠ 0x7FF) :
    (convertToF8 bits f).toNat / 128 = f64Sign bits ∧
      Nearest f.row f.top (f64Abs bits) ((convertToF8 bits f).toNat % 128) := by
  have hsign : f64Sign bits ≤ 1 := f64Sign_le
  have htop := F8Format.top_lt hf
  have hle : min (f.number bits) f.top ≤ f.top := min_le_right _ _
  have hnat : (convertToF8 bits f).toNat = f64Sign bits * 128 + min (f.number bits) f.top := by
    rw [F8Format.convertToF8_eq hf hfinite, UInt8.toNat_ofNat', Nat.mod_eq_of_lt (by omega)]
  rw [hnat, show (f64Sign bits * 128 + min (f.number bits) f.top) / 128 = f64Sign bits by omega,
    show (f64Sign bits * 128 + min (f.number bits) f.top) % 128 = min (f.number bits) f.top by
      omega]
  exact ⟨rfl, F8Format.nearest_number hf bits⟩

/-- A code with the sign of the argument is as far away as its value without the sign. -/
theorem value_sub_of_sign {r : UInt8} (h : r.toNat / 128 = f64Sign bits) :
    |f.value r - f64Value bits| = |f.row (r.toNat % 128) - f64Abs bits| := by
  have hlt := r.toNat_lt
  show |(if 128 ≤ r.toNat then -1 else 1) * f.magnitude _ -
    (if f64Sign bits = 1 then -1 else 1) * f64Abs bits| = _
  rw [F8Format.magnitude_eq, ← h]
  by_cases hneg : 128 ≤ r.toNat
  · rw [if_pos hneg, if_pos (by omega), neg_one_mul, neg_one_mul, ← neg_sub', abs_neg]
  · rw [if_neg hneg, if_neg (by omega), one_mul, one_mul]

/-- A code with the other sign is farther away. -/
theorem value_sub_of_sign_ne {c : UInt8} (h : c.toNat / 128 ≠ f64Sign bits) :
    |f.value c - f64Value bits| = f.row (c.toNat % 128) + f64Abs bits := by
  have hlt := c.toNat_lt
  have hsign : f64Sign bits ≤ 1 := f64Sign_le
  have hsum := add_nonneg (f.row_nonneg (c.toNat % 128)) (f64Abs_nonneg bits)
  show |(if 128 ≤ c.toNat then -1 else 1) * f.magnitude _ -
    (if f64Sign bits = 1 then -1 else 1) * f64Abs bits| = _
  rw [F8Format.magnitude_eq]
  by_cases hneg : 128 ≤ c.toNat
  · rw [if_pos hneg, if_neg (by omega), neg_one_mul, one_mul, ← neg_add', abs_neg,
      abs_of_nonneg hsum]
  · rw [if_neg hneg, if_pos (by omega), neg_one_mul, one_mul, sub_neg_eq_add, abs_of_nonneg hsum]

/-- **The cast rounds to nearest.** -/
theorem convertToF8_nearest (hf : f.Fits) (hfinite : f64Exp bits ≠ 0x7FF) :
    RoundsToNearest f bits (convertToF8 bits f) := by
  obtain ⟨hsign, hnear⟩ := convertToF8_spec hf hfinite
  have hr := value_sub_of_sign (f := f) hsign
  have hx := f64Abs_nonneg bits
  have hpar : Even ((convertToF8 bits f).toNat % 128) → Even (convertToF8 bits f).toNat := by
    rw [Nat.even_iff, Nat.even_iff]
    omega
  refine ⟨hsign, hnear.le_top, fun c hc => ?_, fun c hc hne htie => ?_⟩
  · have hrow := hnear.nearest _ hc
    rw [hr]
    by_cases hsame : c.toNat / 128 = f64Sign bits
    · rw [value_sub_of_sign hsame]
      exact hrow
    · rw [value_sub_of_sign_ne hsame]
      refine hrow.trans ((abs_sub _ _).trans ?_)
      rw [abs_of_nonneg (f.row_nonneg _), abs_of_nonneg hx]
  · rw [hr] at htie
    by_cases hsame : c.toNat / 128 = f64Sign bits
    · rw [value_sub_of_sign hsame] at htie
      refine hpar (hnear.tie _ hc (fun hcode => hne ?_) htie)
      have hnat : c.toNat = (convertToF8 bits f).toNat := by omega
      rw [UInt8.toNat_inj.mp hnat]
    · rw [value_sub_of_sign_ne hsame] at htie
      have hrow := hnear.nearest _ hc
      have hfar : |f.row (c.toNat % 128) - f64Abs bits| ≤ f.row (c.toNat % 128) + f64Abs bits := by
        refine (abs_sub _ _).trans ?_
        rw [abs_of_nonneg (f.row_nonneg _), abs_of_nonneg hx]
      refine hpar (hnear.tie _ hc (fun hcode => hne ?_) (le_antisymm (htie ▸ hfar) hrow))
      -- the two zeros have one value, and another code does not tie with its negative
      have hzero : f.row (c.toNat % 128) = 0 := by
        rw [← hcode] at htie hnear
        by_contra hrowne
        have hxzero : f64Abs bits = 0 := by
          rcases abs_cases (f.row (c.toNat % 128) - f64Abs bits) with ⟨habs, -⟩ | ⟨habs, -⟩
          · linarith
          · exact absurd (by linarith) hrowne
        have hbest := hnear.nearest 0 (Nat.zero_le _)
        rw [hxzero, f.row_zero, sub_zero, sub_zero, abs_zero] at hbest
        exact hrowne (abs_nonpos_iff.mp hbest)
      have hmag : f.magnitude (c.toNat % 128) = 0 := by rw [F8Format.magnitude_eq, hzero]
      rw [F8Format.value, F8Format.value, ← hcode, hmag, mul_zero, mul_zero]

/-- **The cast is monotone.** -/
theorem value_convertToF8_mono (hf : f.Fits) (hfinite : f64Exp bits ≠ 0x7FF)
    (hfinite' : f64Exp bits' ≠ 0x7FF) (hle : f64Value bits ≤ f64Value bits') :
    f.value (convertToF8 bits f) ≤ f.value (convertToF8 bits' f) := by
  obtain ⟨hsign, hnear⟩ := convertToF8_spec hf hfinite
  obtain ⟨hsign', hnear'⟩ := convertToF8_spec hf hfinite'
  have hx := f64Abs_nonneg bits
  have hx' := f64Abs_nonneg bits'
  have hbit : f64Sign bits ≤ 1 := f64Sign_le
  have hbit' : f64Sign bits' ≤ 1 := f64Sign_le
  have hrow := f.row_nonneg ((convertToF8 bits f).toNat % 128)
  have hrow' := f.row_nonneg ((convertToF8 bits' f).toNat % 128)
  -- of two numbers without their signs, the smaller one gets the smaller value
  have hmono : ∀ {b b' : UInt64} {m m' : ℕ}, Nearest f.row f.top (f64Abs b) m →
      Nearest f.row f.top (f64Abs b') m' → f64Abs b ≤ f64Abs b' → f.row m ≤ f.row m' :=
    fun hb hb' h => f.strictMono_row.monotone (hb.mono f.strictMono_row hb' h)
  have hzero : ∀ {b : UInt64} {m : ℕ}, Nearest f.row f.top (f64Abs b) m → f64Abs b = 0 →
      f.row m = 0 := by
    intro b m hb h
    have hbest := hb.nearest 0 (Nat.zero_le _)
    rw [h, f.row_zero, sub_zero, sub_zero, abs_zero] at hbest
    exact abs_nonpos_iff.mp hbest
  unfold F8Format.value
  rw [F8Format.magnitude_eq, F8Format.magnitude_eq]
  change (if f64Sign bits = 1 then -1 else 1) * f64Abs bits ≤
    (if f64Sign bits' = 1 then -1 else 1) * f64Abs bits' at hle
  by_cases hneg : f64Sign bits = 1 <;> by_cases hneg' : f64Sign bits' = 1
  · rw [if_pos hneg, if_pos hneg'] at hle
    rw [if_pos (by omega), if_pos (by omega)]
    have := hmono hnear' hnear (by linarith)
    linarith
  · rw [if_pos (by omega), if_neg (by omega)]
    linarith
  · rw [if_neg hneg, if_pos hneg'] at hle
    rw [if_neg (by omega), if_pos (by omega), hzero hnear (by linarith), hzero hnear' (by linarith),
      mul_zero, mul_zero]
  · rw [if_neg hneg, if_neg hneg'] at hle
    rw [if_neg (by omega), if_neg (by omega), one_mul, one_mul]
    exact hmono hnear hnear' (by linarith)

end Nearest

/-- The greatest finite value of the first format. -/
theorem row_top_e4m3fn : F8Format.e4m3fn.row F8Format.e4m3fn.top = 448 := by
  norm_num [F8Format.row, F8Format.unit, F8Format.top, F8Format.e4m3fn, grid]

/-- The middle between the two greatest values of the second format. -/
theorem row_top_e5m2 : F8Format.e5m2.row 123 + F8Format.e5m2.row 124 = 2 * 61440 := by
  norm_num [F8Format.row, F8Format.unit, F8Format.e5m2, grid]

/-- **The casts round to nearest, ties to even.**  Without infinities, `f8E4M3FN` stays at its
largest number, 448; `f8E5M2` gives the infinity from 61440 on, the middle between its largest
number and the next power of two.  Both casts are monotone. -/
theorem f8_nearest :
    (∀ bits, f64Exp bits ≠ 0x7FF → RoundsToNearest .e4m3fn bits (f64ToF8E4M3FN bits) ∧
      (448 ≤ |f64Value bits| → (f64ToF8E4M3FN bits).toNat % 128 = 0x7E)) ∧
    (∀ bits, f64Exp bits ≠ 0x7FF → RoundsToNearest .e5m2 bits (f64ToF8E5M2 bits) ∧
      ((f64ToF8E5M2 bits).toNat % 128 = 0x7C ↔ 61440 ≤ |f64Value bits|)) ∧
    ∀ bits bits', f64Exp bits ≠ 0x7FF → f64Exp bits' ≠ 0x7FF → f64Value bits ≤ f64Value bits' →
      F8Format.e4m3fn.value (f64ToF8E4M3FN bits) ≤ F8Format.e4m3fn.value (f64ToF8E4M3FN bits') ∧
      F8Format.e5m2.value (f64ToF8E5M2 bits) ≤ F8Format.e5m2.value (f64ToF8E5M2 bits') := by
  refine ⟨fun bits hfinite => ⟨convertToF8_nearest F8Format.fits_e4m3fn hfinite, fun hlarge => ?_⟩,
    fun bits hfinite => ⟨convertToF8_nearest F8Format.fits_e5m2 hfinite, ?_⟩,
    fun bits bits' hfinite hfinite' hle =>
      ⟨value_convertToF8_mono F8Format.fits_e4m3fn hfinite hfinite' hle,
        value_convertToF8_mono F8Format.fits_e5m2 hfinite hfinite' hle⟩⟩
  · rw [abs_f64Value, ← row_top_e4m3fn] at hlarge
    exact (convertToF8_spec F8Format.fits_e4m3fn hfinite).2.eq_top
      F8Format.e4m3fn.strictMono_row hlarge
  · have hodd : ¬Even 123 := by decide
    have hiff := (convertToF8_spec F8Format.fits_e5m2 hfinite).2.eq_top_iff
      F8Format.e5m2.strictMono_row hodd
    rw [row_top_e5m2] at hiff
    rw [abs_f64Value]
    refine hiff.trans ⟨fun h => by linarith, fun h => by linarith⟩

end CudaOxide.TileIr
