import CudaOxide.Lib.Run

namespace CudaOxide.Lib.Word

/-!
# Fixed-width arithmetic that does not wrap

Rules that read a `UInt32` or `UInt64` expression as the expression over `ℕ`, where the exact
result fits.

* `toNat_mulAdd64`, `toNat_mulAdd32` — `a * b + c` when the exact value fits.
* `guard64`, `guard32` — the division guard `a ≤ (MAX - c) / b` holds exactly when `a * b + c`
  fits.
* `U32` — the operations that panic where the exact result does not fit.
* `pack` — two 32-bit halves of a word can be read back.
-/

/-! ### 64 bits -/

section Word64

variable {a b c : UInt64}

/-- A sum in range does not wrap. -/
theorem toNat_add64 (h : a.toNat + b.toNat < 2 ^ 64) : (a + b).toNat = a.toNat + b.toNat := by
  rw [UInt64.toNat_add, Nat.mod_eq_of_lt h]

/-- A product in range does not wrap. -/
theorem toNat_mul64 (h : a.toNat * b.toNat < 2 ^ 64) : (a * b).toNat = a.toNat * b.toNat := by
  rw [UInt64.toNat_mul, Nat.mod_eq_of_lt h]

/-- A product and a sum in range do not wrap. -/
theorem toNat_mulAdd64 (h : a.toNat * b.toNat + c.toNat < 2 ^ 64) :
    (a * b + c).toNat = a.toNat * b.toNat + c.toNat := by
  have hmul : (a * b).toNat = a.toNat * b.toNat := toNat_mul64 (by omega)
  rw [toNat_add64 (by rw [hmul]; exact h), hmul]

/-- `checked_mul` -/
def checkedMul64 (a b : UInt64) : Option UInt64 :=
  if a.toNat * b.toNat < 2 ^ 64 then some (a * b) else none

/-- `checked_add` -/
def checkedAdd64 (a b : UInt64) : Option UInt64 :=
  if a.toNat + b.toNat < 2 ^ 64 then some (a + b) else none

/-- A checked product is the exact one. -/
theorem checkedMul64_eq_some (h : checkedMul64 a b = some c) :
    c.toNat = a.toNat * b.toNat := by
  unfold checkedMul64 at h
  split at h
  · cases h
    exact toNat_mul64 ‹_›
  · cases h

/-- A checked sum is the exact one. -/
theorem checkedAdd64_eq_some (h : checkedAdd64 a b = some c) :
    c.toNat = a.toNat + b.toNat := by
  unfold checkedAdd64 at h
  split at h
  · cases h
    exact toNat_add64 ‹_›
  · cases h

/-- The guard by division says that the multiply-add is in range. -/
theorem guard64 (hb : b ≠ 0) :
    a ≤ (18446744073709551615 - c) / b ↔ a.toNat * b.toNat + c.toNat < 2 ^ 64 := by
  have hb0 : 0 < b.toNat := Nat.pos_of_ne_zero fun h => hb (UInt64.toNat_inj.mp h)
  have hc : c.toNat < 2 ^ 64 := c.toNat_lt
  have hmax : (18446744073709551615 : UInt64).toNat = 18446744073709551615 := rfl
  have hle : c ≤ 18446744073709551615 := by
    rw [UInt64.le_iff_toNat_le, hmax]
    omega
  rw [UInt64.le_iff_toNat_le, UInt64.toNat_div, UInt64.toNat_sub_of_le _ _ hle, hmax,
    Nat.le_div_iff_mul_le hb0]
  omega

end Word64

/-! ### 32 bits -/

section Word32

variable {a b c : UInt32}

/-- A sum in range does not wrap. -/
theorem toNat_add32 (h : a.toNat + b.toNat < 2 ^ 32) : (a + b).toNat = a.toNat + b.toNat := by
  rw [UInt32.toNat_add, Nat.mod_eq_of_lt h]

/-- A product in range does not wrap. -/
theorem toNat_mul32 (h : a.toNat * b.toNat < 2 ^ 32) : (a * b).toNat = a.toNat * b.toNat := by
  rw [UInt32.toNat_mul, Nat.mod_eq_of_lt h]

/-- A product and a sum in range do not wrap. -/
theorem toNat_mulAdd32 (h : a.toNat * b.toNat + c.toNat < 2 ^ 32) :
    (a * b + c).toNat = a.toNat * b.toNat + c.toNat := by
  have hmul : (a * b).toNat = a.toNat * b.toNat := toNat_mul32 (by omega)
  rw [toNat_add32 (by rw [hmul]; exact h), hmul]

/-- The guard by division says that the multiply-add is in range. -/
theorem guard32 (hb : b ≠ 0) :
    a ≤ (4294967295 - c) / b ↔ a.toNat * b.toNat + c.toNat < 2 ^ 32 := by
  have hb0 : 0 < b.toNat := Nat.pos_of_ne_zero fun h => hb (UInt32.toNat_inj.mp h)
  have hc : c.toNat < 2 ^ 32 := c.toNat_lt
  have hmax : (4294967295 : UInt32).toNat = 4294967295 := rfl
  have hle : c ≤ 4294967295 := by
    rw [UInt32.le_iff_toNat_le, hmax]
    omega
  rw [UInt32.le_iff_toNat_le, UInt32.toNat_div, UInt32.toNat_sub_of_le _ _ hle, hmax,
    Nat.le_div_iff_mul_le hb0]
  omega

/-- `div_ceil` -/
def divCeil32 (a b : UInt32) : UInt32 := if a % b = 0 then a / b else a / b + 1

/-- `divCeil32` rounds up. -/
theorem toNat_divCeil32 (hb : 1 < b.toNat) :
    (divCeil32 a b).toNat = (a.toNat + b.toNat - 1) / b.toNat := by
  have ha : a.toNat < 2 ^ 32 := a.toNat_lt
  have hsplit := Nat.div_add_mod a.toNat b.toNat
  have hmod := Nat.mod_lt a.toNat (show 0 < b.toNat by omega)
  have hcomm : b.toNat * (a.toNat / b.toNat) = a.toNat / b.toNat * b.toNat := Nat.mul_comm _ _
  unfold divCeil32
  -- the code adds 1 exactly when something is left over
  split
  · rename_i h0
    have h0' : a.toNat % b.toNat = 0 := by
      have := congrArg UInt32.toNat h0
      rwa [UInt32.toNat_mod] at this
    rw [UInt32.toNat_div]
    symm
    apply Nat.div_eq_of_lt_le
    · omega
    · rw [Nat.add_mul]
      omega
  · rename_i h0
    have h0' : a.toNat % b.toNat ≠ 0 := by
      intro h
      apply h0
      rw [← UInt32.toNat_inj, UInt32.toNat_mod, h]
      rfl
    -- the quotient is below 2 ^ 32 - 1, since the divisor is above 1
    have hq : a.toNat / b.toNat + 1 < 2 ^ 32 := by
      have := Nat.div_lt_self (show 0 < a.toNat by by_contra h; simp_all) hb
      omega
    rw [toNat_add32 (by rw [UInt32.toNat_div]; exact hq), UInt32.toNat_div]
    symm
    apply Nat.div_eq_of_lt_le
    · rw [UInt32.toNat_one, Nat.add_mul]
      omega
    · rw [UInt32.toNat_one, Nat.add_mul, Nat.add_mul]
      omega

end Word32

/-! ### 32 bits, with panics -/

namespace U32

variable {ε : Type} {a b c : ℕ}

/-- `a + b`, `a - b` and `a * b` on `u32`, which panic on overflow. -/
def add (a b : ℕ) : Run ε ℕ := if a + b < 2 ^ 32 then .ok (a + b) else Run.panic .overflow

/-- Subtraction that panics below zero. -/
def sub (a b : ℕ) : Run ε ℕ := if b ≤ a then .ok (a - b) else Run.panic .overflow

/-- Multiplication that panics past the last word. -/
def mul (a b : ℕ) : Run ε ℕ := if a * b < 2 ^ 32 then .ok (a * b) else Run.panic .overflow

/-- A checked sum succeeds exactly in range. -/
theorem add_eq_ok : (add a b : Run ε ℕ) = .ok c ↔ a + b < 2 ^ 32 ∧ a + b = c := by
  unfold add
  split
  · simp_all
  · simp_all

/-- A checked product succeeds exactly in range. -/
theorem mul_eq_ok : (mul a b : Run ε ℕ) = .ok c ↔ a * b < 2 ^ 32 ∧ a * b = c := by
  unfold mul
  split
  · simp_all
  · simp_all

/-- A checked difference succeeds exactly when it is not negative. -/
theorem sub_eq_ok : (sub a b : Run ε ℕ) = .ok c ↔ b ≤ a ∧ a - b = c := by
  unfold sub
  split
  · simp_all
  · simp_all

end U32

/-! ### Two halves of a word -/

section Pack

variable {high low : UInt64}

/-- `(high << 32) | low` -/
def pack (high low : UInt64) : UInt64 := (high <<< 32) ||| low

/-- The value of a packed word. -/
theorem toNat_pack (hh : high.toNat < 2 ^ 32) (hl : low.toNat < 2 ^ 32) :
    (pack high low).toNat = high.toNat * 2 ^ 32 + low.toNat := by
  have hshift : (high <<< 32).toNat = high.toNat <<< 32 := by
    rw [UInt64.toNat_shiftLeft]
    apply Nat.mod_eq_of_lt
    show high.toNat <<< 32 < 2 ^ 64
    rw [Nat.shiftLeft_eq]
    omega
  rw [pack, UInt64.toNat_or, hshift, ← Nat.shiftLeft_add_eq_or_of_lt hl, Nat.shiftLeft_eq]

/-- The high half comes back by a shift. -/
theorem pack_shiftRight (hh : high.toNat < 2 ^ 32) (hl : low.toNat < 2 ^ 32) :
    (pack high low >>> 32).toNat = high.toNat := by
  rw [UInt64.toNat_shiftRight, toNat_pack hh hl]
  show (high.toNat * 2 ^ 32 + low.toNat) >>> 32 = high.toNat
  rw [Nat.shiftRight_eq_div_pow]
  omega

/-- The low half comes back by a mask. -/
theorem pack_mod (hh : high.toNat < 2 ^ 32) (hl : low.toNat < 2 ^ 32) :
    (pack high low).toNat % 2 ^ 32 = low.toNat := by
  rw [toNat_pack hh hl]
  omega

end Pack

end CudaOxide.Lib.Word
