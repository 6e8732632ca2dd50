import Mathlib

namespace CudaOxide.Lib.LowBit

/-!
# The lowest set bit of a word

* `and_neg_eq_twoPow` — `x & -x` isolates the lowest set bit.
* `two_pow_dvd_toNat_iff` — the number of trailing zeros is the exponent of two in the word.
* `gcd_two_pow`, `gcd_toInt_two_pow` — the powers of two up to a bound that divide the word, read
  without and with a sign.
-/

variable {w k : ℕ} {x : BitVec w}

/-- The bits of a word and of its negation meet in the lowest one. -/
theorem and_neg_eq_twoPow (hx : x ≠ 0#w) : x &&& -x = BitVec.twoPow w x.ctz.toNat := by
  have htop := BitVec.getLsbD_true_ctz_of_ne_zero hx
  apply BitVec.eq_of_getLsbD_eq
  intro i hi
  rw [BitVec.getLsbD_and, BitVec.getLsbD_neg, BitVec.getLsbD_twoPow]
  obtain hlt | heq | hgt := Nat.lt_trichotomy i x.ctz.toNat
  · have hlow := BitVec.getLsbD_false_of_lt_ctz hlt
    simp [hlow]
    omega
  · subst heq
    -- no bit below the lowest one is set, so the bit survives the negation
    have hlow : ¬ ∃ j < x.ctz.toNat, x.getLsbD j = true := by
      rintro ⟨j, hj, hset⟩
      rw [BitVec.getLsbD_false_of_lt_ctz hj] at hset
      cases hset
    simp [htop, hlow, hi]
  · have hset : ∃ j < i, x.getLsbD j = true := ⟨_, hgt, htop⟩
    have hne : x.ctz.toNat ≠ i := by omega
    simp [hset, hne, hi]

/-- The powers of two that divide a word are those up to its trailing zeros. -/
theorem two_pow_dvd_toNat_iff (hk : k ≤ w) : 2 ^ k ∣ x.toNat ↔ k ≤ x.ctz.toNat := by
  rw [Nat.dvd_iff_mod_eq_zero]
  constructor
  · intro hmod
    by_contra! hlt
    have hx : x ≠ 0#w := BitVec.ctz_lt_iff_ne_zero.mp (by
      rw [BitVec.lt_def, BitVec.natCast_eq_ofNat, BitVec.toNat_ofNat,
        Nat.mod_eq_of_lt w.lt_two_pow_self]
      omega)
    have htop := BitVec.getLsbD_true_ctz_of_ne_zero hx
    have hbit : (x.toNat % 2 ^ k).testBit x.ctz.toNat = true := by
      rw [Nat.testBit_mod_two_pow]
      rw [BitVec.testBit_toNat, htop, decide_eq_true hlt, Bool.and_self]
    rw [hmod, Nat.zero_testBit] at hbit
    cases hbit
  · intro hle
    apply Nat.eq_of_testBit_eq
    intro i
    rw [Nat.testBit_mod_two_pow, Nat.zero_testBit]
    by_cases hi : i < k
    · have hlow : x.getLsbD i = false := BitVec.getLsbD_false_of_lt_ctz (by omega)
      rw [BitVec.testBit_toNat, hlow, Bool.and_false]
    · simp [hi]

/-- The greatest common divisor with a power of two, read off the trailing zeros. -/
theorem gcd_two_pow (hk : k ≤ w) : Nat.gcd x.toNat (2 ^ k) = 2 ^ min x.ctz.toNat k := by
  apply Nat.dvd_antisymm
  · obtain ⟨j, hj, hgcd⟩ := (Nat.dvd_prime_pow Nat.prime_two).mp (Nat.gcd_dvd_right x.toNat (2 ^ k))
    have hdvd : 2 ^ j ∣ x.toNat := hgcd ▸ Nat.gcd_dvd_left x.toNat (2 ^ k)
    have := (two_pow_dvd_toNat_iff (by omega)).mp hdvd
    rw [hgcd]
    exact Nat.pow_dvd_pow 2 (by omega)
  · apply Nat.dvd_gcd
    · exact (two_pow_dvd_toNat_iff (by omega)).mpr (by omega)
    · exact Nat.pow_dvd_pow 2 (by omega)

/-- The same of a signed number. -/
theorem gcd_toInt_two_pow (hk : k ≤ w) : Int.gcd x.toInt (2 ^ k) = 2 ^ min x.ctz.toNat k := by
  have hdvd : (2 ^ k : ℤ) ∣ 2 ^ w := pow_dvd_pow 2 hk
  rw [← gcd_two_pow hk, BitVec.toInt_eq_toNat_cond]
  split
  · rfl
  · -- the sign takes off a multiple of the power
    obtain ⟨c, hc⟩ := hdvd
    have hshift : (x.toNat : ℤ) - ((2 ^ w : ℕ) : ℤ) = x.toNat + -c * 2 ^ k := by
      push_cast
      rw [hc]
      ring
    rw [hshift, Int.gcd_add_mul_right_left]
    rfl

end CudaOxide.Lib.LowBit
