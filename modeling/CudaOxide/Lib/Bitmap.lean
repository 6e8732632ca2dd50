import Mathlib

namespace CudaOxide.Lib

/-!
# Bitmaps in 64-bit words

Bit `s` of a bitmap is bit `s % 64` of word `s / 64`.

* `mem_insert`, `mem_erase` — what setting and clearing one bit by a mask does.
* `getLsbD_dropLowest` — `bits & (bits - 1)` forgets the lowest set bit and no other, so a loop with
  it visits bits that are set, each of them once.
-/

/-- The words of a bitmap. -/
abbrev Bitmap := ℕ → BitVec 64

namespace Bitmap

/-- Bit `s` is set. -/
def Mem (words : Bitmap) (s : ℕ) : Prop := (words (s / 64)).getLsbD (s % 64) = true

instance (words : Bitmap) (s : ℕ) : Decidable (Mem words s) := inferInstanceAs (Decidable (_ = _))

/-- `words[s / 64] |= 1 << (s % 64)` -/
def insert (words : Bitmap) (s : ℕ) : Bitmap :=
  Function.update words (s / 64) (words (s / 64) ||| (1#64 <<< (s % 64)))

/-- `words[s / 64] &= !(1 << (s % 64))` -/
def erase (words : Bitmap) (s : ℕ) : Bitmap :=
  Function.update words (s / 64) (words (s / 64) &&& ~~~(1#64 <<< (s % 64)))

variable {words : Bitmap} {s t : ℕ}

/-- A word with a single bit. -/
theorem getLsbD_one_shiftLeft {i j : ℕ} (hi : i < 64) :
    (1#64 <<< j).getLsbD i = decide (i = j) := by
  simp only [BitVec.getLsbD_shiftLeft, BitVec.getLsbD_one, hi]
  by_cases h : i = j
  · simp [h]
  · simp only [h, decide_true, Bool.true_and, decide_false, Bool.and_eq_false_imp,
      Bool.not_eq_true',
      decide_eq_false_iff_not]
    omega

/-- Inserting an index adds it and no other. -/
theorem mem_insert : Mem (insert words s) t ↔ t = s ∨ Mem words t := by
  have hmod : t % 64 < 64 := Nat.mod_lt _ (by decide)
  unfold Mem insert
  by_cases hword : t / 64 = s / 64
  · rw [hword, Function.update_self, BitVec.getLsbD_or, getLsbD_one_shiftLeft hmod, Bool.or_eq_true,
      decide_eq_true_eq, or_comm]
    have : t % 64 = s % 64 ↔ t = s := by omega
    rw [this]
  · rw [Function.update_of_ne hword]
    have : t ≠ s := fun h => hword (congrArg (· / 64) h)
    simp [this]

/-- Erasing an index removes it and no other. -/
theorem mem_erase : Mem (erase words s) t ↔ t ≠ s ∧ Mem words t := by
  have hmod : t % 64 < 64 := Nat.mod_lt _ (by decide)
  unfold Mem erase
  by_cases hword : t / 64 = s / 64
  · rw [hword, Function.update_self, BitVec.getLsbD_and, BitVec.getLsbD_not,
      getLsbD_one_shiftLeft hmod, decide_eq_true hmod, Bool.true_and, Bool.and_eq_true,
      Bool.not_eq_true', decide_eq_false_iff_not, and_comm]
    have : t % 64 = s % 64 ↔ t = s := by omega
    rw [Ne, this]
  · rw [Function.update_of_ne hword]
    have : t ≠ s := fun h => hword (congrArg (· / 64) h)
    simp [this]

/-- `bits.trailing_zeros()` -/
def lowest (bits : BitVec 64) : ℕ := bits.ctz.toNat

/-- `bits & (bits - 1)` -/
def dropLowest (bits : BitVec 64) : BitVec 64 := bits &&& (bits - 1#64)

variable {bits : BitVec 64}

/-- The lowest bit of a word that is not zero is set. -/
theorem getLsbD_lowest (h : bits ≠ 0#64) : bits.getLsbD (lowest bits) = true :=
  BitVec.getLsbD_true_ctz_of_ne_zero h

/-- A number whose lowest set bit is bit `k` loses it when one is subtracted. -/
theorem testBit_sub_one {n k : ℕ} (hk : n.testBit k = true) (hlow : ∀ i < k, n.testBit i = false) :
    (n - 1).testBit k = false := by
  have hdvd : n % 2 ^ k = 0 := by
    apply Nat.eq_of_testBit_eq
    intro i
    rw [Nat.testBit_mod_two_pow, Nat.zero_testBit]
    by_cases hi : i < k
    · rw [hlow i hi, Bool.and_false]
    · rw [decide_eq_false hi, Bool.false_and]
  obtain ⟨m, rfl⟩ := Nat.dvd_of_mod_eq_zero hdvd
  have hpow : 0 < 2 ^ k := Nat.two_pow_pos k
  rw [Nat.testBit_eq_decide_div_mod_eq, Nat.mul_div_cancel_left _ hpow, decide_eq_true_eq] at hk
  -- `n - 1` turns the lowest set bit off and the ones below it on
  have hsub : 2 ^ k * m - 1 = 2 ^ k * (m - 1) + (2 ^ k - 1) := by
    obtain ⟨j, rfl⟩ : ∃ j, m = j + 1 := ⟨m - 1, by omega⟩
    rw [Nat.add_sub_cancel, Nat.mul_succ]
    omega
  rw [Nat.testBit_eq_decide_div_mod_eq, hsub, Nat.mul_add_div hpow,
    Nat.div_eq_of_lt (by omega : 2 ^ k - 1 < 2 ^ k), decide_eq_false_iff_not]
  omega

/-- Dropping it keeps the others. -/
theorem getLsbD_dropLowest (h : bits ≠ 0#64) {i : ℕ} (hi : (dropLowest bits).getLsbD i = true) :
    bits.getLsbD i = true ∧ i ≠ lowest bits := by
  rw [dropLowest, BitVec.getLsbD_and, Bool.and_eq_true] at hi
  refine ⟨hi.1, ?_⟩
  rintro rfl
  have hpos : 1 ≤ bits.toNat := by
    by_contra hzero
    apply h
    apply BitVec.eq_of_toNat_eq
    rw [BitVec.toNat_ofNat, Nat.zero_mod]
    omega
  have hsub : (bits - 1#64).toNat = bits.toNat - 1 :=
    BitVec.toNat_sub_of_le (by rw [BitVec.le_def]; exact hpos)
  -- the lowest set bit is the one that the mask clears
  have hlost : (bits - 1#64).getLsbD (lowest bits) = false := by
    show (bits - 1#64).toNat.testBit (lowest bits) = false
    rw [hsub]
    exact testBit_sub_one (getLsbD_lowest h) fun i hi => BitVec.getLsbD_false_of_lt_ctz hi
  rw [hlost] at hi
  exact absurd hi.2 Bool.false_ne_true

end Bitmap

end CudaOxide.Lib
