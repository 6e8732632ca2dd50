import Mathlib

/-!
# Reductions and scans by exchange

Lanes with one value each find the product of all values, or of all values up to their own, in
logarithmically many rounds.  In each round a lane multiplies its value with that of one other lane.

* `agreeing`, `butterfly_round` — the other lane differs in one bit, from the highest bit to the
  lowest.
* `window`, `scan_round` — the other lane is a power of two behind, from one on.
-/

namespace CudaOxide.Lib

variable {M : Type*} [CommMonoid M] {f g : ℕ → M} {k m i j s : ℕ}

/-! ### The butterfly -/

/-- The lanes below `2 ^ k` that agree with lane `i` in the lowest `m` bits. -/
def agreeing (k m i : ℕ) : Finset ℕ := {j ∈ Finset.range (2 ^ k) | j % 2 ^ m = i % 2 ^ m}

/-- The lanes that agree with `i` in the low `m` bits. -/
theorem mem_agreeing : j ∈ agreeing k m i ↔ j < 2 ^ k ∧ j % 2 ^ m = i % 2 ^ m := by
  rw [agreeing, Finset.mem_filter, Finset.mem_range]

/-- In all bits only the lane itself agrees. -/
theorem agreeing_all (hi : i < 2 ^ k) : agreeing k k i = {i} := by
  ext j
  rw [mem_agreeing, Finset.mem_singleton, Nat.mod_eq_of_lt hi]
  constructor
  · rintro ⟨hj, heq⟩
    rwa [Nat.mod_eq_of_lt hj] at heq
  · rintro rfl
    exact ⟨hi, Nat.mod_eq_of_lt hi⟩

/-- In no bits all lanes agree. -/
theorem agreeing_zero : agreeing k 0 i = Finset.range (2 ^ k) :=
  Finset.filter_true_of_mem fun j _ => by rw [pow_zero, Nat.mod_one, Nat.mod_one]

/-- Flipping bit `m` keeps the lower bits. -/
theorem xor_two_pow_mod : (i ^^^ 2 ^ m) % 2 ^ m = i % 2 ^ m := by
  rw [Nat.xor_mod_two_pow, Nat.mod_self, Nat.xor_zero]

/-- The partner has the other value in the bit `m`. -/
theorem xor_two_pow_div : (i ^^^ 2 ^ m) / 2 ^ m % 2 = 1 - i / 2 ^ m % 2 := by
  have hbit : (i ^^^ 2 ^ m).testBit m = !i.testBit m := by
    rw [Nat.testBit_xor, Nat.testBit_two_pow_self, Bool.xor_true]
  rw [Nat.testBit_eq_decide_div_mod_eq, Nat.testBit_eq_decide_div_mod_eq] at hbit
  have hflip := Bool.eq_iff_iff.mp hbit
  simp only [decide_eq_true_eq, Bool.not_eq_true', decide_eq_false_iff_not] at hflip
  omega

/-- The lanes that agree in `m` bits agree in one more, or differ in that one. -/
theorem agreeing_split :
    agreeing k m i = agreeing k (m + 1) i ∪ agreeing k (m + 1) (i ^^^ 2 ^ m) := by
  have hone : ∀ x, x % 2 ^ (m + 1) = x % 2 ^ m + 2 ^ m * (x / 2 ^ m % 2) :=
    fun x => Nat.mod_pow_succ
  ext j
  rw [Finset.mem_union, mem_agreeing, mem_agreeing, mem_agreeing, hone j, hone i,
    hone (i ^^^ 2 ^ m), xor_two_pow_mod, xor_two_pow_div]
  have hj := Nat.mod_lt j (Nat.two_pow_pos m)
  have hi := Nat.mod_lt i (Nat.two_pow_pos m)
  rcases Nat.mod_two_eq_zero_or_one (j / 2 ^ m) with h | h <;>
    rcases Nat.mod_two_eq_zero_or_one (i / 2 ^ m) with h' | h' <;> rw [h, h'] <;> omega

/-- A lane and its partner stand for different groups. -/
theorem disjoint_agreeing : Disjoint (agreeing k (m + 1) i) (agreeing k (m + 1) (i ^^^ 2 ^ m)) := by
  rw [Finset.disjoint_left]
  intro j hj hj'
  have heq := (mem_agreeing.mp hj).2.symm.trans (mem_agreeing.mp hj').2
  rw [Nat.mod_pow_succ, Nat.mod_pow_succ, xor_two_pow_mod, xor_two_pow_div] at heq
  have hpos := Nat.two_pow_pos m
  have hbits := Nat.eq_of_mul_eq_mul_left hpos (Nat.add_left_cancel heq)
  omega

/-- **One round of the butterfly** at bit `m`: the product over the lanes that agree in `m + 1` bits
becomes the product over those that agree in `m`. -/
theorem butterfly_round (hm : m < k)
    (hg : ∀ i, i < 2 ^ k → g i = ∏ j ∈ agreeing k (m + 1) i, f j) (hi : i < 2 ^ k) :
    g i * g (i ^^^ 2 ^ m) = ∏ j ∈ agreeing k m i, f j := by
  have hother : i ^^^ 2 ^ m < 2 ^ k := Nat.xor_lt_two_pow hi
    (Nat.pow_lt_pow_right Nat.one_lt_two hm)
  rw [hg i hi, hg _ hother, ← Finset.prod_union disjoint_agreeing, ← agreeing_split]

/-! ### The scan -/

/-- The product of the last `2 ^ s` values up to that of lane `i`. -/
def window (f : ℕ → M) (s i : ℕ) : M := ∏ j ∈ Finset.Ico (i + 1 - 2 ^ s) (i + 1), f j

/-- Before the first round, a lane has its own value. -/
theorem window_zero : window f 0 i = f i := by
  rw [window, pow_zero, Nat.add_sub_cancel, Nat.Ico_succ_singleton, Finset.prod_singleton]

/-- A window that reaches back to the first lane. -/
theorem window_of_lt (hi : i < 2 ^ s) : window f s i = ∏ j ∈ Finset.range (i + 1), f j := by
  rw [window, Nat.sub_eq_zero_of_le hi, Finset.range_eq_Ico]

/-- **One round of the scan** doubles the windows, where there is anything before them. -/
theorem scan_round :
    window f (s + 1) i = if 2 ^ s ≤ i then window f s i * window f s (i - 2 ^ s)
      else window f s i := by
  have hpow : 2 ^ (s + 1) = 2 ^ s + 2 ^ s := by rw [pow_succ, Nat.mul_two]
  split_ifs with hi
  · have hend : i - 2 ^ s + 1 = i + 1 - 2 ^ s := (Nat.succ_sub hi).symm
    have hstart : i + 1 - 2 ^ s - 2 ^ s = i + 1 - 2 ^ (s + 1) := by omega
    have hle : i + 1 - 2 ^ (s + 1) ≤ i + 1 - 2 ^ s :=
      Nat.sub_le_sub_left (Nat.pow_le_pow_right Nat.two_pos (Nat.le_succ s)) _
    rw [mul_comm, window, window, window, hend, hstart,
      Finset.prod_Ico_consecutive f hle (Nat.sub_le _ _)]
  · rw [window_of_lt (not_le.mp hi), window_of_lt (by omega)]

end CudaOxide.Lib
