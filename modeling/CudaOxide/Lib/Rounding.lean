import Mathlib

namespace CudaOxide.Lib.Rounding

/-!
# Rounding to the nearest of a row of values

The values that a format has are numbered from zero up; rounding picks the number of the nearest.

* `Nearest v top x m` — of the values `v 0, …, v top`, the nearest to `x` is `v m`; where two are
  nearest, `m` is even.
* `nearest_of_between` — rounding between two neighbours, then cutting off at `top`, is enough.
* `Nearest.mono` — rounding is monotone.
* `Nearest.eq_top`, `Nearest.eq_top_iff` — the numbers that are cut off.
* `grid` — the row of a binary floating-point format: an exponent, then `p` bits of the significand,
  with the subnormal numbers below.
-/

variable {v : ℕ → ℚ} {top k m m' : ℕ} {x y : ℚ}

/-! ### The nearest value -/

/-- `v m` is a nearest number of a grid up to `top`; of two that are as near, the even one. -/
structure Nearest (v : ℕ → ℚ) (top : ℕ) (x : ℚ) (m : ℕ) : Prop where
  le_top : m ≤ top
  nearest : ∀ c ≤ top, |v m - x| ≤ |v c - x|
  tie : ∀ c ≤ top, c ≠ m → |v c - x| = |v m - x| → Even m

/-- `m` is the neighbour of `x` on the nearer side, and the even one in the middle. -/
def Rounds (v : ℕ → ℚ) (k : ℕ) (x : ℚ) (m : ℕ) : Prop :=
  m = k ∧ 2 * x ≤ v k + v (k + 1) ∧ (2 * x = v k + v (k + 1) → Even k) ∨
    m = k + 1 ∧ v k + v (k + 1) ≤ 2 * x ∧ (2 * x = v k + v (k + 1) → Even (k + 1))

/-- **Between neighbours, then cut off.** -/
theorem nearest_of_between (hv : StrictMono v) (hlo : v k ≤ x) (hhi : x ≤ v (k + 1))
    (h : Rounds v k x m) (top : ℕ) : Nearest v top x (min m top) := by
  -- what lies on either side of `x`
  have hbelow : ∀ c ≤ k, |v c - x| = x - v c := fun c hc => by
    have := hv.monotone hc
    rw [abs_of_nonpos (by linarith), neg_sub]
  have habove : ∀ c, k + 1 ≤ c → |v c - x| = v c - x := fun c hc => by
    have := hv.monotone hc
    exact abs_of_nonneg (by linarith)
  by_cases htop : m ≤ top
  · rw [min_eq_left htop]
    rcases h with ⟨rfl, hmid, heven⟩ | ⟨rfl, hmid, heven⟩
    · refine ⟨htop, fun c _ => ?_, fun c _ hne htie => ?_⟩
      · rw [hbelow m le_rfl]
        rcases Nat.lt_or_ge m c with hlt | hle
        · have := hv.monotone (Nat.succ_le_of_lt hlt)
          rw [habove c hlt]
          linarith
        · have := hv.monotone hle
          rw [hbelow c hle]
          linarith
      · rw [hbelow m le_rfl] at htie
        rcases Nat.lt_or_ge m c with hlt | hle
        · have := hv.monotone (Nat.succ_le_of_lt hlt)
          rw [habove c hlt] at htie
          exact heven (by linarith)
        · rw [hbelow c hle] at htie
          exact absurd (hv.injective (by linarith)) hne
    · refine ⟨htop, fun c _ => ?_, fun c _ hne htie => ?_⟩
      · rw [habove (k + 1) le_rfl]
        rcases Nat.lt_or_ge k c with hlt | hle
        · have := hv.monotone (Nat.succ_le_of_lt hlt)
          rw [habove c hlt]
          linarith
        · have := hv.monotone hle
          rw [hbelow c hle]
          linarith
      · rw [habove (k + 1) le_rfl] at htie
        rcases Nat.lt_or_ge k c with hlt | hle
        · rw [habove c hlt] at htie
          exact absurd (hv.injective (by linarith)) hne
        · have := hv.monotone hle
          rw [hbelow c hle] at htie
          exact heven (by linarith)
  · -- all values that are left lie below `x`
    have hk : top ≤ k := by
      rcases h with ⟨rfl, -, -⟩ | ⟨rfl, -, -⟩ <;> omega
    rw [min_eq_right (not_le.mp htop).le]
    refine ⟨le_rfl, fun c hc => ?_, fun c hc hne htie => ?_⟩
    · have := hv.monotone hc
      rw [hbelow top hk, hbelow c (hc.trans hk)]
      linarith
    · rw [hbelow top hk, hbelow c (hc.trans hk)] at htie
      exact absurd (hv.injective (by linarith)) hne

/-- **Rounding is monotone.** -/
theorem Nearest.mono (hv : StrictMono v) (h : Nearest v top x m) (h' : Nearest v top y m')
    (hxy : x ≤ y) : m ≤ m' := by
  by_contra hlt
  have hlt' := not_le.mp hlt
  have hvlt := hv hlt'
  have hx := h.nearest m' h'.le_top
  have hy := h'.nearest m h.le_top
  -- `x` lies on the upper half between the two, `y` on the lower one
  have hxmid : v m' + v m ≤ 2 * x := by
    by_contra hmid
    rw [not_le] at hmid
    have : |v m' - x| < |v m - x| := by
      rw [lt_abs]
      left
      rw [abs_lt]
      constructor <;> linarith
    linarith
  have hymid : 2 * y ≤ v m' + v m := by
    by_contra hmid
    rw [not_le] at hmid
    have : |v m - y| < |v m' - y| := by
      rw [lt_abs]
      right
      rw [abs_lt]
      constructor <;> linarith
    linarith
  have hmid : 2 * x = v m' + v m := by linarith
  have hym : y = x := by linarith
  have htie : |v m' - x| = |v m - x| := by
    rw [abs_of_nonpos (by linarith), abs_of_nonneg (by linarith)]
    linarith
  -- both are even, so that a nearer value stands between them
  obtain ⟨a, ha⟩ := h.tie m' h'.le_top (by omega) htie
  obtain ⟨b, hb⟩ := h'.tie m h.le_top (by omega) (by rw [hym]; exact htie.symm)
  have hlo := hv (show m' < m' + 1 by omega)
  have hhi := hv (show m' + 1 < m by omega)
  have hnear := h.nearest (m' + 1) (by have := h.le_top; omega)
  have hfar : |v (m' + 1) - x| < |v m - x| := by
    rw [lt_abs]
    left
    rw [abs_lt]
    constructor <;> linarith
  linarith

/-- What is past the largest value is cut off. -/
theorem Nearest.eq_top (hv : StrictMono v) (h : Nearest v top x m) (hx : v top ≤ x) : m = top := by
  have hbest := h.nearest top le_rfl
  have hle := hv.monotone h.le_top
  rw [abs_of_nonpos (by linarith), abs_of_nonpos (by linarith)] at hbest
  exact le_antisymm h.le_top (hv.le_iff_le.mp (by linarith))

/-- The largest value is met from the middle on, when the middle is rounded up. -/
theorem Nearest.eq_top_iff (hv : StrictMono v) (hodd : ¬Even k) (h : Nearest v (k + 1) x m) :
    m = k + 1 ↔ v k + v (k + 1) ≤ 2 * x := by
  have hlt := hv (Nat.lt_succ_self k)
  constructor
  · rintro rfl
    have hbest := h.nearest k (Nat.le_succ k)
    by_contra hmid
    have hfar : |v k - x| < |v (k + 1) - x| := by
      rw [lt_abs]
      left
      rw [abs_lt]
      constructor <;> linarith
    linarith
  · intro hmid
    by_contra hne
    have hle := hv.monotone (show m ≤ k by have := h.le_top; omega)
    have hbest := h.nearest (k + 1) le_rfl
    have htop : |v (k + 1) - x| ≤ x - v k := by
      rw [abs_le]
      constructor <;> linarith
    rw [abs_of_nonpos (by linarith)] at hbest
    obtain rfl : m = k := hv.injective (by linarith)
    refine hodd (h.tie (m + 1) le_rfl (by omega) ?_)
    rw [abs_of_nonpos (show v m - x ≤ 0 by linarith)]
    linarith

/-! ### Binary floating-point formats -/

/-- The value numbered `m`, in units of the smallest positive one. -/
def grid (p m : ℕ) : ℕ := if m < 2 ^ p then m else (2 ^ p + m % 2 ^ p) * 2 ^ (m / 2 ^ p - 1)

/-- Counting on from the start of a binade, up to the start of the next one. -/
theorem grid_eq {p e r : ℕ} (hr : r ≤ 2 ^ (p + 1)) (h : e = 0 ∨ 2 ^ p ≤ r) :
    grid p (e * 2 ^ p + r) = r * 2 ^ e := by
  have hpos : 0 < 2 ^ p := by positivity
  have htwo : 2 ^ (p + 1) = 2 ^ p + 2 ^ p := by ring
  by_cases hsmall : r < 2 ^ p
  · obtain rfl := h.resolve_right (not_le.mpr hsmall)
    rw [Nat.zero_mul, Nat.zero_add, grid, if_pos hsmall, pow_zero, mul_one]
  · obtain ⟨f, rfl⟩ := Nat.exists_eq_add_of_le (not_lt.mp hsmall)
    have hbig : ¬e * 2 ^ p + (2 ^ p + f) < 2 ^ p := by omega
    rw [grid, if_neg hbig]
    rcases (show f ≤ 2 ^ p by omega).lt_or_eq with hf | rfl
    · have hsplit : e * 2 ^ p + (2 ^ p + f) = f + 2 ^ p * (e + 1) := by ring
      rw [hsplit, Nat.add_mul_mod_self_left, Nat.mod_eq_of_lt hf, Nat.add_mul_div_left _ _ hpos,
        Nat.div_eq_of_lt hf, Nat.zero_add, Nat.add_sub_cancel]
    · have hsplit : e * 2 ^ p + (2 ^ p + 2 ^ p) = 2 ^ p * (e + 2) := by ring
      rw [hsplit, Nat.mul_mod_right, Nat.mul_div_cancel_left _ hpos, Nat.add_zero,
        show e + 2 - 1 = e + 1 by omega]
      ring

/-- The grid of a precision ascends. -/
theorem strictMono_grid (p : ℕ) : StrictMono (grid p) := by
  have htwo : 2 ^ (p + 1) = 2 ^ p + 2 ^ p := by ring
  have hpos : 0 < 2 ^ p := by positivity
  refine strictMono_nat_of_lt_succ fun m => ?_
  obtain ⟨e, r, hm, hr, hbinade⟩ : ∃ e r, m = e * 2 ^ p + r ∧ r < 2 ^ (p + 1) ∧
      (e = 0 ∨ 2 ^ p ≤ r) := by
    by_cases hsmall : m < 2 ^ p
    · exact ⟨0, m, by omega, by omega, .inl rfl⟩
    · have hdiv : 1 ≤ m / 2 ^ p := (Nat.one_le_div_iff hpos).mpr (not_lt.mp hsmall)
      have hmod := Nat.mod_lt m hpos
      have hsplit := Nat.div_add_mod m (2 ^ p)
      obtain ⟨e, he⟩ := Nat.exists_eq_add_of_le hdiv
      rw [he] at hsplit
      refine ⟨e, 2 ^ p + m % 2 ^ p, ?_, by omega, .inr (Nat.le_add_right _ _)⟩
      rw [← hsplit]
      simp only [Nat.mul_add_mod, Nat.mod_mod]
      ring
  rw [hm, Nat.add_assoc, grid_eq hr.le hbinade,
    grid_eq (Nat.succ_le_of_lt hr) (hbinade.imp_right Nat.le_succ_of_le)]
  exact Nat.mul_lt_mul_of_pos_right (Nat.lt_succ_self r) (by positivity)

end CudaOxide.Lib.Rounding
