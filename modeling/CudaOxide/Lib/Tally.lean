import Mathlib

/-!
# Counting rounds

The parties of a barrier add their weights to one counter, each once in a round.  As long as no
party is two rounds ahead of another, the counter shows how many rounds all of them have begun: it
is the quotient by the sum of the weights.

* `tally` — the counter.
* `tally_div` — the rounds that all parties have begun.
-/

namespace CudaOxide.Lib

variable {B : Type*} [Fintype B] {weight turns : B → ℕ} {k : ℕ}

/-- The counter after `turns b` rounds of each party `b`. -/
def tally (weight turns : B → ℕ) : ℕ := ∑ b, turns b * weight b

/-- One summand changes. -/
theorem sum_update_add {α : Type*} [DecidableEq B] (f : B → α → ℕ) (x : B → α) (b : B) (v : α) :
    ∑ c, f c (Function.update x b v c) + f b (x b) = ∑ c, f c (x c) + f b v := by
  have hrest : ∀ c ∈ Finset.univ.erase b, f c (Function.update x b v c) = f c (x c) :=
      fun c hc => by
    rw [Function.update_of_ne (Finset.ne_of_mem_erase hc)]
  rw [← Finset.add_sum_erase _ _ (Finset.mem_univ b), Finset.sum_congr rfl hrest,
    ← Finset.add_sum_erase Finset.univ (fun c => f c (x c)) (Finset.mem_univ b),
      Function.update_self]
  omega

/-- One party adds its weight. -/
theorem tally_update [DecidableEq B] (b : B) :
    tally weight (Function.update turns b (turns b + 1)) = tally weight turns + weight b := by
  have hsum := sum_update_add (fun b n => n * weight b) turns b (turns b + 1)
  rw [Nat.succ_mul] at hsum
  unfold tally
  omega

/-- **The counter shows the complete rounds.** -/
theorem tally_div (hpos : ∀ b, 0 < weight b) (hle : ∀ b, k ≤ turns b)
    (hlt : ∀ b, turns b ≤ k + 1) {last : B} (hlast : turns last = k) :
    tally weight turns / ∑ b, weight b = k := by
  have hsplit : tally weight turns = k * ∑ b, weight b + ∑ b, (turns b - k) * weight b := by
    rw [tally, Finset.mul_sum, ← Finset.sum_add_distrib]
    refine Finset.sum_congr rfl fun b _ => ?_
    rw [← Nat.add_mul, Nat.add_sub_cancel' (hle b)]
  -- the last party is missing from the round that is under way
  have hrest : ∑ b, (turns b - k) * weight b < ∑ b, weight b := by
    refine Finset.sum_lt_sum (fun b _ => ?_) ⟨last, Finset.mem_univ last, ?_⟩
    · have hone : turns b - k ≤ 1 := by have := hlt b; omega
      exact (Nat.mul_le_mul_right _ hone).trans (Nat.one_mul _).le
    · rw [hlast, Nat.sub_self, Nat.zero_mul]
      exact hpos last
  have hsum : 0 < ∑ b, weight b := Nat.zero_lt_of_lt hrest
  rw [hsplit, Nat.mul_comm, Nat.mul_add_div hsum, Nat.div_eq_of_lt hrest, Nat.add_zero]

end CudaOxide.Lib
