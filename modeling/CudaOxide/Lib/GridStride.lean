import Mathlib

/-!
# Grid-stride loops

Worker `w` of `W` takes the items `w`, `w + W`, `w + 2 * W`, … below a total.

* `visits` — the items of one worker.
* `existsUnique_visit` — every item is taken once.
* `length_visits_le` — no worker takes two items more than another.
-/

namespace CudaOxide.Lib

variable {total stride start i l v w W : ℕ}

/-- The items of a loop from `start` in steps of `stride`. -/
def visits (total stride start : ℕ) : List ℕ :=
  if start < total ∧ 0 < stride then start :: visits total stride (start + stride) else []
termination_by total - start

/-- A walk that starts below the end visits its start. -/
theorem visits_of_lt (h : start < total) (hstride : 0 < stride) :
    visits total stride start = start :: visits total stride (start + stride) := by
  rw [visits, if_pos ⟨h, hstride⟩]

/-- A walk that starts at the end visits nothing. -/
theorem visits_of_le (h : total ≤ start) : visits total stride start = [] := by
  rw [visits, if_neg fun hlt => absurd h (not_le.mpr hlt.1)]

/-- The item at position `i`. -/
theorem getElem?_visits (hstride : 0 < stride) :
    (visits total stride start)[i]? = some l ↔ start + i * stride = l ∧ l < total := by
  induction i generalizing start with
  | zero =>
    rcases Nat.lt_or_ge start total with hlt | hge
    · rw [visits_of_lt hlt hstride, List.getElem?_cons_zero, Option.some.injEq, Nat.zero_mul,
        Nat.add_zero]
      exact (and_iff_left_of_imp fun heq => heq ▸ hlt).symm
    · rw [visits_of_le hge]
      simp only [List.getElem?_nil, reduceCtorEq, false_iff, Nat.zero_mul, Nat.add_zero]
      rintro ⟨rfl, hlt⟩
      omega
  | succ i ih =>
    rcases Nat.lt_or_ge start total with hlt | hge
    · rw [visits_of_lt hlt hstride, List.getElem?_cons_succ, ih, Nat.succ_mul]
      constructor <;> rintro ⟨rfl, hl⟩ <;> exact ⟨by omega, hl⟩
    · rw [visits_of_le hge]
      simp only [List.getElem?_nil, reduceCtorEq, false_iff]
      rintro ⟨rfl, hlt⟩
      omega

/-- The number of visits. -/
theorem lt_length_visits (hstride : 0 < stride) :
    i < (visits total stride start).length ↔ start + i * stride < total := by
  constructor
  · intro hi
    obtain ⟨heq, hlt⟩ := (getElem?_visits hstride).mp (List.getElem?_eq_getElem hi)
    rwa [← heq] at hlt
  · intro hlt
    exact (List.getElem?_eq_some_iff.mp ((getElem?_visits hstride).mpr ⟨rfl, hlt⟩)).1

/-- What is visited. -/
theorem mem_visits (hstride : 0 < stride) :
    l ∈ visits total stride start ↔ ∃ i, start + i * stride = l ∧ l < total := by
  simp only [List.mem_iff_getElem?, getElem?_visits hstride]

/-- **Every item is taken once**, by one worker in one trip. -/
theorem existsUnique_visit (hW : 0 < W) (hl : l < total) :
    ∃! p : ℕ × ℕ, p.1 < W ∧ (visits total W p.1)[p.2]? = some l := by
  refine ⟨(l % W, l / W), ⟨Nat.mod_lt l hW, (getElem?_visits hW).mpr ⟨?_, hl⟩⟩, ?_⟩
  · rw [Nat.mul_comm]
    exact Nat.mod_add_div l W
  · rintro ⟨w, i⟩ ⟨hw, hi⟩
    obtain ⟨rfl, -⟩ := (getElem?_visits hW).mp hi
    simp only at hw
    simp only [Nat.add_mul_mod_self_right, Nat.mod_eq_of_lt hw, Nat.add_mul_div_right _ _ hW,
      Nat.div_eq_of_lt hw, Nat.zero_add]

/-- **The work is balanced.** -/
theorem length_visits_le (hw : w < W) :
    (visits total W v).length ≤ (visits total W w).length + 1 := by
  by_contra hlt
  have hW : 0 < W := by omega
  -- the last item of `v` is more than a round behind the end, so `w` has one more as well
  have hlast : v + ((visits total W w).length + 1) * W < total :=
    (lt_length_visits hW).mp (not_le.mp hlt)
  have hmiss : ¬ w + (visits total W w).length * W < total :=
    (lt_length_visits hW).not.mp (lt_irrefl _)
  rw [Nat.succ_mul] at hlast
  omega

/-- A walk that starts below the end is not empty. -/
theorem visits_ne_nil (hstride : 0 < stride) (h : start < total) :
    visits total stride start ≠ [] := by
  rw [visits_of_lt h hstride]
  exact List.cons_ne_nil _ _

end CudaOxide.Lib
