import CudaOxide.Lib.Filling

namespace CudaOxide.Lib.Strided

/-!
# Where the modes of a walk begin

A mode of a walk that fills an interval begins where the modes with smaller strides end.  Adding
coordinates carries into it where their remainders add up to more than that.

* `below` — the cells of the modes with a smaller stride; `stride_eq_below`.
* `sum_emod_lt_iff` — remainders add up without a carry exactly when they add up to the remainder.
* `exists_terms` — the sums over the digits of one coordinate are sums over one list of terms.
-/

variable {ms xs : List (ℤ × ℤ)} {m : ℤ × ℤ} {c d p L N : ℤ}

/-! ### The modes with a smaller stride -/

/-- The cells of the modes whose stride is smaller than `d`. -/
def below (ms : List (ℤ × ℤ)) (d : ℤ) : ℤ := size (ms.filter fun m => m.2 < d)

@[simp] theorem below_nil : below [] d = 1 := rfl

/-- The modes below a bound, one by one. -/
theorem below_cons : below (m :: ms) d = (if m.2 < d then m.1 else 1) * below ms d := by
  unfold below
  by_cases h : m.2 < d
  · rw [List.filter_cons_of_pos (by simpa using h), if_pos h, size_cons]
  · rw [List.filter_cons_of_neg (by simpa using h), if_neg h, one_mul]

/-- The cells below a bound multiply over an append. -/
theorem below_append (xs ys : List (ℤ × ℤ)) (d : ℤ) :
    below (xs ++ ys) d = below xs d * below ys d := by
  rw [below, List.filter_append, size_append]
  rfl

/-- They do not depend on the order. -/
theorem below_perm (h : ms.Perm xs) (d : ℤ) : below ms d = below xs d := size_perm (h.filter _)

/-- They are positive. -/
theorem below_pos (h : Pos ms) (d : ℤ) : 0 < below ms d :=
  size_pos fun m hm => h m (List.mem_filter.mp hm).1

/-- No cell lies below the smallest stride. -/
theorem below_eq_one (h : ∀ m ∈ ms, d ≤ m.2) : below ms d = 1 := by
  rw [below, List.filter_eq_nil_iff.mpr fun m hm => by simpa using h m hm]
  rfl

/-- The modes with more than one cell. -/
def proper (ms : List (ℤ × ℤ)) : List (ℤ × ℤ) := ms.filter fun m => m.1 ≠ 1

theorem mem_proper : m ∈ proper ms ↔ m ∈ ms ∧ m.1 ≠ 1 := by simp [proper]

/-- Modes of one cell do not count. -/
theorem below_proper (ms : List (ℤ × ℤ)) (d : ℤ) : below (proper ms) d = below ms d := by
  induction ms with
  | nil => rfl
  | cons m ms ih =>
    rw [proper, below_cons]
    by_cases h : m.1 = 1
    · rw [List.filter_cons_of_neg (by simpa using h), h, ite_self, one_mul]
      exact ih
    · rw [List.filter_cons_of_pos (by simpa using h), below_cons]
      exact congrArg _ ih

/-- Leaving them out keeps the walk. -/
theorem SameWalk.proper (ms : List (ℤ × ℤ)) : SameWalk (proper ms) ms := by
  induction ms with
  | nil => exact .refl _
  | cons m ms ih =>
    unfold Strided.proper
    by_cases h : m.1 = 1
    · rw [List.filter_cons_of_neg (by simpa using h)]
      refine ⟨by rw [size_cons, h, one_mul]; exact ih.size_eq, fun c => ?_⟩
      rw [eval_cons, h, Int.emod_one, zero_mul, zero_add, Int.ediv_one]
      exact ih.eval_eq c
    · rw [List.filter_cons_of_pos (by simpa using h)]
      refine ⟨by rw [size_cons, size_cons]; exact congrArg _ ih.size_eq, fun c => ?_⟩
      rw [eval_cons, eval_cons]
      exact congrArg _ (ih.eval_eq _)

/-- Merging leaves them out as well. -/
theorem mergeOnto_proper (out ms : List (ℤ × ℤ)) :
    mergeOnto out ms = mergeOnto out (proper ms) := by
  induction ms generalizing out with
  | nil => rfl
  | cons m ms ih =>
    unfold proper at ih ⊢
    by_cases h : m.1 = 1
    · rw [List.filter_cons_of_neg (by simpa using h), ← ih]
      conv_lhs => unfold mergeOnto
      rw [if_pos h]
    · rw [List.filter_cons_of_pos (by simpa using h)]
      unfold mergeOnto
      rw [if_neg h, if_neg h]
      cases out with
      | nil => exact ih _
      | cons last rest => simp only [ih]

/-- Merging starts from the modes with more than one cell. -/
theorem merged_eq_proper (ms : List (ℤ × ℤ)) : merged ms = merged (proper ms) :=
  mergeOnto_proper [] ms

/-- The strides of a chain only grow. -/
theorem Chain.le_stride (hpos : Pos ms) (hp : 0 < p) (h : Chain p ms) : ∀ m ∈ ms, p ≤ m.2 := by
  induction ms generalizing p with
  | nil => exact List.forall_mem_nil _
  | cons m ms ih =>
    obtain ⟨hm, hpos⟩ := pos_cons.mp hpos
    obtain ⟨rfl, hch⟩ := h
    refine List.forall_mem_cons.mpr ⟨le_rfl, fun x hx => ?_⟩
    exact (le_mul_of_one_le_left hp.le hm).trans (ih hpos (mul_pos hm hp) hch x hx)

/-- In a chain, a stride is the number of cells below it. -/
theorem Chain.stride_eq_below (hext : ∀ m ∈ ms, 1 < m.1) (hp : 0 < p) (h : Chain p ms)
    (hm : m ∈ ms) : m.2 = p * below ms m.2 := by
  induction ms generalizing p with
  | nil => exact absurd hm List.not_mem_nil
  | cons x ms ih =>
    obtain ⟨hx, hext⟩ := List.forall_mem_cons.mp hext
    have hpos : Pos ms := fun y hy => by have := hext y hy; omega
    obtain ⟨rfl, hch⟩ := h
    have hlt : x.2 < x.1 * x.2 := lt_mul_of_one_lt_left hp hx
    have hle := Chain.le_stride hpos (hp.trans hlt) hch
    rw [below_cons]
    rcases List.mem_cons.mp hm with rfl | hm
    · rw [if_neg (lt_irrefl _), one_mul, below_eq_one fun y hy => hlt.le.trans (hle y hy), mul_one]
    · rw [if_pos (hlt.trans_le (hle m hm))]
      calc m.2 = x.1 * x.2 * below ms m.2 := ih hext (hp.trans hlt) hch hm
        _ = x.2 * (x.1 * below ms m.2) := by ring

/-- **Where a mode begins.**  In a walk that fills an interval, the stride of a mode is the number
of cells of the modes with smaller strides. -/
theorem stride_eq_below (hpos : Pos ms) (hf : Fills ms L) (hm : m ∈ ms) (hext : 1 < m.1) :
    m.2 = below ms m.2 := by
  -- in the order of the strides, the modes of extent above 1 form a chain
  have htotal : Std.Total fun x y : ℤ × ℤ => x.2 ≤ y.2 := ⟨fun x y => le_total x.2 y.2⟩
  have htrans : IsTrans (ℤ × ℤ) fun x y => x.2 ≤ y.2 := ⟨fun _ _ _ => le_trans⟩
  set ws := (proper ms).insertionSort fun x y => x.2 ≤ y.2 with hws
  have hperm : ws.Perm (proper ms) := List.perm_insertionSort _ _
  have hsort : ws.Pairwise fun x y => x.2 ≤ y.2 := List.pairwise_insertionSort _ _
  have hmem : ∀ x, x ∈ ws ↔ x ∈ ms ∧ x.1 ≠ 1 := fun x => hperm.mem_iff.trans mem_proper
  have hwext : ∀ x ∈ ws, 1 < x.1 := fun x hx => by
    have := hpos x ((hmem x).mp hx).1
    have := ((hmem x).mp hx).2
    omega
  have hwpos : Pos ws := fun x hx => by have := hwext x hx; omega
  -- modes of extent 1 reach nothing, so the others fill the interval alone
  have hfw : Fills ws L :=
    (fills_perm hwpos hperm).mpr ((SameWalk.proper ms).fills_iff.mpr hf)
  have hch := chain_of_filling hwext (hfw.nonneg hwext) hsort hfw
  have h := hch.stride_eq_below hwext one_pos ((hmem m).mpr ⟨hm, by omega⟩)
  rwa [one_mul, below_perm hperm, below_proper] at h

/-! ### Remainders that add up -/

/-- The remainders of a sum's terms add up to the remainder of the sum, plus what is carried. -/
theorem exists_carry (xs : List ℤ) (hN : 0 < N) :
    ∃ k, 0 ≤ k ∧ (xs.map (· % N)).sum = xs.sum % N + N * k := by
  induction xs with
  | nil => exact ⟨0, le_rfl, by simp⟩
  | cons x xs ih =>
    obtain ⟨k, hk, hsum⟩ := ih
    have hx := Int.emod_nonneg x hN.ne'
    have hxs := Int.emod_nonneg xs.sum hN.ne'
    have hcarry := Int.emod_add_mul_ediv (x % N + xs.sum % N) N
    refine ⟨(x % N + xs.sum % N) / N + k, ?_, ?_⟩
    · exact add_nonneg (Int.ediv_nonneg (by omega) hN.le) hk
    · rw [List.map_cons, List.sum_cons, List.sum_cons, hsum, Int.add_emod]
      linarith [mul_add N ((x % N + xs.sum % N) / N) k]

/-- Remainders add up to at least the remainder of the sum. -/
theorem sum_emod_le (xs : List ℤ) (hN : 0 < N) : xs.sum % N ≤ (xs.map (· % N)).sum := by
  obtain ⟨k, hk, hsum⟩ := exists_carry xs hN
  rw [hsum]
  exact le_add_of_nonneg_right (mul_nonneg hN.le hk)

/-- They stay below the modulus exactly where there is no carry. -/
theorem sum_emod_lt_iff (xs : List ℤ) (hN : 0 < N) :
    (xs.map (· % N)).sum < N ↔ (xs.map (· % N)).sum = xs.sum % N := by
  obtain ⟨k, hk, hsum⟩ := exists_carry xs hN
  have h0 := Int.emod_nonneg xs.sum hN.ne'
  have h1 := Int.emod_lt_of_pos xs.sum hN
  rw [hsum]
  constructor
  · intro hlt
    have hk0 : k = 0 := by
      by_contra hne
      nlinarith [show 1 ≤ k by omega]
    rw [hk0, mul_zero, add_zero]
  · intro heq
    rw [heq]
    exact h1

/-- The digits of a coordinate, as the terms its offset is the sum of. -/
theorem exists_terms (hpos : Pos ms) (hnn : Nonneg ms) (hc : 0 ≤ c) :
    ∃ xs : List ℤ, (∀ x ∈ xs, 0 ≤ x) ∧
      ∀ F : ℤ → ℤ, sumDigits (fun m i => F (i * m.2)) ms c = (xs.map F).sum := by
  induction ms generalizing c with
  | nil => exact ⟨[], List.forall_mem_nil _, fun _ => rfl⟩
  | cons m ms ih =>
    obtain ⟨hm, hpos⟩ := pos_cons.mp hpos
    obtain ⟨hd, hnn⟩ := nonneg_cons.mp hnn
    obtain ⟨xs, hxs, hsum⟩ := ih hpos hnn (Int.ediv_nonneg hc hm.le)
    refine ⟨c % m.1 * m.2 :: xs, List.forall_mem_cons.mpr ⟨?_, hxs⟩, fun F => ?_⟩
    · exact mul_nonneg (Int.emod_nonneg c hm.ne') hd
    · rw [sumDigits_cons, hsum, List.map_cons, List.sum_cons]

end CudaOxide.Lib.Strided
