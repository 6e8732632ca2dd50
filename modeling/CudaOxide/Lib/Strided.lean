import Mathlib

namespace CudaOxide.Lib.Strided

open Finset

/-!
# Strided walks

A *mode* `(s, d)` is a coordinate `0 ≤ i < s` that contributes `i * d` to an offset.  A list
of modes is walked by one flat coordinate whose leftmost digit changes fastest: `eval ms c`
splits `c` into digits of radix `s₀, s₁, …` and adds up their contributions.

* `eval_append`, `eval_unit`, `eval_merge` — how the walk reads a concatenation, a mode of
  one cell, and two modes that continue each other.
* `sumDigits` — adding up any function of the digits; `eval_flatMap` reads the walk that
  replaces every mode by a walk of its own.
* `offsetsFrom` — the multiset of offsets a walk reaches.  It does not depend on the order of
  the modes (`offsetsFrom_perm`), and it decides injectivity (`injOn_iff`) and whether the
  walk fills an interval (`bijOn_iff`).
* `merged` — the same walk with one-cell modes dropped and continuing modes joined; nothing is
  left to merge (`separate_merged`).
* `Chain` — modes that continue one another; the walk of a chain is multiplication by its
  first stride (`eval_chain`).
* `eval_places` — the walk of a coordinate given by its digits.
-/

/-- The number of cells: the product of the extents. -/
def size : List (ℤ × ℤ) → ℤ
  | [] => 1
  | m :: ms => m.1 * size ms

/-- The offset at flat coordinate `c`, the leftmost digit changing fastest. -/
def eval : List (ℤ × ℤ) → ℤ → ℤ
  | [], _ => 0
  | m :: ms, c => c % m.1 * m.2 + eval ms (c / m.1)

/-- Every extent is positive. -/
def Pos (ms : List (ℤ × ℤ)) : Prop := ∀ m ∈ ms, 0 < m.1

/-- Every stride is nonnegative. -/
def Nonneg (ms : List (ℤ × ℤ)) : Prop := ∀ m ∈ ms, 0 ≤ m.2

instance (ms : List (ℤ × ℤ)) : Decidable (Pos ms) := inferInstanceAs (Decidable (∀ m ∈ ms, 0 < m.1))

instance (ms : List (ℤ × ℤ)) : Decidable (Nonneg ms) :=
  inferInstanceAs (Decidable (∀ m ∈ ms, 0 ≤ m.2))

variable {ms ms' xs ys : List (ℤ × ℤ)} {m : ℤ × ℤ} {c k p : ℤ}

@[simp] theorem size_nil : size [] = 1 := rfl
@[simp] theorem size_cons : size (m :: ms) = m.1 * size ms := rfl
@[simp] theorem eval_nil : eval [] c = 0 := rfl
@[simp] theorem eval_cons : eval (m :: ms) c = c % m.1 * m.2 + eval ms (c / m.1) := rfl

@[simp] theorem pos_nil : Pos [] := List.forall_mem_nil _

@[simp] theorem pos_cons : Pos (m :: ms) ↔ 0 < m.1 ∧ Pos ms := List.forall_mem_cons

@[simp] theorem pos_append : Pos (xs ++ ys) ↔ Pos xs ∧ Pos ys := List.forall_mem_append

@[simp] theorem nonneg_nil : Nonneg [] := List.forall_mem_nil _

@[simp] theorem nonneg_cons : Nonneg (m :: ms) ↔ 0 ≤ m.2 ∧ Nonneg ms := List.forall_mem_cons

@[simp] theorem nonneg_append : Nonneg (xs ++ ys) ↔ Nonneg xs ∧ Nonneg ys :=
  List.forall_mem_append

/-- A size splits over an append. -/
theorem size_append (xs ys : List (ℤ × ℤ)) : size (xs ++ ys) = size xs * size ys := by
  induction xs with
  | nil => simp
  | cons m xs ih => simp only [List.cons_append, size_cons, ih, mul_assoc]

/-- The size of zipped extents is their product. -/
theorem size_zip {ss ds : List ℤ} (h : ss.length = ds.length) : size (ss.zip ds) = ss.prod := by
  induction ss generalizing ds with
  | nil => rfl
  | cons s ss ih =>
    cases ds with
    | nil => exact absurd h (Nat.succ_ne_zero _)
    | cons d ds => simp [ih (Nat.succ.inj h)]

/-- The size is the product of the extents. -/
theorem size_eq_prod (ms : List (ℤ × ℤ)) : size ms = (ms.map Prod.fst).prod := by
  induction ms with
  | nil => rfl
  | cons m ms ih => rw [size_cons, List.map_cons, List.prod_cons, ih]

/-- The number of cells depends on the extents alone. -/
theorem size_congr (h : ms.map Prod.fst = ms'.map Prod.fst) : size ms = size ms' := by
  rw [size_eq_prod, size_eq_prod, h]

/-- A layout with positive extents is not empty. -/
theorem size_pos (h : Pos ms) : 0 < size ms := by
  induction ms with
  | nil => simp
  | cons m ms ih =>
    rw [pos_cons] at h
    exact mul_pos h.1 (ih h.2)

/-- The order of the modes does not change the size. -/
theorem size_perm (h : ms.Perm ms') : size ms = size ms' := by
  induction h with
  | nil => rfl
  | cons m _ ih => simp only [size_cons, ih]
  | swap m m' ms => simp only [size_cons]; ring
  | trans _ _ ih₁ ih₂ => exact ih₁.trans ih₂

/-! ### The digits of a flat coordinate -/

/-- The first coordinate has offset 0. -/
@[simp] theorem eval_zero (ms : List (ℤ × ℤ)) : eval ms 0 = 0 := by
  induction ms with
  | nil => rfl
  | cons m ms ih => simp [ih]

/-- The rest of a coordinate is in range of the remaining modes. -/
theorem ediv_lt_size (hm : 0 < m.1) (hc : c < size (m :: ms)) : c / m.1 < size ms :=
  Int.ediv_lt_of_lt_mul hm (by rw [mul_comm]; exact hc)

/-- Putting a digit in front of a coordinate is undone by taking it off. -/
theorem digit_cons {s i q : ℤ} (h0 : 0 ≤ i) (hi : i < s) :
    (i + s * q) % s = i ∧ (i + s * q) / s = q := by
  refine ⟨?_, ?_⟩
  · rw [Int.add_mul_emod_self_left, Int.emod_eq_of_lt h0 hi]
  · rw [Int.add_mul_ediv_left _ _ (by omega), Int.ediv_eq_zero_of_lt h0 hi, zero_add]

/-- The low digit of radix `s₀ * s` is a digit of radix `s₀` followed by one of radix `s`. -/
theorem emod_mul_digits {s₀ s : ℤ} (h₀ : 0 < s₀) (hs : 0 < s) (q : ℤ) :
    q % (s₀ * s) = q % s₀ + s₀ * (q / s₀ % s) := by
  have hlow : q = q % s₀ + s₀ * (q / s₀) := (Int.emod_add_mul_ediv q s₀).symm
  have hhigh : q / s₀ = q / s₀ % s + s * (q / s₀ / s) := (Int.emod_add_mul_ediv (q / s₀) s).symm
  have hq : q = (q % s₀ + s₀ * (q / s₀ % s)) + s₀ * s * (q / s₀ / s) := by
    calc q = q % s₀ + s₀ * (q / s₀) := hlow
      _ = q % s₀ + s₀ * (q / s₀ % s + s * (q / s₀ / s)) := by rw [← hhigh]
      _ = _ := by ring
  have h0 := Int.emod_nonneg q h₀.ne'
  have h1 := Int.emod_lt_of_pos q h₀
  have h2 := Int.emod_nonneg (q / s₀) hs.ne'
  have h3 := Int.emod_lt_of_pos (q / s₀) hs
  conv_lhs => rw [hq]
  exact (digit_cons (by positivity) (by nlinarith)).1

/-- The offsets of two layouts side by side are added. -/
theorem eval_append (hx : Pos xs) (ys : List (ℤ × ℤ)) (c : ℤ) :
    eval (xs ++ ys) c = eval xs c + eval ys (c / size xs) := by
  induction xs generalizing c with
  | nil => simp
  | cons m xs ih =>
    rw [pos_cons] at hx
    simp only [List.cons_append, eval_cons, size_cons, ih hx.2]
    rw [Int.ediv_ediv_of_nonneg hx.1.le, add_assoc]

/-- A walk only reads its coordinate modulo its size. -/
theorem eval_add_size_mul (h : Pos ms) (c k : ℤ) : eval ms (c + size ms * k) = eval ms c := by
  induction ms generalizing c with
  | nil => simp
  | cons m ms ih =>
    rw [pos_cons] at h
    have hsplit : c + size (m :: ms) * k = c + m.1 * (size ms * k) := by
      rw [size_cons]; ring
    simp only [eval_cons]
    rw [hsplit, Int.add_mul_emod_self_left, Int.add_mul_ediv_left _ _ h.1.ne', ih h.2]

/-- Coordinates past the size wrap around. -/
theorem eval_emod_size (h : Pos ms) (c : ℤ) : eval ms (c % size ms) = eval ms c := by
  conv_rhs => rw [← Int.emod_add_mul_ediv c (size ms), eval_add_size_mul h]

/-- A pair of coordinates is split between two layouts side by side. -/
theorem eval_append_pair (hx : Pos xs) (ys : List (ℤ × ℤ)) {i j : ℤ} (h0 : 0 ≤ i)
    (hi : i < size xs) : eval (xs ++ ys) (i + size xs * j) = eval xs i + eval ys j := by
  rw [eval_append hx, eval_add_size_mul hx, (digit_cons h0 hi).2]

/-- A mode of one cell contributes nothing. -/
theorem eval_unit (hx : Pos xs) (d : ℤ) : eval (xs ++ (1, d) :: ys) c = eval (xs ++ ys) c := by
  rw [eval_append hx, eval_append hx, eval_cons]
  simp

/-- Two modes continue each other when the second starts where the first ends. -/
theorem eval_merge (hx : Pos xs) {s₀ s d₀ : ℤ} (h₀ : 0 < s₀) (hs : 0 < s) :
    eval (xs ++ (s₀, d₀) :: (s, s₀ * d₀) :: ys) c = eval (xs ++ (s₀ * s, d₀) :: ys) c := by
  rw [eval_append hx, eval_append hx]
  simp only [eval_cons]
  rw [Int.ediv_ediv_of_nonneg h₀.le, emod_mul_digits h₀ hs]
  ring

/-- The stride of a one-cell mode does not matter. -/
theorem eval_nonneg_of_forward (hpos : Pos ms) (h : ∀ m ∈ ms, 1 < m.1 → 0 ≤ m.2) (hc : 0 ≤ c) :
    0 ≤ eval ms c := by
  induction ms generalizing c with
  | nil => simp
  | cons m ms ih =>
    obtain ⟨hm, hpos⟩ := pos_cons.mp hpos
    obtain ⟨hd, h⟩ := List.forall_mem_cons.mp h
    have hdig := Int.emod_nonneg c hm.ne'
    have hdig' := Int.emod_lt_of_pos c hm
    refine add_nonneg ?_ (ih hpos h (Int.ediv_nonneg hc hm.le))
    rcases hdig.eq_or_lt with hz | hz
    · rw [← hz, zero_mul]
    · exact mul_nonneg hdig (hd (by omega))

/-- Strides that are not negative give offsets that are not negative. -/
theorem eval_nonneg (hpos : Pos ms) (h : Nonneg ms) (hc : 0 ≤ c) : 0 ≤ eval ms c :=
  eval_nonneg_of_forward hpos (fun m hm _ => h m hm) hc

/-- With nonnegative strides the last coordinate reaches the greatest offset. -/
theorem eval_le_last (hpos : Pos ms) (h : Nonneg ms) (hc : c < size ms) :
    eval ms c ≤ eval ms (size ms - 1) := by
  induction ms generalizing c with
  | nil => simp
  | cons m ms ih =>
    rw [pos_cons] at hpos
    rw [nonneg_cons] at h
    have hlast : size (m :: ms) - 1 = (m.1 - 1) + m.1 * (size ms - 1) := by
      rw [size_cons]; ring
    obtain ⟨hmod, hdiv⟩ : _ ∧ _ := digit_cons (s := m.1) (i := m.1 - 1) (q := size ms - 1)
      (by have := hpos.1; omega) (by omega)
    simp only [eval_cons]
    rw [hlast, hmod, hdiv]
    have hdig : c % m.1 ≤ m.1 - 1 := by have := Int.emod_lt_of_pos c hpos.1; omega
    exact add_le_add (mul_le_mul_of_nonneg_right hdig h.1)
      (ih hpos.2 h.2 (ediv_lt_size hpos.1 hc))

/-! ### Sums over the digits of a coordinate -/

/-- Add up `f m i` over the modes `m` and their digits `i` of the flat coordinate `c`. -/
def sumDigits (f : ℤ × ℤ → ℤ → ℤ) : List (ℤ × ℤ) → ℤ → ℤ
  | [], _ => 0
  | m :: ms, c => f m (c % m.1) + sumDigits f ms (c / m.1)

variable {f g : ℤ × ℤ → ℤ → ℤ}

@[simp] theorem sumDigits_nil : sumDigits f [] c = 0 := rfl
@[simp] theorem sumDigits_cons :
    sumDigits f (m :: ms) c = f m (c % m.1) + sumDigits f ms (c / m.1) := rfl

/-- The digit sum of coordinate 0 is 0 when every digit function keeps 0. -/
theorem sumDigits_zero (hf : ∀ m, f m 0 = 0) (ms : List (ℤ × ℤ)) : sumDigits f ms 0 = 0 := by
  induction ms with
  | nil => rfl
  | cons m ms ih => simp [hf, ih]

/-- Replacing every mode by a walk of the same size replaces its contribution. -/
theorem eval_flatMap {G : ℤ × ℤ → List (ℤ × ℤ)}
    (hG : ∀ m ∈ ms, Pos (G m) ∧ size (G m) = m.1) (c : ℤ) :
    eval (ms.flatMap G) c = sumDigits (fun m i => eval (G m) i) ms c := by
  induction ms generalizing c with
  | nil => rfl
  | cons m ms ih =>
    obtain ⟨⟨hpos, hsize⟩, hG⟩ := List.forall_mem_cons.mp hG
    rw [List.flatMap_cons, eval_append hpos, ih hG, sumDigits_cons, ← eval_emod_size hpos c, hsize]

/-- Splitting every mode into modes of the same size keeps the size. -/
theorem size_flatMap {G : ℤ × ℤ → List (ℤ × ℤ)} (hG : ∀ m ∈ ms, size (G m) = m.1) :
    size (ms.flatMap G) = size ms := by
  induction ms with
  | nil => rfl
  | cons m ms ih =>
    obtain ⟨hm, hG⟩ := List.forall_mem_cons.mp hG
    rw [List.flatMap_cons, size_append, hm, ih hG, size_cons]

/-- With nonnegative strides no digit contributes more than the whole walk. -/
theorem sumDigits_congr (hpos : Pos ms) (hnn : Nonneg ms) (h0 : 0 ≤ c)
    (h : ∀ m ∈ ms, ∀ i, 0 ≤ i → i < m.1 → i * m.2 ≤ eval ms c → f m i = g m i) :
    sumDigits f ms c = sumDigits g ms c := by
  induction ms generalizing c with
  | nil => rfl
  | cons m ms ih =>
    obtain ⟨hm, hpos⟩ := pos_cons.mp hpos
    obtain ⟨hd, hnn⟩ := nonneg_cons.mp hnn
    obtain ⟨hhead, htail⟩ := List.forall_mem_cons.mp h
    have hdig := Int.emod_nonneg c hm.ne'
    have hq := Int.ediv_nonneg h0 hm.le
    have hrest : 0 ≤ eval ms (c / m.1) := eval_nonneg hpos hnn hq
    have hfirst : 0 ≤ c % m.1 * m.2 := mul_nonneg hdig hd
    rw [sumDigits_cons, sumDigits_cons]
    congr 1
    -- only digits that stay below the value count
    · exact hhead _ hdig (Int.emod_lt_of_pos c hm) (by rw [eval_cons]; omega)
    · refine ih hpos hnn hq fun m' hm' i hi hlt hle => htail m' hm' i hi hlt ?_
      rw [eval_cons]
      omega

/-- The coordinate whose only digit is `i`, in the mode `m`. -/
theorem exists_single_digit (hpos : Pos ms) (hm : m ∈ ms) {i : ℤ} (h0 : 0 ≤ i) (hi : i < m.1) :
    ∃ c, 0 ≤ c ∧ c < size ms ∧
      ∀ f : ℤ × ℤ → ℤ → ℤ, (∀ m, f m 0 = 0) → sumDigits f ms c = f m i := by
  induction ms with
  | nil => exact absurd hm List.not_mem_nil
  | cons x ms ih =>
    obtain ⟨hx, hpos⟩ := pos_cons.mp hpos
    have hsize := size_pos hpos
    rcases List.mem_cons.mp hm with rfl | hm
    · refine ⟨i, h0, by rw [size_cons]; nlinarith, fun f hf => ?_⟩
      rw [sumDigits_cons, Int.emod_eq_of_lt h0 hi, Int.ediv_eq_zero_of_lt h0 hi,
        sumDigits_zero hf, add_zero]
    · obtain ⟨c, hc0, hc, hsum⟩ := ih hpos hm
      refine ⟨x.1 * c, by positivity, by rw [size_cons]; nlinarith, fun f hf => ?_⟩
      rw [sumDigits_cons, Int.mul_emod_right, Int.mul_ediv_cancel_left _ hx.ne', hf, zero_add,
        hsum f hf]

/-- The offset is the sum of digit times stride. -/
theorem eval_eq_sumDigits (ms : List (ℤ × ℤ)) (c : ℤ) :
    eval ms c = sumDigits (fun m i => i * m.2) ms c := by
  induction ms generalizing c with
  | nil => rfl
  | cons m ms ih => rw [eval_cons, sumDigits_cons, ih]

/-! ### The offsets a walk reaches -/

/-- The offsets reached from base `x`, with multiplicity. -/
noncomputable def offsetsFrom : ℤ → List (ℤ × ℤ) → Multiset ℤ
  | x, [] => {x}
  | x, m :: ms => ∑ i ∈ Ico 0 m.1, offsetsFrom (x + i * m.2) ms

/-- Summing over a flat coordinate is summing over its low digit and the rest. -/
theorem sum_digit {M : Type*} [AddCommMonoid M] {s n : ℤ} (hs : 0 < s) (g : ℤ → ℤ → M) :
    ∑ c ∈ Ico 0 (s * n), g (c % s) (c / s) = ∑ i ∈ Ico 0 s, ∑ k ∈ Ico 0 n, g i k := by
  rw [← Finset.sum_product']
  refine Finset.sum_nbij' (fun c => (c % s, c / s)) (fun q => q.1 + s * q.2) ?_ ?_ ?_ ?_ ?_
  · intro c hc
    rw [mem_Ico] at hc
    simp only [mem_product, mem_Ico]
    exact ⟨⟨Int.emod_nonneg _ hs.ne', Int.emod_lt_of_pos _ hs⟩, Int.ediv_nonneg hc.1 hs.le,
      Int.ediv_lt_of_lt_mul hs (by linarith [mul_comm s n])⟩
  · rintro ⟨i, k⟩ hik
    simp only [mem_product, mem_Ico] at hik ⊢
    refine ⟨by nlinarith, ?_⟩
    -- the pair of digits is below the product of the extents
    calc i + s * k < s + s * k := by linarith
      _ = s * (k + 1) := by ring
      _ ≤ s * n := mul_le_mul_of_nonneg_left (by omega) hs.le
  · intro c _
    exact Int.emod_add_mul_ediv c s
  · rintro ⟨i, k⟩ hik
    simp only [mem_product, mem_Ico] at hik
    exact Prod.ext (digit_cons hik.1.1 hik.1.2).1 (digit_cons hik.1.1 hik.1.2).2
  · intro c _
    rfl

/-- The offsets that are listed are the offsets of the coordinates in range. -/
theorem offsetsFrom_eq (h : Pos ms) (x : ℤ) :
    offsetsFrom x ms = ∑ c ∈ Ico 0 (size ms), ({x + eval ms c} : Multiset ℤ) := by
  induction ms generalizing x with
  | nil => simp [offsetsFrom]
  | cons m ms ih =>
    rw [pos_cons] at h
    rw [offsetsFrom, size_cons]
    have hsum := sum_digit (n := size ms) h.1
      (fun i k => ({x + (i * m.2 + eval ms k)} : Multiset ℤ))
    simp only [eval_cons]
    rw [hsum]
    refine Finset.sum_congr rfl fun i _ => ?_
    rw [ih h.2]
    exact Finset.sum_congr rfl fun k _ => by rw [add_assoc]

/-- The offsets do not depend on the order in which the modes are walked. -/
theorem offsetsFrom_perm (h : ms.Perm ms') (x : ℤ) : offsetsFrom x ms = offsetsFrom x ms' := by
  induction h generalizing x with
  | nil => rfl
  | cons m _ ih => exact Finset.sum_congr rfl fun i _ => ih _
  | swap m m' ms =>
    simp only [offsetsFrom]
    rw [Finset.sum_comm]
    refine Finset.sum_congr rfl fun i _ => Finset.sum_congr rfl fun j _ => ?_
    rw [add_right_comm]
  | trans _ _ ih₁ ih₂ => exact (ih₁ x).trans (ih₂ x)

/-- A sum of singletons is the image of the index set. -/
theorem sum_singleton_eq_map {ι : Type*} (S : Finset ι) (f : ι → ℤ) :
    ∑ c ∈ S, ({f c} : Multiset ℤ) = S.val.map f := by
  have hmap : (S.val.map fun c => ({f c} : Multiset ℤ)) =
      (S.val.map f).map fun a => ({a} : Multiset ℤ) := (Multiset.map_map _ _ _).symm
  rw [Finset.sum, hmap, Multiset.sum_map_singleton]

/-- The listed offsets are the image of the evaluation. -/
theorem offsetsFrom_zero_eq_map (h : Pos ms) :
    offsetsFrom 0 ms = (Ico 0 (size ms)).val.map (eval ms) := by
  simp only [offsetsFrom_eq h, zero_add]
  exact sum_singleton_eq_map _ _

/-- An offset is listed exactly when a coordinate in range reaches it. -/
theorem mem_offsetsFrom_zero (h : Pos ms) {x : ℤ} :
    x ∈ offsetsFrom 0 ms ↔ ∃ c, 0 ≤ c ∧ c < size ms ∧ eval ms c = x := by
  rw [offsetsFrom_zero_eq_map h, Multiset.mem_map]
  simp only [Finset.mem_val, mem_Ico, and_assoc]

/-- A walk is injective exactly when it reaches no offset twice. -/
theorem injOn_iff (h : Pos ms) :
    Set.InjOn (eval ms) (Set.Ico 0 (size ms)) ↔ (offsetsFrom 0 ms).Nodup := by
  rw [offsetsFrom_zero_eq_map h, Multiset.nodup_map_iff_inj_on (Finset.nodup _)]
  simp only [Finset.mem_val, mem_Ico, Set.InjOn, Set.mem_Ico]

/-- A walk fills `[0, N)` without repetition exactly when its offsets are `[0, N)`. -/
theorem bijOn_iff (h : Pos ms) (N : ℤ) :
    Set.BijOn (eval ms) (Set.Ico 0 (size ms)) (Set.Ico 0 N) ↔
      offsetsFrom 0 ms = (Ico 0 N).val := by
  constructor
  · intro hb
    rw [Multiset.Nodup.ext ((injOn_iff h).mp hb.injOn) (Finset.nodup _)]
    intro x
    rw [mem_offsetsFrom_zero h, Finset.mem_val, mem_Ico]
    -- a value is reached exactly when it is the offset of a cell
    constructor
    · rintro ⟨c, h0, hc, rfl⟩
      exact hb.mapsTo ⟨h0, hc⟩
    · intro hx
      obtain ⟨c, hc, rfl⟩ := hb.surjOn hx
      exact ⟨c, hc.1, hc.2, rfl⟩
  · intro ho
    -- a list without repetition is the interval, so nothing is hit twice
    have hmem : ∀ x, x ∈ offsetsFrom 0 ms ↔ 0 ≤ x ∧ x < N := fun x => by
      rw [ho, Finset.mem_val, mem_Ico]
    refine ⟨fun c hc => ?_, (injOn_iff h).mpr (ho ▸ Finset.nodup _), fun x hx => ?_⟩
    · exact (hmem _).mp ((mem_offsetsFrom_zero h).mpr ⟨c, hc.1, hc.2, rfl⟩)
    · obtain ⟨c, h0, hc, rfl⟩ := (mem_offsetsFrom_zero h).mp ((hmem x).mpr hx)
      exact ⟨c, ⟨h0, hc⟩, rfl⟩

/-! ### Merging modes that continue each other -/

/-- Read `ms` onto `out` (last mode first): one-cell modes are dropped, and a mode that starts
where the last one ends extends it. -/
def mergeOnto : List (ℤ × ℤ) → List (ℤ × ℤ) → List (ℤ × ℤ)
  | out, [] => out.reverse
  | out, m :: ms =>
    if m.1 = 1 then mergeOnto out ms
    else match out with
      | [] => mergeOnto [m] ms
      | last :: rest =>
        if m.2 = last.1 * last.2 then mergeOnto ((last.1 * m.1, last.2) :: rest) ms
        else mergeOnto (m :: last :: rest) ms

/-- The same walk with fewer modes. -/
def merged (ms : List (ℤ × ℤ)) : List (ℤ × ℤ) := mergeOnto [] ms

/-- What holds of every mode, and of two modes that are merged, holds after merging. -/
theorem mergeOnto_forall {P : ℤ × ℤ → Prop} {out : List (ℤ × ℤ)}
    (hmerge : ∀ s₀ d₀ s, P (s₀, d₀) → P (s, s₀ * d₀) → P (s₀ * s, d₀))
    (hout : ∀ m ∈ out, P m) (hms : ∀ m ∈ ms, m.1 ≠ 1 → P m) : ∀ m ∈ mergeOnto out ms, P m := by
  induction ms generalizing out with
  | nil => simpa [mergeOnto] using hout
  | cons m ms ih =>
    obtain ⟨hm, hms⟩ := List.forall_mem_cons.mp hms
    unfold mergeOnto
    split
    · exact ih hout hms
    -- a mode of extent 1 is dropped, and the others join or follow the last one
    · have hm := hm ‹_›
      split
      · exact ih (by simpa using hm) hms
      · obtain ⟨hlast, hrest⟩ := List.forall_mem_cons.mp hout
        split
        · rename_i hcont
          refine ih (List.forall_mem_cons.mpr ⟨?_, hrest⟩) hms
          exact hmerge _ _ _ hlast (by rw [← hcont]; exact hm)
        · exact ih (List.forall_mem_cons.mpr ⟨hm, hout⟩) hms

/-- A property of modes that merging keeps holds of the merged modes. -/
theorem merged_forall {P : ℤ × ℤ → Prop}
    (hmerge : ∀ s₀ d₀ s, P (s₀, d₀) → P (s, s₀ * d₀) → P (s₀ * s, d₀))
    (hms : ∀ m ∈ ms, m.1 ≠ 1 → P m) : ∀ m ∈ merged ms, P m :=
  mergeOnto_forall hmerge (List.forall_mem_nil _) hms

/-- No mode of extent 1 survives merging. -/
theorem merged_one_lt (h : Pos ms) : ∀ m ∈ merged ms, 1 < m.1 :=
  merged_forall (fun s₀ _ s h₀ hs => by
      have h₀ : 1 < s₀ := h₀
      have hs : 1 < s := hs
      show 1 < s₀ * s
      nlinarith)
    (fun m hm hne => by have := h m hm; omega)

/-- Merging keeps positive extents. -/
theorem merged_pos (h : Pos ms) : Pos (merged ms) := fun m hm => by
  have := merged_one_lt h m hm
  omega

/-- Merging keeps strides that are not negative. -/
theorem merged_nonneg (h : Nonneg ms) : Nonneg (merged ms) :=
  merged_forall (fun _ _ _ h₀ _ => h₀) (fun m hm _ => h m hm)

/-- One-cell modes in front are dropped. -/
theorem merged_append_units {us : List (ℤ × ℤ)} (hus : ∀ u ∈ us, u.1 = 1) (ms : List (ℤ × ℤ)) :
    merged (us ++ ms) = merged ms := by
  induction us with
  | nil => rfl
  | cons u us ih =>
    obtain ⟨hu, hus⟩ := List.forall_mem_cons.mp hus
    rw [← ih hus, List.cons_append, merged, merged, mergeOnto, if_pos hu]

/-- A one-cell mode at the end is dropped. -/
theorem mergeOnto_concat_unit (out ms : List (ℤ × ℤ)) (d : ℤ) :
    mergeOnto out (ms ++ [(1, d)]) = mergeOnto out ms := by
  induction ms generalizing out with
  | nil => simp [mergeOnto]
  | cons m ms ih =>
    rw [List.cons_append]
    cases out with
    | nil => simp only [mergeOnto, ih]
    | cons last rest => simp only [mergeOnto, ih]

/-- A unit mode at the end is dropped. -/
theorem merged_concat_unit (ms : List (ℤ × ℤ)) (d : ℤ) :
    merged (ms ++ [(1, d)]) = merged ms := mergeOnto_concat_unit [] ms d

/-- Merging changes neither the size nor the walk. -/
theorem mergeOnto_spec {out : List (ℤ × ℤ)} (hout : Pos out) (hms : Pos ms) :
    size (mergeOnto out ms) = size (out.reverse ++ ms) ∧
      ∀ c, eval (mergeOnto out ms) c = eval (out.reverse ++ ms) c := by
  induction ms generalizing out with
  | nil => simp [mergeOnto]
  | cons m ms ih =>
    obtain ⟨hm, hms⟩ := pos_cons.mp hms
    have hrev : Pos out.reverse := fun x hx => hout x (List.mem_reverse.mp hx)
    unfold mergeOnto
    split
    · -- a one-cell mode
      have hone : m = (1, m.2) := Prod.ext ‹_› rfl
      obtain ⟨hsize, heval⟩ := ih hout hms
      refine ⟨?_, fun c => ?_⟩
      · rw [hsize, size_append, size_append, size_cons, ‹m.1 = 1›, one_mul]
      · rw [heval, hone, eval_unit hrev]
    · split
      · have hout : Pos [m] := pos_cons.mpr ⟨hm, pos_nil⟩
        simpa using ih hout hms
      · rename_i last rest
        obtain ⟨hlast, hrest⟩ := pos_cons.mp hout
        have hrev' : Pos rest.reverse := fun x hx => hrest x (List.mem_reverse.mp hx)
        split
        · have hout : Pos ((last.1 * m.1, last.2) :: rest) :=
            pos_cons.mpr ⟨mul_pos hlast hm, hrest⟩
          obtain ⟨hsize, heval⟩ := ih hout hms
          -- the mode continues the last one, which is to count through both
          have hmode : m = (m.1, last.1 * last.2) := Prod.ext rfl ‹_›
          refine ⟨?_, fun c => ?_⟩
          · rw [hsize]
            simp only [List.reverse_cons, List.append_assoc, size_append, size_cons,
              List.singleton_append]
            ring
          · rw [heval, hmode]
            simp only [List.reverse_cons, List.append_assoc, List.singleton_append]
            exact (eval_merge hrev' hlast hm).symm
        · have hout : Pos (m :: last :: rest) := pos_cons.mpr ⟨hm, hout⟩
          simpa using ih hout hms

/-- Merging keeps the size. -/
@[simp] theorem size_merged (h : Pos ms) : size (merged ms) = size ms :=
  (mergeOnto_spec pos_nil h).1

/-- Merging keeps the function. -/
@[simp] theorem eval_merged (h : Pos ms) (c : ℤ) : eval (merged ms) c = eval ms c :=
  (mergeOnto_spec pos_nil h).2 c

/-! ### Modes that cannot be merged -/

/-- The mode `m'` starts where `m` ends. -/
def Continues (m m' : ℤ × ℤ) : Prop := m'.2 = m.1 * m.2

/-- No mode has one cell, and none continues the one before it. -/
structure Separate (ms : List (ℤ × ℤ)) : Prop where
  ext : ∀ m ∈ ms, m.1 ≠ 1
  apart : ms.IsChain fun m m' => ¬Continues m m'

/-- A mode that extends the last one keeps the stride of the last one, so it stays apart from the
mode before it. -/
theorem mergeOnto_apart {out : List (ℤ × ℤ)} (hout : out.IsChain fun m m' => ¬Continues m' m)
    (ms : List (ℤ × ℤ)) : (mergeOnto out ms).IsChain fun m m' => ¬Continues m m' := by
  induction ms generalizing out with
  | nil => exact List.isChain_reverse.mpr hout
  | cons m ms ih =>
    unfold mergeOnto
    split
    · exact ih hout
    · split
      · exact ih (List.isChain_singleton _)
      · rename_i last rest
        split
        · -- only the extent of the last mode grows
          refine ih (List.isChain_cons.mpr ?_)
          obtain ⟨hlast, hrest⟩ := List.isChain_cons.mp hout
          exact ⟨hlast, hrest⟩
        · exact ih (List.isChain_cons_cons.mpr ⟨‹_›, hout⟩)

/-- Neighbours that are left after merging do not merge. -/
theorem separate_merged (h : Pos ms) : Separate (merged ms) where
  ext m hm := by
    have := merged_one_lt h m hm
    omega
  apart := mergeOnto_apart List.isChain_nil ms

/-- Modes that cannot be merged are left as they are. -/
theorem mergeOnto_of_apart {out : List (ℤ × ℤ)} (hext : ∀ m ∈ ms, m.1 ≠ 1)
    (hapart : (out.reverse ++ ms).IsChain fun m m' => ¬Continues m m') :
    mergeOnto out ms = out.reverse ++ ms := by
  induction ms generalizing out with
  | nil => simp [mergeOnto]
  | cons m ms ih =>
    obtain ⟨hm, hext⟩ := List.forall_mem_cons.mp hext
    cases out with
    | nil =>
      rw [mergeOnto, if_neg hm, ih hext (by simpa using hapart)]
      simp
    | cons last rest =>
      -- two modes that do not continue each other stay apart
      have hne : ¬m.2 = last.1 * last.2 := by
        rw [List.reverse_cons, List.append_assoc] at hapart
        exact (List.isChain_append_cons_cons.mp hapart).2.1
      rw [mergeOnto, if_neg hm]
      show (if m.2 = last.1 * last.2 then _ else _) = _
      rw [if_neg hne, ih hext (by simpa using hapart)]
      simp

/-- Nothing happens to a layout whose neighbours do not merge. -/
theorem merged_of_separate (h : Separate ms) : merged ms = ms :=
  mergeOnto_of_apart h.ext h.apart

/-- Merging is idempotent. -/
@[simp] theorem merged_merged (h : Pos ms) : merged (merged ms) = merged ms :=
  merged_of_separate (separate_merged h)

/-! ### Chains -/

/-- Each mode starts where the one before it ends; the first stride is `p`. -/
def Chain : ℤ → List (ℤ × ℤ) → Prop
  | _, [] => True
  | p, m :: ms => m.2 = p ∧ Chain (m.1 * p) ms

@[simp] theorem chain_nil : Chain p [] := trivial
@[simp] theorem chain_cons : Chain p (m :: ms) ↔ m.2 = p ∧ Chain (m.1 * p) ms := Iff.rfl

/-- A chain splits over an append at the product of its first part. -/
theorem chain_append : Chain p (xs ++ ys) ↔ Chain p xs ∧ Chain (size xs * p) ys := by
  induction xs generalizing p with
  | nil => simp
  | cons m xs ih =>
    simp only [List.cons_append, chain_cons, ih, size_cons, and_assoc]
    rw [show size xs * (m.1 * p) = m.1 * size xs * p by ring]

/-- The walk of a chain is multiplication by its first stride. -/
theorem eval_chain (h : Pos ms) (hch : Chain p ms) (h0 : 0 ≤ c) (hc : c < size ms) :
    eval ms c = c * p := by
  induction ms generalizing c p with
  | nil =>
    have : c = 0 := by rw [size_nil] at hc; omega
    simp [this]
  | cons m ms ih =>
    rw [pos_cons] at h
    obtain ⟨hm, hch⟩ := hch
    rw [eval_cons, ih h.2 hch (Int.ediv_nonneg h0 h.1.le) (ediv_lt_size h.1 hc), hm]
    conv_rhs => rw [← Int.emod_add_mul_ediv c m.1]
    ring

/-- A chain from stride one fills the interval of its size. -/
theorem offsetsFrom_chain (h : Pos ms) (hch : Chain 1 ms) :
    offsetsFrom 0 ms = (Ico 0 (size ms)).val := by
  refine (bijOn_iff h _).mp (Set.BijOn.congr (Set.bijOn_id _) fun c hc => ?_)
  rw [eval_chain h hch hc.1 hc.2, mul_one, id]

/-- The running products `p, p * s₀, p * s₀ * s₁, …` before each extent. -/
def prefixProducts : ℤ → List ℤ → List ℤ
  | _, [] => []
  | p, s :: ss => p :: prefixProducts (p * s) ss

/-- There is one prefix product for each extent. -/
@[simp] theorem length_prefixProducts (p : ℤ) (ss : List ℤ) :
    (prefixProducts p ss).length = ss.length := by
  induction ss generalizing p with
  | nil => rfl
  | cons s ss ih => simp [prefixProducts, ih]

/-- Extents with their prefix products form a chain. -/
theorem chain_zip_prefixProducts (p : ℤ) (ss : List ℤ) :
    Chain p (ss.zip (prefixProducts p ss)) := by
  induction ss generalizing p with
  | nil => trivial
  | cons s ss ih =>
    rw [prefixProducts, List.zip_cons_cons, chain_cons, mul_comm s p]
    exact ⟨rfl, ih _⟩

/-! ### Coordinates given by their digits -/

/-- Every mode as `(stride, extent, place)`, where the place is the number of cells before it,
counted from `p`. -/
def places : ℤ → List (ℤ × ℤ) → List (ℤ × ℤ × ℤ)
  | _, [] => []
  | p, m :: ms => (m.2, m.1, p) :: places (p * m.1) ms

/-- Places keep the modes, in order. -/
theorem map_places (p : ℤ) (ms : List (ℤ × ℤ)) :
    (places p ms).map (fun e => (e.2.1, e.1)) = ms := by
  induction ms generalizing p with
  | nil => rfl
  | cons m ms ih => rw [places, List.map_cons, ih]

/-- Every place is at least the one that the walk starts with. -/
theorem le_place (hp : 0 < p) (h : ∀ m ∈ ms, 1 < m.1) : ∀ e ∈ places p ms, p ≤ e.2.2 := by
  induction ms generalizing p with
  | nil => exact List.forall_mem_nil _
  | cons m ms ih =>
    obtain ⟨hm, h⟩ := List.forall_mem_cons.mp h
    refine List.forall_mem_cons.mpr ⟨le_rfl, fun e he => ?_⟩
    have := ih (mul_pos hp (by omega)) h e he
    nlinarith

/-- No two modes of more than one cell have the same place. -/
theorem nodup_places (hp : 0 < p) (h : ∀ m ∈ ms, 1 < m.1) : (places p ms).Nodup := by
  induction ms generalizing p with
  | nil => exact List.nodup_nil
  | cons m ms ih =>
    obtain ⟨hm, h⟩ := List.forall_mem_cons.mp h
    have hpm : 0 < p * m.1 := mul_pos hp (by omega)
    refine List.nodup_cons.mpr ⟨fun hmem => ?_, ih hpm h⟩
    have : p * m.1 ≤ p := le_place hpm h _ hmem
    nlinarith

/-- A coordinate written by a digit for each place is read back digit by digit. -/
theorem eval_places (h : Pos ms) (δ : ℤ × ℤ × ℤ → ℤ)
    (hδ : ∀ e ∈ places p ms, 0 ≤ δ e ∧ δ e < e.2.1) :
    ∃ x, 0 ≤ x ∧ x < size ms ∧ ((places p ms).map fun e => δ e * e.2.2).sum = p * x ∧
      eval ms x = ((places p ms).map fun e => δ e * e.1).sum := by
  induction ms generalizing p with
  | nil => exact ⟨0, by simp [places]⟩
  | cons m ms ih =>
    rw [pos_cons] at h
    simp only [places, List.forall_mem_cons] at hδ
    obtain ⟨x, hx0, hx, hsum, heval⟩ := ih h.2 hδ.2
    set i := δ (m.2, m.1, p) with hi
    obtain ⟨hmod, hdiv⟩ := digit_cons (q := x) hδ.1.1 hδ.1.2
    refine ⟨i + m.1 * x, ?_, ?_, ?_, ?_⟩
    -- the digit of this mode, and the number of the others behind it
    · have := mul_nonneg h.1.le hx0
      omega
    · calc i + m.1 * x < m.1 + m.1 * x := by linarith [hδ.1.2]
        _ = m.1 * (x + 1) := by ring
        _ ≤ size (m :: ms) := mul_le_mul_of_nonneg_left (by omega) h.1.le
    · simp only [places, List.map_cons, List.sum_cons, hsum, ← hi]
      ring
    · simp only [places, List.map_cons, List.sum_cons, eval_cons, hmod, hdiv, heval, ← hi]

/-- The digit of `x` at the place `e`, when `x` is walked through the places `es`. -/
def digitAt : List (ℤ × ℤ × ℤ) → ℤ → ℤ × ℤ × ℤ → ℤ
  | [], _, _ => 0
  | e' :: es, x, e => if e = e' then x % e'.2.1 else digitAt es (x / e'.2.1) e

/-- An entry that is not listed has digit 0. -/
theorem digitAt_of_not_mem {es : List (ℤ × ℤ × ℤ)} {e : ℤ × ℤ × ℤ} (h : e ∉ es) (x : ℤ) :
    digitAt es x e = 0 := by
  induction es generalizing x with
  | nil => rfl
  | cons e' es ih =>
    rw [List.mem_cons, not_or] at h
    rw [digitAt, if_neg h.1, ih h.2]

/-- A digit is between 0 and its extent. -/
theorem digitAt_range {es : List (ℤ × ℤ × ℤ)} (hes : ∀ e ∈ es, 0 < e.2.1) {e : ℤ × ℤ × ℤ}
    (he : 0 < e.2.1) (x : ℤ) : 0 ≤ digitAt es x e ∧ digitAt es x e < e.2.1 := by
  induction es generalizing x with
  | nil => exact ⟨le_rfl, he⟩
  | cons e' es ih =>
    obtain ⟨he', hes⟩ := List.forall_mem_cons.mp hes
    rw [digitAt]
    split
    · rename_i heq
      subst heq
      exact ⟨Int.emod_nonneg x he.ne', Int.emod_lt_of_pos x he⟩
    · exact ih hes _

/-- Weighting the digits of `x` at distinct places is a walk. -/
theorem sum_digitAt {es : List (ℤ × ℤ × ℤ)} (hes : es.Nodup) (w : ℤ × ℤ × ℤ → ℤ) (x : ℤ) :
    (es.map fun e => digitAt es x e * w e).sum = eval (es.map fun e => (e.2.1, w e)) x := by
  induction es generalizing x with
  | nil => rfl
  | cons e es ih =>
    obtain ⟨he, hes⟩ := List.nodup_cons.mp hes
    rw [List.map_cons, List.sum_cons, List.map_cons, eval_cons, ← ih hes, digitAt, if_pos rfl]
    congr 2
    refine List.map_congr_left fun e' he' => ?_
    have hne : e' ≠ e := fun heq => he (heq ▸ he')
    rw [digitAt, if_neg hne]

end CudaOxide.Lib.Strided
