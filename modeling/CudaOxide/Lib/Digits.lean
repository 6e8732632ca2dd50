import Mathlib

namespace CudaOxide.Lib.Digits

/-!
# Numbers written in two digits

A pair of a high and a low digit is one number, `high * base + low`.

* `pack_lt`, `pack_inj` — the number stays below the product of the extents and determines both
  digits.
* `bijOn_of_injOn` — a numbering of a box that stays below the number of places fills it.
* `raggedCrd`, `raggedIdx` — a grid of `rows × cols` places, numbered group by group of `width`
  rows, the columns of a group one after the other; the last group may be shorter.
* `raggedCrd_bijOn` — the numbering visits every place once.
-/

/-! ### Two digits -/

section Pack

variable {i j i' j' a b : ℕ}

/-- A pair of digits is below the number of pairs. -/
theorem pack_lt (hi : i < a) (hj : j < b) : i * b + j < a * b :=
  calc i * b + j < (i + 1) * b := by
        rw [Nat.add_mul]
        omega
    _ ≤ a * b := Nat.mul_le_mul_right b hi

/-- Different pairs are different numbers. -/
theorem pack_inj (hj : j < b) (hj' : j' < b) (h : i * b + j = i' * b + j') : i = i' ∧ j = j' := by
  have hpos : 0 < b := by omega
  have hdigits : ∀ {x y : ℕ}, y < b → (x * b + y) / b = x ∧ (x * b + y) % b = y := by
    intro x y hy
    constructor
    · rw [Nat.mul_comm, Nat.mul_add_div hpos, Nat.div_eq_of_lt hy, Nat.add_zero]
    · rw [Nat.mul_comm, Nat.mul_add_mod, Nat.mod_eq_of_lt hy]
  obtain ⟨hhigh, hlow⟩ := hdigits (x := i) hj
  obtain ⟨hhigh', hlow'⟩ := hdigits (x := i') hj'
  rw [h] at hhigh hlow
  exact ⟨hhigh.symm.trans hhigh', hlow.symm.trans hlow'⟩

/-- The high and the low digit of a number. -/
theorem pack_div (hj : j < b) : (i * b + j) / b = i := by
  rw [Nat.mul_comm, Nat.mul_add_div (by omega), Nat.div_eq_of_lt hj, Nat.add_zero]

/-- The low digit. -/
theorem pack_mod (hj : j < b) : (i * b + j) % b = j := by
  rw [Nat.mul_comm, Nat.mul_add_mod, Nat.mod_eq_of_lt hj]

/-- An injective numbering of a box leaves no number out. -/
theorem bijOn_of_injOn {f : ℕ × ℕ × ℕ → ℕ} {a b c n : ℕ} (hn : a * (b * c) = n)
    (hmaps : Set.MapsTo f (Set.Iio a ×ˢ Set.Iio b ×ˢ Set.Iio c) (Set.Iio n))
    (hinj : Set.InjOn f (Set.Iio a ×ˢ Set.Iio b ×ˢ Set.Iio c)) :
    Set.BijOn f (Set.Iio a ×ˢ Set.Iio b ×ˢ Set.Iio c) (Set.Iio n) := by
  refine ⟨hmaps, hinj, ?_⟩
  have hbox : (Set.Iio a ×ˢ Set.Iio b ×ˢ Set.Iio c : Set (ℕ × ℕ × ℕ)) =
      (Finset.range a ×ˢ Finset.range b ×ˢ Finset.range c : Finset (ℕ × ℕ × ℕ)) := by
    simp only [Finset.coe_product, Finset.coe_range]
  have htarget : Set.Iio n = (Finset.range n : Set ℕ) := (Finset.coe_range n).symm
  rw [hbox] at hinj
  rw [hbox, htarget] at hmaps ⊢
  refine Finset.surjOn_of_injOn_of_card_le f hmaps hinj ?_
  simp only [Finset.card_product, Finset.card_range, hn, le_refl]

/-- Two numberings, one for each digit. -/
theorem bijOn_digits {α β : Type*} {f : ℕ → α} {g : ℕ → β} {a b : ℕ} {s : Set α} {t : Set β}
    (hf : Set.BijOn f (Set.Iio a) s) (hg : Set.BijOn g (Set.Iio b) t) :
    Set.BijOn (fun n => (f (n / b), g (n % b))) (Set.Iio (a * b)) (s ×ˢ t) := by
  have hdigits : ∀ n < a * b, n / b < a ∧ n % b < b := by
    intro n hn
    have hb : 0 < b := Nat.pos_of_ne_zero fun h => by simp [h] at hn
    exact ⟨(Nat.div_lt_iff_lt_mul hb).mpr hn, Nat.mod_lt n hb⟩
  refine ⟨fun n hn => ?_, fun n hn n' hn' heq => ?_, ?_⟩
  · obtain ⟨hhigh, hlow⟩ := hdigits n hn
    exact ⟨hf.mapsTo hhigh, hg.mapsTo hlow⟩
  · obtain ⟨hhigh, hlow⟩ := hdigits n hn
    obtain ⟨hhigh', hlow'⟩ := hdigits n' hn'
    obtain ⟨hf_eq, hg_eq⟩ := Prod.mk.inj heq
    rw [← Nat.div_add_mod' n b, ← Nat.div_add_mod' n' b, hf.injOn hhigh hhigh' hf_eq,
      hg.injOn hlow hlow' hg_eq]
  · rintro ⟨x, y⟩ ⟨hx, hy⟩
    obtain ⟨i, hi, rfl⟩ := hf.surjOn hx
    obtain ⟨j, hj, rfl⟩ := hg.surjOn hy
    refine ⟨i * b + j, pack_lt hi hj, ?_⟩
    simp only [pack_div hj, pack_mod hj]

end Pack

/-! ### Groups of rows -/

section Ragged

/-- The rows of the group that starts at `first`. -/
def groupRows (width rows first : ℕ) : ℕ := min width (rows - first)

/-- The place of the number `idx`. -/
def raggedCrd (width rows cols idx : ℕ) : ℕ × ℕ :=
  let first := idx / (width * cols) * width
  let rest := idx % (width * cols)
  (first + rest % groupRows width rows first, rest / groupRows width rows first)

/-- The number of a place. -/
def raggedIdx (width rows cols : ℕ) (crd : ℕ × ℕ) : ℕ :=
  let first := crd.1 / width * width
  first * cols + (crd.2 * groupRows width rows first + crd.1 % width)

variable {width rows cols idx row col : ℕ}

/-- The group of a number starts below the last row, and its rest fits into the group. -/
theorem ragged_rest (hw : 0 < width) (hc : 0 < cols) (hidx : idx < rows * cols) :
    idx / (width * cols) * width < rows ∧
      idx % (width * cols) < cols * groupRows width rows (idx / (width * cols) * width) := by
  set first := idx / (width * cols) * width with hfirst
  have hsplit : first * cols + idx % (width * cols) = idx := by
    rw [hfirst, Nat.mul_assoc, Nat.div_add_mod']
  have hlt : first < rows := by
    refine Nat.lt_of_mul_lt_mul_right (a := cols) ?_
    omega
  refine ⟨hlt, ?_⟩
  have hmod : idx % (width * cols) < width * cols := Nat.mod_lt _ (Nat.mul_pos hw hc)
  -- the group is full, or it ends with the grid
  rcases Nat.le_total width (rows - first) with hfull | hragged
  · rw [groupRows, min_eq_left hfull, Nat.mul_comm cols]
    exact hmod
  · rw [groupRows, min_eq_right hragged, Nat.mul_comm cols, Nat.sub_mul]
    omega

/-- A group of rows is not empty. -/
theorem groupRows_pos {first : ℕ} (hw : 0 < width) (hfirst : first < rows) :
    0 < groupRows width rows first := by
  unfold groupRows
  omega

/-- The coordinate of an index has that index. -/
theorem raggedIdx_raggedCrd (hw : 0 < width) (hc : 0 < cols) (hidx : idx < rows * cols) :
    raggedIdx width rows cols (raggedCrd width rows cols idx) = idx := by
  obtain ⟨hfirst, -⟩ := ragged_rest hw hc hidx
  set n := groupRows width rows (idx / (width * cols) * width) with hn
  have hnpos : 0 < n := groupRows_pos hw hfirst
  have hlow : idx % (width * cols) % n < width :=
    lt_of_lt_of_le (Nat.mod_lt _ hnpos) (min_le_left _ _)
  have hdiv : (raggedCrd width rows cols idx).1 / width = idx / (width * cols) := by
    show (idx / (width * cols) * width + idx % (width * cols) % n) / width = _
    rw [Nat.mul_comm, Nat.mul_add_div hw, Nat.div_eq_of_lt hlow, Nat.add_zero]
  have hmod : (raggedCrd width rows cols idx).1 % width = idx % (width * cols) % n := by
    show (idx / (width * cols) * width + idx % (width * cols) % n) % width = _
    rw [Nat.mul_comm, Nat.mul_add_mod, Nat.mod_eq_of_lt hlow]
  have hcol : (raggedCrd width rows cols idx).2 = idx % (width * cols) / n := rfl
  rw [raggedIdx, hdiv, hmod, hcol, ← hn, Nat.div_add_mod', Nat.mul_assoc, Nat.div_add_mod']

/-- A coordinate in range has an index in range, and is its coordinate. -/
theorem raggedCrd_raggedIdx (hw : 0 < width) (hrow : row < rows) (hcol : col < cols) :
    raggedIdx width rows cols (row, col) < rows * cols ∧
      raggedCrd width rows cols (raggedIdx width rows cols (row, col)) = (row, col) := by
  set first := row / width * width with hfirst
  set n := groupRows width rows first with hn
  have hrowSplit : first + row % width = row := by rw [hfirst, Nat.div_add_mod']
  have hlow : row % width < n := by
    have hmod := Nat.mod_lt row hw
    rw [hn, groupRows]
    omega
  have hrest : col * n + row % width < cols * n := pack_lt hcol hlow
  have hwidth : cols * n ≤ width * cols := by
    rw [Nat.mul_comm width]
    exact Nat.mul_le_mul_left _ (min_le_left _ _)
  have hsmall : col * n + row % width < width * cols := lt_of_lt_of_le hrest hwidth
  have hidx : raggedIdx width rows cols (row, col) =
      row / width * (width * cols) + (col * n + row % width) := by
    rw [raggedIdx, ← Nat.mul_assoc]
  have hcount : first * cols + n * cols ≤ rows * cols := by
    rw [← Nat.add_mul]
    refine Nat.mul_le_mul_right _ ?_
    have hle : n ≤ rows - first := min_le_right _ _
    omega
  have hgroup : raggedIdx width rows cols (row, col) / (width * cols) = row / width := by
    rw [hidx, Nat.mul_comm (row / width), Nat.mul_add_div (by omega), Nat.div_eq_of_lt hsmall,
      Nat.add_zero]
  have hmod : raggedIdx width rows cols (row, col) % (width * cols) = col * n + row % width := by
    rw [hidx, Nat.mul_comm (row / width), Nat.mul_add_mod, Nat.mod_eq_of_lt hsmall]
  constructor
  · rw [Nat.mul_comm cols] at hrest
    show first * cols + (col * n + row % width) < rows * cols
    omega
  · rw [raggedCrd, hgroup, hmod, ← hfirst, ← hn, Nat.mul_comm col, Nat.mul_add_mod,
      Nat.mul_add_div (by omega), Nat.mod_eq_of_lt hlow, Nat.div_eq_of_lt hlow, Nat.add_zero,
      hrowSplit]

/-- An index in range has a coordinate in range. -/
theorem raggedCrd_mem (hw : 0 < width) (hc : 0 < cols) (hidx : idx < rows * cols) :
    raggedCrd width rows cols idx ∈ Set.Iio rows ×ˢ Set.Iio cols := by
  obtain ⟨hfirst, hrest⟩ := ragged_rest hw hc hidx
  have hnpos := groupRows_pos hw hfirst
  constructor
  · have hmod := Nat.mod_lt (idx % (width * cols)) hnpos
    have hle : groupRows width rows (idx / (width * cols) * width) ≤
        rows - idx / (width * cols) * width := min_le_right _ _
    show idx / (width * cols) * width + _ < rows
    omega
  · exact (Nat.div_lt_iff_lt_mul hnpos).mpr hrest

/-- **A ragged numbering visits every place once.** -/
theorem raggedCrd_bijOn (hw : 0 < width) (hc : 0 < cols) :
    Set.BijOn (raggedCrd width rows cols) (Set.Iio (rows * cols))
      (Set.Iio rows ×ˢ Set.Iio cols) := by
  have hinv : Set.InvOn (raggedIdx width rows cols) (raggedCrd width rows cols)
      (Set.Iio (rows * cols)) (Set.Iio rows ×ˢ Set.Iio cols) := by
    constructor
    · intro idx hidx
      exact raggedIdx_raggedCrd hw hc hidx
    · rintro ⟨row, col⟩ ⟨hrow, hcol⟩
      exact (raggedCrd_raggedIdx hw hrow hcol).2
  refine hinv.bijOn ?_ ?_
  · intro idx hidx
    exact raggedCrd_mem hw hc hidx
  · rintro ⟨row, col⟩ ⟨hrow, hcol⟩
    exact (raggedCrd_raggedIdx hw hrow hcol).1

end Ragged

end CudaOxide.Lib.Digits
