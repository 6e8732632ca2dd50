import Mathlib.Algebra.Order.Ring.Int
import Mathlib.Data.Int.Order.Lemmas
import Mathlib.Data.Set.Monotone
import Mathlib.Order.Interval.Set.Basic

/-!
# Corners of a box

A function of two arguments that goes one way along every row and every column of a box takes its
extremes at the four corners.

* `OneWay` — along every row and every column the function is monotone or antitone.
* `OneWay.mem_corners` — its values over the box lie between the least and the greatest corner.
* `oneWay_add`, `oneWay_mul`, … — the operators for which it holds.
-/

namespace CudaOxide.Lib

section OneWay

variable {α β γ δ : Type*} [LinearOrder α] [LinearOrder β] [LinearOrder γ] [LinearOrder δ]
  {f : α → β → γ} {s : Set α} {t : Set β}

/-- `f` goes one way along every row of `s × t`, and along every column. -/
structure OneWay (f : α → β → γ) (s : Set α) (t : Set β) : Prop where
  row : ∀ y ∈ t, MonotoneOn (fun x => f x y) s ∨ AntitoneOn (fun x => f x y) s
  column : ∀ x ∈ s, MonotoneOn (f x) t ∨ AntitoneOn (f x) t

/-- The least of the four corners. -/
def cornerMin (f : α → β → γ) (a a' : α) (b b' : β) : γ :=
  min (min (f a b) (f a b')) (min (f a' b) (f a' b'))

/-- The greatest of them. -/
def cornerMax (f : α → β → γ) (a a' : α) (b b' : β) : γ :=
  max (max (f a b) (f a b')) (max (f a' b) (f a' b'))

/-- On a segment, such a function stays between its values at the ends. -/
theorem mem_ends {g : α → γ} {a a' x : α}
    (h : MonotoneOn g (Set.Icc a a') ∨ AntitoneOn g (Set.Icc a a')) (hx : x ∈ Set.Icc a a') :
    min (g a) (g a') ≤ g x ∧ g x ≤ max (g a) (g a') := by
  have haa' := hx.1.trans hx.2
  have ha := Set.left_mem_Icc.mpr haa'
  have ha' := Set.right_mem_Icc.mpr haa'
  rcases h with h | h
  · exact ⟨min_le_of_left_le (h ha hx hx.1), le_max_of_le_right (h hx ha' hx.2)⟩
  · exact ⟨min_le_of_right_le (h hx ha' hx.2), le_max_of_le_left (h ha hx hx.1)⟩

/-- **The extremes are at the corners.** -/
theorem OneWay.mem_corners {a a' x : α} {b b' y : β}
    (h : OneWay f (Set.Icc a a') (Set.Icc b b')) (hx : x ∈ Set.Icc a a') (hy : y ∈ Set.Icc b b') :
    cornerMin f a a' b b' ≤ f x y ∧ f x y ≤ cornerMax f a a' b b' := by
  have haa' := hx.1.trans hx.2
  -- first along the row of `y`, then along the columns at its ends
  have hrow := mem_ends (h.row y hy) hx
  have hleft := mem_ends (h.column a (Set.left_mem_Icc.mpr haa')) hy
  have hright := mem_ends (h.column a' (Set.right_mem_Icc.mpr haa')) hy
  constructor
  · exact (min_le_min hleft.1 hright.1).trans hrow.1
  · exact hrow.2.trans (max_le_max hleft.2 hright.2)

/-- A monotone function of the result changes nothing. -/
theorem OneWay.comp {g : γ → δ} (hg : Monotone g) (h : OneWay f s t) :
    OneWay (fun x y => g (f x y)) s t where
  row y hy := (h.row y hy).imp (hg.comp_monotoneOn ·) (hg.comp_antitoneOn ·)
  column x hx := (h.column x hx).imp (hg.comp_monotoneOn ·) (hg.comp_antitoneOn ·)

/-- A monotone map behind the function reverses with an order-reversing one. -/
theorem OneWay.comp_antitone {g : γ → δ} (hg : Antitone g) (h : OneWay f s t) :
    OneWay (fun x y => g (f x y)) s t where
  row y hy := (h.row y hy).symm.imp (hg.comp_antitoneOn ·) (hg.comp_monotoneOn ·)
  column x hx := (h.column x hx).symm.imp (hg.comp_antitoneOn ·) (hg.comp_monotoneOn ·)

/-- Neither does turning an argument around. -/
theorem OneWay.comp_left {g : α → α} {s' : Set α} (hg : Antitone g) (hmaps : Set.MapsTo g s' s)
    (h : OneWay f s t) : OneWay (fun x y => f (g x) y) s' t where
  row y hy := (h.row y hy).symm.imp
    (fun hf _ hx _ hx' hle => hf (hmaps hx') (hmaps hx) (hg hle))
    (fun hf _ hx _ hx' hle => hf (hmaps hx') (hmaps hx) (hg hle))
  column x hx := h.column (g x) (hmaps hx)

/-- The second argument may run backwards. -/
theorem OneWay.comp_right {g : β → β} {t' : Set β} (hg : Antitone g) (hmaps : Set.MapsTo g t' t)
    (h : OneWay f s t) : OneWay (fun x y => f x (g y)) s t' where
  row y hy := h.row (g y) (hmaps hy)
  column x hx := (h.column x hx).symm.imp
    (fun hf _ hy _ hy' hle => hf (hmaps hy') (hmaps hy) (hg hle))
    (fun hf _ hy _ hy' hle => hf (hmaps hy') (hmaps hy) (hg hle))

/-- Functions that agree on the sets. -/
theorem OneWay.congr {g : α → β → γ} (h : OneWay f s t) (hfg : ∀ x ∈ s, ∀ y ∈ t, f x y = g x y) :
    OneWay g s t where
  row y hy := (h.row y hy).imp (fun hm => hm.congr fun x hx => hfg x hx y hy)
    (fun hm => hm.congr fun x hx => hfg x hx y hy)
  column x hx := (h.column x hx).imp (fun hm => hm.congr fun y hy => hfg x hx y hy)
    (fun hm => hm.congr fun y hy => hfg x hx y hy)

end OneWay

/-! ### Operators that go one way -/

section Operators

variable {α : Type*} [LinearOrder α] {s t : Set α}

/-- The minimum goes one way in both arguments. -/
theorem oneWay_min : OneWay (fun x y : α => min x y) s t where
  row _ _ := Or.inl fun _ _ _ _ hle => min_le_min_right _ hle
  column _ _ := Or.inl fun _ _ _ _ hle => min_le_min_left _ hle

/-- So does the maximum. -/
theorem oneWay_max : OneWay (fun x y : α => max x y) s t where
  row _ _ := Or.inl fun _ _ _ _ hle => max_le_max_right _ hle
  column _ _ := Or.inl fun _ _ _ _ hle => max_le_max_left _ hle

variable {s t : Set ℤ}

/-- So does a sum. -/
theorem oneWay_add : OneWay (fun x y : ℤ => x + y) s t where
  row _ _ := Or.inl fun _ _ _ _ hle => add_le_add_left hle _
  column _ _ := Or.inl fun _ _ _ _ hle => add_le_add_right hle _

/-- A difference goes up in the one and down in the other. -/
theorem oneWay_sub : OneWay (fun x y : ℤ => x - y) s t where
  row _ _ := Or.inl fun _ _ _ _ hle => sub_le_sub_right hle _
  column _ _ := Or.inr fun _ _ _ _ hle => sub_le_sub_left hle _

/-- A product goes one way in each argument, by the sign of the other. -/
theorem oneWay_mul : OneWay (fun x y : ℤ => x * y) s t where
  row y _ := by
    rcases le_total 0 y with hy | hy
    · exact Or.inl fun _ _ _ _ hle => mul_le_mul_of_nonneg_right hle hy
    · exact Or.inr fun _ _ _ _ hle => mul_le_mul_of_nonpos_right hle hy
  column x _ := by
    rcases le_total 0 x with hx | hx
    · exact Or.inl fun _ _ _ _ hle => mul_le_mul_of_nonneg_left hle hx
    · exact Or.inr fun _ _ _ _ hle => mul_le_mul_of_nonpos_left hle hx

/-- Rounding a quotient down, over positive divisors. -/
theorem oneWay_ediv (ht : ∀ y ∈ t, 0 < y) : OneWay (fun x y : ℤ => x / y) s t where
  row y hy := Or.inl fun _ _ _ _ hle => Int.ediv_le_ediv (ht y hy) hle
  column x _ := by
    rcases le_total 0 x with hx | hx
    · right
      intro y hy y' hy' hle
      have hq := Int.ediv_nonneg hx (ht y' hy').le
      apply (Int.le_ediv_iff_mul_le (ht y hy)).mpr
      exact (mul_le_mul_of_nonneg_left hle hq).trans (Int.ediv_mul_le x (ht y' hy').ne')
    · left
      intro y hy y' hy' hle
      have hq : x / y ≤ 0 := Int.ediv_nonpos_of_nonpos_of_neg hx (ht y hy)
      apply (Int.le_ediv_iff_mul_le (ht y' hy')).mpr
      exact (mul_le_mul_of_nonpos_left hle hq).trans (Int.ediv_mul_le x (ht y hy).ne')

/-- Rounding it up. -/
theorem oneWay_ceilDiv (ht : ∀ y ∈ t, 0 < y) : OneWay (fun x y : ℤ => -(-x / y)) s t :=
  have hneg : Antitone fun z : ℤ => -z := fun _ _ => neg_le_neg
  ((oneWay_ediv ht).comp_antitone hneg).comp_left hneg (Set.mapsTo_univ _ _)

/-- Rounding it toward zero. -/
theorem oneWay_tdiv (ht : ∀ y ∈ t, 0 < y) : OneWay (fun x y : ℤ => x.tdiv y) s t where
  row y hy := Or.inl fun _ _ _ _ hle => Int.tdiv_le_tdiv (ht y hy) hle
  column x _ := by
    rcases le_total 0 x with hx | hx
    · have hfloor := (oneWay_ediv (s := Set.univ) ht).column x trivial
      have heq : Set.EqOn (fun y => x / y) (fun y => x.tdiv y) t :=
        fun y _ => (Int.tdiv_eq_ediv_of_nonneg hx).symm
      exact hfloor.imp (·.congr heq) (·.congr heq)
    · have hceil := (oneWay_ceilDiv (s := Set.univ) ht).column x trivial
      have heq : Set.EqOn (fun y => -(-x / y)) (fun y => x.tdiv y) t := by
        intro y _
        show -(-x / y) = x.tdiv y
        rw [← Int.tdiv_eq_ediv_of_nonneg (by omega), Int.neg_tdiv, neg_neg]
      exact hceil.imp (·.congr heq) (·.congr heq)

end Operators

end CudaOxide.Lib
