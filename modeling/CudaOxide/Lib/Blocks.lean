import CudaOxide.Lib.Filling

namespace CudaOxide.Lib

open Strided

/-!
# Aligned blocks

A set of numbers is a *union of blocks* of `A` numbers when with each number it holds the whole
interval `[k * A, (k + 1) * A)` around it.

* `UnionOfBlocks.of_dvd` — the blocks may be smaller.
* `MovesBlocks` — maps that move whole blocks, and keep unions of them (`UnionOfBlocks.image`).
* `unionOfBlocks_eval` — the offsets of a walk that starts with a chain and goes on in multiples
  of `A`.
-/

/-- `S` holds every number of a block that it meets. -/
def UnionOfBlocks (A : ℤ) (S : Set ℤ) : Prop := ∀ x ∈ S, ∀ y, y / A = x / A → y ∈ S

variable {A B : ℤ} {S : Set ℤ}

/-- Every set is a union of single points. -/
theorem unionOfBlocks_one (S : Set ℤ) : UnionOfBlocks 1 S := by
  intro x hx y hy
  rw [Int.ediv_one, Int.ediv_one] at hy
  exact hy ▸ hx

/-- A union of large blocks is one of smaller blocks that divide them. -/
theorem UnionOfBlocks.of_dvd (hA : 0 < A) (hdvd : A ∣ B) (h : UnionOfBlocks B S) :
    UnionOfBlocks A S := by
  intro x hx y hy
  obtain ⟨k, rfl⟩ := hdvd
  refine h x hx y ?_
  rw [← Int.ediv_ediv_of_nonneg hA.le, ← Int.ediv_ediv_of_nonneg hA.le, hy]

/-- Each block is moved as a whole, its numbers in order. -/
def MovesBlocks (A : ℤ) (f : ℤ → ℤ) : Prop :=
  ∀ q, ∃ k, ∀ i ∈ Set.Ico 0 A, f (A * q + i) = A * k + i

variable {f g : ℤ → ℤ}

/-- The identity moves every block. -/
theorem movesBlocks_id (A : ℤ) : MovesBlocks A id := fun q => ⟨q, fun _ _ => rfl⟩

/-- So does the addition of a multiple. -/
theorem movesBlocks_add {o : ℤ} (h : A ∣ o) : MovesBlocks A (o + ·) := by
  intro q
  obtain ⟨k, rfl⟩ := h
  refine ⟨k + q, fun i _ => ?_⟩
  ring

/-- And so does a composition. -/
theorem MovesBlocks.comp (hf : MovesBlocks A f) (hg : MovesBlocks A g) : MovesBlocks A (f ∘ g) := by
  intro q
  obtain ⟨j, hj⟩ := hg q
  obtain ⟨k, hk⟩ := hf j
  refine ⟨k, fun i hi => ?_⟩
  show f (g (A * q + i)) = _
  rw [hj i hi, hk i hi]

/-- What moves large blocks moves smaller ones that divide them. -/
theorem MovesBlocks.of_dvd (hA : 0 < A) (hB : 0 < B) (hdvd : A ∣ B) (h : MovesBlocks B f) :
    MovesBlocks A f := by
  obtain ⟨n, rfl⟩ := hdvd
  intro q
  -- the block lies in a larger one, at a multiple of `A`
  have hn : 0 < n := pos_of_mul_pos_right hB hA.le
  have hplace := Int.emod_nonneg q hn.ne'
  have hplace' := Int.emod_lt_of_pos q hn
  obtain ⟨k, hk⟩ := h (q / n)
  refine ⟨n * k + q % n, fun i hi => ?_⟩
  have hin : i + A * (q % n) ∈ Set.Ico 0 (A * n) := mem_Ico_of_digits hi ⟨hplace, hplace'⟩
  have hq : A * q + i = A * n * (q / n) + (i + A * (q % n)) := by
    conv_lhs => rw [← Int.emod_add_mul_ediv q n]
    ring
  rw [hq, hk _ hin]
  ring

/-- The image of a union of blocks. -/
theorem UnionOfBlocks.image (hA : 0 < A) (hf : MovesBlocks A f) (h : UnionOfBlocks A S) :
    UnionOfBlocks A (f '' S) := by
  rintro _ ⟨x, hx, rfl⟩ y hy
  obtain ⟨k, hk⟩ := hf (x / A)
  have hplace : ∀ z : ℤ, z % A ∈ Set.Ico 0 A := fun z =>
    ⟨Int.emod_nonneg z hA.ne', Int.emod_lt_of_pos z hA⟩
  have hfx : f x = A * k + x % A := by
    rw [← hk _ (hplace x), Int.mul_ediv_add_emod]
  have hblock : y / A = k := by
    rw [hy, hfx, add_comm, (digit_cons (hplace x).1 (hplace x).2).2]
  refine ⟨A * (x / A) + y % A, h x hx _ ?_, ?_⟩
  · rw [add_comm, (digit_cons (hplace y).1 (hplace y).2).2]
  · rw [hk _ (hplace y), ← hblock, Int.mul_ediv_add_emod]

namespace Strided

variable {ms ms' xs ys : List (ℤ × ℤ)} {c : ℤ}

/-- Strides that are multiples give offsets that are. -/
theorem dvd_eval (h : ∀ m ∈ ms, A ∣ m.2) (c : ℤ) : A ∣ eval ms c := by
  induction ms generalizing c with
  | nil => exact dvd_zero A
  | cons m ms ih =>
    obtain ⟨hm, h⟩ := List.forall_mem_cons.mp h
    exact dvd_add (Dvd.dvd.mul_left hm _) (ih h _)

/-- The set of offsets does not depend on the order of the modes. -/
theorem image_eval_perm (hpos : Pos ms) (hperm : ms.Perm ms') :
    eval ms '' Set.Ico 0 (size ms) = eval ms' '' Set.Ico 0 (size ms') := by
  have hpos' : Pos ms' := fun m hm => hpos m (hperm.mem_iff.mpr hm)
  have hoffsets : ∀ {ws : List (ℤ × ℤ)}, Pos ws → ∀ x,
      x ∈ eval ws '' Set.Ico 0 (size ws) ↔ x ∈ offsetsFrom 0 ws := fun hws x => by
    rw [mem_offsetsFrom_zero hws, Set.mem_image]
    simp only [Set.mem_Ico, and_assoc]
  ext x
  rw [hoffsets hpos, hoffsets hpos', offsetsFrom_perm hperm]

/-- **A chain, repeated at multiples of `A`.**  When its length is a multiple of `A` as well, it
reaches whole blocks only. -/
theorem unionOfBlocks_eval (hpos : Pos (xs ++ ys)) (hch : Chain 1 xs) (hA : 0 < A)
    (hxs : A ∣ size xs) (hys : ∀ m ∈ ys, A ∣ m.2) :
    UnionOfBlocks A (eval (xs ++ ys) '' Set.Ico 0 (size (xs ++ ys))) := by
  obtain ⟨hposx, hposy⟩ := pos_append.mp hpos
  have hV := size_pos hposx
  rw [size_append]
  rintro _ ⟨c, hc, rfl⟩ y hy
  obtain ⟨hlow, hhigh⟩ := digits_mem_Ico hV hc
  -- the offset is a place in the chain after a multiple of `A`
  have heval : ∀ i ∈ Set.Ico 0 (size xs), eval (xs ++ ys) (i + size xs * (c / size xs)) =
      A * (eval ys (c / size xs) / A) + i := fun i hi => by
    rw [eval_append_pair hposx ys hi.1 hi.2, eval_chain hposx hch hi.1 hi.2, mul_one,
      Int.mul_ediv_cancel' (dvd_eval hys _), add_comm]
  have hx := heval _ hlow
  rw [Int.emod_add_mul_ediv] at hx
  set k := eval ys (c / size xs) / A
  -- `y` is after the same multiple, in the same block of the chain
  have hi : y - A * k ∈ Set.Ico 0 (size xs) := by
    have hblock : (y - A * k) / A = c % size xs / A := by
      have hdiv : (A * k + (y - A * k)) / A = (A * k + c % size xs) / A := by
        rw [add_sub_cancel, hy, hx]
      rwa [Int.mul_add_ediv_left _ _ hA.ne', Int.mul_add_ediv_left _ _ hA.ne',
        add_right_inj] at hdiv
    have hlast : c % size xs / A < size xs / A :=
      Int.ediv_lt_of_lt_mul hA (by rw [Int.ediv_mul_cancel hxs]; exact hlow.2)
    constructor
    · rw [← Int.ediv_nonneg_iff_of_pos hA, hblock]
      exact Int.ediv_nonneg hlow.1 hA.le
    · rw [← Int.ediv_mul_cancel hxs, ← Int.ediv_lt_iff_lt_mul hA, hblock]
      exact hlast
  refine ⟨y - A * k + size xs * (c / size xs), mem_Ico_of_digits hi hhigh, ?_⟩
  rw [heval _ hi, add_sub_cancel]

end Strided

end CudaOxide.Lib
