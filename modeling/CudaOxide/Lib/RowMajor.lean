import Mathlib

/-!
# Row-major order

An index into a box with extents `ds` is a list of numbers below them; row-major order counts the
indices with the last axis first.

* `strides`, `dot` — the number of an index is its product with the strides.
* `unravel` — the index with a given number.
* `dot_strides_lt`, `inBox_unravel`, `dot_unravel` — indices and the numbers below the product
  correspond.
-/

namespace CudaOxide.Lib.RowMajor

variable {ds is : List ℕ} {n : ℕ}

/-- For each axis, the product of the extents behind it. -/
def strides : List ℕ → List ℕ
  | [] => []
  | _ :: ds => ds.prod :: strides ds

/-- The sum of the products. -/
def dot : List ℕ → List ℕ → ℕ
  | i :: is, s :: ss => i * s + dot is ss
  | _, _ => 0

/-- The index numbered `n`. -/
def unravel : List ℕ → ℕ → List ℕ
  | [], _ => []
  | _ :: ds, n => n / ds.prod :: unravel ds (n % ds.prod)

/-- An index is in the box. -/
abbrev InBox (is ds : List ℕ) : Prop := List.Forall₂ (· < ·) is ds

/-- There is a stride for each extent. -/
@[simp] theorem length_strides (ds : List ℕ) : (strides ds).length = ds.length := by
  induction ds with
  | nil => rfl
  | cons d ds ih => rw [strides, List.length_cons, ih, List.length_cons]

/-- An index in the box has an offset below the number of cells. -/
theorem dot_strides_lt (h : InBox is ds) : dot is (strides ds) < ds.prod := by
  induction h with
  | nil => exact Nat.one_pos
  | @cons i d is ds hi _ ih =>
    rw [strides, dot, List.prod_cons]
    calc i * ds.prod + dot is (strides ds) < (i + 1) * ds.prod := by
          rw [Nat.add_mul]
          omega
      _ ≤ d * ds.prod := Nat.mul_le_mul_right _ hi

/-- Every offset below it has an index in the box. -/
theorem inBox_unravel (h : n < ds.prod) : InBox (unravel ds n) ds := by
  induction ds generalizing n with
  | nil => exact .nil
  | cons d ds ih =>
    rw [List.prod_cons] at h
    have hpos : 0 < ds.prod := Nat.pos_of_ne_zero fun hzero => by simp [hzero] at h
    exact .cons (Nat.div_lt_of_lt_mul (by rwa [Nat.mul_comm])) (ih (Nat.mod_lt _ hpos))

/-- The offset of that index is the one it was computed from. -/
theorem dot_unravel (h : n < ds.prod) : dot (unravel ds n) (strides ds) = n := by
  induction ds generalizing n with
  | nil =>
    rw [List.prod_nil, Nat.lt_one_iff] at h
    rw [h]
    rfl
  | cons d ds ih =>
    rw [List.prod_cons] at h
    have hpos : 0 < ds.prod := Nat.pos_of_ne_zero fun hzero => by simp [hzero] at h
    rw [unravel, strides, dot, ih (Nat.mod_lt _ hpos)]
    exact Nat.div_add_mod' n _

/-- Every index in the box is that of its offset. -/
theorem unravel_dot (h : InBox is ds) : unravel ds (dot is (strides ds)) = is := by
  induction h with
  | nil => rfl
  | @cons i d is ds _ hrest ih =>
    have hlt := dot_strides_lt hrest
    rw [strides, dot, unravel, Nat.mul_comm, Nat.mul_add_div (by omega), Nat.div_eq_of_lt hlt,
      Nat.add_zero, Nat.mul_add_mod, Nat.mod_eq_of_lt hlt, ih]

/-- **Row-major order visits every index once.** -/
theorem unravel_bijOn (ds : List ℕ) :
    Set.BijOn (unravel ds) (Set.Iio ds.prod) {is | InBox is ds} := by
  have hinv : Set.InvOn (fun is => dot is (strides ds)) (unravel ds) (Set.Iio ds.prod)
      {is | InBox is ds} := ⟨fun _ hn => dot_unravel hn, fun _ his => unravel_dot his⟩
  exact hinv.bijOn (fun _ hn => inBox_unravel hn) fun _ his => dot_strides_lt his

end CudaOxide.Lib.RowMajor
