import Mathlib

namespace CudaOxide.Lib.Sequential

/-!
# Items in a row

Items with a size and an alignment are placed one after the other, each at the next multiple of its
alignment.  An alignment of zero counts as one.

* `offsets`, `finish`, `widest` — where the items start, where the last ends, the widest alignment.
* `offsets_ordered`, `offset_add_size_le` — items do not overlap, and end before the end.
* `offsets_eq_of_tight` — where the end is the sum of the sizes, there is no gap.
-/

/-- The least multiple of `a` from `n` on. -/
def alignUp (n a : ℕ) : ℕ := (n + (max a 1 - 1)) / max a 1 * max a 1

/-- The size and the alignment of an item. -/
abbrev Item := ℕ × ℕ

/-- Where each item starts, from `n` on. -/
def offsets : ℕ → List Item → List ℕ
  | _, [] => []
  | n, i :: items => alignUp n i.2 :: offsets (alignUp n i.2 + i.1) items

/-- Where the last item ends. -/
def finish : ℕ → List Item → ℕ
  | n, [] => n
  | n, i :: items => finish (alignUp n i.2 + i.1) items

/-- The widest alignment; without items, one. -/
def widest : List Item → ℕ
  | [] => 1
  | i :: items => max i.2 (widest items)

/-- The sum of the sizes. -/
def total (items : List Item) : ℕ := (items.map Prod.fst).sum

@[simp] theorem total_nil : total [] = 0 := rfl
@[simp] theorem total_cons (i : Item) (items : List Item) :
    total (i :: items) = i.1 + total items :=
  List.sum_cons

/-- The sizes of an append. -/
@[simp] theorem total_append (items items' : List Item) :
    total (items ++ items') = total items + total items' := by
  rw [total, List.map_append, List.sum_append]
  rfl

/-- There is an offset for each item. -/
@[simp] theorem length_offsets (n : ℕ) (items : List Item) :
    (offsets n items).length = items.length := by
  induction items generalizing n with
  | nil => rfl
  | cons i items ih => exact congrArg (· + 1) (ih _)

/-! ### Rounding up -/

section Align

variable {n a : ℕ}

/-- Rounding up does not go down. -/
theorem le_alignUp : n ≤ alignUp n a := by
  unfold alignUp
  have hpos : 0 < max a 1 := by omega
  have hsplit := Nat.div_add_mod (n + (max a 1 - 1)) (max a 1)
  have hmod := Nat.mod_lt (n + (max a 1 - 1)) hpos
  rw [Nat.mul_comm] at hsplit
  omega

/-- A multiple is not rounded. -/
theorem alignUp_of_dvd (h : a ∣ n) (ha : 0 < a) : alignUp n a = n := by
  obtain ⟨k, rfl⟩ := h
  have hmax : max a 1 = a := by omega
  unfold alignUp
  rw [hmax, Nat.mul_add_div ha, Nat.div_eq_of_lt (by omega), Nat.add_zero, Nat.mul_comm]

@[simp] theorem alignUp_one : alignUp n 1 = n := alignUp_of_dvd (one_dvd n) one_pos

@[simp] theorem alignUp_zero_left : alignUp 0 a = 0 := by
  unfold alignUp
  rw [Nat.div_eq_of_lt (by omega), Nat.zero_mul]

/-- A number that is rounded up is a multiple. -/
theorem dvd_alignUp (ha : 0 < a) : a ∣ alignUp n a := by
  have hmax : max a 1 = a := by omega
  unfold alignUp
  rw [hmax]
  exact Nat.dvd_mul_left _ _

/-- A number is its own multiple exactly when the alignment divides it. -/
theorem alignUp_eq_self_iff (ha : 0 < a) : alignUp n a = n ↔ a ∣ n := by
  constructor
  · intro h
    rw [← h]
    exact dvd_alignUp ha
  · intro h
    exact alignUp_of_dvd h ha

end Align

/-! ### Where the items are -/

section Place

variable {n k o s : ℕ} {items : List Item} {i : Item}

/-- The items take at least their sizes. -/
theorem add_total_le_finish (n : ℕ) (items : List Item) : n + total items ≤ finish n items := by
  induction items generalizing n with
  | nil => simp [finish]
  | cons i items ih =>
    have hle : n ≤ alignUp n i.2 := le_alignUp
    have hrest := ih (alignUp n i.2 + i.1)
    rw [total_cons]
    simp only [finish]
    omega

/-- They do not end before they start. -/
theorem le_finish : n ≤ finish n items := by
  have := add_total_le_finish n items
  omega

/-- The widest alignment is positive. -/
theorem one_le_widest : 1 ≤ widest items := by
  induction items with
  | nil => exact le_refl 1
  | cons i items ih => exact le_trans ih (le_max_right _ _)

/-- A bound of every alignment bounds the widest. -/
theorem widest_le {b : ℕ} (hb : 1 ≤ b) (h : ∀ i ∈ items, i.2 ≤ b) : widest items ≤ b := by
  induction items with
  | nil => exact hb
  | cons i items ih =>
    exact max_le (h i (List.mem_cons_self ..)) (ih fun j hj => h j (List.mem_cons_of_mem _ hj))

/-- What holds of one and of each alignment holds of the widest. -/
theorem widest_induction {P : ℕ → Prop} (hone : P 1) (h : ∀ i ∈ items, P i.2) :
    P (widest items) := by
  induction items with
  | nil => exact hone
  | cons i items ih =>
    have hrest := ih fun j hj => h j (List.mem_cons_of_mem _ hj)
    show P (max i.2 (widest items))
    obtain hle | hle := le_total i.2 (widest items)
    · rwa [max_eq_right hle]
    · rw [max_eq_left hle]
      exact h i (List.mem_cons_self ..)

/-- No item starts before the first. -/
theorem le_offset (ho : (offsets n items)[k]? = some o) : n ≤ o := by
  induction items generalizing n k with
  | nil => cases ho
  | cons i items ih =>
    have hle : n ≤ alignUp n i.2 := le_alignUp
    cases k with
    | zero =>
      cases ho
      exact hle
    | succ k =>
      have := ih (n := alignUp n i.2 + i.1) (k := k) ho
      omega

/-- An item ends before the end. -/
theorem offset_add_size_le (ho : (offsets n items)[k]? = some o) (hi : items[k]? = some i) :
    o + i.1 ≤ finish n items := by
  induction items generalizing n k with
  | nil => cases ho
  | cons j items ih =>
    cases k with
    | zero =>
      cases ho
      cases hi
      exact le_finish
    | succ k => exact ih (n := alignUp n j.2 + j.1) (k := k) ho hi

/-- An item ends before the next ones start. -/
theorem offsets_ordered {l o' : ℕ} (hkl : k < l) (ho : (offsets n items)[k]? = some o)
    (hi : items[k]? = some i) (ho' : (offsets n items)[l]? = some o') : o + i.1 ≤ o' := by
  induction items generalizing n k l with
  | nil => cases ho
  | cons j items ih =>
    obtain _ | l := l
    · omega
    cases k with
    | zero =>
      cases ho
      cases hi
      exact le_offset ho'
    | succ k => exact ih (n := alignUp n j.2 + j.1) (by omega) ho hi ho'

/-- Where the end is the sum of the sizes, the first item starts at once and the others leave no
gap. -/
theorem tight_cons (h : finish n (i :: items) = n + total (i :: items)) :
    alignUp n i.2 = n ∧ finish (n + i.1) items = n + i.1 + total items := by
  have hle : n ≤ alignUp n i.2 := le_alignUp
  have hrest := add_total_le_finish (alignUp n i.2 + i.1) items
  simp only [finish, total_cons] at h
  have heq : alignUp n i.2 = n := by omega
  rw [heq] at h
  exact ⟨heq, by omega⟩

/-- Where the end is the sum of the sizes, each item starts at the sum of the sizes before it. -/
theorem offsets_eq_of_tight (h : finish n items = n + total items) (hk : k < items.length) :
    (offsets n items)[k]? = some (n + total (items.take k)) := by
  induction items generalizing n k with
  | nil => simp at hk
  | cons i items ih =>
    obtain ⟨heq, h⟩ := tight_cons h
    -- the first item starts where the cursor was already aligned
    cases k with
    | zero =>
      show some (alignUp n i.2) = _
      rw [heq]
      rfl
    | succ k =>
      have hlen : k < items.length := by
        rw [List.length_cons] at hk
        omega
      have := ih (n := n + i.1) h hlen
      show (offsets (alignUp n i.2 + i.1) items)[k]? = _
      rw [heq, this, List.take_succ_cons, total_cons]
      congr 1
      omega

/-- Where there is no gap, each byte lies in an item. -/
theorem exists_item_of_tight {b : ℕ} (h : finish n items = n + total items) (hn : n ≤ b)
    (hb : b < n + total items) : ∃ (k : ℕ) (i : Item) (o : ℕ), items[k]? = some i ∧
      (offsets n items)[k]? = some o ∧ o ≤ b ∧ b < o + i.1 := by
  induction items generalizing n with
  | nil =>
    rw [total_nil] at hb
    omega
  | cons i items ih =>
    obtain ⟨heq, h⟩ := tight_cons h
    rw [total_cons] at hb
    by_cases hlt : b < n + i.1
    · exact ⟨0, i, n, rfl, congrArg some heq, hn, hlt⟩
    · obtain ⟨k, j, o, hj, ho, hin⟩ := ih h (by omega) (by omega)
      refine ⟨k + 1, j, o, hj, ?_, hin⟩
      show (offsets (alignUp n i.2 + i.1) items)[k]? = _
      rw [heq, ho]

/-- The widest alignment does not depend on the sizes. -/
theorem widest_congr {items' : List Item} (h : items.map Prod.snd = items'.map Prod.snd) :
    widest items = widest items' := by
  induction items generalizing items' with
  | nil =>
    rw [List.map_nil, eq_comm, List.map_eq_nil_iff] at h
    rw [h]
  | cons i items ih =>
    cases items' with
    | nil => cases h
    | cons i' items' =>
      rw [List.map_cons, List.map_cons, List.cons.injEq] at h
      simp only [widest]
      rw [h.1, ih h.2]

/-- One more item at the end. -/
theorem finish_concat : finish n (items ++ [i]) = alignUp (finish n items) i.2 + i.1 := by
  induction items generalizing n with
  | nil => rfl
  | cons j items ih => exact ih

/-- Items without alignment are placed without gaps. -/
theorem finish_packed : finish n (items.map fun i => (i.1, 1)) = n + total items := by
  induction items generalizing n with
  | nil => rfl
  | cons i items ih =>
    rw [List.map_cons, total_cons]
    simp only [finish, alignUp_one]
    rw [ih]
    omega

end Place

end CudaOxide.Lib.Sequential
