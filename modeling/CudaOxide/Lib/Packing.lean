import CudaOxide.Lib.Loop

/-!
# Items packed into an array

Items take a number of slots each and stand one after the other, in slots of `unit` cells.

* `start` — the first slot of an item; items do not overlap (`start_add_le`), and appending more
  items moves none (`start_append`).
* `slice_flatMap` — what stands from the first slot of an item on is the image of the item.
* `writeAt`, `sliceTo` — the array operations, which stop at the end of the array.
-/

namespace CudaOxide.Lib.Packing

variable {ε α β : Type} {size : β → ℕ} {image : β → List α} {unit i j : ℕ} {xs ys : List β} {x : β}

/-- The slots before the item numbered `i`. -/
def start (size : β → ℕ) (xs : List β) (i : ℕ) : ℕ := ((xs.take i).map size).sum

@[simp] theorem start_zero : start size xs 0 = 0 := by rw [start, List.take_zero]; rfl

/-- Starts add up the sizes before. -/
@[simp] theorem start_cons_succ : start size (x :: xs) (i + 1) = size x + start size xs i := by
  rw [start, List.take_succ_cons, List.map_cons, List.sum_cons]
  rfl

/-- The starts of a list do not depend on what follows it. -/
theorem start_append (h : i ≤ xs.length) : start size (xs ++ ys) i = start size xs i := by
  rw [start, List.take_append_of_le_length h]
  rfl

/-- An item ends before every later one starts. -/
theorem start_add_le (hij : i < j) (h : xs[i]? = some x) :
    start size xs i + size x ≤ start size xs j := by
  induction xs generalizing i j with
  | nil => cases h
  | cons y xs ih =>
    obtain ⟨j, rfl⟩ := Nat.exists_eq_succ_of_ne_zero (show j ≠ 0 by omega)
    cases i with
    | zero =>
      obtain rfl := Option.some.inj h
      simp
    | succ i =>
      have := ih (show i < j by omega) h
      simp only [Nat.succ_eq_add_one, start_cons_succ]
      omega

/-- **Each item is found at its first slot.** -/
theorem slice_flatMap (hlen : ∀ x, (image x).length = unit * size x) (h : xs[i]? = some x) :
    ((xs.flatMap image).drop (unit * start size xs i)).take (unit * size x) = image x := by
  induction xs generalizing i with
  | nil => cases h
  | cons y xs ih =>
    cases i with
    | zero =>
      obtain rfl := Option.some.inj h
      rw [start_zero, Nat.mul_zero, List.drop_zero, List.flatMap_cons, ← hlen, List.take_left]
    | succ i =>
      rw [start_cons_succ, Nat.mul_add, ← hlen y, ← List.drop_drop, List.flatMap_cons,
        List.drop_left]
      exact ih h

/-! ### Arrays -/

/-- The cells from `i` on are replaced. -/
def writeAt (xs : List α) (i : ℕ) (ys : List α) : Run ε (List α) :=
  if i + ys.length ≤ xs.length then .ok (xs.take i ++ ys ++ xs.drop (i + ys.length))
  else Run.panic .indexOutOfBounds

/-- The first `n` cells (`xs[..n]`). -/
def sliceTo (xs : List α) (n : ℕ) : Run ε (List α) :=
  if n ≤ xs.length then .ok (xs.take n) else Run.panic .indexOutOfBounds

/-- Writing over a middle part. -/
theorem writeAt_append {left old new right : List α} (h : new.length = old.length) :
    (writeAt (left ++ (old ++ right)) left.length new : Run ε (List α)) =
      .ok (left ++ (new ++ right)) := by
  have hfit : left.length + new.length ≤ (left ++ (old ++ right)).length := by
    simp only [List.length_append]
    omega
  rw [writeAt, if_pos hfit, List.take_left, h, ← List.drop_drop, List.drop_left, List.drop_left,
    List.append_assoc]

/-- A prefix that is there can be taken. -/
theorem sliceTo_of_le {xs : List α} {n : ℕ} (h : n ≤ xs.length) :
    (sliceTo xs n : Run ε (List α)) = .ok (xs.take n) := if_pos h

end CudaOxide.Lib.Packing
