import CudaOxide.Lib.Run

namespace CudaOxide.Cute

open Lib

/-!
# Nested integer tuples

The tree that shapes, strides and coordinates share, with the operations of
`cute-layout/src/tuple.rs`.

* `IntTuple.size` multiplies the leaves in machine arithmetic; `size_implements` reads it as
  the product of `flatten` over `ℤ`.
* `IntTuple.Congruent` — the same parentheses; congruent tuples have equally long leaf lists.
* `IntTuple.restructure` puts a leaf list back into a tree (`flatten_restructure`,
  `congruent_restructure`).
-/

/-- One integer, or an ordered group of tuples. -/
inductive IntTuple where
  | leaf (v : ℤ)
  | tuple (ts : List IntTuple)
  deriving Repr

namespace IntTuple

variable {ε : Type}

mutual

/-- Equality of trees is decided along them. -/
def decEq : (s t : IntTuple) → Decidable (s = t)
  | .leaf v, .leaf w => decidable_of_iff (v = w) (by simp)
  | .tuple ss, .tuple ts => @decidable_of_iff _ (ss = ts) (by simp) (decEqList ss ts)
  | .leaf _, .tuple _ => isFalse nofun
  | .tuple _, .leaf _ => isFalse nofun

/-- Equality of lists of trees. -/
def decEqList : (ss ts : List IntTuple) → Decidable (ss = ts)
  | [], [] => isTrue rfl
  | s :: ss, t :: ts =>
    @decidable_of_iff _ (s = t ∧ ss = ts) (by simp)
      (@instDecidableAnd _ _ (decEq s t) (decEqList ss ts))
  | [], _ :: _ => isFalse nofun
  | _ :: _, [] => isFalse nofun

end

instance : DecidableEq IntTuple := decEq

mutual

/-- The product of all leaves.  The machine product aborts on overflow. -/
def size [Build] : IntTuple → Run ε ℤ
  | .leaf v => .ok v
  | .tuple ts => sizeFrom 1 ts

/-- The product of `acc` and the sizes of `ts`, multiplied from left to right. -/
def sizeFrom [Build] (acc : ℤ) : List IntTuple → Run ε ℤ
  | [] => .ok acc
  | t :: ts => do
    let s ← size t
    let acc ← I64.mul acc s
    sizeFrom acc ts

end

mutual

/-- The leaves from left to right. -/
def flatten : IntTuple → List ℤ
  | .leaf v => [v]
  | .tuple ts => flattenAll ts

/-- The leaves of several trees. -/
def flattenAll : List IntTuple → List ℤ
  | [] => []
  | t :: ts => flatten t ++ flattenAll ts

end

mutual

/-- The same parenthesis structure. -/
def isCongruent : IntTuple → IntTuple → Bool
  | .leaf _, .leaf _ => true
  | .tuple as, .tuple bs => isCongruentAll as bs
  | _, _ => false

/-- The trees of two lists are congruent one by one. -/
def isCongruentAll : List IntTuple → List IntTuple → Bool
  | [], [] => true
  | a :: as, b :: bs => isCongruent a b && isCongruentAll as bs
  | _, _ => false

end

/-- The number of top-level modes. -/
def rank : IntTuple → ℕ
  | .leaf _ => 1
  | .tuple ts => ts.length

mutual

/-- Fill the tree with leaves from a list; returns the leaves left over, and aborts when the
list is too short. -/
def restructure : IntTuple → List ℤ → Run ε (IntTuple × List ℤ)
  | .leaf _, v :: vs => .ok (.leaf v, vs)
  | .leaf _, [] => Run.panic .assertion
  | .tuple ts, vs => do
    let (us, vs) ← restructureAll ts vs
    .ok (.tuple us, vs)

/-- Trees like those of a list, filled with the values in order. -/
def restructureAll : List IntTuple → List ℤ → Run ε (List IntTuple × List ℤ)
  | [], vs => .ok ([], vs)
  | t :: ts, vs => do
    let (u, vs) ← restructure t vs
    let (us, vs) ← restructureAll ts vs
    .ok (u :: us, vs)

end

@[simp] theorem flatten_leaf (v : ℤ) : flatten (.leaf v) = [v] := rfl
@[simp] theorem flatten_tuple (ts : List IntTuple) : flatten (.tuple ts) = flattenAll ts := rfl
@[simp] theorem flattenAll_nil : flattenAll [] = [] := rfl
@[simp] theorem flattenAll_cons (t : IntTuple) (ts : List IntTuple) :
    flattenAll (t :: ts) = flatten t ++ flattenAll ts := rfl

@[simp] theorem flattenAll_map_leaf {α : Type} (f : α → ℤ) (xs : List α) :
    flattenAll (xs.map fun x => .leaf (f x)) = xs.map f := by
  induction xs with
  | nil => rfl
  | cons x xs ih => simp [ih]

/-! ### Congruent tuples -/

/-- Shape and stride trees of one layout have the same parentheses. -/
def Congruent (s t : IntTuple) : Prop := isCongruent s t = true

/-- `is_congruent`, for lists. -/
def CongruentAll (ss ts : List IntTuple) : Prop := isCongruentAll ss ts = true

instance (s t : IntTuple) : Decidable (Congruent s t) := inferInstanceAs (Decidable (_ = _))

@[simp] theorem congruent_leaf (v w : ℤ) : Congruent (.leaf v) (.leaf w) := rfl

/-- Two tuples are congruent if their parts are. -/
@[simp] theorem congruent_tuple {ss ts : List IntTuple} :
    Congruent (.tuple ss) (.tuple ts) ↔ CongruentAll ss ts := Iff.rfl

/-- A leaf is not congruent to a tuple. -/
@[simp] theorem not_congruent_leaf_tuple {v : ℤ} {ts : List IntTuple} :
    ¬Congruent (.leaf v) (.tuple ts) := nofun

@[simp] theorem not_congruent_tuple_leaf {v : ℤ} {ts : List IntTuple} :
    ¬Congruent (.tuple ts) (.leaf v) := nofun

@[simp] theorem congruentAll_nil : CongruentAll [] [] := rfl

@[simp] theorem congruentAll_cons {s t : IntTuple} {ss ts : List IntTuple} :
    CongruentAll (s :: ss) (t :: ts) ↔ Congruent s t ∧ CongruentAll ss ts := by
  simp [CongruentAll, Congruent, isCongruentAll]

@[simp] theorem not_congruentAll_nil_cons {t : IntTuple} {ts : List IntTuple} :
    ¬CongruentAll [] (t :: ts) := nofun

@[simp] theorem not_congruentAll_cons_nil {s : IntTuple} {ss : List IntTuple} :
    ¬CongruentAll (s :: ss) [] := nofun

/-- Congruent lists are equally long. -/
theorem CongruentAll.length_eq {ss ts : List IntTuple} (h : CongruentAll ss ts) :
    ss.length = ts.length := by
  induction ss generalizing ts with
  | nil =>
    cases ts with
    | nil => rfl
    | cons t ts => exact absurd h not_congruentAll_nil_cons
  | cons s ss ih =>
    cases ts with
    | nil => exact absurd h not_congruentAll_cons_nil
    | cons t ts => rw [List.length_cons, List.length_cons, ih (congruentAll_cons.mp h).2]

mutual

/-- Congruent trees have as many leaves. -/
theorem Congruent.length_flatten : {s t : IntTuple} → Congruent s t →
    s.flatten.length = t.flatten.length
  | .leaf _, .leaf _, _ => rfl
  | .tuple _, .tuple _, h => CongruentAll.length_flattenAll (congruent_tuple.mp h)

/-- So have congruent lists. -/
theorem CongruentAll.length_flattenAll : {ss ts : List IntTuple} → CongruentAll ss ts →
    (flattenAll ss).length = (flattenAll ts).length
  | [], [], _ => rfl
  | s :: ss, t :: ts, h => by
    have h' := congruentAll_cons.mp h
    simp only [flattenAll_cons, List.length_append, Congruent.length_flatten h'.1,
      CongruentAll.length_flattenAll h'.2]

end

/-! ### The size over the integers -/

mutual

/-- `size` multiplies the leaves, unless it overflows. -/
theorem size_implements : (t : IntTuple) →
    (size t : Run ε ℤ).Implements (.ok t.flatten.prod)
  | .leaf v => by simp only [size, flatten_leaf, List.prod_singleton]; exact .ok v
  | .tuple ts => by
    have h : (sizeFrom 1 ts : Run ε ℤ).Implements _ := sizeFrom_implements 1 ts
    rw [one_mul] at h
    exact h

/-- The same from an accumulator on. -/
theorem sizeFrom_implements (acc : ℤ) : (ts : List IntTuple) →
    (sizeFrom acc ts : Run ε ℤ).Implements (.ok (acc * (flattenAll ts).prod))
  | [] => by simp only [sizeFrom, flattenAll_nil, List.prod_nil, mul_one]; exact .ok acc
  | t :: ts => by
    refine (size_implements t).bind_ok ((I64.mul_implements acc _).bind_ok ?_)
    rw [flattenAll_cons, List.prod_append, ← mul_assoc]
    exact sizeFrom_implements _ ts

end

/-! ### Rebuilding a tree -/

mutual

/-- `restructure` consumes exactly the leaves of the tree. -/
theorem restructure_ok : (t : IntTuple) → (vs ws : List ℤ) → vs.length = t.flatten.length →
    ∃ u, (restructure t (vs ++ ws) : Run ε _) = .ok (u, ws) ∧ u.flatten = vs ∧ Congruent t u
  | .leaf v, vs, ws, h => by
    obtain ⟨w, rfl⟩ := List.length_eq_one_iff.mp h
    exact ⟨.leaf w, rfl, rfl, rfl⟩
  | .tuple ts, vs, ws, h => by
    obtain ⟨us, hrun, hflat, hcong⟩ := restructureAll_ok ts vs ws h
    refine ⟨.tuple us, ?_, hflat, hcong⟩
    simp only [restructure, hrun]
    rfl

/-- The values that are taken fill the trees, and the others are left over. -/
theorem restructureAll_ok : (ts : List IntTuple) → (vs ws : List ℤ) →
    vs.length = (flattenAll ts).length →
    ∃ us, (restructureAll ts (vs ++ ws) : Run ε _) = .ok (us, ws) ∧ flattenAll us = vs ∧
      CongruentAll ts us
  | [], vs, ws, h => by
    have hvs : vs = [] := List.length_eq_zero_iff.mp h
    subst hvs
    exact ⟨[], rfl, rfl, rfl⟩
  | t :: ts, vs, ws, h => by
    rw [flattenAll_cons, List.length_append] at h
    obtain ⟨u, hu, hfu, hcu⟩ := restructure_ok t (vs.take t.flatten.length)
      (vs.drop t.flatten.length ++ ws) (by rw [List.length_take]; omega)
    obtain ⟨us, hus, hfus, hcus⟩ := restructureAll_ok ts (vs.drop t.flatten.length) ws
      (by rw [List.length_drop]; omega)
    rw [← List.append_assoc, List.take_append_drop] at hu
    refine ⟨u :: us, ?_, ?_, congruentAll_cons.mpr ⟨hcu, hcus⟩⟩
    · simp only [restructureAll, hu]
      show (do let (us, vs) ← restructureAll ts _; Except.ok (u :: us, vs) : Run ε _) = _
      rw [hus]
      rfl
    · rw [flattenAll_cons, hfu, hfus, List.take_append_drop]

end

end IntTuple

end CudaOxide.Cute
