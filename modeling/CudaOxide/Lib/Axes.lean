import Mathlib.Algebra.BigOperators.Group.List.Lemmas
import Mathlib.Algebra.Order.Ring.Abs
import Mathlib.Data.List.Perm.Basic
import Mathlib.Tactic.Linarith
import Mathlib.Tactic.Ring

/-!
# Strided axes

An index of a tensor takes a step of the stride along each axis.  An axis is its stride and its
extent.

* `offset` — where an index leads; `InRange` — the indices of a shape.
* `Independent` — no two indices lead to the same place, said of their difference.
* `independent_of_chain` — each axis steps over all that the one before it reaches.
* `Independent.perm` — the order of the axes does not matter.
-/

namespace CudaOxide.Lib.Axes

/-- The place of an index. -/
def offset : List ℤ → List ℤ → ℤ
  | s :: strides, i :: index => s * i + offset strides index
  | _, _ => 0

/-- Every component is below its extent. -/
def InRange (shape index : List ℤ) : Prop := List.Forall₂ (fun d i => 0 ≤ i ∧ i < d) shape index

/-- A difference of two indices comes with each axis; it leads back only if it is zero. -/
def Independent (axes : List (ℤ × ℤ)) : Prop :=
  ∀ steps : List ((ℤ × ℤ) × ℤ), steps.map Prod.fst = axes → (∀ t ∈ steps, |t.2| < t.1.2) →
    (steps.map fun t => t.1.1 * t.2).sum = 0 → ∀ t ∈ steps, t.2 = 0

variable {axes axes' : List (ℤ × ℤ)} {strides shape i j : List ℤ}

/-- In range means in range at every position. -/
theorem inRange_iff : InRange shape i ↔ i.length = shape.length ∧
    ∀ (k : ℕ) (d x : ℤ), shape[k]? = some d → i[k]? = some x → 0 ≤ x ∧ x < d := by
  unfold InRange
  constructor
  · intro h
    refine ⟨h.length_eq.symm, fun k d x hd hx => ?_⟩
    obtain ⟨hk, rfl⟩ := List.getElem?_eq_some_iff.mp hd
    obtain ⟨hk', rfl⟩ := List.getElem?_eq_some_iff.mp hx
    exact h.get hk hk'
  · rintro ⟨hlen, hall⟩
    refine List.forall₂_iff_get.mpr ⟨hlen.symm, fun k hk hk' => ?_⟩
    exact hall k _ _ (List.getElem?_eq_getElem hk) (List.getElem?_eq_getElem hk')

/-- Independence does not depend on the order of the axes. -/
theorem Independent.perm (h : Independent axes) (hperm : axes.Perm axes') : Independent axes' := by
  intro steps hsteps hlt hsum t ht
  have hrel : List.Forall₂ (fun a (t : (ℤ × ℤ) × ℤ) => a = t.1) axes' steps := by
    rw [← hsteps, List.forall₂_map_left_iff]
    exact List.forall₂_same.mpr fun _ _ => rfl
  obtain ⟨steps', hrel', hsteps'⟩ := List.perm_comp_forall₂ hperm hrel
  have haxes : steps'.map Prod.fst = axes := by
    rw [← List.forall₂_eq_eq_eq, List.forall₂_map_left_iff]
    exact hrel'.flip.imp fun _ _ h => h.symm
  refine h steps' haxes (fun t ht => hlt t (hsteps'.subset ht)) ?_ t (hsteps'.symm.subset ht)
  rw [(hsteps'.map _).sum_eq, hsum]

/-- What the axes so far reach is less than the next stride, so nothing but zero leads back. -/
private theorem zero_of_reach {acc : ℤ} {steps : List ((ℤ × ℤ) × ℤ)}
    (hchain : (steps.map Prod.fst).IsChain fun a b => a.1 * a.2 ≤ b.1)
    (hacc : ∀ a ∈ (steps.map Prod.fst).head?, |acc| < a.1) (hlt : ∀ t ∈ steps, |t.2| < t.1.2)
    (hsum : acc + (steps.map fun t => t.1.1 * t.2).sum = 0) : acc = 0 ∧ ∀ t ∈ steps, t.2 = 0 := by
  induction steps generalizing acc with
  | nil => exact ⟨by simpa using hsum, by simp⟩
  | cons t steps ih =>
    obtain ⟨⟨s, d⟩, x⟩ := t
    obtain ⟨hx, hrest⟩ := List.forall_mem_cons.mp hlt
    have hx : |x| < d := hx
    have hs : |acc| < s := hacc (s, d) rfl
    have hspos : 0 < s := (abs_nonneg acc).trans_lt hs
    -- the step along this axis stays within its extent
    have hreach : |acc + s * x| < s * d := by
      have hstep : |s * x| ≤ s * (d - 1) := by
        rw [abs_mul, abs_of_pos hspos]
        exact mul_le_mul_of_nonneg_left (by omega) hspos.le
      have htri := abs_add_le acc (s * x)
      linarith
    rw [List.map_cons, List.isChain_cons] at hchain
    have hnext : ∀ a ∈ (steps.map Prod.fst).head?, |acc + s * x| < a.1 := fun a ha =>
      hreach.trans_le (hchain.1 a ha)
    rw [List.map_cons, List.sum_cons, ← add_assoc] at hsum
    obtain ⟨hzero, hall⟩ := ih hchain.2 hnext hrest hsum
    have hxzero : x = 0 := by
      by_contra hne
      have hone : 1 ≤ |x| := Int.one_le_abs hne
      have hback : s * |x| = |acc| := by
        have hneg : acc = -(s * x) := by linarith
        rw [hneg, abs_neg, abs_mul, abs_of_pos hspos]
      have hge : s * 1 ≤ s * |x| := mul_le_mul_of_nonneg_left hone hspos.le
      linarith
    subst hxzero
    exact ⟨by simpa using hzero, List.forall_mem_cons.mpr ⟨rfl, hall⟩⟩

/-- **Axes of which each steps over what the one before it reaches.** -/
theorem independent_of_chain (hpos : ∀ a ∈ axes.head?, 0 < a.1)
    (hchain : axes.IsChain fun a b => a.1 * a.2 ≤ b.1) : Independent axes := by
  rintro steps rfl hlt hsum
  refine (@zero_of_reach 0 _ hchain (fun a ha => ?_) hlt ?_).2
  · rw [abs_zero]
    exact hpos a ha
  · rw [zero_add, hsum]

/-- **Different indices lead to different places.** -/
theorem offset_injOn (h : Independent (strides.zip shape)) (hlen : shape.length ≤ strides.length)
    (hi : InRange shape i) (hj : InRange shape j) (heq : offset strides i = offset strides j) :
      i = j := by
  -- the difference of the two, axis by axis
  obtain ⟨steps, hsteps, hlt, hsum, hzero⟩ : ∃ steps : List ((ℤ × ℤ) × ℤ),
      steps.map Prod.fst = strides.zip shape ∧ (∀ t ∈ steps, |t.2| < t.1.2) ∧
        (steps.map fun t => t.1.1 * t.2).sum = offset strides i - offset strides j ∧
        ((∀ t ∈ steps, t.2 = 0) → i = j) := by
    clear h heq
    unfold InRange at hi hj
    induction hi generalizing strides j with
    | nil =>
      cases hj
      exact ⟨[], by simp, by simp, by cases strides <;> simp [offset], fun _ => rfl⟩
    | @cons d x shape i hx _ ih =>
      obtain ⟨y, j', hy, hrest, rfl⟩ := List.forall₂_cons_left_iff.mp hj
      obtain ⟨s, strides, rfl⟩ := List.exists_cons_of_ne_nil (List.ne_nil_of_length_pos (by
        rw [List.length_cons] at hlen
        omega) : strides ≠ [])
      obtain ⟨steps, hsteps, hlt, hsum, hzero⟩ := ih (Nat.le_of_succ_le_succ hlen) hrest
      have hxy : |x - y| < d := abs_sub_lt_iff.mpr ⟨by omega, by omega⟩
      refine ⟨((s, d), x - y) :: steps, ?_, ?_, ?_, fun hall => ?_⟩
      · rw [List.map_cons, hsteps, List.zip_cons_cons]
      · exact List.forall_mem_cons.mpr ⟨hxy, hlt⟩
      · rw [List.map_cons, List.sum_cons, hsum, offset, offset]
        ring
      · obtain ⟨hxy, hall⟩ := List.forall_mem_cons.mp hall
        rw [hzero hall, sub_eq_zero.mp hxy]
  exact hzero (h steps hsteps hlt (by rw [hsum, heq, sub_self]))

end CudaOxide.Lib.Axes
