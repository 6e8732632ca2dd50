import CudaOxide.Cute.RightInverse

namespace CudaOxide.Cute

open Lib Strided

/-!
# Left inverse

`left_inverse a` joins `a` with its complement and takes the right inverse of the two
(`algebra/mapping.rs`).

* `offset_nonneg` — a layout that only moves forward reaches no negative offset.
* `leftInverse_ok` — what is inverted is a bijection that continues `a`.
* `leftInverse_spec` — `r (a i) = i` for every cell `i` of `a`, gaps or not.
* `leftInverse_wraps` — a build without overflow checks can return another layout.
-/

variable {a r : Layout} {i : ℤ}

/-- Recover the input that has passed through `a`. -/
def leftInverse [Build] (a : Layout) : Run AlgebraError Layout := do
  let hi ← a.cosize
  let comp ← complement a hi
  rightInverse (Layout.fromModes [a, comp])

/-- Modes of one cell do not count, whatever their stride. -/
theorem offset_nonneg (ha : a.Valid) (hfwd : Forward a.flatModes) (h0 : 0 ≤ i) :
    0 ≤ a.offset i := by
  have hnn : Nonneg (merged a.flatModes) :=
    merged_forall (fun _ _ _ h _ => h) fun m hm hne => hfwd m hm (by have := ha.pos m hm; omega)
  rw [Layout.offset, ← eval_merged ha.pos]
  exact eval_nonneg (merged_pos ha.pos) hnn h0

/-- A cell of `a` is a cell of every joined layout that begins with `a`. -/
theorem offset_fromModes_left {c : Layout} (ha : a.Valid) (hc : c.Valid) (h0 : 0 ≤ i)
    (hi : i < a.cells) :
    i < (Layout.fromModes [a, c]).cells ∧ (Layout.fromModes [a, c]).offset i = a.offset i := by
  have hone := size_pos hc.pos
  have hsmall : i < size a.flatModes := hi
  unfold Layout.cells Layout.offset
  rw [flatModes_pair ha.congruent hc.congruent, size_append, eval_append ha.pos,
    Int.ediv_eq_zero_of_lt h0 hsmall, eval_zero, add_zero]
  refine ⟨?_, rfl⟩
  calc i < size a.flatModes := hsmall
    _ ≤ size a.flatModes * size c.flatModes := le_mul_of_one_le_right ha.cells_pos.le hone

/-- **What is inverted.**  The layout that is joined with its complement; the inverse is its right
inverse. -/
theorem leftInverse_ok (ha : a.Valid) (hmove : Moving a.flatModes) (h : leftInverse a = .ok r) :
    ∃ c : Layout, c.Valid ∧ Complements a c ∧ (Layout.fromModes [a, c]).Valid ∧
      r = inverseLayout (Layout.fromModes [a, c]) := by
  obtain ⟨hi, hcosize, h⟩ := Run.bind_eq_ok.mp h
  obtain ⟨c, hcomp, hright⟩ := Run.bind_eq_ok.mp h
  obtain rfl := (Layout.cosize_implements ha).eq_of_ok hcosize
  have hlast : 0 ≤ a.offset (a.cells - 1) :=
    offset_nonneg ha hmove.forward (by have := ha.cells_pos; omega)
  obtain ⟨hc, hfills, -, -⟩ := complements_of_complement ha hmove (by omega) hcomp
  have hpair : (Layout.fromModes [a, c]).Valid := by
    refine ⟨?_, ?_⟩
    · have hboth : ∀ l ∈ [a, c], l.shape.Congruent l.stride := by
        simp [ha.congruent, hc.congruent]
      exact (flatModes_tuple hboth).1
    · rw [flatModes_pair ha.congruent hc.congruent]
      exact pos_append.mpr ⟨ha.pos, hc.pos⟩
  exact ⟨c, hc, hfills, hpair, (rightInverse_implements hpair).eq_of_ok hright⟩

/-- **The left inverse.**  Every offset that `a` reaches is a cell of `r`, and `r` sends it back to
the cell of `a` it came from. -/
theorem leftInverse_spec (ha : a.Valid) (hmove : Moving a.flatModes) (h : leftInverse a = .ok r) :
    ∀ i, 0 ≤ i → i < a.cells →
      0 ≤ a.offset i ∧ a.offset i < r.cells ∧ r.offset (a.offset i) = i := by
  obtain ⟨c, hc, hcomp, hpair, rfl⟩ := leftInverse_ok ha hmove h
  -- the modes of `a` and of its complement together fill an interval
  have hcells : (Layout.fromModes [a, c]).cells = a.cells * c.cells := by
    unfold Layout.cells
    rw [flatModes_pair ha.congruent hc.congruent, size_append]
  have hfills : Fills (Layout.fromModes [a, c]).flatModes (Layout.fromModes [a, c]).cells := by
    have hbij := hcomp
    unfold Complements at hbij
    rw [← hcells] at hbij
    exact hbij
  obtain ⟨⟨-, hback⟩, -⟩ := invOn_inverseLayout hpair hfills
  intro i h0 hi
  obtain ⟨hlt, hoff⟩ := offset_fromModes_left ha hc h0 hi
  have hmem := hfills.mapsTo ⟨h0, hlt⟩
  have hinv := hback ⟨h0, hlt⟩
  rw [hoff] at hinv
  -- what `a` reaches is below the size of the inverse, since the filling holds it
  have hreach : a.offset i ∈ Set.Ico 0 (Layout.fromModes [a, c]).cells := hoff ▸ hmem
  refine ⟨hreach.1, ?_, hinv⟩
  rw [cells_inverseLayout hpair hfills]
  exact hreach.2

/-- The left inverse of `3:2` is `(2,3):(3,1)`; the offsets `1` and `3` are gaps. -/
example : leftInverse ⟨.leaf 3, .leaf 2⟩ =
    .ok ⟨.tuple [.leaf 2, .leaf 3], .tuple [.leaf 3, .leaf 1]⟩ := by decide

/-- The third cell of `3:2` has offset `4`, and is found there. -/
theorem leftInverse_spec_gaps :
    (Layout.mk (.tuple [.leaf 2, .leaf 3]) (.tuple [.leaf 3, .leaf 1])).offset
      ((Layout.mk (.leaf 3) (.leaf 2)).offset 2) = 2 :=
  (leftInverse_spec (a := ⟨.leaf 3, .leaf 2⟩) ⟨rfl, by decide⟩ (by decide) (by decide) 2
    (by decide) (by decide)).2.2

/-- A release build wraps where the complement of `2:2^62` multiplies out the end of its mode, and
the left inverse it returns is the layout `1:0`: the second cell is sent to `0`. -/
theorem leftInverse_wraps :
    (Layout.mk (.leaf 2) (.leaf 4611686018427387904)).Valid ∧
      Moving (Layout.mk (.leaf 2) (.leaf 4611686018427387904)).flatModes ∧
      @leftInverse .wrapping ⟨.leaf 2, .leaf 4611686018427387904⟩ = .ok ⟨.leaf 1, .leaf 0⟩ ∧
      (Layout.mk (.leaf 1) (.leaf 0)).offset
        ((Layout.mk (.leaf 2) (.leaf 4611686018427387904)).offset 1) = 0 ∧
      (@Layout.call Empty .wrapping ⟨.leaf 1, .leaf 0⟩ (.leaf 4611686018427387904)) = .ok 0 :=
  ⟨⟨rfl, by decide⟩, by decide, by decide +kernel, by decide, rfl⟩

end CudaOxide.Cute
