import CudaOxide.Cute.Complement

namespace CudaOxide.Cute

open Lib Strided

/-!
# When a complement overflows

The ceiling division at the end of `complement` adds the endpoint and the span of the last mode
before it divides.

* `complementFrom_chain` — for modes without gaps this sum is the only one that can overflow.
* `complement_of_fills` — what the machine returns for a layout that is a bijection onto its cells,
  and when it overflows.
* `composeInt_single` — composing with the complement that is left.
-/

variable {ε : Type} {l : Layout} {hi p T V : ℤ} {ms : List (ℤ × ℤ)}

/-- The rounded quotient overflows exactly where the sum that it divides does. -/
theorem ceilDiv_eq (hhi : 0 < hi) (hp : 0 < p) : (ceilDiv hi p : Run ε ℤ) =
    if I64.Fits (hi + p) then .ok (upDiv hi p) else Run.panic .overflow := by
  rw [ceilDiv, I64.add]
  split
  · rename_i hsum
    have hless : I64.Fits (hi + p - 1) := ⟨by omega, by have := hsum.2; omega⟩
    rw [I64.exact_of_fits hsum]
    show I64.sub (hi + p) 1 >>= (fun s => I64.div s p) = _
    rw [I64.sub, I64.exact_of_fits hless]
    exact I64.div_of_nonneg (by omega) hless hp
  · rename_i hsum
    rw [I64.exact_of_not_fits hsum]
    rfl

/-- **A chain leaves the repetitions of its span.** -/
theorem complementFrom_chain (hhi : 0 < hi) (hp : 0 < p) (hms : ms ≠ []) (hpos : Pos ms)
    (hch : Chain p ms) (hfits : I64.Fits (size ms * p)) :
    ∃ us : List (ℤ × ℤ), (∀ u ∈ us, u.1 = 1) ∧ complementFrom hi p ms =
      if I64.Fits (hi + size ms * p) then
        .ok (us ++ [(upDiv hi (size ms * p), size ms * p)])
      else Run.panic .overflow := by
  induction ms generalizing p with
  | nil => exact absurd rfl hms
  | cons m ms ih =>
    obtain ⟨hm, hpos⟩ := pos_cons.mp hpos
    obtain ⟨rfl, hch⟩ := hch
    -- one step adds the extent in front of it to the span
    have hspan : size (m :: ms) * m.2 = size ms * (m.1 * m.2) := by
      rw [size_cons]
      ring
    rw [hspan] at hfits ⊢
    have hmp := mul_pos hm hp
    have hsize := size_pos hpos
    -- every product on the way is below the last one
    have hend : I64.Fits (m.1 * m.2) := by
      have hle : 1 * (m.1 * m.2) ≤ size ms * (m.1 * m.2) :=
        Int.mul_le_mul_of_nonneg_right hsize hmp.le
      exact ⟨by omega, by have := hfits.2; omega⟩
    have hstart : I64.Fits m.2 := by
      have hle : 1 * m.2 ≤ m.1 * m.2 := Int.mul_le_mul_of_nonneg_right hm hp.le
      exact ⟨by omega, by have := hend.2; omega⟩
    have hrem : (I64.rem m.2 m.2 : Run AlgebraError ℤ) = .ok 0 := by
      rw [I64.rem_of_nonneg hp.le hstart hp, Int.emod_self]
    have hgap : (I64.div m.2 m.2 : Run AlgebraError ℤ) = .ok 1 := by
      rw [I64.div_of_nonneg hp.le hstart hp, Int.ediv_self hp.ne']
    -- the last mode leaves what is above it
    cases ms with
    | nil =>
      rw [size_nil, one_mul] at hfits ⊢
      refine ⟨[(1, m.2)], by simp, ?_⟩
      rw [complementFrom, hrem]
      show (I64.div m.2 m.2 >>= fun gap => _) = _
      rw [hgap]
      show (I64.mul m.2 m.1 >>= fun newStride => _) = _
      rw [I64.mul, mul_comm m.2 m.1, I64.exact_of_fits hend]
      show (ceilDiv hi (m.1 * m.2) >>= fun restShape => _) = _
      rw [ceilDiv_eq hhi hmp]
      split
      · rfl
      · rfl
    -- a mode in the middle leaves a unit mode, and the walk goes on
    | cons m' ms =>
      obtain ⟨us, hus, hrest⟩ := ih hmp (List.cons_ne_nil _ _) hpos hch hfits
      refine ⟨(1, m.2) :: us, List.forall_mem_cons.mpr ⟨rfl, hus⟩, ?_⟩
      show (I64.rem m.2 m.2 >>= fun r => _) = _
      rw [hrem]
      show (I64.div m.2 m.2 >>= fun gap => _) = _
      rw [hgap]
      show (I64.mul m.1 m.2 >>= fun next => _) = _
      rw [I64.mul, I64.exact_of_fits hend]
      show (complementFrom hi (m.1 * m.2) (m' :: ms) >>= fun rest => _) = _
      rw [hrest]
      split
      · rfl
      · rfl

/-! ### A bijection onto its cells -/

/-- The modes of a bijection onto its cells end within the cells. -/
theorem within_of_fills (hl : l.Valid) (hf : Fills l.flatModes l.cells) :
    ∀ m ∈ l.flatModes, m.1 ≠ 1 → Within l.cells m := by
  intro m hm hne
  have hpos := hl.pos m hm
  exact ⟨hpos, hf.moving hl.pos m hm (by omega),
    Int.le_of_dvd hl.cells_pos (dvd_cells_of_fills hl hf hm hne)⟩

/-- A layout that fills an interval is filtered without overflow. -/
theorem filter_of_fills (hl : l.Valid) (hf : Fills l.flatModes l.cells) (hfits : I64.Fits l.cells) :
    (filter l : Run ε Layout) = .ok (layoutFromFlat (merged (nonBroadcast l.flatModes))) := by
  refine coalesce_layoutFromFlat_eq hfits fun m hm hne => ?_
  obtain ⟨x, hx, rfl⟩ := List.mem_map.mp hm
  split at hne
  · exact absurd rfl hne
  · rename_i hzero
    rw [if_neg hzero]
    exact within_of_fills hl hf x hx hne

/-- A column-major layout of one mode counts the cells. -/
theorem colMajor_leaf (hfits : I64.Fits hi) :
    (Layout.colMajor (.leaf hi) : Run AlgebraError Layout) = .ok ⟨.leaf hi, .leaf 1⟩ := by
  have hspan : I64.Fits (1 * hi) := by rwa [one_mul]
  show (I64.mul 1 hi >>= _) >>= _ = _
  rw [I64.mul, I64.exact_of_fits hspan]
  rfl

/-- The complement of a single cell is everything. -/
theorem complement_nil (hhi : 0 < hi) (hhifits : I64.Fits hi) :
    (Layout.colMajor (.leaf hi) >>= coalesce : Run AlgebraError Layout) =
      .ok (layoutFromFlat (merged [(hi, 1)])) := by
  have hsingle : (coalesce (layoutFromFlat [(hi, 1)]) : Run AlgebraError Layout) = _ :=
    coalesce_layoutFromFlat_eq hhifits fun m hm _ => by
      rw [List.mem_singleton.mp hm]
      exact ⟨hhi, one_pos, (mul_one hi).le⟩
  rw [colMajor_leaf hhifits]
  exact hsingle

/-- Modes that reach more than one cell contribute something. -/
theorem contributesNothing_eq_false {m : ℤ × ℤ} {ms : List (ℤ × ℤ)} (h1 : 1 < m.1)
    (h2 : 0 < m.2) : contributesNothing (layoutFromFlat (m :: ms)).flatModes = false := by
  rw [flatModes_layoutFromFlat_cons]
  cases ms with
  | nil =>
    simp only [contributesNothing, decide_eq_false_iff_not]
    omega
  | cons m' ms => rfl

/-- **The complement of a bijection onto its cells.**  Only the sum that the ceiling division forms
can overflow, and a single cell needs none. -/
theorem complement_of_fills (hl : l.Valid) (hf : Fills l.flatModes l.cells)
    (hfits : I64.Fits l.cells) (hhi : 0 < hi) (hhifits : I64.Fits hi) : complement l hi =
      if l.cells = 1 ∨ I64.Fits (hi + l.cells) then
        .ok (layoutFromFlat (merged [(upDiv hi l.cells, l.cells)]))
      else Run.panic .overflow := by
  have hmove : Moving l.flatModes := hf.moving hl.pos
  have hmodes := sortedModes_pos hl hmove.forward
  have hpos : Pos (sortedModes l) := fun m hm => by
    have := hmodes m hm
    omega
  have hT := hl.cells_pos
  have hsize := size_sortedModes hl hmove
  have hperm : (sortedModes l).Perm (merged (nonBroadcast l.flatModes)) := perm_sortByStride _
  -- the repetitions of the span are within the endpoint and the span
  have hwithin : ∀ m : ℤ × ℤ, I64.Fits (hi + l.cells) → m = (upDiv hi l.cells, l.cells) →
      Within (hi + l.cells) m := by
    rintro _ - rfl
    exact ⟨upDiv_pos hhi hT, hT, (upDiv_mul_lt hT).le⟩
  rw [complement, filter_of_fills hl hf hfits]
  cases hms : merged (nonBroadcast l.flatModes) with
  | nil =>
    -- nothing varies: the complement is everything
    have hone : l.cells = 1 := by
      rw [hms] at hperm
      rw [← hsize, hperm.eq_nil]
      rfl
    rw [if_pos (Or.inl hone), hone, upDiv_one]
    exact complement_nil hhi hhifits
  | cons m ms =>
    rw [hms] at hperm
    have hmode := hmodes m (hperm.mem_iff.mpr List.mem_cons_self)
    have hone : l.cells ≠ 1 := by
      have hrest := size_pos (pos_cons.mp fun x hx => hpos x (hperm.mem_iff.mpr hx)).2
      rw [← hsize, size_perm hperm, size_cons]
      nlinarith
    have hsorted : sortByStride (m :: ms) = sortedModes l := by rw [sortedModes, hms]
    have hne : sortedModes l ≠ [] := by
      rintro hnil
      rw [hnil] at hperm
      exact absurd hperm.symm.eq_nil (List.cons_ne_nil _ _)
    obtain ⟨us, hus, hrun⟩ := complementFrom_chain hhi one_pos hne hpos (chain_sortedModes hl hf)
      (by rwa [mul_one, hsize])
    rw [mul_one, hsize] at hrun
    show (if contributesNothing (layoutFromFlat (m :: ms)).flatModes = true then _ else
      complementFrom hi 1 (sortByStride (layoutFromFlat (m :: ms)).flatModes) >>= _) = _
    rw [contributesNothing_eq_false hmode.1 hmode.2, flatModes_layoutFromFlat_cons, hsorted, hrun]
    by_cases hsum : I64.Fits (hi + l.cells)
    · rw [if_pos hsum, if_pos (Or.inr hsum), ← merged_append_units hus]
      refine coalesce_layoutFromFlat_eq hsum fun x hx hxne => ?_
      rcases List.mem_append.mp hx with hx | hx
      · exact absurd (hus x hx) hxne
      · exact hwithin x hsum (List.mem_singleton.mp hx)
    · rw [if_neg hsum, if_neg (not_or.mpr ⟨hone, hsum⟩)]
      rfl

/-! ### What is left -/

/-- Composing with a single mode scales the walk; a one-cell mode has lost its stride. -/
theorem composeInt_single (s q : ℤ) : composeInt (layoutFromFlat (merged [(V, T)])) s q =
    if q = 0 then .ok ⟨.leaf s, .leaf 0⟩
    else I64.mul q (if V = 1 then 0 else T) >>= fun d => .ok ⟨.leaf s, .leaf d⟩ := by
  unfold composeInt
  by_cases hV : V = 1
  · have hmerged : merged [(V, T)] = [] := by
      rw [merged, mergeOnto, if_pos hV]
      rfl
    rw [hmerged, if_pos hV]
    rfl
  · have hmerged : merged [(V, T)] = [(V, T)] := by
      rw [merged, mergeOnto, if_neg hV]
      rfl
    have hcoalesce : (coalesce (layoutFromFlat [(V, T)]) : Run AlgebraError Layout) =
        .ok (layoutFromFlat [(V, T)]) := by
      unfold coalesce
      show (coalesceFrom [] [(V, T)] >>= _) = _
      rw [coalesceFrom, if_neg hV]
      rfl
    rw [hmerged, if_neg hV, hcoalesce]
    rfl

end CudaOxide.Cute
