import CudaOxide.Cute.Swizzle
import CudaOxide.Lib.Word

namespace CudaOxide.Cute

open Lib Strided

/-!
# Tiled shared memory

`tile_to_shape` repeats an atom over a target shape (`algebra/tiling.rs`); the shared-memory
layout of SM100 is such a tiling, swizzled, and `layout.rs` evaluates it without building it.  The
builder computes in `i64`, here with overflow checks; the direct functions compute in `u32`.

* `tileToShape_grid` — a tiling of a matrix atom that fills an interval: every axis walks the
  atom first and then the copies of it.
* `sm100Plain_bijOn` — the unswizzled offsets fill an interval.
* `sm100Smem_spec` — the built layout and both direct functions are one bijection.
-/

variable {ε : Type}

/-! ### The machine functions -/

/-- The error where a target is no multiple of the atom. -/
def notAMultiple (target atomExtent : ℤ) : AlgebraError :=
  ⟨s!"tile_to_shape: target extent {target} is not a positive multiple of atom extent {atomExtent}"⟩

/-- How often each mode of the atom is repeated. -/
def tileReps : List Layout → List ℤ → Run AlgebraError (List ℤ)
  | mode :: modes, target :: targets => do
    let atomExtent ← Run.okOr mode.checkedSize ⟨"tile_to_shape: invalid atom mode size"⟩
    let refused ← (if target ≤ 0 then .ok true else do
      let r ← I64.rem target atomExtent
      .ok (r ≠ 0))
    Run.reject (refused = true) (notAMultiple target atomExtent)
    let rep ← I64.div target atomExtent
    let rest ← tileReps modes targets
    .ok (rep :: rest)
  | _, _ => .ok []

/-- The strides of the repetitions, the first axis of `order` fastest. -/
def tileStrides (reps : List ℤ) (seen : List Bool) (repStrides : List ℤ) (running : ℤ) :
    List ℕ → Run AlgebraError (List ℤ)
  | [] => .ok repStrides
  | axis :: order => do
    let again ← (if reps.length ≤ axis then .ok true else Run.index seen axis)
    Run.reject (again = true) ⟨"tile_to_shape: order must be a permutation of 0..rank"⟩
    let rep ← Run.index reps axis
    let next ← Run.okOr (I64.checkedMul running rep) ⟨"tile_to_shape: repetition product overflow"⟩
    tileStrides reps (seen.set axis true) (repStrides.set axis running) next order

/-- Repeat an atom to cover a shape, keeping atom and repetition apart in every axis. -/
def tileToShape [Build] (atom : Layout) (targetShape : List ℤ) (order : List ℕ) :
    Run AlgebraError Layout := do
  let n := atom.modes.length
  Run.reject (targetShape.length ≠ n ∨ order.length ≠ n)
    ⟨s!"tile_to_shape: atom rank {n}, target_shape len {targetShape.length}, " ++
      s!"order len {order.length} must match"⟩
  let reps ← tileReps atom.modes targetShape
  let repStrides ← tileStrides reps (List.replicate n false) (List.replicate n 0) 1 order
  let repLayout ← Layout.new (.tuple (reps.map .leaf)) (.tuple (repStrides.map .leaf))
  let lp ← logicalProduct atom repLayout
  let block ← Run.index lp.modes 0
  let rep ← Run.index lp.modes 1
  .ok (Layout.fromModes
    (List.zipWith (fun bm rm => Layout.fromModes [bm, rm]) block.modes rep.modes))

/-- The swizzled shared-memory layout of SM100. -/
def sm100SmemLayout [Build] (rows cols : ℕ) (mn : Bool) : Run String ComposedLayout := do
  let contiguous := if mn then rows else cols
  let outer := if mn then cols else rows
  Run.reject (contiguous < 32 ∨ (contiguous ≠ 32 ∧ ¬64 ∣ contiguous) ∨ outer = 0 ∨ ¬8 ∣ outer)
    "SM100 shared layout needs contiguous 32 or a multiple of 64 and outer multiple of 8"
  let span : ℤ := (min contiguous 64 : ℕ)
  let atom ← (if mn then Layout.colMajor (.tuple [.leaf span, .leaf 8])
    else Layout.rowMajor (.tuple [.leaf 8, .leaf span]))
  let order := if mn then [1, 0] else [0, 1]
  let outerLayout ← (tileToShape atom [rows, cols] order).mapErr toString
  let bits := if span = 32 then 2 else 3
  -- `Swizzle::new`
  Run.assert (Swizzle.mk bits 3 3).Valid
  (ComposedLayout.new ⟨bits, 3, 3⟩ 0 outerLayout .elements).mapErr toString

/-- The tail that both direct evaluators share. -/
def sm100Evaluate (span outerExtent yMask inner outer : ℕ) : Run ε ℕ := do
  let innerInSpan := if span = 32 then inner &&& 31 else inner &&& 63
  let spanIdx := if span = 32 then inner >>> 5 else inner >>> 6
  let tile ← Word.U32.mul span outerExtent
  let tiles ← Word.U32.mul spanIdx tile
  let lines ← Word.U32.mul outer span
  let sum ← Word.U32.add tiles lines
  let plain ← Word.U32.add sum innerInSpan
  .ok (plain ^^^ ((plain &&& yMask) >>> 3))

/-- `sm100_smem_crd2idx_with_extents` -/
def sm100SmemCrd2idxWithExtents (row col rows cols : ℕ) (mnMajor : Bool) : Run ε ℕ :=
  let contiguous := if mnMajor then rows else cols
  let outerExtent := if mnMajor then cols else rows
  let span := if contiguous = 32 then 32 else 64
  let yMask := if span = 32 then 3 <<< 6 else 7 <<< 6
  let inner := if mnMajor then row else col
  let outer := if mnMajor then col else row
  sm100Evaluate span outerExtent yMask inner outer

/-- The extents are compile-time constants, and so are the assertions on them. -/
def sm100SmemCrd2idx (rows cols : ℕ) (mnMajor : Bool) (row col : ℕ) : Run ε ℕ := do
  let contiguous := if mnMajor then rows else cols
  let outerExtent := if mnMajor then cols else rows
  Run.assert (32 ≤ contiguous ∧ 32 ∣ contiguous)
  Run.assert (0 < outerExtent ∧ 8 ∣ outerExtent)
  Run.assert (contiguous = 32 ∨ 64 ∣ contiguous)
  let span := if contiguous = 32 then 32 else 64
  let swizzleBits := if span = 32 then 2 else 3
  Run.assert (Swizzle.mk swizzleBits 3 3).Valid
  let yMask := (Swizzle.mk swizzleBits 3 3).yMask.toNat
  let inner := if mnMajor then row else col
  let outer := if mnMajor then col else row
  sm100Evaluate span outerExtent yMask inner outer

/-! ### Tilings of a matrix -/

/-- A two-mode layout. -/
def grid (shape stride : ℤ × ℤ) : Layout :=
  ⟨.tuple [.leaf shape.1, .leaf shape.2], .tuple [.leaf stride.1, .leaf stride.2]⟩

variable {a b : ℤ}

/-- The columns of a grid are an enumeration of it. -/
theorem enumerates_grid_colMajor (ha : 0 < a) (hb : 0 < b) : Enumerates (grid (a, b) (1, a)) := by
  have hpos : Pos (grid (a, b) (1, a)).flatModes := by
    show Pos [(a, 1), (b, a)]
    simp [ha, hb]
  refine ⟨⟨rfl, hpos⟩, ?_, ?_⟩
  · show Nonneg [(a, 1), (b, a)]
    simp [ha.le]
  · have hchain : Chain 1 [(a, 1), (b, a)] := by simp
    exact hchain.fills hpos

/-- So are the rows. -/
theorem enumerates_grid_rowMajor (ha : 0 < a) (hb : 0 < b) : Enumerates (grid (a, b) (b, 1)) := by
  have hswap : [(a, b), (b, 1)].Perm [(b, 1), (a, b)] := List.Perm.swap _ _ _
  have hpos : Pos [(a, b), (b, 1)] := by simp [ha, hb]
  refine ⟨⟨rfl, hpos⟩, ?_, ?_⟩
  · show Nonneg [(a, b), (b, 1)]
    simp [hb.le]
  · have hchain : Chain 1 [(b, 1), (a, b)] := by simp
    have hcells : (grid (a, b) (b, 1)).cells = size [(b, 1), (a, b)] := size_perm hswap
    rw [hcells]
    show Fills [(a, b), (b, 1)] _
    rw [fills_perm hpos hswap]
    exact hchain.fills (by simp [ha, hb])

/-- The product of an enumeration with a grid that enumerates its copies. -/
theorem logicalProduct_grid {l lp : Layout} {r s : ℤ × ℤ} (hl : Enumerates l)
    (hr : Enumerates (grid r s)) (h : logicalProduct l (grid r s) = .ok lp) :
    I64.Fits (l.cells * (r.1 * r.2)) ∧
      lp = Layout.fromModes [l, grid r (s.1 * copyStride l.cells (r.1 * r.2),
        s.2 * copyStride l.cells (r.1 * r.2))] := by
  have hcells : (grid r s).cells = r.1 * r.2 := by
    show r.1 * (r.2 * 1) = r.1 * r.2
    rw [mul_one]
  obtain ⟨n, hn, hprod⟩ := Run.bind_eq_ok.mp h
  obtain ⟨copies, hcopies, hprod⟩ := Run.bind_eq_ok.mp hprod
  obtain ⟨hi, hhi, hprod⟩ := Run.bind_eq_ok.mp hprod
  obtain rfl := (Layout.size_implements hl.valid.congruent).eq_of_ok hn
  obtain rfl := (Layout.cosize_implements hr.valid).eq_of_ok hcopies
  rw [hr.offset_last, sub_add_cancel, hcells] at hhi
  have hfits : I64.Fits (l.cells * (r.1 * r.2)) := by
    by_contra hover
    rw [I64.mul, I64.exact, if_neg hover] at hhi
    cases hhi
  refine ⟨hfits, ?_⟩
  obtain ⟨hr₁, hr₂, -⟩ : 0 < r.1 ∧ 0 < r.2 ∧ True := by
    have hpos : Pos [(r.1, s.1), (r.2, s.2)] := hr.valid.pos
    simpa using hpos
  obtain ⟨hs₁, hs₂, -⟩ : 0 ≤ s.1 ∧ 0 ≤ s.2 ∧ True := by
    have hnn : Nonneg [(r.1, s.1), (r.2, s.2)] := hr.nonneg
    simpa using hnn
  have hV : 0 < r.1 * r.2 := mul_pos hr₁ hr₂
  set comp := layoutFromFlat (merged [(r.1 * r.2, l.cells)])
  have hvalid : comp.Valid := valid_layoutFromFlat (merged_pos (by simp [hV]))
  -- every leaf of the grid is scaled
  have hleaf : ∀ m : ℤ × ℤ, 0 < m.1 → 0 ≤ m.2 →
      (compositionTree comp (.leaf m.1) (.leaf m.2)).Implements
        (.ok ⟨.leaf m.1, .leaf (m.2 * copyStride l.cells (r.1 * r.2))⟩) := by
    intro m hm₁ hm₂
    have hrun := composeInt_implements hvalid hm₁ hm₂
    rw [composedLeaf_copies hV] at hrun
    exact hrun
  have hcomp : (composition comp (grid r s)).Implements (.ok (grid r
      (s.1 * copyStride l.cells (r.1 * r.2), s.2 * copyStride l.cells (r.1 * r.2)))) := by
    have hall : (compositionAll comp [.leaf r.1, .leaf r.2] [.leaf s.1, .leaf s.2]).Implements
        (.ok [⟨.leaf r.1, .leaf (s.1 * copyStride l.cells (r.1 * r.2))⟩,
          ⟨.leaf r.2, .leaf (s.2 * copyStride l.cells (r.1 * r.2))⟩]) := by
      refine (hleaf (r.1, s.1) hr₁ hs₁).bind_ok ?_
      have hlast : (compositionAll comp [.leaf r.2] [.leaf s.2]).Implements
          (.ok [⟨.leaf r.2, .leaf (s.2 * copyStride l.cells (r.1 * r.2))⟩]) :=
        (hleaf (r.2, s.2) hr₂ hs₂).bind_ok (.ok _)
      exact hlast.bind_ok (.ok _)
    exact hall.bind_ok (.ok _)
  have himpl : (logicalProduct l (grid r s)).Implements (.ok (Layout.fromModes [l, grid r
      (s.1 * copyStride l.cells (r.1 * r.2), s.2 * copyStride l.cells (r.1 * r.2))])) := by
    refine (Layout.size_implements hl.valid.congruent).bind_ok ?_
    refine (Layout.cosize_implements hr.valid).bind_ok ?_
    rw [hr.offset_last, sub_add_cancel, hcells]
    refine (I64.mul_implements _ _).bind_ok ?_
    refine (complement_implements_of_fills hl.valid rfl hV hl.fills).bind_ok ?_
    exact hcomp.bind_ok (.ok _)
  exact himpl.eq_of_ok h

/-! ### The steps of a tiling -/

/-- One round of the loop that counts the repetitions. -/
theorem tileReps_cons_ok {mode : Layout} {modes : List Layout} {e target : ℤ}
    {targets reps : List ℤ}
    (hmode : mode.checkedSize = some e) (he : 0 < e)
    (h : tileReps (mode :: modes) (target :: targets) = .ok reps) :
    0 < target ∧ e ∣ target ∧ ∃ rest, tileReps modes targets = .ok rest ∧
      reps = target / e :: rest := by
  rw [tileReps, hmode] at h
  obtain ⟨_, h₁, h⟩ := Run.bind_eq_ok.mp h
  obtain rfl := Option.some.inj (Run.okOr_eq_ok.mp h₁)
  obtain ⟨refused, hrefused, h⟩ := Run.bind_eq_ok.mp h
  obtain ⟨_, hreject, h⟩ := Run.bind_eq_ok.mp h
  obtain ⟨rep, hrep, h⟩ := Run.bind_eq_ok.mp h
  obtain ⟨rest, hrest, h⟩ := Run.bind_eq_ok.mp h
  have haccept := Run.reject_eq_ok.mp hreject
  by_cases hle : target ≤ 0
  · rw [if_pos hle] at hrefused
    cases hrefused
    exact absurd rfl haccept
  · rw [if_neg hle] at hrefused
    obtain ⟨r, hr, hrefused⟩ := Run.bind_eq_ok.mp hrefused
    obtain rfl := (I64.rem_implements target he.ne').eq_of_ok hr
    obtain rfl := (I64.div_implements target he.ne').eq_of_ok hrep
    have hr0 : target.tmod e = 0 := by
      by_contra hne
      apply haccept
      rw [← Except.ok.inj hrefused]
      exact decide_eq_true hne
    refine ⟨by omega, Int.dvd_of_tmod_eq_zero hr0, rest, hrest, ?_⟩
    rw [← Except.ok.inj h, Int.tdiv_eq_ediv_of_nonneg (by omega)]

/-- One round of the loop over the order: an axis takes the running stride. -/
theorem tileStrides_cons_ok {reps strides result : List ℤ} {seen : List Bool} {running : ℤ}
    {axis : ℕ} {order : List ℕ}
    (h : tileStrides reps seen strides running (axis :: order) = .ok result) :
    ∃ rep, reps[axis]? = some rep ∧
      tileStrides reps (seen.set axis true) (strides.set axis running) (running * rep) order =
        .ok result := by
  obtain ⟨_, _, h⟩ := Run.bind_eq_ok.mp h
  obtain ⟨_, _, h⟩ := Run.bind_eq_ok.mp h
  obtain ⟨rep, hrep, h⟩ := Run.bind_eq_ok.mp h
  obtain ⟨next, hnext, h⟩ := Run.bind_eq_ok.mp h
  obtain ⟨-, rfl⟩ := I64.checkedMul_eq_some.mp (Run.okOr_eq_ok.mp hnext)
  exact ⟨rep, Run.index_eq_ok.mp hrep, h⟩

/-- The atom walks each axis first, then the copies of it. -/
def tiling (e r d s : ℤ × ℤ) : Layout :=
  Layout.fromModes [grid (e.1, r.1) (d.1, s.1), grid (e.2, r.2) (d.2, s.2)]

/-- The strides of the copies, in the unit of a whole atom. -/
def copyOrder (mn : Bool) (r : ℤ × ℤ) : ℤ × ℤ := if mn then (r.2, 1) else (1, r.1)

/-- The copies are enumerated in either order. -/
theorem enumerates_copyOrder {r : ℤ × ℤ} (hr₁ : 0 < r.1) (hr₂ : 0 < r.2) (mn : Bool) :
    Enumerates (grid r (copyOrder mn r)) := by
  cases mn with
  | false => exact enumerates_grid_colMajor hr₁ hr₂
  | true => exact enumerates_grid_rowMajor hr₁ hr₂

/-- **The tiling of a matrix atom.** -/
theorem tileToShape_grid {e d t : ℤ × ℤ} {mn : Bool} {l : Layout} (hatom : Enumerates (grid e d))
    (h : tileToShape (grid e d) [t.1, t.2] (if mn then [1, 0] else [0, 1]) = .ok l) :
    ∃ r k, 0 < r.1 ∧ 0 < r.2 ∧ t.1 = e.1 * r.1 ∧ t.2 = e.2 * r.2 ∧
      I64.Fits (e.1 * e.2 * (r.1 * r.2)) ∧ k = copyStride (e.1 * e.2) (r.1 * r.2) ∧
      l = tiling e r d ((copyOrder mn r).1 * k, (copyOrder mn r).2 * k) := by
  obtain ⟨he₁, he₂, -⟩ : 0 < e.1 ∧ 0 < e.2 ∧ True := by
    have hpos : Pos [(e.1, d.1), (e.2, d.2)] := hatom.valid.pos
    simpa using hpos
  have hcells : (grid e d).cells = e.1 * e.2 := by
    show e.1 * (e.2 * 1) = e.1 * e.2
    rw [mul_one]
  obtain ⟨_, _, h⟩ := Run.bind_eq_ok.mp h
  obtain ⟨reps, hreps, h⟩ := Run.bind_eq_ok.mp h
  obtain ⟨strides, hstrides, h⟩ := Run.bind_eq_ok.mp h
  obtain ⟨repLayout, hrepLayout, h⟩ := Run.bind_eq_ok.mp h
  obtain ⟨lp, hlp, h⟩ := Run.bind_eq_ok.mp h
  obtain ⟨block, hblock, h⟩ := Run.bind_eq_ok.mp h
  obtain ⟨rep, hrep, h⟩ := Run.bind_eq_ok.mp h
  -- the repetitions
  have hmode : ∀ {x y : ℤ}, 0 < x → (Layout.mk (.leaf x) (.leaf y)).checkedSize = some x :=
    fun hx => if_pos hx
  obtain ⟨ht₁, ⟨r₁, hr₁⟩, _, htail, rfl⟩ := tileReps_cons_ok (hmode he₁) he₁ hreps
  obtain ⟨ht₂, ⟨r₂, hr₂⟩, _, hnil, rfl⟩ := tileReps_cons_ok (hmode he₂) he₂ htail
  cases hnil
  have hr₁0 : 0 < r₁ := pos_of_mul_pos_right (hr₁ ▸ ht₁) he₁.le
  have hr₂0 : 0 < r₂ := pos_of_mul_pos_right (hr₂ ▸ ht₂) he₂.le
  have hdiv₁ : t.1 / e.1 = r₁ := by rw [hr₁, Int.mul_ediv_cancel_left _ he₁.ne']
  have hdiv₂ : t.2 / e.2 = r₂ := by rw [hr₂, Int.mul_ediv_cancel_left _ he₂.ne']
  rw [hdiv₁, hdiv₂] at hstrides hrepLayout
  have hgrid : repLayout = grid (r₁, r₂) (copyOrder mn (r₁, r₂)) := by
    obtain ⟨_, _, hrepLayout⟩ := Run.bind_eq_ok.mp hrepLayout
    rw [← Except.ok.inj hrepLayout]
    cases mn with
    | false =>
      obtain ⟨x, hx, hstrides⟩ := tileStrides_cons_ok hstrides
      obtain ⟨y, hy, hstrides⟩ := tileStrides_cons_ok hstrides
      cases hx
      cases hy
      cases hstrides
      rw [one_mul]
      rfl
    | true =>
      obtain ⟨x, hx, hstrides⟩ := tileStrides_cons_ok hstrides
      obtain ⟨y, hy, hstrides⟩ := tileStrides_cons_ok hstrides
      cases hx
      cases hy
      cases hstrides
      rw [one_mul]
      rfl
  rw [hgrid] at hlp
  have hcopies := enumerates_copyOrder (r := (r₁, r₂)) hr₁0 hr₂0 mn
  obtain ⟨hfits, rfl⟩ := logicalProduct_grid hatom hcopies hlp
  rw [hcells] at hfits hblock hrep
  cases hblock
  cases hrep
  cases h
  exact ⟨(r₁, r₂), _, hr₁0, hr₂0, hr₁, hr₂, hfits, rfl, rfl⟩

/-- A single copy is at place zero whatever its stride. -/
theorem mul_copyStride {i T V r : ℤ} (h0 : 0 ≤ i) (hi : i < r) (hr : r ∣ V) (hV : 0 < V) :
    i * copyStride T V = i * T := by
  unfold copyStride
  split
  · rename_i hone
    have hr1 : r ≤ 1 := by
      rw [← hone]
      exact Int.le_of_dvd hV hr
    rw [show i = 0 by omega, zero_mul, zero_mul]
  · rfl

/-- The stride of the copies is not negative. -/
theorem copyStride_nonneg {T V : ℤ} (hT : 0 ≤ T) : 0 ≤ copyStride T V := by
  unfold copyStride
  split
  · exact le_rfl
  · exact hT

/-! ### Evaluating a tiling -/

/-- One axis of a tiling. -/
theorem checkedCrd2idx_axis {e r d s c : ℤ} (he : 0 < e) (h0 : 0 ≤ c) (hc : c < e * r)
    (hd : 0 ≤ d) (hs : 0 ≤ s) (hsize : e * r ≤ 9223372036854775807)
    (hmax : c % e * d + c / e * s ≤ 9223372036854775807) :
    checkedCrd2idx (.leaf c) (grid (e, r) (d, s)).shape (grid (e, r) (d, s)).stride =
      some (c % e * d + c / e * s) := by
  have hmod0 : 0 ≤ c % e := Int.emod_nonneg _ he.ne'
  have hmod : c % e < e := Int.emod_lt_of_pos _ he
  have hdiv0 : 0 ≤ c / e := Int.ediv_nonneg h0 he.le
  have hdiv : c / e < r := Int.ediv_lt_of_lt_mul he (by rwa [mul_comm])
  have hr : 0 < r := by omega
  have hlow := mul_nonneg hmod0 hd
  have hhigh := mul_nonneg hdiv0 hs
  have her := mul_pos he hr
  have hr_le : r ≤ e * r := le_mul_of_one_le_left hr.le he
  have he_le : e ≤ e * r := le_mul_of_one_le_right he.le hr
  have hfit : ∀ {x : ℤ}, 0 ≤ x → x ≤ 9223372036854775807 → I64.Fits x := by
    intro x hx0 hx
    exact ⟨by omega, hx⟩
  have hone : I64.checkedMul 1 e = some e :=
    I64.checkedMul_eq_some.mpr ⟨by rw [one_mul]; exact hfit he.le (by omega), one_mul e⟩
  have htotal : I64.checkedMul e r = some (e * r) :=
    I64.checkedMul_eq_some.mpr ⟨hfit her.le hsize, rfl⟩
  have hfirst : I64.checkedMul (c % e) d = some (c % e * d) :=
    I64.checkedMul_eq_some.mpr ⟨hfit hlow (by omega), rfl⟩
  have hsecond : I64.checkedMul (c / e) s = some (c / e * s) :=
    I64.checkedMul_eq_some.mpr ⟨hfit hhigh (by omega), rfl⟩
  have hzero : I64.checkedAdd 0 (c % e * d) = some (c % e * d) :=
    I64.checkedAdd_eq_some.mpr ⟨by rw [zero_add]; exact hfit hlow (by omega), zero_add _⟩
  have hsum : I64.checkedAdd (c % e * d) (c / e * s) = some (c % e * d + c / e * s) :=
    I64.checkedAdd_eq_some.mpr ⟨hfit (by omega) hmax, rfl⟩
  simp only [grid, checkedCrd2idx, checkedCrd2idxFlat, checkedTupleSizeFrom, checkedTupleSize,
    List.length_cons, List.length_nil, Option.bind_eq_bind, Option.bind_some, he, hr, hone, htotal,
    if_true, h0, hc, true_and, List.isEmpty_cons, List.isEmpty_nil, Bool.false_eq_true, if_false,
    Int.tmod_eq_emod_of_nonneg h0, Int.tdiv_eq_ediv_of_nonneg h0, hmod0, hmod, hdiv0, hdiv,
    hfirst, hsecond, hzero, hsum]

/-- The offset of a coordinate is the one in the atom and that of the copy. -/
theorem checkedCall_tiling {e r d s : ℤ × ℤ} {i j v : ℤ} (he₁ : 0 < e.1) (he₂ : 0 < e.2)
    (hi0 : 0 ≤ i) (hi : i < e.1 * r.1) (hj0 : 0 ≤ j) (hj : j < e.2 * r.2)
    (hd₁ : 0 ≤ d.1) (hd₂ : 0 ≤ d.2) (hs₁ : 0 ≤ s.1) (hs₂ : 0 ≤ s.2)
    (hsize : e.1 * r.1 * (e.2 * r.2) ≤ 9223372036854775807)
    (hv : i % e.1 * d.1 + i / e.1 * s.1 + (j % e.2 * d.2 + j / e.2 * s.2) = v)
    (hmax : v ≤ 9223372036854775807) :
    (tiling e r d s).checkedCall (.tuple [.leaf i, .leaf j]) = some v := by
  subst hv
  have h₁ : 0 ≤ i % e.1 * d.1 + i / e.1 * s.1 :=
    add_nonneg (mul_nonneg (Int.emod_nonneg _ he₁.ne') hd₁)
      (mul_nonneg (Int.ediv_nonneg hi0 he₁.le) hs₁)
  have h₂ : 0 ≤ j % e.2 * d.2 + j / e.2 * s.2 :=
    add_nonneg (mul_nonneg (Int.emod_nonneg _ he₂.ne') hd₂)
      (mul_nonneg (Int.ediv_nonneg hj0 he₂.le) hs₂)
  have hsize₁ : e.1 * r.1 ≤ e.1 * r.1 * (e.2 * r.2) :=
    le_mul_of_one_le_right (by omega) (by omega)
  have hsize₂ : e.2 * r.2 ≤ e.1 * r.1 * (e.2 * r.2) :=
    le_mul_of_one_le_left (by omega) (by omega)
  have hfirst := checkedCrd2idx_axis he₁ hi0 hi hd₁ hs₁ (by omega) (by omega)
  have hsecond := checkedCrd2idx_axis he₂ hj0 hj hd₂ hs₂ (by omega) (by omega)
  have hzero : I64.checkedAdd 0 (i % e.1 * d.1 + i / e.1 * s.1) =
      some (i % e.1 * d.1 + i / e.1 * s.1) :=
    I64.checkedAdd_eq_some.mpr ⟨by rw [zero_add]; exact ⟨by omega, by omega⟩, zero_add _⟩
  have hsum : I64.checkedAdd (i % e.1 * d.1 + i / e.1 * s.1) (j % e.2 * d.2 + j / e.2 * s.2) =
      some (i % e.1 * d.1 + i / e.1 * s.1 + (j % e.2 * d.2 + j / e.2 * s.2)) :=
    I64.checkedAdd_eq_some.mpr ⟨⟨by omega, hmax⟩, rfl⟩
  show checkedCrd2idxTuple 0 [.leaf i, .leaf j] [_, _] [_, _] = _
  simp only [checkedCrd2idxTuple, hfirst, hsecond, hzero, hsum, Option.bind_eq_bind,
    Option.bind_some]

/-! ### The unswizzled offsets -/

/-- Spans of the contiguous axis, one after the other, each a matrix of lines. -/
def sm100Plain (span outerExtent inner outer : ℕ) : ℕ :=
  inner / span * (span * outerExtent) + (outer * span + inner % span)

variable {span contiguous outerExtent inner outer : ℕ}

/-- A line and the place in it stay below the next line's end. -/
theorem sm100Plain_line_lt (inner : ℕ) (hspan : 0 < span) (houter : outer < outerExtent) :
    outer * span + inner % span < span * outerExtent := by
  have hmod := Nat.mod_lt inner hspan
  calc outer * span + inner % span < (outer + 1) * span := by
        rw [Nat.add_mul]
        omega
    _ ≤ outerExtent * span := Nat.mul_le_mul_right _ houter
    _ = span * outerExtent := Nat.mul_comm _ _

/-- The unswizzled offset is inside the buffer. -/
theorem sm100Plain_lt (hspan : 0 < span) (hdvd : span ∣ contiguous) (hinner : inner < contiguous)
    (houter : outer < outerExtent) :
    sm100Plain span outerExtent inner outer < contiguous * outerExtent := by
  obtain ⟨n, rfl⟩ := hdvd
  have hline := sm100Plain_line_lt inner hspan houter
  have hquot : inner / span + 1 ≤ n := Nat.div_lt_of_lt_mul hinner
  calc sm100Plain span outerExtent inner outer
      < (inner / span + 1) * (span * outerExtent) := by
        rw [sm100Plain, Nat.add_mul]
        omega
    _ ≤ n * (span * outerExtent) := Nat.mul_le_mul_right _ hquot
    _ = span * n * outerExtent := by ring

/-- **The unswizzled offsets fill an interval.** -/
theorem sm100Plain_bijOn (hspan : 0 < span) (hdvd : span ∣ contiguous) :
    Set.BijOn (fun p : ℕ × ℕ => sm100Plain span outerExtent p.1 p.2)
      (Set.Iio contiguous ×ˢ Set.Iio outerExtent) (Set.Iio (contiguous * outerExtent)) := by
  -- span, line and place are the digits of an offset
  have hdigits : ∀ {i o : ℕ}, o < outerExtent →
      sm100Plain span outerExtent i o / (span * outerExtent) = i / span ∧
        sm100Plain span outerExtent i o % (span * outerExtent) = o * span + i % span := by
    intro i o ho
    have hline := sm100Plain_line_lt i hspan ho
    have hpos : 0 < span * outerExtent := by omega
    rw [sm100Plain, Nat.mul_comm (i / span)]
    constructor
    · rw [Nat.mul_add_div hpos, Nat.div_eq_of_lt hline, Nat.add_zero]
    · rw [Nat.mul_add_mod, Nat.mod_eq_of_lt hline]
  refine ⟨?_, ?_, ?_⟩
  · rintro ⟨i, o⟩ ⟨hi, ho⟩
    exact sm100Plain_lt hspan hdvd hi ho
  · rintro ⟨i, o⟩ ⟨-, ho⟩ ⟨i', o'⟩ ⟨-, ho'⟩ heq
    have heq : sm100Plain span outerExtent i o = sm100Plain span outerExtent i' o' := heq
    obtain ⟨hspanIdx, hline⟩ := hdigits (i := i) ho
    obtain ⟨hspanIdx', hline'⟩ := hdigits (i := i') ho'
    rw [heq] at hspanIdx hline
    have hquot : i / span = i' / span := hspanIdx.symm.trans hspanIdx'
    have hsame : o * span + i % span = o' * span + i' % span := hline.symm.trans hline'
    have hplace : i % span = i' % span := by
      have h := congrArg (· % span) hsame
      simpa [Nat.add_mod] using h
    have hlineIdx : o = o' := by
      rw [hplace] at hsame
      exact Nat.eq_of_mul_eq_mul_right hspan (Nat.add_right_cancel hsame)
    rw [← Nat.div_add_mod i span, ← Nat.div_add_mod i' span, hquot, hplace, hlineIdx]
  · intro y hy
    obtain ⟨n, rfl⟩ := hdvd
    have hy : y < span * n * outerExtent := hy
    have hpos : 0 < span * outerExtent := by
      by_contra hzero
      rw [Nat.mul_right_comm, Nat.eq_zero_of_not_pos hzero, Nat.zero_mul] at hy
      exact absurd hy (Nat.not_lt_zero y)
    set z := y % (span * outerExtent) with hz
    have hzlt : z < span * outerExtent := Nat.mod_lt _ hpos
    have hplace := Nat.mod_lt z hspan
    have hspanIdx : y / (span * outerExtent) < n :=
      Nat.div_lt_of_lt_mul (by rw [Nat.mul_right_comm]; exact hy)
    refine ⟨(span * (y / (span * outerExtent)) + z % span, z / span), ⟨?_, ?_⟩, ?_⟩
    · show span * (y / (span * outerExtent)) + z % span < span * n
      calc span * (y / (span * outerExtent)) + z % span
          < span * (y / (span * outerExtent) + 1) := by
            rw [Nat.mul_add]
            omega
        _ ≤ span * n := Nat.mul_le_mul_left _ hspanIdx
    · exact Nat.div_lt_of_lt_mul hzlt
    · show sm100Plain span outerExtent (span * (y / (span * outerExtent)) + z % span) (z / span) = y
      rw [sm100Plain, Nat.mul_add_div hspan, Nat.div_eq_of_lt hplace, Nat.add_zero,
        Nat.mul_add_mod, Nat.mod_mod, Nat.mul_comm (z / span), Nat.div_add_mod, hz, Nat.mul_comm,
        Nat.div_add_mod]

/-! ### The direct evaluators -/

/-- The swizzle of a span. -/
def sm100Swizzle (span : ℕ) : Swizzle := ⟨if span = 32 then 2 else 3, 3, 3⟩

/-- The swizzles of both spans are valid. -/
theorem sm100Swizzle_valid (span : ℕ) : (sm100Swizzle span).Valid := by
  unfold sm100Swizzle
  split
  · decide
  · decide

/-- Their masks are the ones that the direct functions use. -/
theorem sm100Swizzle_mask (span : ℕ) :
    (sm100Swizzle span).mask = if span = 32 then 3 <<< 6 else 7 <<< 6 := by
  unfold sm100Swizzle
  split
  · decide
  · decide

/-- Lines are multiples of what the swizzle changes. -/
theorem sm100Swizzle_targetEnd_dvd (span : ℕ) : 2 ^ (sm100Swizzle span).targetEnd ∣ 64 := by
  unfold sm100Swizzle
  split
  · decide
  · decide

/-- The offset of an item: its place among the spans, swizzled. -/
def sm100Offset (span outerExtent inner outer : ℕ) : ℕ :=
  sm100Plain span outerExtent inner outer ^^^
    (sm100Swizzle span).moved (sm100Plain span outerExtent inner outer)

/-- The direct evaluation does not overflow below `2 ^ 32`. -/
theorem sm100Evaluate_eq (hspan : span = 32 ∨ span = 64) (hdvd : span ∣ contiguous)
    (hfit : contiguous * outerExtent < 2 ^ 32) (hinner : inner < contiguous)
    (houter : outer < outerExtent) :
    (sm100Evaluate span outerExtent (sm100Swizzle span).mask inner outer : Run ε ℕ) =
      .ok (sm100Offset span outerExtent inner outer) := by
  have hpos : 0 < span := by omega
  have hplain := sm100Plain_lt hpos hdvd hinner houter
  have hdef : sm100Plain span outerExtent inner outer =
      inner / span * (span * outerExtent) + (outer * span + inner % span) := rfl
  have htile : span * outerExtent ≤ contiguous * outerExtent :=
    Nat.mul_le_mul_right _ (Nat.le_of_dvd (by omega) hdvd)
  have hmask : (if span = 32 then inner &&& 31 else inner &&& 63) = inner % span := by
    rcases hspan with rfl | rfl
    · exact Nat.and_two_pow_sub_one_eq_mod inner 5
    · exact Nat.and_two_pow_sub_one_eq_mod inner 6
  have hshift : (if span = 32 then inner >>> 5 else inner >>> 6) = inner / span := by
    rcases hspan with rfl | rfl
    · exact Nat.shiftRight_eq_div_pow inner 5
    · exact Nat.shiftRight_eq_div_pow inner 6
  unfold sm100Evaluate
  rw [hmask, hshift]
  show (do let tile ← Word.U32.mul span outerExtent; _) = _
  rw [Word.U32.mul_eq_ok.mpr ⟨by omega, rfl⟩]
  show (do let tiles ← Word.U32.mul (inner / span) (span * outerExtent); _) = _
  rw [Word.U32.mul_eq_ok.mpr ⟨by omega, rfl⟩]
  show (do let lines ← Word.U32.mul outer span; _) = _
  rw [Word.U32.mul_eq_ok.mpr ⟨by omega, rfl⟩]
  show (do let sum ← Word.U32.add (inner / span * (span * outerExtent)) (outer * span); _) = _
  rw [Word.U32.add_eq_ok.mpr ⟨by omega, rfl⟩]
  show (do
    let plain ← Word.U32.add (inner / span * (span * outerExtent) + outer * span) (inner % span)
    _) = _
  rw [Word.U32.add_eq_ok.mpr ⟨by omega, Nat.add_assoc _ _ _⟩]
  rfl

/-! ### The built layout -/

/-- What `sm100_smem_layout` asks of the extents. -/
structure Sm100Extents (contiguous outerExtent : ℕ) : Prop where
  contiguous_eq : contiguous = 32 ∨ 64 ∣ contiguous
  contiguous_pos : 0 < contiguous
  outer_pos : 0 < outerExtent
  outer_dvd : 8 ∣ outerExtent

/-- The length of a span. -/
def sm100Span (contiguous : ℕ) : ℕ := if contiguous = 32 then 32 else 64

namespace Sm100Extents

/-- The span is one of two. -/
theorem span_eq (contiguous : ℕ) : sm100Span contiguous = 32 ∨ sm100Span contiguous = 64 := by
  unfold sm100Span
  split
  · exact Or.inl rfl
  · exact Or.inr rfl

/-- It divides the extent that is contiguous. -/
theorem span_dvd (h : Sm100Extents contiguous outerExtent) :
    sm100Span contiguous ∣ contiguous := by
  unfold sm100Span
  split
  · rename_i heq
    rw [heq]
  · exact h.contiguous_eq.resolve_left ‹_›

/-- The swizzled offsets fill an interval too. -/
theorem bijOn (h : Sm100Extents contiguous outerExtent) :
    Set.BijOn (fun p : ℕ × ℕ => sm100Offset (sm100Span contiguous) outerExtent p.1 p.2)
      (Set.Iio contiguous ×ˢ Set.Iio outerExtent) (Set.Iio (contiguous * outerExtent)) := by
  have hpos : 0 < sm100Span contiguous := by
    rcases span_eq contiguous with heq | heq
    · omega
    · omega
  have hfields : 64 ∣ contiguous * outerExtent := by
    have h32 : 32 ∣ contiguous := by
      rcases h.contiguous_eq with heq | hdvd
      · rw [heq]
      · exact Dvd.dvd.trans (by decide) hdvd
    exact Dvd.dvd.trans (by decide) (Nat.mul_dvd_mul h32 h.outer_dvd)
  have hswizzle := Swizzle.bijOn_xor_moved (sm100Swizzle_valid (sm100Span contiguous))
    ((sm100Swizzle_targetEnd_dvd _).trans hfields)
  exact hswizzle.comp (sm100Plain_bijOn hpos h.span_dvd)

end Sm100Extents

/-- The contiguous axis of an extent or a coordinate, and the other one. -/
def sm100Inner (mn : Bool) (row col : ℕ) : ℕ := if mn then row else col

/-- The coordinate across the lines. -/
def sm100Outer (mn : Bool) (row col : ℕ) : ℕ := if mn then col else row

/-- Extent and strides of the atom. -/
def atomShape (mn : Bool) (span : ℤ) : ℤ × ℤ := if mn then (span, 8) else (8, span)

/-- The strides of the atom, in either major. -/
def atomStride (mn : Bool) (span : ℤ) : ℤ × ℤ := if mn then (1, span) else (span, 1)

variable {rows cols row col : ℕ} {mn : Bool} {l : ComposedLayout}

/-- The atom is an enumeration of its cells. -/
theorem enumerates_atom (hspan : 0 < span) (mn : Bool) :
    Enumerates (grid (atomShape mn span) (atomStride mn span)) := by
  have hspan : (0 : ℤ) < span := by exact_mod_cast hspan
  cases mn with
  | false => exact enumerates_grid_rowMajor (by decide) hspan
  | true => exact enumerates_grid_colMajor hspan (by decide)

/-- The atom that is built is the grid of its extents. -/
theorem sm100Atom_eq (hspan : span = 32 ∨ span = 64) (mn : Bool) :
    ((if mn then Layout.colMajor (.tuple [.leaf span, .leaf 8])
      else Layout.rowMajor (.tuple [.leaf 8, .leaf span])) : Run ε Layout) =
      .ok (grid (atomShape mn span) (atomStride mn span)) := by
  rcases hspan with rfl | rfl
  · cases mn with
    | false => rfl
    | true => rfl
  · cases mn with
    | false => rfl
    | true => rfl

/-- What the builder returns: a swizzled tiling, if the extents are multiples of the atom's. -/
theorem sm100SmemLayout_ok (h : sm100SmemLayout rows cols mn = .ok l) :
    Sm100Extents (sm100Inner mn rows cols) (sm100Outer mn rows cols) ∧
      l.inner = sm100Swizzle (sm100Span (sm100Inner mn rows cols)) ∧ l.offset = 0 ∧
      tileToShape (grid (atomShape mn (sm100Span (sm100Inner mn rows cols)))
        (atomStride mn (sm100Span (sm100Inner mn rows cols)))) [rows, cols]
        (if mn then [1, 0] else [0, 1]) = .ok l.outer := by
  obtain ⟨_, hreject, hbuild⟩ := Run.bind_eq_ok.mp h
  obtain ⟨atom, hatom, hatomTile⟩ := Run.bind_eq_ok.mp hbuild
  obtain ⟨outerLayout, htile, hassert⟩ := Run.bind_eq_ok.mp hatomTile
  obtain ⟨_, _, hnew⟩ := Run.bind_eq_ok.mp hassert
  have haccept := Run.reject_eq_ok.mp hreject
  change ¬(sm100Inner mn rows cols < 32 ∨ (sm100Inner mn rows cols ≠ 32 ∧
    ¬64 ∣ sm100Inner mn rows cols) ∨ sm100Outer mn rows cols = 0 ∨
    ¬8 ∣ sm100Outer mn rows cols) at haccept
  have hextents : Sm100Extents (sm100Inner mn rows cols) (sm100Outer mn rows cols) :=
    ⟨by omega, by omega, by omega, by omega⟩
  have hspan : min (sm100Inner mn rows cols) 64 = sm100Span (sm100Inner mn rows cols) := by
    unfold sm100Span
    split
    · omega
    · rename_i hne
      have := Nat.le_of_dvd hextents.contiguous_pos (hextents.contiguous_eq.resolve_left hne)
      omega
  have hbits : (if ((min (sm100Inner mn rows cols) 64 : ℕ) : ℤ) = 32 then 2 else 3) =
      (sm100Swizzle (sm100Span (sm100Inner mn rows cols))).numBits := by
    rw [hspan]
    exact if_congr (by omega) rfl rfl
  change (if mn then Layout.colMajor (.tuple [.leaf ((min (sm100Inner mn rows cols) 64 : ℕ) : ℤ),
    .leaf 8]) else Layout.rowMajor (.tuple [.leaf 8,
      .leaf ((min (sm100Inner mn rows cols) 64 : ℕ) : ℤ)])) = _ at hatom
  rw [hspan, sm100Atom_eq (Sm100Extents.span_eq _) mn] at hatom
  have hnew := Run.mapErr_eq_ok.mp hnew
  change ComposedLayout.new ⟨if ((min (sm100Inner mn rows cols) 64 : ℕ) : ℤ) = 32 then 2 else 3,
    3, 3⟩ 0 outerLayout .elements = _ at hnew
  rw [hbits] at hnew
  obtain ⟨hinner, hoffset, houter⟩ := ComposedLayout.new_ok hnew
  rw [hinner, hoffset, houter, Except.ok.inj hatom]
  exact ⟨hextents, rfl, rfl, Run.mapErr_eq_ok.mp htile⟩

/-- The unswizzled offset over the integers. -/
theorem cast_sm100Plain (span outerExtent inner outer : ℕ) :
    (sm100Plain span outerExtent inner outer : ℤ) =
      (inner : ℤ) / span * (span * outerExtent) + (outer * span + (inner : ℤ) % span) := by
  unfold sm100Plain
  push_cast
  rfl

/-- The digits of a line within its atom, of the atom within its span, and of the span. -/
theorem digits_eq_plain {n m : ℤ} (hspan : 0 < span) (hn : 0 < n) (hm : 0 < m)
    (houterExtent : (outerExtent : ℤ) = 8 * n) (hcontiguous : (contiguous : ℤ) = span * m)
    (hinner : inner < contiguous) (houter : outer < outerExtent) :
    (outer : ℤ) % 8 * span + outer / 8 * copyStride (8 * span) (n * m) +
        ((inner : ℤ) % span + inner / span * (n * copyStride (8 * span) (n * m))) =
      sm100Plain span outerExtent inner outer := by
  have hspanZ : (0 : ℤ) < span := by exact_mod_cast hspan
  have hV : 0 < n * m := mul_pos hn hm
  have hquot : (inner : ℤ) / span < m := by
    apply Int.ediv_lt_of_lt_mul hspanZ
    rw [mul_comm, ← hcontiguous]
    exact_mod_cast hinner
  have hlines := mul_copyStride (T := 8 * (span : ℤ)) (i := (outer : ℤ) / 8) (by omega) (by omega)
    (Dvd.intro m rfl) hV
  have hspans := mul_copyStride (T := 8 * (span : ℤ)) (i := (inner : ℤ) / span)
    (Int.ediv_nonneg (Int.natCast_nonneg inner) hspanZ.le) hquot (Dvd.intro_left n rfl) hV
  have hsplit := Int.mul_ediv_add_emod outer 8
  rw [cast_sm100Plain, houterExtent, hlines, mul_left_comm (inner / span : ℤ), hspans]
  calc (outer : ℤ) % 8 * span + outer / 8 * (8 * span) +
        (inner % span + n * (inner / span * (8 * span)))
      = (8 * ((outer : ℤ) / 8) + outer % 8) * span + inner % span +
          inner / span * (span * (8 * n)) := by ring
    _ = inner / span * (span * (8 * n)) + (outer * span + inner % span) := by
        rw [hsplit]
        ring

/-- The offset of an item in the tiling. -/
theorem checkedCall_outer (h : sm100SmemLayout rows cols mn = .ok l)
    (hrow : row < rows) (hcol : col < cols) :
    sm100Plain (sm100Span (sm100Inner mn rows cols)) (sm100Outer mn rows cols)
        (sm100Inner mn row col) (sm100Outer mn row col) ≤ 9223372036854775807 ∧
      l.outer.checkedCall (.tuple [.leaf row, .leaf col]) =
        some ((sm100Plain (sm100Span (sm100Inner mn rows cols)) (sm100Outer mn rows cols)
          (sm100Inner mn row col) (sm100Outer mn row col) : ℕ) : ℤ) := by
  obtain ⟨hextents, -, -, htile⟩ := sm100SmemLayout_ok h
  have hdvd := hextents.span_dvd
  set span := sm100Span (sm100Inner mn rows cols)
  -- a swizzle span is one of two
  have hspan : 0 < span := by
    rcases Sm100Extents.span_eq (sm100Inner mn rows cols) with heq | heq
    · omega
    · omega
  have hspanZ : (0 : ℤ) < span := by exact_mod_cast hspan
  obtain ⟨r, k, hr₁, hr₂, ht₁, ht₂, hfits, rfl, houter⟩ :=
    tileToShape_grid (t := ((rows : ℤ), (cols : ℤ))) (enumerates_atom hspan mn) htile
  have hrow0 : (0 : ℤ) ≤ row := Int.natCast_nonneg row
  have hcol0 : (0 : ℤ) ≤ col := Int.natCast_nonneg col
  have height : (0 : ℤ) < 8 := by decide
  rw [houter]
  -- the grid is tiled along one axis or along the other
  cases mn with
  | false =>
    have hrows : (rows : ℤ) = 8 * r.1 := ht₁
    have hcols : (cols : ℤ) = span * r.2 := ht₂
    have hmax : 8 * (span : ℤ) * (r.1 * r.2) ≤ 9223372036854775807 := hfits.2
    have hprod : 8 * r.1 * (span * r.2) = 8 * (span : ℤ) * (r.1 * r.2) := by ring
    have hlt : sm100Plain span rows col row < cols * rows := sm100Plain_lt hspan hdvd hcol hrow
    have hle : (sm100Plain span rows col row : ℤ) ≤ 9223372036854775807 := by
      have : (sm100Plain span rows col row : ℤ) < cols * rows := by exact_mod_cast hlt
      rw [hrows, hcols, mul_comm, hprod] at this
      omega
    -- the offset in the plain layout is below the number of cells, so nothing overflows
    refine ⟨by exact_mod_cast hle, ?_⟩
    have hk := copyStride_nonneg (T := 8 * (span : ℤ)) (V := r.1 * r.2) (by omega)
    refine checkedCall_tiling height hspanZ hrow0 (hrows ▸ by exact_mod_cast hrow) hcol0
      (hcols ▸ by exact_mod_cast hcol) hspanZ.le zero_le_one (mul_nonneg zero_le_one hk)
      (mul_nonneg hr₁.le hk) (hprod ▸ hmax) ?_ hle
    refine Eq.trans ?_ (digits_eq_plain hspan hr₁ hr₂ hrows hcols hcol hrow)
    simp only [atomShape, atomStride, copyOrder, Bool.false_eq_true, if_false, one_mul, mul_one]
    rfl
  | true =>
    have hrows : (rows : ℤ) = span * r.1 := ht₁
    have hcols : (cols : ℤ) = 8 * r.2 := ht₂
    have hmax : (span : ℤ) * 8 * (r.1 * r.2) ≤ 9223372036854775807 := hfits.2
    have hprod : span * r.1 * (8 * r.2) = (span : ℤ) * 8 * (r.1 * r.2) := by ring
    have hlt : sm100Plain span cols row col < rows * cols := sm100Plain_lt hspan hdvd hrow hcol
    have hle : (sm100Plain span cols row col : ℤ) ≤ 9223372036854775807 := by
      have : (sm100Plain span cols row col : ℤ) < rows * cols := by exact_mod_cast hlt
      rw [hrows, hcols, hprod] at this
      omega
    -- the same with the axes exchanged
    refine ⟨by exact_mod_cast hle, ?_⟩
    have hk := copyStride_nonneg (T := (span : ℤ) * 8) (V := r.1 * r.2) (by omega)
    refine checkedCall_tiling hspanZ height hrow0 (hrows ▸ by exact_mod_cast hrow) hcol0
      (hcols ▸ by exact_mod_cast hcol) zero_le_one hspanZ.le (mul_nonneg hr₂.le hk)
      (mul_nonneg zero_le_one hk) (hprod ▸ hmax) ?_ hle
    refine Eq.trans ?_ (digits_eq_plain hspan hr₂ hr₁ hcols hrows hrow hcol)
    simp only [atomShape, atomStride, copyOrder, if_true, one_mul, mul_one, mul_comm (span : ℤ) 8,
      mul_comm r.1 r.2]
    exact add_comm _ _

/-- The swizzled offset of an item. -/
theorem sm100SmemLayout_checkedCall (h : sm100SmemLayout rows cols mn = .ok l)
    (hrow : row < rows) (hcol : col < cols) :
    l.checkedCall (.tuple [.leaf row, .leaf col]) =
      some ((sm100Offset (sm100Span (sm100Inner mn rows cols)) (sm100Outer mn rows cols)
        (sm100Inner mn row col) (sm100Outer mn row col) : ℕ) : ℤ) := by
  obtain ⟨hle, hcall⟩ := checkedCall_outer h hrow hcol
  obtain ⟨-, hinner, hoffset, -⟩ := sm100SmemLayout_ok h
  set x := sm100Plain (sm100Span (sm100Inner mn rows cols)) (sm100Outer mn rows cols)
    (sm100Inner mn row col) (sm100Outer mn row col) with hx
  have hfits : I64.Fits (x : ℤ) := ⟨by omega, by exact_mod_cast hle⟩
  have hbase : I64.checkedAdd 0 (x : ℤ) = some (x : ℤ) :=
    I64.checkedAdd_eq_some.mpr ⟨by rwa [zero_add], zero_add _⟩
  have hinput : I64.checkedAdd (x : ℤ) 0 = some (x : ℤ) :=
    I64.checkedAdd_eq_some.mpr ⟨by rwa [add_zero], add_zero _⟩
  simp only [ComposedLayout.checkedCall, ComposedLayout.checkedCallWithOuterDelta, hcall, hoffset,
    hinner, hbase, hinput, Option.bind_eq_bind, Option.bind_some]
  rw [Swizzle.apply_eq (sm100Swizzle_valid _) (by omega)]
  rfl

/-! ### The agreement -/

/-- Both direct evaluators run on the same span, mask and axes. -/
theorem direct_eq (row col : ℕ) (h : Sm100Extents (sm100Inner mn rows cols)
    (sm100Outer mn rows cols)) :
    (sm100SmemCrd2idx rows cols mn row col : Run ε ℕ) =
        sm100Evaluate (sm100Span (sm100Inner mn rows cols)) (sm100Outer mn rows cols)
          (sm100Swizzle (sm100Span (sm100Inner mn rows cols))).mask (sm100Inner mn row col)
          (sm100Outer mn row col) ∧
      (sm100SmemCrd2idxWithExtents row col rows cols mn : Run ε ℕ) =
        sm100Evaluate (sm100Span (sm100Inner mn rows cols)) (sm100Outer mn rows cols)
          (sm100Swizzle (sm100Span (sm100Inner mn rows cols))).mask (sm100Inner mn row col)
          (sm100Outer mn row col) := by
  constructor
  · rw [← Swizzle.toNat_yMask (sm100Swizzle_valid _)]
    have hmultiple : 32 ≤ sm100Inner mn rows cols ∧ 32 ∣ sm100Inner mn rows cols := by
      have := h.contiguous_pos
      rcases h.contiguous_eq with heq | hdvd
      · omega
      · omega
    show (do
      Run.assert (32 ≤ sm100Inner mn rows cols ∧ 32 ∣ sm100Inner mn rows cols)
      Run.assert (0 < sm100Outer mn rows cols ∧ 8 ∣ sm100Outer mn rows cols)
      Run.assert (sm100Inner mn rows cols = 32 ∨ 64 ∣ sm100Inner mn rows cols)
      Run.assert (sm100Swizzle (sm100Span (sm100Inner mn rows cols))).Valid
      _) = _
    rw [Run.assert, if_pos hmultiple, Run.assert, if_pos ⟨h.outer_pos, h.outer_dvd⟩, Run.assert,
      if_pos h.contiguous_eq, Run.assert, if_pos (sm100Swizzle_valid _)]
    rfl
  · rw [sm100Swizzle_mask]
    rfl

/-- **One map.**  The built layout is a bijection from the coordinates onto an interval; the
direct evaluators compute the same bijection, and no step of theirs overflows, where the items
can be counted in 32 bits. -/
theorem sm100Smem_spec (h : sm100SmemLayout rows cols mn = .ok l) :
    ∃ idx : ℕ × ℕ → ℕ,
      Set.BijOn idx (Set.Iio rows ×ˢ Set.Iio cols) (Set.Iio (rows * cols)) ∧
      ∀ row < rows, ∀ col < cols,
        l.checkedCall (.tuple [.leaf row, .leaf col]) = some (idx (row, col) : ℤ) ∧
        (rows * cols < 2 ^ 32 →
          (sm100SmemCrd2idx rows cols mn row col : Run ε ℕ) = .ok (idx (row, col)) ∧
          (sm100SmemCrd2idxWithExtents row col rows cols mn : Run ε ℕ) =
            .ok (idx (row, col))) := by
  obtain ⟨hextents, -⟩ := sm100SmemLayout_ok h
  have hspan := Sm100Extents.span_eq (sm100Inner mn rows cols)
  refine ⟨fun p => sm100Offset (sm100Span (sm100Inner mn rows cols)) (sm100Outer mn rows cols)
    (sm100Inner mn p.1 p.2) (sm100Outer mn p.1 p.2), ?_, ?_⟩
  -- the bijection is that of the inner and the outer coordinate
  · have hbij := hextents.bijOn
    cases mn with
    | true => exact hbij
    | false =>
      -- with the axes exchanged the pair is swapped first
      have hswap : Set.BijOn Prod.swap (Set.Iio rows ×ˢ Set.Iio cols)
          (Set.Iio cols ×ˢ Set.Iio rows) := by
        refine ⟨?_, Prod.swap_injective.injOn, ?_⟩
        · rintro ⟨i, j⟩ ⟨hi, hj⟩
          exact ⟨hj, hi⟩
        · rintro ⟨j, i⟩ ⟨hj, hi⟩
          exact ⟨(i, j), ⟨hi, hj⟩, rfl⟩
      rw [Nat.mul_comm]
      exact hbij.comp hswap
  -- the three evaluators agree with it at every pair
  · intro row hrow col hcol
    refine ⟨sm100SmemLayout_checkedCall h hrow hcol, ?_⟩
    intro hfit
    -- in range by either order of the axes
    have hinner : sm100Inner mn row col < sm100Inner mn rows cols := by
      cases mn with
      | true => exact hrow
      | false => exact hcol
    have houter : sm100Outer mn row col < sm100Outer mn rows cols := by
      cases mn with
      | true => exact hcol
      | false => exact hrow
    have hproduct : sm100Inner mn rows cols * sm100Outer mn rows cols < 2 ^ 32 := by
      cases mn with
      | true => exact hfit
      | false =>
        show cols * rows < 2 ^ 32
        rwa [Nat.mul_comm]
    obtain ⟨hdirect, hextentsDirect⟩ := direct_eq (ε := ε) row col hextents
    have heval := sm100Evaluate_eq (ε := ε) hspan hextents.span_dvd hproduct hinner houter
    exact ⟨hdirect.trans heval, hextentsDirect.trans heval⟩

/-- The last item of an MN-major layout with two spans. -/
theorem sm100Smem_spec_last : ∃ l, sm100SmemLayout 128 16 true = .ok l ∧ ∃ v : ℕ,
    l.checkedCall (.tuple [.leaf (127 : ℕ), .leaf (15 : ℕ)]) = some (v : ℤ) ∧
      (sm100SmemCrd2idx 128 16 true 127 15 : Run Unit ℕ) = .ok v := by
  have hbuilt : ∃ l, sm100SmemLayout 128 16 true = .ok l := ⟨_, rfl⟩
  obtain ⟨l, hl⟩ := hbuilt
  obtain ⟨idx, -, heval⟩ := sm100Smem_spec (ε := Unit) hl
  obtain ⟨hcall, hdirect⟩ := heval 127 (by decide) 15 (by decide)
  exact ⟨l, hl, idx (127, 15), hcall, (hdirect (by decide)).1⟩

/-- A layout of more than `2 ^ 32` items is built and evaluated, but its last item is out of reach
of the direct evaluators. -/
theorem sm100Smem_overflows : ∃ l, sm100SmemLayout 65544 65536 false = .ok l ∧
    (l.checkedCall (.tuple [.leaf 65543, .leaf 65535])).isSome ∧
      (sm100SmemCrd2idx 65544 65536 false 65543 65535 : Run Unit ℕ) = Run.panic .overflow ∧
      (sm100SmemCrd2idxWithExtents 65543 65535 65544 65536 false : Run Unit ℕ) =
        Run.panic .overflow :=
  ⟨_, rfl, by decide +kernel, by decide +kernel, by decide +kernel⟩

end CudaOxide.Cute
