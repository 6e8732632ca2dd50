import CudaOxide.Cute.Complement

namespace CudaOxide.Cute

open Lib Strided

/-!
# Products

`logical_product a b` places translated copies of `a` according to `b`, by composing the
complement of `a` with `b`; `zipped_product` pairs the matching axes of the two
(`algebra/tiling.rs`).

* `logicalProduct_ok` — the modes of a product: those of `a`, then those of the composed
  complement.
* `moving_of_injOn` — an injective layout moves in every mode.
-/

variable {a b r : Layout}

/-! ### The machine functions -/

/-- Place copies of `a` according to `b`. -/
def logicalProduct [Build] (a b : Layout) : Run AlgebraError Layout := do
  let size ← a.size
  let cosize ← b.cosize
  let hi ← I64.mul size cosize
  let comp ← complement a hi
  let repeated ← composition comp b
  .ok (Layout.fromModes [a, repeated])

/-- Add one-cell modes up to rank `n`. -/
def padToRank (l : Layout) (n : ℕ) : Layout :=
  Layout.fromModes (l.modes ++ List.replicate (n - l.modes.length) ⟨.leaf 1, .leaf 0⟩)

/-- Pair matching modes, in the order `blockFirst` selects, and coalesce each pair. -/
def zipPairs [Build] (blockFirst : Bool) : List Layout → List Layout →
    Run AlgebraError (List Layout)
  | bm :: block, rm :: reps => do
    let pair ← coalesce (Layout.fromModes (if blockFirst then [bm, rm] else [rm, bm]))
    let rest ← zipPairs blockFirst block reps
    .ok (pair :: rest)
  | _, _ => .ok []

/-- Pair the matching axes of a logical product. -/
def zippedProduct [Build] (a b : Layout) (blockFirst : Bool) : Run AlgebraError Layout := do
  let n := max a.modes.length b.modes.length
  let lp ← logicalProduct (padToRank a n) (padToRank b n)
  match lp.modes with
  | block :: reps :: _ =>
    if block.modes.length ≠ n ∨ reps.modes.length ≠ n then
      Run.fail ⟨"product: unexpected mode structure"⟩
    else do
      let zipped ← zipPairs blockFirst block.modes reps.modes
      .ok (Layout.fromModes zipped)
  | _ => Run.panic .indexOutOfBounds

/-- `blocked_product` -/
def blockedProduct [Build] (a b : Layout) : Run AlgebraError Layout := zippedProduct a b true

/-- `raked_product` -/
def rakedProduct [Build] (a b : Layout) : Run AlgebraError Layout := zippedProduct a b false

/-! ### The copies of a logical product -/

/-- The endpoint of the complement: as many offsets as `size a` copies of the span of `b`. -/
def productSpan (a b : Layout) : ℤ := a.cells * (b.offset (b.cells - 1) + 1)

/-- A product joins the layout with the composition of its complement. -/
theorem logicalProduct_ok (ha : a.Valid) (hb : b.Valid) (h : logicalProduct a b = .ok r) :
    ∃ comp repeated : Layout, complement a (productSpan a b) = .ok comp ∧
      composition comp b = .ok repeated ∧ r = Layout.fromModes [a, repeated] := by
  obtain ⟨size, hsize, h⟩ := Run.bind_eq_ok.mp h
  obtain ⟨cosize, hcosize, h⟩ := Run.bind_eq_ok.mp h
  obtain ⟨hi, hhi, h⟩ := Run.bind_eq_ok.mp h
  obtain ⟨comp, hcomp, h⟩ := Run.bind_eq_ok.mp h
  obtain ⟨repeated, hrep, h⟩ := Run.bind_eq_ok.mp h
  have hr := Except.ok.inj h
  have h1 := (Layout.size_implements ha.congruent).eq_of_ok hsize
  have h2 := (Layout.cosize_implements hb).eq_of_ok hcosize
  have h3 := (I64.mul_implements size cosize).eq_of_ok hhi
  subst h1 h2 h3
  exact ⟨comp, repeated, hcomp, hrep, hr.symm⟩

/-- In an injective layout every mode with more than one cell moves. -/
theorem moving_of_injOn (ha : a.Valid) (hnn : Nonneg a.flatModes)
    (hinj : Set.InjOn a.offset (Set.Ico 0 a.cells)) : Moving a.flatModes := by
  intro m hm hext
  by_contra hzero
  have hz : m.2 = 0 := le_antisymm (not_lt.mp hzero) (hnn m hm)
  obtain ⟨c, h0, hc, hdigit⟩ := exists_single_digit ha.pos hm zero_le_one hext
  have hoff : a.offset c = a.offset 0 := by
    rw [Layout.offset, Layout.offset, eval_eq_sumDigits, eval_zero,
      hdigit (fun m i => i * m.2) fun m => zero_mul m.2, hz, mul_zero]
  have hczero : c = 0 := hinj ⟨h0, hc⟩ ⟨le_rfl, ha.cells_pos⟩ hoff
  -- the digit itself tells the coordinate from zero
  have h1 := hdigit (fun _ i => i) fun _ => rfl
  rw [hczero, sumDigits_zero fun _ => rfl] at h1
  exact absurd h1 zero_ne_one

end CudaOxide.Cute
