import CudaOxide.Cute.IntTuple
import CudaOxide.Lib.Strided

namespace CudaOxide.Cute

open Lib Strided

/-!
# Layouts

A layout `shape:stride` maps logical coordinates to linear offsets; the functions are those of
`cute-layout/src/layout.rs`, with the helpers `flat_modes` and `layout_from_flat` of
`algebra/mod.rs`.  Their `i64` operations are those of `I64`: what is proved here and in the modules
of the algebra is about a build with overflow checks, and `Cute.Builds` compares it with the other
one.

* `crd2idx` / `Layout.call` — the machine evaluator, with its assertions and its overflows.
* `Layout.offset` — the same map over `ℤ`: the strided walk of the layout's flat modes.
* `call_implements` — the machine evaluator computes `offset`.
* `Layout.call_of_checkedCall` — what the checked evaluator accepts, the unchecked one computes too.
-/

variable {ε : Type}

/-! ### Evaluating a coordinate -/

mutual

/-- The offset of a tuple or flat coordinate.  A flat coordinate is unpacked leftmost mode
fastest, and the last mode takes the whole remaining quotient. -/
def crd2idx [Build] : IntTuple → IntTuple → IntTuple → Run ε ℤ
  | .leaf c, .leaf s, .leaf d => do
    Run.debugAssert (c < s)
    I64.mul c d
  | .tuple cs, .tuple ss, .tuple ds => do
    Run.debugAssert (cs.length = ss.length ∧ ss.length = ds.length)
    crd2idxTuple 0 cs ss ds
  | .leaf c, .tuple ss, .tuple ds => do
    Run.debugAssert (ss.length = ds.length)
    crd2idxFlat c 0 ss ds
  | _, _, _ => Run.panic .assertion
termination_by structural _ s => s

/-- The offset of a tuple: the modes' offsets, added to `sum` one by one. -/
def crd2idxTuple [Build] (sum : ℤ) : List IntTuple → List IntTuple → List IntTuple → Run ε ℤ
  | c :: cs, s :: ss, d :: ds => do
    let o ← crd2idx c s d
    let sum ← I64.add sum o
    crd2idxTuple sum cs ss ds
  | _, _, _ => .ok sum
termination_by structural _ ss => ss

/-- The loop over the modes, with the remaining quotient `rem` and the offset `idx` so far. -/
def crd2idxFlat [Build] (rem idx : ℤ) : List IntTuple → List IntTuple → Run ε ℤ
  | s :: ss, d :: ds => do
    let sz ← s.size
    let c ← (if ss.isEmpty then .ok rem else I64.rem rem sz)
    let o ← crd2idx (.leaf c) s d
    let idx ← I64.add idx o
    let rem ← I64.div rem sz
    crd2idxFlat rem idx ss ds
  | _, _ => .ok idx
termination_by structural ss => ss

end

mutual

/-- The product of positive leaves, `none` for a nonpositive leaf or on overflow. -/
def checkedTupleSize : IntTuple → Option ℤ
  | .leaf v => if 0 < v then some v else none
  | .tuple ts => checkedTupleSizeFrom 1 ts

/-- The checked size of a list of trees, from `size` on. -/
def checkedTupleSizeFrom (size : ℤ) : List IntTuple → Option ℤ
  | [] => some size
  | t :: ts => do
    let s ← checkedTupleSize t
    let size ← I64.checkedMul size s
    checkedTupleSizeFrom size ts

end

mutual

/-- The evaluator for untrusted layouts: `none` instead of a panic. -/
def checkedCrd2idx : IntTuple → IntTuple → IntTuple → Option ℤ
  | .leaf c, .leaf s, .leaf d => if 0 ≤ c ∧ c < s then I64.checkedMul c d else none
  | .tuple cs, .tuple ss, .tuple ds =>
    if cs.length = ss.length ∧ ss.length = ds.length then checkedCrd2idxTuple 0 cs ss ds else none
  | .leaf c, .tuple ss, .tuple ds =>
    if ss.length = ds.length ∧ 0 ≤ c then do
      let total ← checkedTupleSizeFrom 1 ss
      if c < total then checkedCrd2idxFlat c 0 ss ds else none
    else none
  | _, _, _ => none
termination_by structural _ s => s

/-- The checked offset of a tuple. -/
def checkedCrd2idxTuple (sum : ℤ) :
    List IntTuple → List IntTuple → List IntTuple → Option ℤ
  | c :: cs, s :: ss, d :: ds => do
    let o ← checkedCrd2idx c s d
    let sum ← I64.checkedAdd sum o
    checkedCrd2idxTuple sum cs ss ds
  | _, _, _ => some sum
termination_by structural _ ss => ss

/-- The checked offset of a flat coordinate. -/
def checkedCrd2idxFlat (rem idx : ℤ) : List IntTuple → List IntTuple → Option ℤ
  | s :: ss, d :: ds => do
    let size ← checkedTupleSize s
    if 0 < size then do
      let c := if ss.isEmpty then rem else rem.tmod size
      let o ← checkedCrd2idx (.leaf c) s d
      let idx ← I64.checkedAdd idx o
      checkedCrd2idxFlat (rem.tdiv size) idx ss ds
    else none
  | _, _ => some idx
termination_by structural ss => ss

end

/-! ### Layouts and their flat modes -/

/-- A map from logical coordinates to linear offsets. -/
structure Layout where
  shape : IntTuple
  stride : IntTuple
  deriving Repr, DecidableEq

namespace Layout

/-- `shape:stride`, after checking that the parentheses match. -/
def new (shape stride : IntTuple) : Run ε Layout := do
  Run.assert (shape.Congruent stride)
  .ok ⟨shape, stride⟩

/-- `size` -/
def size [Build] (l : Layout) : Run ε ℤ := l.shape.size

/-- `checked_size` -/
def checkedSize (l : Layout) : Option ℤ := checkedTupleSize l.shape

/-- `call` -/
def call [Build] (l : Layout) (coord : IntTuple) : Run ε ℤ := crd2idx coord l.shape l.stride

/-- `checked_call` -/
def checkedCall (l : Layout) (coord : IntTuple) : Option ℤ :=
  checkedCrd2idx coord l.shape l.stride

/-- `n` adjacent cells. -/
def contiguous (n : ℤ) : Layout := ⟨.leaf n, .leaf 1⟩

/-- One more than the offset of the last cell. -/
def cosize [Build] (l : Layout) : Run ε ℤ := do
  let n ← l.size
  if n = 0 then .ok 0 else do
    let o ← l.call (.leaf (n - 1))
    I64.add o 1

/-- The strides `running, running * s₀, …` of a compact walk over the extents. -/
def runningStrides [Build] (running : ℤ) : List ℤ → Run ε (List ℤ)
  | [] => .ok []
  | s :: ss => do
    let next ← I64.mul running s
    let rest ← runningStrides next ss
    .ok (running :: rest)

/-- The compact layout of a shape, leftmost leaf fastest, with spacing `init`. -/
def colMajorWith [Build] (shape : IntTuple) (init : ℤ) : Run ε Layout := do
  let strides ← runningStrides init shape.flatten
  let (stride, _) ← shape.restructure strides
  .ok ⟨shape, stride⟩

/-- `col_major` -/
def colMajor [Build] (shape : IntTuple) : Run ε Layout := colMajorWith shape 1

/-- The compact layout of a shape, rightmost leaf fastest, with spacing `init`. -/
def rowMajorWith [Build] (shape : IntTuple) (init : ℤ) : Run ε Layout := do
  let strides ← runningStrides init shape.flatten.reverse
  let (stride, _) ← shape.restructure strides.reverse
  .ok ⟨shape, stride⟩

/-- `row_major` -/
def rowMajor [Build] (shape : IntTuple) : Run ε Layout := rowMajorWith shape 1

/-- One layout per top-level mode. -/
def modes (l : Layout) : List Layout :=
  match l.shape, l.stride with
  | .tuple ss, .tuple ds => List.zipWith Layout.mk ss ds
  | _, _ => [l]

/-- `rank` -/
def rank (l : Layout) : ℕ := l.shape.rank

/-- Join layouts as top-level modes; one layout stays unwrapped. -/
def fromModes : List Layout → Layout
  | [] => ⟨.leaf 1, .leaf 0⟩
  | [m] => m
  | ms => ⟨.tuple (ms.map shape), .tuple (ms.map stride)⟩

/-- The `(extent, stride)` pairs from left to right. -/
def flatModes (l : Layout) : List (ℤ × ℤ) := l.shape.flatten.zip l.stride.flatten

end Layout

/-- The simplest tuple structure over a flat mode list. -/
def layoutFromFlat : List (ℤ × ℤ) → Layout
  | [] => ⟨.leaf 1, .leaf 0⟩
  | [m] => ⟨.leaf m.1, .leaf m.2⟩
  | ms => ⟨.tuple (ms.map fun m => .leaf m.1), .tuple (ms.map fun m => .leaf m.2)⟩

/-- No mode with more than one cell runs backwards. -/
def Forward (ms : List (ℤ × ℤ)) : Prop := ∀ m ∈ ms, 1 < m.1 → 0 ≤ m.2

/-- Where no stride is negative, the layout goes forward. -/
theorem forward_of_nonneg {ms : List (ℤ × ℤ)} (h : Nonneg ms) : Forward ms := fun m hm _ => h m hm

/-- A walk goes forward if its parts do. -/
theorem forward_append {xs ys : List (ℤ × ℤ)} : Forward (xs ++ ys) ↔ Forward xs ∧ Forward ys :=
  List.forall_mem_append

namespace Layout

/-- Shape and stride have the same parentheses and every extent is positive. -/
structure Valid (l : Layout) : Prop where
  congruent : l.shape.Congruent l.stride
  pos : Pos l.flatModes

/-- The number of cells. -/
def cells (l : Layout) : ℤ := Strided.size l.flatModes

/-- The exact map from flat coordinates to offsets. -/
def offset (l : Layout) (c : ℤ) : ℤ := eval l.flatModes c

variable {l : Layout} {c : ℤ}

/-- A valid layout has a cell. -/
theorem Valid.cells_pos (h : l.Valid) : 0 < l.cells := size_pos h.pos

/-- The cells are the product of the extents. -/
theorem cells_eq_prod (h : l.shape.Congruent l.stride) : l.cells = l.shape.flatten.prod :=
  size_zip h.length_flatten

/-- `size` counts the cells, unless it overflows. -/
theorem size_implements (h : l.shape.Congruent l.stride) :
    (l.size : Run ε ℤ).Implements (.ok l.cells) := by
  rw [cells_eq_prod h]
  exact IntTuple.size_implements _

end Layout

/-! ### The machine evaluator computes the exact map -/

/-- The flat modes of a list of shape and stride trees. -/
def modesAll (ss ds : List IntTuple) : List (ℤ × ℤ) :=
  (IntTuple.flattenAll ss).zip (IntTuple.flattenAll ds)

/-- The modes of a list, with those of its first tree in front. -/
theorem modesAll_cons {s d : IntTuple} {ss ds : List IntTuple} (h : s.Congruent d) :
    modesAll (s :: ss) (d :: ds) = s.flatten.zip d.flatten ++ modesAll ss ds :=
  List.zip_append h.length_flatten

mutual

/-- The machine evaluates a coordinate in range to the walk of the flat modes, unless it
overflows. -/
theorem crd2idx_implements : {s d : IntTuple} → s.Congruent d →
    Pos (s.flatten.zip d.flatten) → {c : ℤ} → 0 ≤ c → c < size (s.flatten.zip d.flatten) →
    (crd2idx (.leaf c) s d : Run ε ℤ).Implements (.ok (eval (s.flatten.zip d.flatten) c))
  | .leaf s, .leaf d, _, _, c, h0, hc => by
    have hlt : c < s := by simpa using hc
    have heval : eval ([s].zip [d]) c = c * d := by simp [Int.emod_eq_of_lt h0 hlt]
    refine (Run.Implements.debugAssert hlt).bind_ok ?_
    rw [IntTuple.flatten_leaf, IntTuple.flatten_leaf, heval]
    exact I64.mul_implements c d
  | .tuple ss, .tuple ds, h, hpos, c, h0, hc => by
    rw [IntTuple.congruent_tuple] at h
    have hrun : (crd2idxFlat c 0 ss ds : Run ε ℤ).Implements _ :=
      crd2idxFlat_implements h hpos h0 hc 0
    rw [zero_add] at hrun
    exact (Run.Implements.debugAssert h.length_eq).bind_ok hrun

/-- The loop adds the walk of the modes that are left. -/
theorem crd2idxFlat_implements : {ss ds : List IntTuple} → IntTuple.CongruentAll ss ds →
    Pos (modesAll ss ds) → {rem : ℤ} → 0 ≤ rem → rem < size (modesAll ss ds) → (idx : ℤ) →
    (crd2idxFlat rem idx ss ds : Run ε ℤ).Implements (.ok (idx + eval (modesAll ss ds) rem))
  | [], [], _, _, rem, _, _, idx => by
    rw [show modesAll [] [] = [] from rfl, eval_nil, add_zero]
    exact .ok idx
  | s :: ss, d :: ds, h, hpos, rem, h0, hrem, idx => by
    obtain ⟨hs, hss⟩ := IntTuple.congruentAll_cons.mp h
    rw [modesAll_cons hs] at hpos hrem ⊢
    obtain ⟨hps, hpss⟩ := pos_append.mp hpos
    rw [size_append] at hrem
    have hsz : 0 < size (s.flatten.zip d.flatten) := size_pos hps
    have hcoord : (if ss.isEmpty then .ok rem else I64.rem rem (size (s.flatten.zip d.flatten)) :
        Run ε ℤ).Implements (.ok (rem % size (s.flatten.zip d.flatten))) := by
      split
      · -- the last mode: the quotient is already below its size
        have hnil : ss = [] := List.isEmpty_iff.mp ‹_›
        subst hnil
        -- the quotient of the last mode is below its size, so no remainder is taken
        have hlt : rem < size (s.flatten.zip d.flatten) := by
          simpa [modesAll, IntTuple.flattenAll] using hrem
        rw [Int.emod_eq_of_lt h0 hlt]
        exact .ok rem
      · rw [← Int.tmod_eq_emod_of_nonneg h0]
        exact I64.rem_implements _ hsz.ne'
    -- a size above 0 cannot make the division overflow
    have hdiv : (I64.div rem (size (s.flatten.zip d.flatten)) : Run ε ℤ).Implements
        (.ok (rem / size (s.flatten.zip d.flatten))) := by
      rw [← Int.tdiv_eq_ediv_of_nonneg h0]
      exact I64.div_implements _ hsz.ne'
    have hsize : (s.size : Run ε ℤ).Implements (.ok (size (s.flatten.zip d.flatten))) := by
      rw [size_zip hs.length_flatten]
      exact IntTuple.size_implements s
    refine hsize.bind_ok (hcoord.bind_ok ?_)
    refine (crd2idx_implements hs hps (Int.emod_nonneg _ hsz.ne')
      (Int.emod_lt_of_pos _ hsz)).bind_ok ?_
    refine (I64.add_implements idx _).bind_ok (hdiv.bind_ok ?_)
    rw [eval_append hps, eval_emod_size hps, ← add_assoc]
    exact crd2idxFlat_implements hss hpss (Int.ediv_nonneg h0 hsz.le)
      (Int.ediv_lt_of_lt_mul hsz (by rwa [mul_comm])) _

end

namespace Layout

variable {l : Layout} {c : ℤ}

/-- On the cells of a valid layout the machine evaluator computes the exact map. -/
theorem call_implements (h : l.Valid) (h0 : 0 ≤ c) (hc : c < l.cells) :
    (l.call (.leaf c) : Run ε ℤ).Implements (.ok (l.offset c)) :=
  crd2idx_implements h.congruent h.pos h0 hc

/-- `cosize` is one more than the offset of the last cell, unless it overflows. -/
theorem cosize_implements (h : l.Valid) :
    (l.cosize : Run ε ℤ).Implements (.ok (l.offset (l.cells - 1) + 1)) := by
  have hpos := h.cells_pos
  refine (size_implements h.congruent).bind_ok ?_
  rw [if_neg hpos.ne']
  exact (call_implements h (by omega) (by omega)).bind_ok (I64.add_implements _ _)

end Layout

/-! ### The checked evaluator -/

mutual

/-- A size that the check returns is positive, and the one that is computed without a check. -/
theorem checkedTupleSize_spec : {t : IntTuple} → {n : ℤ} → checkedTupleSize t = some n →
    0 < n ∧ (t.size : Run ε ℤ) = .ok n
  | .leaf v, n, h => by
    simp only [checkedTupleSize] at h
    split at h
    · cases h
      exact ⟨‹_›, rfl⟩
    · cases h
  | .tuple _, _, h => checkedTupleSizeFrom_spec one_pos h

/-- The same from an accumulator on. -/
theorem checkedTupleSizeFrom_spec : {ts : List IntTuple} → {acc n : ℤ} → 0 < acc →
    checkedTupleSizeFrom acc ts = some n → 0 < n ∧ (IntTuple.sizeFrom acc ts : Run ε ℤ) = .ok n
  | [], _, _, hacc, h => by
    cases h
    exact ⟨hacc, rfl⟩
  | t :: ts, acc, n, hacc, h => by
    simp only [checkedTupleSizeFrom, Option.bind_eq_bind, Option.bind_eq_some_iff,
      I64.checkedMul_eq_some] at h
    obtain ⟨s, hs, _, ⟨hfits, rfl⟩, h⟩ := h
    obtain ⟨hs0, hsize⟩ := checkedTupleSize_spec hs
    obtain ⟨hn, hrest⟩ := checkedTupleSizeFrom_spec (mul_pos hacc hs0) h
    refine ⟨hn, ?_⟩
    rw [IntTuple.sizeFrom, hsize]
    show (I64.mul acc s >>= fun acc => IntTuple.sizeFrom acc ts) = _
    rw [I64.mul, I64.exact, if_pos hfits]
    exact hrest

end

/-- A checked size is an `i64`. -/
theorem fits_of_checkedTupleSizeFrom {ts : List IntTuple} {acc n : ℤ} (hacc : I64.Fits acc)
    (h : checkedTupleSizeFrom acc ts = some n) : I64.Fits n := by
  induction ts generalizing acc with
  | nil =>
    cases h
    exact hacc
  | cons t ts ih =>
    simp only [checkedTupleSizeFrom, Option.bind_eq_bind, Option.bind_eq_some_iff,
      I64.checkedMul_eq_some] at h
    obtain ⟨s, _, _, ⟨hfits, rfl⟩, h⟩ := h
    exact ih hfits h

mutual

/-- What the checked evaluator returns, the unchecked one does. -/
theorem crd2idx_of_checked : {c s d : IntTuple} → {v : ℤ} → checkedCrd2idx c s d = some v →
    (crd2idx c s d : Run ε ℤ) = .ok v
  | .leaf c, .leaf s, .leaf d, v, h => by
    simp only [checkedCrd2idx] at h
    split at h
    · obtain ⟨hfits, rfl⟩ := I64.checkedMul_eq_some.mp h
      rw [crd2idx, Run.debugAssert, if_pos (And.right ‹_›)]
      exact if_pos hfits
    · cases h
  | .tuple cs, .tuple ss, .tuple ds, v, h => by
    simp only [checkedCrd2idx] at h
    split at h
    · rw [crd2idx, Run.debugAssert, if_pos ‹_›]
      exact crd2idxTuple_of_checked h
    · cases h
  | .leaf c, .tuple ss, .tuple ds, v, h => by
    simp only [checkedCrd2idx] at h
    split at h
    · rename_i hlen
      simp only [Option.bind_eq_bind, Option.bind_eq_some_iff] at h
      obtain ⟨total, htotal, h⟩ := h
      split at h
      · -- the coordinate is below the size, which is an `i64`
        have hfits := fits_of_checkedTupleSizeFrom (by decide) htotal
        rw [crd2idx, Run.debugAssert, if_pos hlen.1]
        exact crd2idxFlat_of_checked hlen.2 (by have := hfits.2; omega) h
      · cases h
    · cases h
  | .tuple _, .leaf _, _, _, h => by cases h
  | .tuple _, .tuple _, .leaf _, _, h => by cases h
  | .leaf _, .leaf _, .tuple _, _, h => by cases h
  | .leaf _, .tuple _, .leaf _, _, h => by cases h

/-- The same for a tuple. -/
theorem crd2idxTuple_of_checked : {ss cs ds : List IntTuple} → {sum v : ℤ} →
    checkedCrd2idxTuple sum cs ss ds = some v → (crd2idxTuple sum cs ss ds : Run ε ℤ) = .ok v
  | s :: ss, c :: cs, d :: ds, sum, v, h => by
    simp only [checkedCrd2idxTuple, Option.bind_eq_bind, Option.bind_eq_some_iff,
      I64.checkedAdd_eq_some] at h
    obtain ⟨o, ho, _, ⟨hfits, rfl⟩, h⟩ := h
    rw [crd2idxTuple, crd2idx_of_checked ho]
    show (I64.add sum o >>= fun sum => crd2idxTuple sum cs ss ds) = _
    rw [I64.add, I64.exact, if_pos hfits]
    exact crd2idxTuple_of_checked h
  | [], _, _, _, _, h => by
    rw [checkedCrd2idxTuple] at h
    · cases h
      rw [crd2idxTuple]
      simp
    · simp
  | _ :: _, [], _, _, _, h => by
    cases h
    rfl
  | _ :: _, _ :: _, [], _, _, h => by
    cases h
    rfl

/-- The same for a flat coordinate. -/
theorem crd2idxFlat_of_checked : {ss ds : List IntTuple} → {rem idx v : ℤ} → 0 ≤ rem →
    rem ≤ 9223372036854775807 → checkedCrd2idxFlat rem idx ss ds = some v →
    (crd2idxFlat rem idx ss ds : Run ε ℤ) = .ok v
  | s :: ss, d :: ds, rem, idx, v, h0, hmax, h => by
    simp only [checkedCrd2idxFlat, Option.bind_eq_bind, Option.bind_eq_some_iff] at h
    obtain ⟨sz, hsz, h⟩ := h
    obtain ⟨hsz0, hsize⟩ := checkedTupleSize_spec (ε := ε) hsz
    rw [if_pos hsz0] at h
    simp only [Option.bind_eq_some_iff, I64.checkedAdd_eq_some] at h
    obtain ⟨o, ho, _, ⟨hfits, rfl⟩, h⟩ := h
    have hdiv0 : 0 ≤ rem.tdiv sz := Int.tdiv_nonneg h0 hsz0.le
    have hdiv : rem.tdiv sz ≤ 9223372036854775807 := (Int.tdiv_le_self sz h0).trans hmax
    have hfdiv : I64.Fits (rem.tdiv sz) := ⟨by omega, hdiv⟩
    have hcoord : (if ss.isEmpty then .ok rem else I64.rem rem sz : Run ε ℤ) =
        .ok (if ss.isEmpty then rem else rem.tmod sz) := by
      rw [I64.rem, if_neg hsz0.ne', if_pos hfdiv]
      split
      · rfl
      · rfl
    rw [crd2idxFlat, hsize]
    show ((if ss.isEmpty then .ok rem else I64.rem rem sz : Run ε ℤ) >>= fun c => _) = _
    rw [hcoord]
    show (crd2idx _ s d >>= fun o => _) = _
    rw [crd2idx_of_checked ho]
    show (I64.add idx o >>= fun idx => _) = _
    rw [I64.add, I64.exact, if_pos hfits]
    show (I64.div rem sz >>= fun rem => _) = _
    rw [I64.div, if_neg hsz0.ne', if_pos hfdiv]
    exact crd2idxFlat_of_checked hdiv0 hdiv h
  | [], _, _, _, _, _, _, h => by
    rw [checkedCrd2idxFlat] at h
    · cases h
      rw [crd2idxFlat]
      simp
    · simp
  | _ :: _, [], _, _, _, _, _, h => by
    cases h
    rfl

end

/-- A layout's checked call is its call. -/
theorem Layout.call_of_checkedCall {l : Layout} {c : IntTuple} {v : ℤ}
    (h : l.checkedCall c = some v) :
    (l.call c : Run ε ℤ) = .ok v :=
  crd2idx_of_checked h

/-! ### Layouts built from flat modes and from sublayouts -/

@[simp] theorem flatModes_layoutFromFlat_cons (m : ℤ × ℤ) (ms : List (ℤ × ℤ)) :
    (layoutFromFlat (m :: ms)).flatModes = m :: ms := by
  cases ms with
  | nil => rfl
  | cons m' ms =>
    have hzip : ∀ xs : List (ℤ × ℤ), (xs.map Prod.fst).zip (xs.map Prod.snd) = xs := fun xs => by
      rw [← List.unzip_fst, ← List.unzip_snd, List.zip_unzip]
    simp only [layoutFromFlat, Layout.flatModes, IntTuple.flatten_tuple,
      IntTuple.flattenAll_map_leaf]
    exact hzip _

/-- A layout that is made of modes has them. -/
theorem flatModes_layoutFromFlat {xs : List (ℤ × ℤ)} (h : xs ≠ []) :
    (layoutFromFlat xs).flatModes = xs := by
  obtain ⟨m, ms, rfl⟩ := List.exists_cons_of_ne_nil h
  exact flatModes_layoutFromFlat_cons m ms

@[simp] theorem flatModes_layoutFromFlat_nil : (layoutFromFlat []).flatModes = [(1, 0)] := rfl

/-- Its shape and stride are alike. -/
theorem congruent_layoutFromFlat (xs : List (ℤ × ℤ)) :
    (layoutFromFlat xs).shape.Congruent (layoutFromFlat xs).stride := by
  have hmap : ∀ ys : List (ℤ × ℤ),
      IntTuple.CongruentAll (ys.map fun m => .leaf m.1) (ys.map fun m => .leaf m.2) := fun ys => by
    induction ys with
    | nil => rfl
    | cons y ys ih => exact IntTuple.congruentAll_cons.mpr ⟨rfl, ih⟩
  match xs with
  | [] => rfl
  | [m] => rfl
  | m :: m' :: ms => exact hmap _

/-- A layout of positive modes is valid. -/
theorem valid_layoutFromFlat {xs : List (ℤ × ℤ)} (h : Pos xs) : (layoutFromFlat xs).Valid := by
  refine ⟨congruent_layoutFromFlat xs, ?_⟩
  cases xs with
  | nil => simp
  | cons m ms => rwa [flatModes_layoutFromFlat_cons]

@[simp] theorem cells_layoutFromFlat (xs : List (ℤ × ℤ)) :
    (layoutFromFlat xs).cells = Strided.size xs := by
  cases xs with
  | nil => rfl
  | cons m ms => rw [Layout.cells, flatModes_layoutFromFlat_cons]

@[simp] theorem offset_layoutFromFlat (xs : List (ℤ × ℤ)) (c : ℤ) :
    (layoutFromFlat xs).offset c = eval xs c := by
  cases xs with
  | nil => simp [Layout.offset]
  | cons m ms => rw [Layout.offset, flatModes_layoutFromFlat_cons]

/-- The flat modes of joined layouts follow each other. -/
theorem flatModes_tuple {ls : List Layout} (h : ∀ l ∈ ls, l.shape.Congruent l.stride) :
    (IntTuple.tuple (ls.map Layout.shape)).Congruent (.tuple (ls.map Layout.stride)) ∧
      (Layout.mk (.tuple (ls.map Layout.shape)) (.tuple (ls.map Layout.stride))).flatModes =
        ls.flatMap Layout.flatModes := by
  induction ls with
  | nil => exact ⟨rfl, rfl⟩
  | cons l ls ih =>
    obtain ⟨hl, hls⟩ := List.forall_mem_cons.mp h
    obtain ⟨hc, hflat⟩ := ih hls
    refine ⟨IntTuple.congruentAll_cons.mpr ⟨hl, hc⟩, ?_⟩
    rw [List.flatMap_cons, ← hflat]
    exact List.zip_append hl.length_flatten

/-- The modes of layouts that are joined, one after the other. -/
theorem flatModes_fromModes {ls : List Layout} (h2 : 2 ≤ ls.length)
    (h : ∀ l ∈ ls, l.shape.Congruent l.stride) :
    (Layout.fromModes ls).shape.Congruent (Layout.fromModes ls).stride ∧
      (Layout.fromModes ls).flatModes = ls.flatMap Layout.flatModes := by
  match ls, h2, h with
  | _ :: _ :: _, _, h => exact flatModes_tuple h

/-- Valid layouts are joined to a valid one. -/
theorem valid_fromModes {ls : List Layout} (h2 : 2 ≤ ls.length) (h : ∀ l ∈ ls, l.Valid) :
    (Layout.fromModes ls).Valid ∧
      (Layout.fromModes ls).flatModes = ls.flatMap Layout.flatModes := by
  obtain ⟨hcong, hflat⟩ := flatModes_fromModes h2 fun l hl => (h l hl).congruent
  refine ⟨⟨hcong, fun m hm => ?_⟩, hflat⟩
  rw [hflat] at hm
  obtain ⟨l, hl, hm⟩ := List.mem_flatMap.mp hm
  exact (h l hl).pos m hm

/-- The layouts that are joined are the modes of the result. -/
theorem modes_fromModes {ls : List Layout} (h2 : 2 ≤ ls.length) :
    (Layout.fromModes ls).modes = ls := by
  have hzip : ∀ xs : List Layout,
      List.zipWith Layout.mk (xs.map Layout.shape) (xs.map Layout.stride) = xs := fun xs => by
    induction xs with
    | nil => rfl
    | cons x xs ih => rw [List.map_cons, List.map_cons, List.zipWith_cons_cons, ih]
  match ls, h2 with
  | _ :: _ :: _, _ => exact hzip _

/-- Modes that are paired up from congruent lists. -/
private theorem zipWith_mk_modes {ss ds : List IntTuple} (h : IntTuple.CongruentAll ss ds) :
    (∀ m ∈ List.zipWith Layout.mk ss ds, m.shape.Congruent m.stride) ∧
      (List.zipWith Layout.mk ss ds).length = ss.length ∧
      (List.zipWith Layout.mk ss ds).flatMap Layout.flatModes = modesAll ss ds := by
  -- the shapes and the strides are one tree, so both lists end together
  induction ss generalizing ds with
  | nil =>
    cases ds with
    | nil => exact ⟨List.forall_mem_nil _, rfl, rfl⟩
    | cons d ds => exact absurd h IntTuple.not_congruentAll_nil_cons
  | cons s ss ih =>
    cases ds with
    | nil => exact absurd h IntTuple.not_congruentAll_cons_nil
    | cons d ds =>
      obtain ⟨hs, hss⟩ := IntTuple.congruentAll_cons.mp h
      obtain ⟨hc, hlen, hflat⟩ := ih hss
      refine ⟨List.forall_mem_cons.mpr ⟨hs, hc⟩, congrArg (· + 1) hlen, ?_⟩
      rw [List.zipWith_cons_cons, List.flatMap_cons, hflat, modesAll_cons hs]
      rfl

/-- Taking a layout apart into its top-level modes. -/
theorem modes_spec {l : Layout} (h : l.shape.Congruent l.stride) :
    (∀ m ∈ l.modes, m.shape.Congruent m.stride) ∧ l.modes.length = l.rank ∧
      l.modes.flatMap Layout.flatModes = l.flatModes := by
  obtain ⟨shape, stride⟩ := l
  match shape, stride, h with
  | .leaf s, .leaf d, _ => exact ⟨by simp [Layout.modes], rfl, rfl⟩
  | .tuple ss, .tuple ds, h => exact zipWith_mk_modes h

/-- The layout `(l, c)` of two modes. -/
theorem flatModes_pair {l c : Layout} (hl : l.shape.Congruent l.stride)
    (hc : c.shape.Congruent c.stride) :
    (Layout.fromModes [l, c]).flatModes = l.flatModes ++ c.flatModes := by
  have hpair : ∀ x ∈ [l, c], x.shape.Congruent x.stride := by simp [hl, hc]
  simpa [Layout.fromModes] using (flatModes_tuple hpair).2

/-- The offsets of a layout of two modes add up. -/
theorem offset_pair {l c : Layout} (hl : l.Valid) (hc : c.shape.Congruent c.stride) {i j : ℤ}
    (h0 : 0 ≤ i) (hi : i < l.cells) :
    (Layout.fromModes [l, c]).offset (i + l.cells * j) = l.offset i + c.offset j := by
  rw [Layout.offset, flatModes_pair hl.congruent hc]
  exact eval_append_pair hl.pos c.flatModes h0 hi

/-! ### Compact layouts -/

/-- The strides of a compact layout are the products of the extents before, unless one overflows. -/
theorem runningStrides_implements (p : ℤ) (ss : List ℤ) :
    (Layout.runningStrides p ss : Run ε _).Implements (.ok (prefixProducts p ss)) := by
  induction ss generalizing p with
  | nil => exact .ok _
  | cons s ss ih => exact (I64.mul_implements p s).bind_ok ((ih _).bind_ok (.ok _))

/-- The compact layout has the given shape, and its strides are the running products. -/
theorem colMajor_implements (shape : IntTuple) :
    ∃ stride : IntTuple, (Layout.colMajor shape : Run ε _).Implements (.ok ⟨shape, stride⟩) ∧
      shape.Congruent stride ∧ stride.flatten = prefixProducts 1 shape.flatten := by
  obtain ⟨stride, hrun, hflat, hcong⟩ := IntTuple.restructure_ok (ε := ε) shape
    (prefixProducts 1 shape.flatten) [] (length_prefixProducts _ _)
  rw [List.append_nil] at hrun
  refine ⟨stride, (runningStrides_implements 1 _).bind_ok ?_, hcong, hflat⟩
  rw [hrun]
  exact .ok _

end CudaOxide.Cute
