import CudaOxide.Cute.Swizzle
import CudaOxide.Lib.Bytes

namespace CudaOxide.Cute

open Lib

/-!
# Layouts as types

`static_layout.rs`: a layout is a type, its size and the greatest offset are constants that the
compiler evaluates, and the address map is a function without storage.  A constant that panics is
a type that cannot be instantiated; here it is `none`.

* `Marker` — the marker types, with their constants `size` and `maxOffset` and the map `crd2idx`.
* `Marker.call`, `Marker.runtimeSize` — the runtime layouts they denote.
* `Marker.size_spec`, `Marker.crd2idx_eq` — the map is defined and never leaves its bound.
* `Marker.runtime_eq` — it is the runtime map, whenever the runtime can count the elements.
* `crd2idx2d_le` — two-dimensional layouts stay below their declared maximum.
* `staticLayout_spec` — all of it, for every marker.
-/

/-! ### Constants -/

/-- The greatest `i64`. -/
def i64Max : ℕ := 9223372036854775807

/-- A layout parameter as `usize`. -/
def parameter (value : ℤ) : Option ℕ :=
  if 0 ≤ value ∧ value < 2 ^ 64 then some value.toNat else none

/-- `checked_offset_add`: sums stay below the largest `i64`. -/
def checkedOffsetAdd (a b : ℕ) : Option ℕ := do
  let result ← Usize.checkedAdd a b
  if result ≤ i64Max then some result else none

/-- `checked_offset_mul` -/
def checkedOffsetMul (a b : ℕ) : Option ℕ := do
  let result ← Usize.checkedMul a b
  if result ≤ i64Max then some result else none

/-- Fill all bits up through the target field. -/
def swizzledBound (maximum : ℕ) (s : Swizzle) : Option ℕ :=
  if s.Valid then
    if s.numBits = 0 then some maximum
    else
      let targetEnd :=
        s.numBase + s.numBits + if s.numShift < 0 then (-s.numShift).toNat else 0
      let lowerMask := (1 <<< targetEnd) - 1
      let result := maximum ||| lowerMask
      if result < 2 ^ 64 ∧ result ≤ i64Max then some result else none
  else none

/-! ### Markers -/

/-- `Layout<Shape, Stride>` with corresponding shapes and strides: `C<N>:C<S>`, or a pair. -/
inductive Modes where
  | leaf (extent stride : ℤ)
  | pair (a b : Modes)
  deriving DecidableEq, Repr

/-- The layouts that are types. -/
inductive Marker where
  | layout (modes : Modes)
  | rowMajor (rows cols : ℤ)
  | colMajor (rows cols : ℤ)
  | composed (inner : Swizzle) (offset : ℤ) (outer : Marker)
  deriving DecidableEq, Repr

namespace Modes

/-- The largest offset of the modes. -/
def maxOffset : Modes → Option ℕ
  | leaf n s =>
    if 0 < n ∧ 0 ≤ s then do checkedOffsetMul (← parameter (n - 1)) (← parameter s) else none
  | pair a b => do checkedOffsetAdd (← a.maxOffset) (← b.maxOffset)

/-- The number of cells of the modes. -/
def size : Modes → Option ℕ
  | leaf n s => do
    let _ ← (leaf n s).maxOffset
    parameter n
  | pair a b => do
    let _ ← (pair a b).maxOffset
    Usize.checkedMul (← a.size) (← b.size)

/-- The `RowMajor` and `ColMajor` markers in full. -/
def rowMajor (rows cols : ℤ) : Modes := .pair (.leaf rows cols) (.leaf cols 1)

/-- Rows with stride one. -/
def colMajor (rows cols : ℤ) : Modes := .pair (.leaf rows 1) (.leaf cols rows)

end Modes

variable {ε : Type}

/-- Use a constant.  Its panic is a compile error at the use. -/
def useConst (c : Option ℕ) : Run ε ℕ :=
  match c with
  | some n => .ok n
  | none => Run.panic .assertion

/-- `n as i64` and `x as usize` -/
def asI64 (n : ℕ) : ℤ := (BitVec.ofNat 64 n).toInt

/-- `as usize` -/
def asUsize (x : ℤ) : ℕ := (BitVec.ofInt 64 x).toNat

/-- The leftmost mode changes fastest. -/
def Modes.crd2idx : Modes → ℕ → Run ε ℕ
  | leaf n s, flat => do
    let _ ← useConst (leaf n s).size
    Usize.mul flat s.toNat
  | pair a b, flat => do
    let _ ← useConst (pair a b).size
    let first ← a.crd2idx (← Usize.rem flat (← useConst a.size))
    let second ← b.crd2idx (← Usize.div flat (← useConst a.size))
    Usize.add first second

namespace Marker

/-- The largest offset of a marker, behind the swizzle. -/
def maxOffset : Marker → Option ℕ
  | layout m => m.maxOffset
  | rowMajor r k => (Modes.rowMajor r k).maxOffset
  | colMajor r k => (Modes.colMajor r k).maxOffset
  | composed s o outer => do
    swizzledBound (← checkedOffsetAdd (← outer.maxOffset) (← parameter o)) s

/-- The number of cells of a marker. -/
def size : Marker → Option ℕ
  | layout m => m.size
  | rowMajor r k => (Modes.rowMajor r k).size
  | colMajor r k => (Modes.colMajor r k).size
  | composed s o outer => do
    let _ ← (composed s o outer).maxOffset
    outer.size

/-- The offset of a flat coordinate. -/
def crd2idx : Marker → ℕ → Run ε ℕ
  | layout m, flat => m.crd2idx flat
  | rowMajor r k, flat => (Modes.rowMajor r k).crd2idx flat
  | colMajor r k, flat => (Modes.colMajor r k).crd2idx flat
  | composed s o outer, flat => do
    let _ ← useConst (composed s o outer).size
    let input ← Usize.add (← outer.crd2idx flat) o.toNat
    -- `Swizzle::new`
    Run.assert s.Valid
    .ok (asUsize (s.apply (asI64 input)))

end Marker

/-! ### Two-dimensional layouts -/

/-- The constants of `ReifySmem2D`. -/
structure Smem2D where
  shape : ℤ × ℤ
  stride : ℤ × ℤ
  offset : ℤ
  swizzle : Swizzle
  deriving DecidableEq, Repr

/-- The markers that are two-dimensional.  A composition reports its own swizzle only. -/
def Marker.reify : Marker → Option Smem2D
  | layout (.pair (.leaf r sr) (.leaf k sk)) => some ⟨(r, k), (sr, sk), 0, .identity⟩
  | layout _ => none
  | rowMajor r k => some ⟨(r, k), (k, 1), 0, .identity⟩
  | colMajor r k => some ⟨(r, k), (1, r), 0, .identity⟩
  | composed s o outer => outer.reify.map fun l => { l with offset := o, swizzle := s }

/-- The largest offset of a two-dimensional layout. -/
def maxOffset2d (l : Smem2D) : Option ℕ :=
  if (0 < l.shape.1 ∧ 0 < l.shape.2) ∧ 0 ≤ l.stride.1 ∧ 0 ≤ l.stride.2 ∧ 0 ≤ l.offset then do
    let rowMax ← checkedOffsetMul (← parameter (l.shape.1 - 1)) (← parameter l.stride.1)
    let columnMax ← checkedOffsetMul (← parameter (l.shape.2 - 1)) (← parameter l.stride.2)
    let maximum ← checkedOffsetAdd (← checkedOffsetAdd rowMax columnMax) (← parameter l.offset)
    swizzledBound maximum l.swizzle
  else none

/-- The offset of a row and a column. -/
def crd2idx2d (l : Smem2D) (row column : ℕ) : Run ε ℕ := do
  let _ ← useConst (maxOffset2d l)
  let s := l.swizzle
  Run.assert s.Valid
  let yMask := s.yMask.toNat
  let rows ← Usize.mul row l.stride.1.toNat
  let columns ← Usize.mul column l.stride.2.toNat
  let plain ← Usize.add (← Usize.add rows columns) l.offset.toNat
  if s.numBits = 0 then .ok plain
  else if 0 ≤ s.numShift then .ok (plain ^^^ ((plain &&& yMask) >>> s.numShift.toNat))
  else .ok (plain ^^^ (((plain &&& yMask) <<< (-s.numShift).toNat) % 2 ^ 64))

/-! ### The runtime layouts -/

namespace Modes

/-- The extents as a tree. -/
def shape : Modes → IntTuple
  | leaf n _ => .leaf n
  | pair a b => .tuple [a.shape, b.shape]

/-- The strides as a tree. -/
def stride : Modes → IntTuple
  | leaf _ s => .leaf s
  | pair a b => .tuple [a.stride, b.stride]

/-- The layout that the modes stand for. -/
def toLayout (m : Modes) : Layout := ⟨m.shape, m.stride⟩

end Modes

namespace Marker

/-- The number of elements of the runtime layout; a swizzle keeps it. -/
def runtimeSize : Marker → Run ε ℤ
  | layout m => m.toLayout.size
  | rowMajor r k => (Modes.rowMajor r k).toLayout.size
  | colMajor r k => (Modes.colMajor r k).toLayout.size
  | composed _ _ outer => outer.runtimeSize

/-- The runtime layout at a flat coordinate.  A composition evaluates as
`ComposedLayout::call` does, on the offset that the outer layout gives. -/
def call : Marker → ℤ → Run ε ℤ
  | layout m, c => m.toLayout.call (.leaf c)
  | rowMajor r k, c => (Modes.rowMajor r k).toLayout.call (.leaf c)
  | colMajor r k, c => (Modes.colMajor r k).toLayout.call (.leaf c)
  | composed s o outer, c => do
    let v ← outer.call c
    let base ← I64.add o v
    let input ← I64.add base 0
    .ok (s.apply input)

end Marker

/-- Over a plain layout this is the runtime composition. -/
example (s : Swizzle) (h : s.Valid) (o c : ℤ) (m : Modes) :
    ((Marker.composed s o (.layout m)).call c : Run ε ℤ) =
      (ComposedLayout.mk s o m.toLayout .elements h).callWithOuterDelta (.leaf c) 0 := rfl

/-! ### What a constant says -/

/-- A parameter is used if it is a `usize`. -/
@[simp] theorem parameter_eq_some {v : ℤ} {n : ℕ} :
    parameter v = some n ↔ 0 ≤ v ∧ v < 2 ^ 64 ∧ v.toNat = n := by
  unfold parameter
  split
  · simp_all
  · simp_all

/-- A sum is kept up to the largest `i64`. -/
@[simp] theorem checkedOffsetAdd_eq_some {a b n : ℕ} :
    checkedOffsetAdd a b = some n ↔ a + b ≤ i64Max ∧ a + b = n := by
  have hmax : i64Max < 2 ^ 64 := by decide
  simp only [checkedOffsetAdd, Option.bind_eq_bind, Option.bind_eq_some_iff,
    Usize.checkedAdd_eq_some]
  constructor
  · rintro ⟨_, ⟨-, rfl⟩, h⟩
    split at h
    · cases h
      exact ⟨‹_›, rfl⟩
    · cases h
  · rintro ⟨hle, rfl⟩
    exact ⟨_, ⟨by omega, rfl⟩, if_pos hle⟩

/-- So is a product. -/
@[simp] theorem checkedOffsetMul_eq_some {a b n : ℕ} :
    checkedOffsetMul a b = some n ↔ a * b ≤ i64Max ∧ a * b = n := by
  have hmax : i64Max < 2 ^ 64 := by decide
  simp only [checkedOffsetMul, Option.bind_eq_bind, Option.bind_eq_some_iff,
    Usize.checkedMul_eq_some]
  constructor
  · rintro ⟨_, ⟨-, rfl⟩, h⟩
    split at h
    · cases h
      exact ⟨‹_›, rfl⟩
    · cases h
  · rintro ⟨hle, rfl⟩
    exact ⟨_, ⟨by omega, rfl⟩, if_pos hle⟩

/-- A bound behind the swizzle bounds every offset that is swizzled. -/
theorem swizzledBound_eq_some {maximum n : ℕ} {s : Swizzle} (h : swizzledBound maximum s = some n) :
    s.Valid ∧ (maximum ≤ i64Max → n ≤ i64Max) ∧
      ∀ x ≤ maximum, x ^^^ s.moved x ≤ n := by
  unfold swizzledBound at h
  split at h
  · rename_i hvalid
    refine ⟨hvalid, ?_⟩
    split at h
    · rename_i hbits
      cases h
      refine ⟨id, fun x hx => ?_⟩
      rw [show s.moved x = 0 by simp [Swizzle.moved, Swizzle.mask, hbits], Nat.xor_zero]
      exact hx
    · have hend : (s.numBase + s.numBits + if s.numShift < 0 then (-s.numShift).toNat else 0) =
          s.targetEnd := by
        unfold Swizzle.targetEnd
        split
        · rfl
        · omega
      simp only [hend, Nat.shiftLeft_eq, Nat.one_mul] at h
      split at h
      · rename_i hle
        cases h
        exact ⟨fun _ => hle.2, fun x hx => Swizzle.xor_moved_le hx⟩
      · cases h
  · cases h

namespace Modes

/-- The number of elements and the address map, without the machine. -/
def cells : Modes → ℕ
  | leaf n _ => n.toNat
  | pair a b => a.cells * b.cells

/-- The offset of a flat coordinate, over the numbers. -/
def offset : Modes → ℕ → ℕ
  | leaf _ s, flat => flat * s.toNat
  | pair a b, flat => a.offset (flat % a.cells) + b.offset (flat / a.cells)

variable {m a b : Modes} {n mx flat : ℕ}

/-- The cells of two modes. -/
theorem size_pair_eq_some :
    (pair a b).size = some n ↔ (∃ mx, (pair a b).maxOffset = some mx) ∧
      ∃ na nb, a.size = some na ∧ b.size = some nb ∧ na * nb < 2 ^ 64 ∧ na * nb = n := by
  simp only [size, Option.bind_eq_bind, Option.bind_eq_some_iff, Usize.checkedMul_eq_some]
  constructor
  · rintro ⟨mx, hmx, na, ha, nb, hb, h⟩
    exact ⟨⟨mx, hmx⟩, na, nb, ha, hb, h⟩
  · rintro ⟨⟨mx, hmx⟩, na, nb, ha, hb, h⟩
    exact ⟨mx, hmx, na, ha, nb, hb, h⟩

/-- The largest offset of two modes. -/
theorem maxOffset_pair_eq_some :
    (pair a b).maxOffset = some mx ↔ ∃ ma mb, a.maxOffset = some ma ∧ b.maxOffset = some mb ∧
      ma + mb ≤ i64Max ∧ ma + mb = mx := by
  simp only [maxOffset, Option.bind_eq_bind, Option.bind_eq_some_iff, checkedOffsetAdd_eq_some]
  constructor
  · rintro ⟨ma, ha, mb, hb, h⟩
    exact ⟨ma, mb, ha, hb, h⟩
  · rintro ⟨ma, mb, ha, hb, h⟩
    exact ⟨ma, ha, mb, hb, h⟩

/-- The largest offset of one mode. -/
theorem maxOffset_leaf_eq_some {k s : ℤ} (h : (leaf k s).maxOffset = some mx) :
    0 < k ∧ 0 ≤ s ∧ (k - 1).toNat * s.toNat ≤ i64Max ∧ (k - 1).toNat * s.toNat = mx := by
  simp only [maxOffset] at h
  split at h
  · rename_i hpos
    simp only [Option.bind_eq_bind, Option.bind_eq_some_iff, parameter_eq_some,
      checkedOffsetMul_eq_some] at h
    obtain ⟨_, ⟨-, -, rfl⟩, _, ⟨-, -, rfl⟩, h⟩ := h
    exact ⟨hpos.1, hpos.2, h⟩
  · cases h

/-- An instantiated type counts its elements, and every offset of it is bounded. -/
theorem size_spec (h : m.size = some n) :
    n = m.cells ∧ 0 < n ∧ n < 2 ^ 64 ∧ ∃ mx, m.maxOffset = some mx ∧ mx ≤ i64Max ∧
      ∀ flat < n, m.offset flat ≤ mx := by
  induction m generalizing n with
  | leaf k s =>
    simp only [size, Option.bind_eq_bind, Option.bind_eq_some_iff, parameter_eq_some] at h
    obtain ⟨mx, hmx, -, hlt, rfl⟩ := h
    obtain ⟨hk, -, hle, heq⟩ := maxOffset_leaf_eq_some hmx
    refine ⟨rfl, by omega, by omega, mx, hmx, heq ▸ hle, fun flat hflat => ?_⟩
    rw [← heq]
    exact Nat.mul_le_mul_right _ (by omega)
  | pair a b iha ihb =>
    obtain ⟨⟨mx, hmx⟩, na, nb, ha, hb, hlt, rfl⟩ := size_pair_eq_some.mp h
    obtain ⟨ma, mb, hma, hmb, hle, rfl⟩ := maxOffset_pair_eq_some.mp hmx
    obtain ⟨hna, hapos, -, ma', hma', -, hoffa⟩ := iha ha
    obtain ⟨hnb, hbpos, -, mb', hmb', -, hoffb⟩ := ihb hb
    cases hma.symm.trans hma'
    cases hmb.symm.trans hmb'
    refine ⟨by rw [hna, hnb]; rfl, Nat.mul_pos hapos hbpos, hlt, _, hmx, hle, ?_⟩
    intro flat hflat
    have hquot : flat / na < nb := Nat.div_lt_of_lt_mul hflat
    show a.offset (flat % a.cells) + b.offset (flat / a.cells) ≤ ma + mb
    rw [← hna]
    exact Nat.add_le_add (hoffa _ (Nat.mod_lt _ hapos)) (hoffb _ hquot)

/-- The machine computes the map. -/
theorem crd2idx_eq (h : m.size = some n) (hflat : flat < n) :
    (m.crd2idx flat : Run ε ℕ) = .ok (m.offset flat) := by
  have hmax : i64Max < 2 ^ 64 := by decide
  induction m generalizing n flat with
  | leaf k s =>
    obtain ⟨-, -, -, mx, -, hmx, hle⟩ := size_spec h
    have := hle flat hflat
    rw [crd2idx, h]
    show Usize.mul flat s.toNat = _
    rw [Usize.mul_eq_ok]
    exact ⟨(this.trans hmx).trans_lt hmax, rfl⟩
  | pair a b iha ihb =>
    obtain ⟨-, -, -, mx, -, hmx, hle⟩ := size_spec h
    have hoff := hle flat hflat
    obtain ⟨-, na, nb, ha, hb, -, rfl⟩ := size_pair_eq_some.mp h
    obtain ⟨hna, hapos, -⟩ := size_spec ha
    have hquot : flat / na < nb := Nat.div_lt_of_lt_mul hflat
    have hfirst := iha ha (Nat.mod_lt flat hapos)
    have hsecond := ihb hb hquot
    rw [crd2idx, h, ha]
    show (do let r ← Usize.rem flat na; _) = _
    rw [Usize.rem_eq_ok hapos]
    show (do let first ← a.crd2idx (flat % na); _) = _
    rw [hfirst]
    show (do let q ← Usize.div flat na; _) = _
    rw [Usize.div_eq_ok hapos]
    show (do let second ← b.crd2idx (flat / na); _) = _
    rw [hsecond]
    show Usize.add (a.offset (flat % na)) (b.offset (flat / na)) = _
    rw [Usize.add_eq_ok, hna]
    exact ⟨(Nat.lt_of_le_of_lt hoff (Nat.lt_of_le_of_lt hmx hmax)), rfl⟩

/-! ### The runtime layout of modes -/

/-- A number up to the largest `i64` is one. -/
theorem fits_of_le {k : ℕ} (h : k ≤ i64Max) : I64.Fits (k : ℤ) := by
  unfold i64Max at h
  constructor
  · omega
  · omega

/-- If a product is one, its factors are. -/
theorem le_of_size_pair {na nb : ℕ} (ha : 0 < na) (hb : 0 < nb) (h : na * nb ≤ i64Max) :
    na ≤ i64Max ∧ nb ≤ i64Max :=
  ⟨(Nat.le_mul_of_pos_right na hb).trans h, (Nat.le_mul_of_pos_left nb ha).trans h⟩

/-- The checked size of the tree is that of the modes. -/
theorem checkedTupleSize_eq (h : m.size = some n) (hn : n ≤ i64Max) :
    checkedTupleSize m.shape = some (n : ℤ) := by
  induction m generalizing n with
  | leaf k s =>
    obtain ⟨hcells, hpos, -⟩ := size_spec h
    have hk : (n : ℤ) = k := by
      change n = k.toNat at hcells
      omega
    rw [hk]
    exact if_pos (by omega)
  | pair a b iha ihb =>
    obtain ⟨-, na, nb, ha, hb, -, rfl⟩ := size_pair_eq_some.mp h
    obtain ⟨-, hapos, -⟩ := size_spec ha
    obtain ⟨-, hbpos, -⟩ := size_spec hb
    obtain ⟨hna, hnb⟩ := le_of_size_pair hapos hbpos hn
    have hone : I64.checkedMul 1 (na : ℤ) = some (na : ℤ) :=
      I64.checkedMul_eq_some.mpr ⟨by rw [one_mul]; exact fits_of_le hna, one_mul _⟩
    have hmul : I64.checkedMul (na : ℤ) nb = some ((na * nb : ℕ) : ℤ) :=
      I64.checkedMul_eq_some.mpr ⟨by exact_mod_cast fits_of_le hn, by push_cast; rfl⟩
    simp only [shape, checkedTupleSize, checkedTupleSizeFrom, iha ha hna, ihb hb hnb,
      Option.bind_eq_bind, Option.bind_some, hone, hmul]

/-- The checked evaluator accepts a flat coordinate in range. -/
theorem checkedCrd2idx_eq (h : m.size = some n) (hn : n ≤ i64Max) (hflat : flat < n) :
    checkedCrd2idx (.leaf flat) m.shape m.stride = some (m.offset flat : ℤ) := by
  induction m generalizing n flat with
  | leaf k s =>
    obtain ⟨hcells, hpos, -, mx, hmx, hle, hoff⟩ := size_spec h
    obtain ⟨-, hs, -⟩ := maxOffset_leaf_eq_some hmx
    have hk : (n : ℤ) = k := by
      change n = k.toNat at hcells
      omega
    have hval : (flat : ℤ) * s = ((flat * s.toNat : ℕ) : ℤ) := by
      push_cast
      rw [Int.toNat_of_nonneg hs]
    simp only [shape, stride, checkedCrd2idx]
    rw [if_pos ⟨Int.natCast_nonneg flat, by omega⟩, I64.checkedMul_eq_some, hval]
    exact ⟨fits_of_le ((hoff flat hflat).trans hle), rfl⟩
  | pair a b iha ihb =>
    obtain ⟨-, -, -, mx, -, hmx, hle⟩ := size_spec h
    have hoff := hle flat hflat
    have htotal := checkedTupleSize_eq h hn
    obtain ⟨-, na, nb, ha, hb, -, rfl⟩ := size_pair_eq_some.mp h
    obtain ⟨hca, hapos, -⟩ := size_spec ha
    obtain ⟨-, hbpos, -⟩ := size_spec hb
    obtain ⟨hna, hnb⟩ := le_of_size_pair hapos hbpos hn
    have hfirst := iha ha hna (Nat.mod_lt flat hapos)
    have hsecond := ihb hb hnb (Nat.div_lt_of_lt_mul hflat)
    have hsum : a.offset (flat % na) + b.offset (flat / na) = (pair a b).offset flat := by
      rw [hca]
      rfl
    have hone : I64.checkedAdd 0 (a.offset (flat % na) : ℤ) = some (a.offset (flat % na) : ℤ) :=
      I64.checkedAdd_eq_some.mpr ⟨by rw [zero_add]; exact fits_of_le (by omega), zero_add _⟩
    have htwo : I64.checkedAdd (a.offset (flat % na) : ℤ) (b.offset (flat / na)) =
        some ((pair a b).offset flat : ℤ) :=
      I64.checkedAdd_eq_some.mpr ⟨by rw [← Nat.cast_add, hsum]; exact fits_of_le (by omega),
        by rw [← hsum]; push_cast; rfl⟩
    have hmod : (flat : ℤ).tmod na = ((flat % na : ℕ) : ℤ) := by
      rw [Int.tmod_eq_emod_of_nonneg (Int.natCast_nonneg flat), Int.natCast_mod]
    have hdiv : (flat : ℤ).tdiv na = ((flat / na : ℕ) : ℤ) := by
      rw [Int.tdiv_eq_ediv_of_nonneg (Int.natCast_nonneg flat), Int.natCast_div]
    have hapos' : (0 : ℤ) < na := by exact_mod_cast hapos
    have hbpos' : (0 : ℤ) < nb := by exact_mod_cast hbpos
    simp only [shape, checkedTupleSize] at htotal
    simp only [shape, stride, checkedCrd2idx, List.length_cons, List.length_nil, true_and,
      htotal, Option.bind_eq_bind, Option.bind_some]
    rw [if_pos (Int.natCast_nonneg flat), if_pos (by exact_mod_cast hflat)]
    -- the first mode takes the remainder, the second the quotient
    simp only [checkedCrd2idxFlat, checkedTupleSize_eq ha hna, checkedTupleSize_eq hb hnb,
      Option.bind_eq_bind, Option.bind_some, List.isEmpty_cons, List.isEmpty_nil, hapos', hbpos',
      Bool.false_eq_true, if_false, if_true, hmod, hdiv, hfirst, hsecond, hone, htwo]

end Modes

/-! ### Markers at run time -/

namespace Marker

/-- The address map, without the machine. -/
def offset : Marker → ℕ → ℕ
  | layout m, flat => m.offset flat
  | rowMajor r k, flat => (Modes.rowMajor r k).offset flat
  | colMajor r k, flat => (Modes.colMajor r k).offset flat
  | composed s o outer, flat =>
    (outer.offset flat + o.toNat) ^^^ s.moved (outer.offset flat + o.toNat)

variable {m : Marker} {n flat : ℕ}

/-- The size of a composed marker is that of the outer one, once its bound is known. -/
theorem size_composed_eq_some {s : Swizzle} {o : ℤ} {outer : Marker}
    (h : (composed s o outer).size = some n) :
    outer.size = some n ∧ ∃ mo mx, outer.maxOffset = some mo ∧ mo + o.toNat ≤ i64Max ∧
      swizzledBound (mo + o.toNat) s = some mx ∧ (composed s o outer).maxOffset = some mx := by
  simp only [size, Option.bind_eq_bind, Option.bind_eq_some_iff] at h
  obtain ⟨mx, hmx, hsize⟩ := h
  refine ⟨hsize, ?_⟩
  have hbound := hmx
  simp only [maxOffset, Option.bind_eq_bind, Option.bind_eq_some_iff, parameter_eq_some,
    checkedOffsetAdd_eq_some] at hbound
  obtain ⟨mo, hmo, _, ⟨-, -, rfl⟩, _, ⟨hle, rfl⟩, hbound⟩ := hbound
  exact ⟨mo, mx, hmo, hle, hbound, hmx⟩

/-- An instantiated type has elements, and every offset of it is bounded. -/
theorem size_spec (h : m.size = some n) :
    0 < n ∧ ∃ mx, m.maxOffset = some mx ∧ mx ≤ i64Max ∧ ∀ flat < n, m.offset flat ≤ mx := by
  induction m generalizing n with
  | layout m => exact (Modes.size_spec h).2.imp_right And.right
  | rowMajor r k => exact (Modes.size_spec h).2.imp_right And.right
  | colMajor r k => exact (Modes.size_spec h).2.imp_right And.right
  | composed s o outer ih =>
    obtain ⟨hsize, mo, mx, hmo, hle, hbound, hmx⟩ := size_composed_eq_some h
    obtain ⟨hpos, mo', hmo', -, hoff⟩ := ih hsize
    obtain rfl := Option.some.inj (hmo.symm.trans hmo')
    obtain ⟨-, hmax, hswizzled⟩ := swizzledBound_eq_some hbound
    refine ⟨hpos, mx, hmx, hmax hle, fun flat hflat => ?_⟩
    exact hswizzled _ (Nat.add_le_add_right (hoff flat hflat) _)

/-- The cast keeps what is in range. -/
theorem asI64_eq {x : ℕ} (hx : x ≤ i64Max) : asI64 x = x := by
  unfold i64Max at hx
  rw [asI64, BitVec.toInt_eq_toNat_of_lt, BitVec.toNat_ofNat, Nat.mod_eq_of_lt (by omega)]
  rw [BitVec.toNat_ofNat, Nat.mod_eq_of_lt (by omega)]
  omega

/-- So does the one back. -/
theorem asUsize_natCast {x : ℕ} (hx : x ≤ i64Max) : asUsize x = x := by
  unfold i64Max at hx
  rw [asUsize, BitVec.ofInt_natCast, BitVec.toNat_ofNat, Nat.mod_eq_of_lt (by omega)]

/-- The machine computes the map. -/
theorem crd2idx_eq (h : m.size = some n) (hflat : flat < n) :
    (m.crd2idx flat : Run ε ℕ) = .ok (m.offset flat) := by
  induction m generalizing n with
  | layout m => exact Modes.crd2idx_eq h hflat
  | rowMajor r k => exact Modes.crd2idx_eq h hflat
  | colMajor r k => exact Modes.crd2idx_eq h hflat
  | composed s o outer ih =>
    obtain ⟨-, mx, hmx, hmax, hoff⟩ := size_spec h
    obtain ⟨hsize, mo, _, hmo, hle, hbound, hmx'⟩ := size_composed_eq_some h
    obtain ⟨-, mo', hmo', -, hoffOuter⟩ := size_spec hsize
    obtain rfl := Option.some.inj (hmo.symm.trans hmo')
    obtain ⟨hvalid, -, -⟩ := swizzledBound_eq_some hbound
    have hinput : outer.offset flat + o.toNat ≤ i64Max :=
      (Nat.add_le_add_right (hoffOuter flat hflat) _).trans hle
    have hlt : outer.offset flat + o.toNat < 2 ^ 63 := hinput.trans_lt (by decide)
    rw [crd2idx, h]
    show (do let v ← outer.crd2idx flat; _) = _
    rw [ih hsize hflat]
    show (do let input ← Usize.add (outer.offset flat) o.toNat; _) = _
    rw [Usize.add_eq_ok.mpr ⟨hlt.trans (by decide), rfl⟩]
    show (do Run.assert s.Valid; _) = _
    rw [Run.assert, if_pos hvalid]
    show Except.ok (asUsize (s.apply (asI64 (outer.offset flat + o.toNat)))) = _
    rw [asI64_eq hinput, Swizzle.apply_eq hvalid hlt]
    show Except.ok (asUsize ((composed s o outer).offset flat)) = _
    rw [asUsize_natCast ((hoff flat hflat).trans hmax)]

/-- The runtime computes the map, as long as it can count the elements. -/
theorem runtime_eq (h : m.size = some n) (hn : n ≤ i64Max) :
    (m.runtimeSize : Run ε ℤ) = .ok n ∧
      ∀ flat < n, (m.call flat : Run ε ℤ) = .ok (m.offset flat) := by
  have hmodes : ∀ {modes : Modes}, modes.size = some n →
      (modes.toLayout.size : Run ε ℤ) = .ok n ∧
        ∀ flat < n, (modes.toLayout.call (.leaf flat) : Run ε ℤ) = .ok (modes.offset flat) := by
    intro modes hsize
    refine ⟨(checkedTupleSize_spec (Modes.checkedTupleSize_eq hsize hn)).2, fun flat hflat => ?_⟩
    exact crd2idx_of_checked (Modes.checkedCrd2idx_eq hsize hn hflat)
  induction m with
  | layout m => exact hmodes h
  | rowMajor r k => exact hmodes h
  | colMajor r k => exact hmodes h
  | composed s o outer ih =>
    obtain ⟨hsize, mo, mx, hmo, hle, hbound, hmx⟩ := size_composed_eq_some h
    obtain ⟨-, mo', hmo', -, hoffOuter⟩ := size_spec hsize
    obtain rfl := Option.some.inj (hmo.symm.trans hmo')
    obtain ⟨hvalid, -, -⟩ := swizzledBound_eq_some hbound
    obtain ⟨hruntime, hcall⟩ := ih hsize
    refine ⟨hruntime, fun flat hflat => ?_⟩
    have ho : 0 ≤ o := by
      simp only [maxOffset, Option.bind_eq_bind, Option.bind_eq_some_iff, parameter_eq_some] at hmx
      obtain ⟨_, _, _, ⟨ho, -⟩, _⟩ := hmx
      exact ho
    have hinput : outer.offset flat + o.toNat ≤ i64Max :=
      (Nat.add_le_add_right (hoffOuter flat hflat) _).trans hle
    have hcast : o + (outer.offset flat : ℤ) = ((outer.offset flat + o.toNat : ℕ) : ℤ) := by
      push_cast
      rw [Int.toNat_of_nonneg ho, add_comm]
    have hfits := Modes.fits_of_le hinput
    rw [call, hcall flat hflat]
    show (do let base ← I64.add o (outer.offset flat); _) = _
    rw [I64.add, hcast, I64.exact, if_pos hfits]
    show (do let input ← I64.add ((outer.offset flat + o.toNat : ℕ) : ℤ) 0; _) = _
    rw [I64.add, add_zero, I64.exact, if_pos hfits]
    show Except.ok (s.apply ((outer.offset flat + o.toNat : ℕ) : ℤ)) = _
    rw [Swizzle.apply_eq hvalid (hinput.trans_lt (by decide))]
    rfl

end Marker

/-! ### Two dimensions -/

/-- The shifted source field, in the machine's words. -/
theorem xor_field {s : Swizzle} (h : s.Valid) (x : ℕ) :
    (if s.numBits = 0 then (Except.ok x : Run ε ℕ)
      else if 0 ≤ s.numShift then .ok (x ^^^ ((x &&& s.yMask.toNat) >>> s.numShift.toNat))
      else .ok (x ^^^ (((x &&& s.yMask.toNat) <<< (-s.numShift).toNat) % 2 ^ 64))) =
      .ok (x ^^^ s.moved x) := by
  have hmoved : s.moved x < 2 ^ 64 :=
    (s.moved_lt x).trans_le (Nat.pow_le_pow_right two_pos
      ((Swizzle.targetEnd_le h).trans (by decide)))
  rw [Swizzle.toNat_yMask h]
  by_cases hbits : s.numBits = 0
  · rw [if_pos hbits, show s.moved x = 0 by simp [Swizzle.moved, Swizzle.mask, hbits],
      Nat.xor_zero]
  · rw [if_neg hbits]
    unfold Swizzle.moved at hmoved ⊢
    by_cases hshift : 0 ≤ s.numShift
    · rw [if_pos hshift, if_pos hshift]
    · rw [if_neg hshift] at hmoved
      rw [if_neg hshift, if_neg hshift, Nat.mod_eq_of_lt hmoved]

/-- **Two-dimensional layouts stay below their declared maximum.** -/
theorem crd2idx2d_le {l : Smem2D} {mx row column : ℕ} (h : maxOffset2d l = some mx)
    (hrow : row < l.shape.1.toNat) (hcolumn : column < l.shape.2.toNat) :
    ∃ v ≤ mx, (crd2idx2d l row column : Run ε ℕ) = .ok v := by
  have hdeclared := h
  unfold maxOffset2d at h
  split at h
  · simp only [Option.bind_eq_bind, Option.bind_eq_some_iff, parameter_eq_some,
      checkedOffsetAdd_eq_some, checkedOffsetMul_eq_some] at h
    obtain ⟨_, ⟨-, -, rfl⟩, _, ⟨-, -, rfl⟩, _, ⟨-, rfl⟩, _, ⟨-, -, rfl⟩, _, ⟨-, -, rfl⟩, _,
      ⟨-, rfl⟩, _, ⟨-, rfl⟩, _, ⟨-, -, rfl⟩, _, ⟨hmax, rfl⟩, hbound⟩ := h
    obtain ⟨hvalid, -, hswizzled⟩ := swizzledBound_eq_some hbound
    have hrows : row * l.stride.1.toNat ≤ (l.shape.1 - 1).toNat * l.stride.1.toNat :=
      Nat.mul_le_mul_right _ (by omega)
    have hcolumns : column * l.stride.2.toNat ≤ (l.shape.2 - 1).toNat * l.stride.2.toNat :=
      Nat.mul_le_mul_right _ (by omega)
    have hlt : i64Max < 2 ^ 64 := by decide
    have hplain : row * l.stride.1.toNat + column * l.stride.2.toNat + l.offset.toNat ≤
        (l.shape.1 - 1).toNat * l.stride.1.toNat + (l.shape.2 - 1).toNat * l.stride.2.toNat +
          l.offset.toNat := by omega
    refine ⟨_, hswizzled _ hplain, ?_⟩
    rw [crd2idx2d, hdeclared]
    show (do Run.assert l.swizzle.Valid; _) = _
    rw [Run.assert, if_pos hvalid]
    show (do let rows ← Usize.mul row l.stride.1.toNat; _) = _
    rw [Usize.mul_eq_ok.mpr ⟨by omega, rfl⟩]
    show (do let columns ← Usize.mul column l.stride.2.toNat; _) = _
    rw [Usize.mul_eq_ok.mpr ⟨by omega, rfl⟩]
    show (do let sum ← Usize.add (row * l.stride.1.toNat) (column * l.stride.2.toNat); _) = _
    rw [Usize.add_eq_ok.mpr ⟨by omega, rfl⟩]
    show (do
      let plain ← Usize.add (row * l.stride.1.toNat + column * l.stride.2.toNat) l.offset.toNat
      _) = _
    rw [Usize.add_eq_ok.mpr ⟨by omega, rfl⟩]
    exact xor_field hvalid _
  · cases h

/-! ### The agreement -/

/-- **Static layouts agree with runtime layouts.**  Every coordinate of an instantiated marker
stays below the declared maximum; where the runtime can count the elements at all, it counts the
same and maps every coordinate to the same offset. -/
theorem staticLayout_spec :
    (∀ (m : Marker) (n : ℕ), m.size = some n → ∃ mx, m.maxOffset = some mx ∧
      (∀ flat < n, ∃ v ≤ mx, (m.crd2idx flat : Run ε ℕ) = .ok v) ∧
      (n ≤ i64Max → (m.runtimeSize : Run ε ℤ) = .ok n ∧
        ∀ flat < n, ∃ v : ℕ, (m.crd2idx flat : Run ε ℕ) = .ok v ∧
          (m.call flat : Run ε ℤ) = .ok v)) ∧
    ∀ (m : Marker) (l : Smem2D) (mx : ℕ), m.reify = some l → maxOffset2d l = some mx →
      ∀ row < l.shape.1.toNat, ∀ column < l.shape.2.toNat,
        ∃ v ≤ mx, (crd2idx2d l row column : Run ε ℕ) = .ok v := by
  refine ⟨fun m n h => ?_, fun m l mx _ hmx row hrow column hcolumn =>
    crd2idx2d_le hmx hrow hcolumn⟩
  obtain ⟨-, mx, hmx, -, hle⟩ := Marker.size_spec h
  refine ⟨mx, hmx, fun flat hflat => ⟨_, hle flat hflat, Marker.crd2idx_eq h hflat⟩, fun hn => ?_⟩
  obtain ⟨hsize, hcall⟩ := Marker.runtime_eq h hn
  exact ⟨hsize, fun flat hflat => ⟨_, Marker.crd2idx_eq h hflat, hcall flat hflat⟩⟩

/-- A swizzled layout at its last coordinate, and in two dimensions at its last cell. -/
theorem staticLayout_spec_sample :
    let m := Marker.composed ⟨1, 0, 1⟩ 3 (.layout (.pair (.leaf 2 4) (.leaf 3 0)))
    (∃ v : ℕ, (m.crd2idx 5 : Run Unit ℕ) = .ok v ∧ (m.call 5 : Run Unit ℤ) = .ok v) ∧
      ∃ v ≤ 7, (crd2idx2d ⟨(2, 3), (4, 0), 3, ⟨1, 0, 1⟩⟩ 1 2 : Run Unit ℕ) = .ok v := by
  intro m
  obtain ⟨hone, htwo⟩ := staticLayout_spec (ε := Unit)
  constructor
  · obtain ⟨_, -, -, hruntime⟩ := hone m 6 (by decide)
    exact (hruntime (by decide)).2 5 (by decide)
  · exact htwo m ⟨(2, 3), (4, 0), 3, ⟨1, 0, 1⟩⟩ 7 (by decide) (by decide) 1 (by decide) 2
      (by decide)

/-- A broadcast of more elements than the runtime can count. -/
theorem size_beyond_runtime :
    (Marker.layout (.pair (.leaf (2 ^ 62) 0) (.leaf 2 0))).size = some (2 ^ 63) ∧
      ((Marker.layout (.pair (.leaf (2 ^ 62) 0) (.leaf 2 0))).runtimeSize : Run Unit ℤ) =
        Run.panic .overflow := by
  refine ⟨by decide, by decide⟩

end CudaOxide.Cute
