import CudaOxide.Cute.ThreadValue
import CudaOxide.Lib.Loop

namespace CudaOxide.Cute

open Lib

/-!
# Swizzles and composed layouts

A swizzle permutes the bits of an offset by an exclusive or (`swizzle.rs`); a composed layout
evaluates a layout, adds a fixed offset and swizzles the result (`composed.rs`).

* `Swizzle.Valid` is a field of `ComposedLayout`, as its constructor checks it and its fields
  are private.
* `scaled_checkedCall` — scaling the strides of a layout scales its offsets.
* `fromLayout_toByteOffsets` — the byte form of a plain layout.
-/

/-! ### Swizzles -/

/-- `S<B,M,S>`: `numBits` bits are copied over a distance of `numShift` bits, and the lowest
`numBase` bits never change. -/
structure Swizzle where
  numBits : ℕ
  numBase : ℕ
  numShift : ℤ
  deriving DecidableEq, Repr

namespace Swizzle

/-- The two bit fields are disjoint and lie in the low 32 bits.  The additions of the source are
checked `u32` additions, whose overflow exceeds 32 as well. -/
def Valid (s : Swizzle) : Prop :=
  s.numBits ≤ s.numShift.natAbs ∧ s.numBase + s.numBits + s.numShift.natAbs ≤ 32

instance (s : Swizzle) : Decidable s.Valid := inferInstanceAs (Decidable (_ ∧ _))

/-- The swizzle that leaves every offset unchanged. -/
def identity : Swizzle := ⟨0, 4, 3⟩

/-- Ones at the source bits. -/
def yMask (s : Swizzle) : BitVec 64 :=
  ((1#64 <<< s.numBits) - 1#64) <<< (s.numBase + s.numShift.toNat)

/-- Move the source field over the target field and combine them with an exclusive or. -/
def apply (s : Swizzle) (x : ℤ) : ℤ :=
  if s.numBits = 0 then x else
    let w := BitVec.ofInt 64 x
    let masked := w &&& s.yMask
    let moved :=
      if 0 ≤ s.numShift then masked.sshiftRight s.numShift.toNat
      else masked <<< (-s.numShift).toNat
    (w ^^^ moved).toInt

/-- Without bits a swizzle is the identity. -/
theorem apply_of_numBits_eq_zero {s : Swizzle} (h : s.numBits = 0) (x : ℤ) : s.apply x = x :=
  if_pos h

end Swizzle

/-- Bits 4 and 3 move down to bits 1 and 0, and in the other direction for a negative shift. -/
example : (Swizzle.mk 2 0 3).apply 16 = 18 ∧ (Swizzle.mk 2 0 (-3)).apply 1 = 9 := by
  decide +kernel

/-! ### Composed layouts -/

/-- What one step of an offset stands for. -/
inductive OffsetUnit where
  | elements
  | bytes
  deriving DecidableEq, Repr

/-- `ComposedLayoutError` -/
inductive ComposedLayoutError where
  | invalidSwizzle
  | invalidElementBytes (bytes : ℤ)
  | arithmeticOverflow
  deriving DecidableEq, Repr

instance : ToString ComposedLayoutError where
  toString
    | .invalidSwizzle => "composed layout has an invalid CuTe swizzle"
    | .invalidElementBytes bytes =>
      s!"element size must be a positive power of two, got {bytes} bytes"
    | .arithmeticOverflow => "composed-layout unit conversion overflowed"

/-- The map `inner(offset + outer(coordinate))`. -/
structure ComposedLayout where
  inner : Swizzle
  offset : ℤ
  outer : Layout
  unit : OffsetUnit
  valid : inner.Valid
  deriving DecidableEq

/-- `is_power_of_two`, with the sign check that guards it. -/
def isPositivePowerOfTwo (n : ℤ) : Bool := 0 < n ∧ n.toNat = 2 ^ n.toNat.log2

/-- The index of the lowest set bit. -/
def trailingZeros (n : ℤ) : ℕ :=
  ((List.range 64).find? fun i => (BitVec.ofInt 64 n).getLsbD i).getD 64

mutual

/-- Multiply every leaf by `scale`, `none` on overflow. -/
def checkedScaleTuple (scale : ℤ) : IntTuple → Option IntTuple
  | .leaf v => (I64.checkedMul v scale).map .leaf
  | .tuple ts => (checkedScaleTuples scale ts).map .tuple

/-- The strides of several trees, each times the scale. -/
def checkedScaleTuples (scale : ℤ) : List IntTuple → Option (List IntTuple)
  | [] => some []
  | t :: ts => do
    let t ← checkedScaleTuple scale t
    let ts ← checkedScaleTuples scale ts
    some (t :: ts)

end

namespace ComposedLayout

/-- The map `inner(offset + outer(coordinate))`, after checking the swizzle. -/
def new (inner : Swizzle) (offset : ℤ) (outer : Layout) (unit : OffsetUnit) :
    Run ComposedLayoutError ComposedLayout :=
  if h : inner.Valid then .ok ⟨inner, offset, outer, unit, h⟩ else Run.fail .invalidSwizzle

/-- A plain layout as a composition. -/
def fromLayout (outer : Layout) (unit : OffsetUnit) : ComposedLayout :=
  ⟨.identity, 0, outer, unit, by decide⟩

/-- `call_with_outer_delta`: the delta is added in front of the swizzle. -/
def callWithOuterDelta [Build] {ε : Type} (l : ComposedLayout) (coord : IntTuple) (delta : ℤ) :
    Run ε ℤ := do
  let o ← l.outer.call coord
  let base ← I64.add l.offset o
  let input ← I64.add base delta
  .ok (l.inner.apply input)

/-- `call` -/
def call [Build] {ε : Type} (l : ComposedLayout) (coord : IntTuple) : Run ε ℤ :=
  l.callWithOuterDelta coord 0

/-- The offset `delta` steps after the item at `coord`, `none` for a coordinate out of range or
an overflow. -/
def checkedCallWithOuterDelta (l : ComposedLayout) (coord : IntTuple) (delta : ℤ) :
    Option ℤ := do
  let o ← l.outer.checkedCall coord
  let base ← I64.checkedAdd l.offset o
  let input ← I64.checkedAdd base delta
  some (l.inner.apply input)

/-- `checked_call` -/
def checkedCall (l : ComposedLayout) (coord : IntTuple) : Option ℤ :=
  l.checkedCallWithOuterDelta coord 0

/-- The same map in bytes: the swizzle moves up by the bits of an element. -/
def toByteOffsets (l : ComposedLayout) (elementBytes : ℤ) :
    Run ComposedLayoutError ComposedLayout :=
  if l.unit = .bytes then .ok l else do
    Run.reject (isPositivePowerOfTwo elementBytes = false) (.invalidElementBytes elementBytes)
    let newBase := l.inner.numBase + trailingZeros elementBytes
    Run.reject (4294967295 < newBase) .arithmeticOverflow
    if hinner : Swizzle.Valid ⟨l.inner.numBits, newBase, l.inner.numShift⟩ then do
      let offset ← Run.okOr (I64.checkedMul l.offset elementBytes) .arithmeticOverflow
      let stride ← Run.okOr (checkedScaleTuple elementBytes l.outer.stride) .arithmeticOverflow
      let outer ← Layout.new l.outer.shape stride
      .ok ⟨_, offset, outer, .bytes, hinner⟩
    else Run.fail .invalidSwizzle

variable {ε : Type} {l l' : ComposedLayout} {c : IntTuple} {e v w δ : ℤ}

/-- What is built has the parts it is built from. -/
theorem new_ok {s : Swizzle} {o : ℤ} {outer : Layout} {unit : OffsetUnit}
    (h : ComposedLayout.new s o outer unit = .ok l) :
    l.inner = s ∧ l.offset = o ∧ l.outer = outer := by
  unfold ComposedLayout.new at h
  split at h
  · rw [← Except.ok.inj h]
    exact ⟨rfl, rfl, rfl⟩
  · cases h

/-- What the checked evaluator accepts, the unchecked one computes too. -/
theorem call_of_checkedCall (h : l.checkedCallWithOuterDelta c δ = some v) :
    (l.callWithOuterDelta c δ : Run ε ℤ) = .ok v := by
  simp only [checkedCallWithOuterDelta, Option.bind_eq_bind, Option.bind_eq_some_iff,
    I64.checkedAdd_eq_some] at h
  obtain ⟨o, ho, _, ⟨hbase, rfl⟩, _, ⟨hinput, rfl⟩, hv⟩ := h
  cases hv
  rw [callWithOuterDelta, Layout.call_of_checkedCall ho]
  show (I64.add l.offset o >>= fun base => _) = _
  rw [I64.add, I64.exact, if_pos hbase]
  show (I64.add (l.offset + o) δ >>= fun input => _) = _
  rw [I64.add, I64.exact, if_pos hinput]
  rfl

end ComposedLayout

/-! ### Scaled strides -/

variable {k v w : ℤ}

mutual

/-- Scaling the strides scales the offset. -/
theorem scaled_checkedCrd2idx : {s c d d' : IntTuple} → {v w : ℤ} →
    checkedScaleTuple k d = some d' → checkedCrd2idx c s d = some v →
    checkedCrd2idx c s d' = some w → w = v * k
  | .leaf s, .leaf c, .leaf d, d', v, w, hd, hv, hw => by
    simp only [checkedScaleTuple, Option.map_eq_some_iff, I64.checkedMul_eq_some] at hd
    obtain ⟨_, ⟨_, rfl⟩, rfl⟩ := hd
    simp only [checkedCrd2idx] at hv hw
    split at hv
    · rw [if_pos ‹_›] at hw
      obtain ⟨_, rfl⟩ := I64.checkedMul_eq_some.mp hv
      obtain ⟨_, rfl⟩ := I64.checkedMul_eq_some.mp hw
      ring
    · cases hv
  | .tuple ss, .tuple cs, .tuple ds, d', v, w, hd, hv, hw => by
    simp only [checkedScaleTuple, Option.map_eq_some_iff] at hd
    obtain ⟨ds', hds, rfl⟩ := hd
    simp only [checkedCrd2idx] at hv hw
    split at hv
    · split at hw
      · exact scaled_checkedCrd2idxTuple hds hv (by rwa [zero_mul])
      · cases hw
    · cases hv
  | .tuple ss, .leaf c, .tuple ds, d', v, w, hd, hv, hw => by
    simp only [checkedScaleTuple, Option.map_eq_some_iff] at hd
    obtain ⟨ds', hds, rfl⟩ := hd
    simp only [checkedCrd2idx, Option.bind_eq_bind] at hv hw
    split at hv
    · split at hw
      · obtain ⟨n, hn, hv⟩ := Option.bind_eq_some_iff.mp hv
        obtain ⟨n', hn', hw⟩ := Option.bind_eq_some_iff.mp hw
        rw [hn] at hn'
        cases hn'
        split at hv
        · rw [if_pos ‹_›] at hw
          exact scaled_checkedCrd2idxFlat hds hv (by rwa [zero_mul])
        · cases hv
      · cases hw
    · cases hv
  | .leaf _, .tuple _, _, _, _, _, _, hv, _ => by cases hv
  | .tuple _, .tuple _, .leaf _, _, _, _, _, hv, _ => by cases hv
  | .leaf _, .leaf _, .tuple _, _, _, _, _, hv, _ => by cases hv
  | .tuple _, .leaf _, .leaf _, _, _, _, _, hv, _ => by cases hv

/-- A call over scaled strides gives the scaled offset. -/
theorem scaled_checkedCrd2idxTuple : {ss cs ds ds' : List IntTuple} → {sum v w : ℤ} →
    checkedScaleTuples k ds = some ds' → checkedCrd2idxTuple sum cs ss ds = some v →
    checkedCrd2idxTuple (sum * k) cs ss ds' = some w → w = v * k
  | s :: ss, c :: cs, d :: ds, ds', sum, v, w, hd, hv, hw => by
    simp only [checkedScaleTuples, Option.bind_eq_bind, Option.bind_eq_some_iff] at hd
    obtain ⟨d', hd, ds', hds, heq⟩ := hd
    cases heq
    simp only [checkedCrd2idxTuple, Option.bind_eq_bind, Option.bind_eq_some_iff,
      I64.checkedAdd_eq_some] at hv hw
    obtain ⟨o, ho, _, ⟨_, rfl⟩, hv⟩ := hv
    obtain ⟨o', ho', _, ⟨_, rfl⟩, hw⟩ := hw
    rw [scaled_checkedCrd2idx hd ho ho', ← add_mul] at hw
    exact scaled_checkedCrd2idxTuple hds hv hw
  | [], cs, ds, ds', sum, v, w, _, hv, hw => by
    rw [checkedCrd2idxTuple] at hv hw
    · cases hv
      cases hw
      rfl
    all_goals simp
  | _ :: _, [], _, _, _, _, _, _, hv, hw => by
    cases hv
    cases hw
    rfl
  | _ :: _, _ :: _, [], ds', _, _, _, hd, hv, hw => by
    cases hd
    cases hv
    cases hw
    rfl

/-- The same for a flat coordinate. -/
theorem scaled_checkedCrd2idxFlat : {ss ds ds' : List IntTuple} → {rem idx v w : ℤ} →
    checkedScaleTuples k ds = some ds' → checkedCrd2idxFlat rem idx ss ds = some v →
    checkedCrd2idxFlat rem (idx * k) ss ds' = some w → w = v * k
  | s :: ss, d :: ds, ds', rem, idx, v, w, hd, hv, hw => by
    simp only [checkedScaleTuples, Option.bind_eq_bind, Option.bind_eq_some_iff] at hd
    obtain ⟨d', hd, ds', hds, heq⟩ := hd
    cases heq
    simp only [checkedCrd2idxFlat, Option.bind_eq_bind, Option.bind_eq_some_iff] at hv hw
    obtain ⟨sz, hsz, hv⟩ := hv
    obtain ⟨sz', hsz', hw⟩ := hw
    rw [hsz] at hsz'
    cases hsz'
    split at hv
    · rw [if_pos ‹_›] at hw
      simp only [Option.bind_eq_some_iff, I64.checkedAdd_eq_some] at hv hw
      obtain ⟨o, ho, _, ⟨_, rfl⟩, hv⟩ := hv
      obtain ⟨o', ho', _, ⟨_, rfl⟩, hw⟩ := hw
      rw [scaled_checkedCrd2idx hd ho ho', ← add_mul] at hw
      exact scaled_checkedCrd2idxFlat hds hv hw
    · cases hv
  | [], ds, ds', rem, idx, v, w, _, hv, hw => by
    rw [checkedCrd2idxFlat] at hv hw
    · cases hv
      cases hw
      rfl
    all_goals simp
  | _ :: _, [], ds', _, _, _, _, hd, hv, hw => by
    cases hd
    cases hv
    cases hw
    rfl

end

namespace ComposedLayout

variable {l : Layout} {a b : ComposedLayout} {c : IntTuple} {e δ : ℤ}

/-- What the conversion of an element layout changes. -/
theorem toByteOffsets_elements (hunit : a.unit = .elements) (hb : a.toByteOffsets e = .ok b) :
    b.unit = .bytes ∧ b.inner.numBits = a.inner.numBits ∧ b.offset = a.offset * e ∧
      b.outer.shape = a.outer.shape ∧
      checkedScaleTuple e a.outer.stride = some b.outer.stride := by
  simp only [toByteOffsets, hunit, reduceCtorEq, if_false, Run.bind_eq_ok] at hb
  obtain ⟨_, _, _, _, hb⟩ := hb
  by_cases hinner : Swizzle.Valid ⟨a.inner.numBits, a.inner.numBase + trailingZeros e,
      a.inner.numShift⟩
  · rw [dif_pos hinner] at hb
    simp only [Run.bind_eq_ok, Run.okOr_eq_ok, I64.checkedMul_eq_some, Layout.new] at hb
    obtain ⟨_, ⟨_, rfl⟩, stride, hstride, outer, ⟨_, _, houter⟩, hb⟩ := hb
    cases houter
    cases hb
    exact ⟨rfl, rfl, rfl, rfl, hstride⟩
  · rw [dif_neg hinner] at hb
    cases hb

/-- The byte form of a plain layout: each offset is scaled by the size of an element. -/
theorem fromLayout_toByteOffsets {v w : ℤ}
    (hb : (fromLayout l .elements).toByteOffsets e = .ok b) (hv : l.checkedCall c = some v)
    (hw : b.checkedCallWithOuterDelta c δ = some w) : w = v * e + δ := by
  obtain ⟨_, hbits, hoffset, hshape, hstride⟩ := toByteOffsets_elements rfl hb
  simp only [checkedCallWithOuterDelta, Option.bind_eq_bind, Option.bind_eq_some_iff,
    I64.checkedAdd_eq_some] at hw
  obtain ⟨o, ho, _, ⟨_, rfl⟩, _, ⟨_, rfl⟩, hw⟩ := hw
  rw [Swizzle.apply_of_numBits_eq_zero hbits] at hw
  cases hw
  rw [Layout.checkedCall, hshape] at ho
  have hzero : (fromLayout l .elements).offset = 0 := rfl
  rw [hoffset, hzero, zero_mul, zero_add, scaled_checkedCrd2idx hstride hv ho]

end ComposedLayout

end CudaOxide.Cute
