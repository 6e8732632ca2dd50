import CudaOxide.Lib.Bytes
import CudaOxide.Lib.RowMajor
import CudaOxide.Lib.Safe
import CudaOxide.Tile.Specialization

/-!
# Views, reshapes and slices of tensors

The shapes, strides and byte offsets of zero-copy views (`cutile/src/tensor.rs`).  Shapes are
checked in `usize` and kept in `i32`, whose products panic in a build with overflow checks and wrap
around in one without.  Each call infers the specialization bits of its result, for which it forms
further products.

* `i32Mul`, `asI32`, `specAt` — the arithmetic.
* `Tensor.view`, `Tensor.reinterpret`, `TensorView.slice` and so on — the operations.
* `Chain` — calls one after the other, with the element that each element stands for.
* `MeetsCall` — what keeps a call from overflowing: the products of trailing extents fit an `i32`,
  and on a slice those of the strides with the extents.
* `chain_correct` — then each element of the result is the one of the source that it stands for.
-/

namespace CudaOxide.Tile.Views

open CudaOxide.Lib RowMajor

/-! ### Arithmetic -/

/-- The errors of the tensor operations. -/
inductive TensorError where
  /-- "Tensor shape overflowed usize." -/
  | shapeOverflow
  /-- "Tensor byte size overflowed usize." -/
  | bytesOverflow
  /-- "Tensor shape contains negative dimension." -/
  | negativeDimension
  /-- "Zero-copy tensor views require contiguous storage (shape …, strides …)." -/
  | notContiguous (shape strides : List ℤ)
  /-- "View shape must preserve tensor size: … does not have the same number of elements as …." -/
  | sizeMismatch (target : List ℕ) (shape : List ℤ)
  /-- "Zero-copy reinterpret requires contiguous storage." -/
  | reinterpretNotContiguous
  /-- "Reinterpret shape must preserve total byte size." -/
  | reinterpretSize
  /-- "Tensor storage alignment is incompatible with reinterpret target type." -/
  | alignment
  /-- "slice: more ranges than axes." -/
  | moreRanges
  /-- "slice: range out of bounds." -/
  | rangeOutOfBounds
  deriving DecidableEq

/-- A run of a tensor operation. -/
abbrev TensorRun := Run TensorError

/-- `x * y` on `i32` -/
def i32Mul (b : Build) (x y : ℤ) : TensorRun ℤ :=
  if FitsI32 (x * y) then .ok (x * y) else Run.overflowed b (Int.bmod (x * y) (2 ^ 32))

/-- `x * y` on `usize` -/
def usizeMul (b : Build) (x y : ℕ) : TensorRun ℕ :=
  if x * y < 2 ^ 64 then .ok (x * y) else Run.overflowed b (x * y % 2 ^ 64)

/-- `x + y` on `usize`, or on the addresses, which are `u64` -/
def usizeAdd (b : Build) (x y : ℕ) : TensorRun ℕ :=
  if x + y < 2 ^ 64 then .ok (x + y) else Run.overflowed b ((x + y) % 2 ^ 64)

/-- `x as i32` of a `usize` -/
def asI32 (x : ℕ) : ℤ := Int.bmod x (2 ^ 32)

/-- `x as usize` of an `i32` -/
def asUsize (x : ℤ) : ℕ := (x % 2 ^ 64).toNat

/-! ### Shapes -/

/-- One round of the loop of `contiguous_strides`. -/
def strideRound (b : Build) (st : ℤ × List ℤ) (dim : ℤ) : TensorRun (ℤ × List ℤ) := do
  let stride ← i32Mul b st.1 dim
  .ok (stride, st.2 ++ [st.1])

/-- `contiguous_strides`, from the last axis to the first. -/
def contiguousStrides (b : Build) (shape : List ℤ) : TensorRun (List ℤ) := do
  let st ← shape.reverse.foldlM (strideRound b) (1, [])
  .ok st.2.reverse

/-- `checked_num_elements`. -/
def checkedNumElements (shape : List ℕ) : TensorRun ℕ :=
  shape.foldlM (fun acc dim => Run.okOr (Usize.checkedMul acc dim) .shapeOverflow) 1

/-- `checked_num_bytes`. -/
def checkedNumBytes (elemSize : ℕ) (shape : List ℕ) : TensorRun ℕ := do
  Run.okOr (Usize.checkedMul (← checkedNumElements shape) elemSize) .bytesOverflow

/-- `checked_num_elements_i32`. -/
def checkedNumElementsI32 (shape : List ℤ) : TensorRun ℕ :=
  shape.foldlM (fun acc dim => do
    Run.reject (dim < 0) .negativeDimension
    Run.okOr (Usize.checkedMul acc dim.toNat) .shapeOverflow) 1

/-- `checked_num_bytes_i32`. -/
def checkedNumBytesI32 (elemSize : ℕ) (shape : List ℤ) : TensorRun ℕ := do
  Run.okOr (Usize.checkedMul (← checkedNumElementsI32 shape) elemSize) .bytesOverflow

/-- `.expect(…)`: an error becomes a panic. -/
def expect {α : Type} (x : TensorRun α) : TensorRun α :=
  match x with
  | .ok a => .ok a
  | .error _ => Run.panic .assertion

/-- `validate_view_shape_for`. -/
def validateViewShapeFor (b : Build) (elemSize : ℕ) (shape strides : List ℤ) (target : List ℕ) :
    TensorRun Unit := do
  let contiguous ← contiguousStrides b shape
  Run.reject (strides ≠ contiguous) (.notContiguous shape strides)
  let targetNumBytes ← checkedNumBytes elemSize target
  let currentNumBytes ← checkedNumBytesI32 elemSize shape
  Run.reject (targetNumBytes ≠ currentNumBytes) (.sizeMismatch target shape)

/-! ### Tensors and views -/

/-- A tensor: the size of its elements, the address and the length of its storage, and its
metadata. -/
structure Tensor where
  elemSize : ℕ
  ptr : ℕ
  storageNumBytes : ℕ
  shape : List ℤ
  strides : List ℤ
  spec : SpecializationBits

/-- A view borrows a tensor: what it addresses starts `offsetBytes` behind the base. -/
structure TensorView where
  base : Tensor
  offsetBytes : ℕ
  shape : List ℤ
  strides : List ℤ
  spec : SpecializationBits

/-- `compute_spec` at an address, of metadata that is kept in `i32` -/
def specAt (b : Build) (ptr : ℕ) (shape strides : List ℤ) : TensorRun SpecializationBits :=
  computeSpecIn b (UInt64.ofNat ptr) (shape.map Int32.ofInt) (strides.map Int32.ofInt)

/-- `start..stop` -/
structure Range where
  start : ℕ
  stop : ℕ

/-- One round of the loop of `slice`. -/
def sliceRound (b : Build) (shape strides : List ℤ) (st : ℕ × List ℤ) (r : Range × ℕ) :
    TensorRun (ℕ × List ℤ) := do
  let dim := asUsize (← Run.index shape r.2)
  Run.reject (r.1.start > r.1.stop ∨ r.1.stop > dim) .rangeOutOfBounds
  let stride := asUsize (← Run.index strides r.2)
  let offsetElems ← usizeAdd b st.1 (← usizeMul b r.1.start stride)
  .ok (offsetElems, st.2.set r.2 (asI32 (r.1.stop - r.1.start)))

/-- The loop of `slice`: the offset in elements, and the new shape. -/
def sliceLoop (b : Build) (shape strides : List ℤ) (ranges : List Range) :
    TensorRun (ℕ × List ℤ) := do
  Run.reject (ranges.length > shape.length) .moreRanges
  ranges.zipIdx.foldlM (sliceRound b shape strides) (0, shape)

namespace Tensor

/-- `assert_valid_metadata`. -/
def assertValidMetadata (elemSize : ℕ) (shape strides : List ℤ) (storageNumBytes : ℕ) :
    TensorRun Unit := do
  Run.assert (shape.length = strides.length)
  let numBytes ← expect (checkedNumBytesI32 elemSize shape)
  Run.assert (numBytes = storageNumBytes)

/-- `Tensor::view`. -/
def view (b : Build) (t : Tensor) (shape : List ℕ) : TensorRun TensorView := do
  validateViewShapeFor b t.elemSize t.shape t.strides shape
  let newShape := shape.map asI32
  let newStrides ← contiguousStrides b newShape
  let spec ← specAt b t.ptr newShape newStrides
  .ok ⟨t, 0, newShape, newStrides, spec⟩

/-- `reshape`, of a tensor or a shared tensor -/
def reshape (b : Build) (t : Tensor) (shape : List ℕ) : TensorRun Tensor := do
  validateViewShapeFor b t.elemSize t.shape t.strides shape
  let newShape := shape.map asI32
  let newStrides ← contiguousStrides b newShape
  let spec ← specAt b t.ptr newShape newStrides
  .ok ⟨t.elemSize, t.ptr, t.storageNumBytes, newShape, newStrides, spec⟩

/-- `validate_reinterpret_shape`. -/
def validateReinterpretShape (b : Build) (t : Tensor) (elemSize align : ℕ) (shape : List ℕ) :
    TensorRun Unit := do
  let contiguous ← contiguousStrides b t.shape
  Run.reject (t.strides ≠ contiguous) .reinterpretNotContiguous
  let targetNumBytes ← checkedNumBytes elemSize shape
  let typedNumBytes ← expect (checkedNumBytesI32 t.elemSize t.shape)
  Run.reject (targetNumBytes ≠ typedNumBytes) .reinterpretSize
  Run.reject (align > 1 ∧ ¬align ∣ t.ptr) .alignment

/-- `reinterpret`, to a type with the given size and alignment -/
def reinterpret (b : Build) (t : Tensor) (elemSize align : ℕ) (shape : List ℕ) :
    TensorRun Tensor := do
  t.validateReinterpretShape b elemSize align shape
  let newShape := shape.map asI32
  let newStrides ← contiguousStrides b newShape
  let spec ← specAt b t.ptr newShape newStrides
  .ok ⟨elemSize, t.ptr, t.storageNumBytes, newShape, newStrides, spec⟩

/-- `Tensor::slice`. -/
def slice (b : Build) (t : Tensor) (ranges : List Range) : TensorRun TensorView := do
  let st ← sliceLoop b t.shape t.strides ranges
  let offsetBytes ← usizeMul b st.1 t.elemSize
  let spec ← specAt b (← usizeAdd b t.ptr offsetBytes) st.2 t.strides
  .ok ⟨t, offsetBytes, st.2, t.strides, spec⟩

end Tensor

namespace TensorView

/-- `TensorView::view`. -/
def view (b : Build) (v : TensorView) (shape : List ℕ) : TensorRun TensorView := do
  validateViewShapeFor b v.base.elemSize v.shape v.strides shape
  let newShape := shape.map asI32
  let newStrides ← contiguousStrides b newShape
  let spec ← specAt b (← usizeAdd b v.base.ptr v.offsetBytes) newShape newStrides
  .ok ⟨v.base, v.offsetBytes, newShape, newStrides, spec⟩

/-- `TensorView::slice`. -/
def slice (b : Build) (v : TensorView) (ranges : List Range) : TensorRun TensorView := do
  let st ← sliceLoop b v.shape v.strides ranges
  let offsetBytes ← usizeAdd b v.offsetBytes (← usizeMul b st.1 v.base.elemSize)
  let spec ← specAt b (← usizeAdd b v.base.ptr offsetBytes) st.2 v.strides
  .ok ⟨v.base, offsetBytes, st.2, v.strides, spec⟩

end TensorView

/-! ### Chains of calls -/

/-- What a call is made on, and what it returns. -/
inductive Handle where
  | tensor (t : Tensor)
  | view (v : TensorView)

namespace Handle

/-- The size of an element. -/
def elemSize : Handle → ℕ
  | tensor t => t.elemSize
  | view v => v.base.elemSize

/-- The pointer to the storage. -/
def ptr : Handle → ℕ
  | tensor t => t.ptr
  | view v => v.base.ptr

/-- The offset of the first element. -/
def offsetBytes : Handle → ℕ
  | tensor _ => 0
  | view v => v.offsetBytes

/-- The extents. -/
def shape : Handle → List ℤ
  | tensor t => t.shape
  | view v => v.shape

/-- The strides. -/
def strides : Handle → List ℤ
  | tensor t => t.strides
  | view v => v.strides

end Handle

/-- A call of the chain. -/
inductive Call where
  | view (shape : List ℕ)
  | reshape (shape : List ℕ)
  | reinterpret (elemSize align : ℕ) (shape : List ℕ)
  | slice (ranges : List Range)

/-- The call returns `Ok`. -/
inductive Step (b : Build) : Handle → Call → Handle → Prop where
  | view {t : Tensor} {shape : List ℕ} {v : TensorView} :
    t.view b shape = .ok v → Step b (.tensor t) (.view shape) (.view v)
  | reshape {t t' : Tensor} {shape : List ℕ} :
    t.reshape b shape = .ok t' → Step b (.tensor t) (.reshape shape) (.tensor t')
  | reinterpret {t t' : Tensor} {elemSize align : ℕ} {shape : List ℕ} (hsize : 0 < elemSize) :
    t.reinterpret b elemSize align shape = .ok t' →
      Step b (.tensor t) (.reinterpret elemSize align shape) (.tensor t')
  | slice {t : Tensor} {ranges : List Range} {v : TensorView} :
    t.slice b ranges = .ok v → Step b (.tensor t) (.slice ranges) (.view v)
  | viewView {v v' : TensorView} {shape : List ℕ} :
    v.view b shape = .ok v' → Step b (.view v) (.view shape) (.view v')
  | viewSlice {v v' : TensorView} {ranges : List Range} :
    v.slice b ranges = .ok v' → Step b (.view v) (.slice ranges) (.view v')

/-- A byte of an element: the index of the element, and the byte in it. -/
abbrev Cell := List ℕ × ℕ

/-- The starts of the ranges are added to the first axes. -/
def addStarts : List Range → List ℕ → List ℕ
  | [], is => is
  | _ :: _, [] => []
  | r :: rs, i :: is => (r.start + i) :: addStarts rs is

/-- The first axes have the lengths of the ranges. -/
def sliceShape : List Range → List ℕ → List ℕ
  | [], ds => ds
  | _ :: _, [] => []
  | r :: rs, _ :: ds => (r.stop - r.start) :: sliceShape rs ds

namespace Call

/-- The shape that a call asks for, on a tensor with the given shape. -/
def requested : Call → List ℕ → List ℕ
  | view shape, _ => shape
  | reshape shape, _ => shape
  | reinterpret _ _ shape, _ => shape
  | slice ranges, ds => sliceShape ranges ds

/-- Over the same bytes in row-major order. -/
def sameByte (ds : List ℕ) (elemSize : ℕ) (shape : List ℕ) (elemSize' : ℕ) (c : Cell) : Cell :=
  let n := dot c.1 (RowMajor.strides shape) * elemSize' + c.2
  (unravel ds (n / elemSize), n % elemSize)

/-- What a cell of the result stands for, on a tensor with the given shape and size of elements. -/
def designated (ds : List ℕ) (elemSize : ℕ) : Call → Cell → Cell
  | view shape => sameByte ds elemSize shape elemSize
  | reshape shape => sameByte ds elemSize shape elemSize
  | reinterpret elemSize' _ shape => sameByte ds elemSize shape elemSize'
  | slice ranges => fun c => (addStarts ranges c.1, c.2)

end Call

namespace Handle

/-- The extents as natural numbers. -/
def extents (h : Handle) : List ℕ := h.shape.map Int.toNat

/-- The cell is one that the metadata addresses. -/
def InRange (h : Handle) (c : Cell) : Prop :=
  List.Forall₂ (fun (i : ℕ) (d : ℤ) => i < d) c.1 h.shape ∧ c.2 < h.elemSize

/-- The address of a cell, in bytes from the base of the storage. -/
def address (h : Handle) (c : Cell) : ℤ :=
  h.offsetBytes + (List.zipWith (fun (i : ℕ) (s : ℤ) => i * s) c.1 h.strides).sum * h.elemSize + c.2

end Handle

/-- Calls one after the other, and what each cell of the result stands for in the source. -/
inductive Chain (b : Build) : Handle → List Call → Handle → (Cell → Cell) → Prop where
  | nil {h : Handle} : Chain b h [] h id
  | cons {h h₁ h' : Handle} {call : Call} {calls : List Call} {f : Cell → Cell} :
    Step b h call h₁ → Chain b h₁ calls h' f →
      Chain b h (call :: calls) h' (call.designated h.extents h.elemSize ∘ f)

/-- The shape that a chain of calls asks for. -/
def requestedShape : List ℕ → List Call → List ℕ
  | ds, [] => ds
  | ds, call :: calls => requestedShape (call.requested ds) calls

/-! ### What keeps a call from overflowing -/

/-- Every product of trailing extents fits an `i32`, and so does every extent. -/
def TrailingFit : List ℕ → Prop
  | [] => True
  | d :: ds => d < 2 ^ 31 ∧ d * ds.prod < 2 ^ 31 ∧ TrailingFit ds

instance decidableTrailingFit : (ds : List ℕ) → Decidable (TrailingFit ds)
  | [] => inferInstanceAs (Decidable True)
  | _ :: ds => @instDecidableAnd _ _ _ (@instDecidableAnd _ _ _ (decidableTrailingFit ds))

/-- The products of the starts of the ranges and the strides. -/
def startOffset : List Range → List ℤ → ℕ
  | r :: rs, s :: ss => r.start * s.toNat + startOffset rs ss
  | _, _ => 0

/-- The products that the specialization bits are inferred from fit an `i32`. -/
def SpecFits (shape strides : List ℤ) : Prop :=
  ProductsFit (sortedAxes (shape.map Int32.ofInt) (strides.map Int32.ofInt))

/-- The shapes before and after a view fit an `i32` with their products, and so do the products of
the strides of a slice with its extents; the offset of a slice fits a `usize`. -/
def MeetsCall (h : Handle) : Call → Prop
  | .view shape => TrailingFit h.extents ∧ TrailingFit shape
  | .reshape shape => TrailingFit h.extents ∧ TrailingFit shape
  | .reinterpret _ _ shape => TrailingFit h.extents ∧ TrailingFit shape
  | .slice ranges => h.offsetBytes + startOffset ranges h.strides * h.elemSize < 2 ^ 64 ∧
      SpecFits ((sliceShape ranges h.extents).map (↑)) h.strides

/-- Every call of the chain meets the condition, on the handle it is made on. -/
def MeetsChain (b : Build) : Handle → List Call → Prop
  | _, [] => True
  | h, call :: calls => MeetsCall h call ∧ ∀ h', Step b h call h' → MeetsChain b h' calls

/-! ### Arithmetic that does not overflow -/

section Arithmetic

variable {b : Build} {ds : List ℕ}

/-- A product that fits `i32` is computed in every build. -/
theorem i32Mul_of_fits {x y : ℤ} (h : FitsI32 (x * y)) : i32Mul b x y = .ok (x * y) := if_pos h

/-- A product that fits `usize` is computed in every build. -/
theorem usizeMul_of_lt {x y : ℕ} (h : x * y < 2 ^ 64) : usizeMul b x y = .ok (x * y) := if_pos h

/-- A sum that fits `usize` is computed in every build. -/
theorem usizeAdd_of_lt {x y : ℕ} (h : x + y < 2 ^ 64) : usizeAdd b x y = .ok (x + y) := if_pos h

/-- A small extent is kept by the cast to `i32`. -/
theorem asI32_of_lt {x : ℕ} (h : x < 2 ^ 31) : asI32 x = x := by
  unfold asI32
  exact Int.bmod_eq_of_le (by omega) (by norm_num; omega)

/-- A small extent is kept by the cast to `usize`. -/
theorem asUsize_of_lt {x : ℤ} (h0 : 0 ≤ x) (h : x < 2 ^ 31) : asUsize x = x.toNat := by
  unfold asUsize
  rw [Int.emod_eq_of_lt h0 (by omega)]

/-- The number of elements fits. -/
theorem TrailingFit.prod_lt (h : TrailingFit ds) : ds.prod < 2 ^ 31 := by
  cases ds with
  | nil => norm_num
  | cons d ds =>
    rw [List.prod_cons]
    exact h.2.1

/-- Every extent fits. -/
theorem TrailingFit.lt (h : TrailingFit ds) {d : ℕ} (hd : d ∈ ds) : d < 2 ^ 31 := by
  induction ds with
  | nil => cases hd
  | cons e ds ih =>
    rcases List.mem_cons.mp hd with rfl | hd
    · exact h.1
    · exact ih h.2.2 hd

/-- Every stride fits. -/
theorem TrailingFit.strides_lt (h : TrailingFit ds) {s : ℕ} (hs : s ∈ RowMajor.strides ds) :
    s < 2 ^ 31 := by
  induction ds with
  | nil => cases hs
  | cons d ds ih =>
    rcases List.mem_cons.mp hs with rfl | hs
    · exact h.2.2.prod_lt
    · exact ih h.2.2 hs

/-- Extents that fit are kept by the cast. -/
theorem TrailingFit.map_asI32 (h : TrailingFit ds) : ds.map asI32 = ds.map (↑) :=
  List.map_congr_left fun _ hd => asI32_of_lt (h.lt hd)

/-- The loop computes the row-major strides. -/
theorem strideLoop_eq (b : Build) (h : TrailingFit ds) :
    (ds.map (↑) : List ℤ).reverse.foldlM (strideRound b) (1, []) =
      .ok ((ds.prod : ℤ), ((RowMajor.strides ds).map (↑) : List ℤ).reverse) := by
  induction ds with
  | nil => rfl
  | cons d ds ih =>
    have hfits : FitsI32 ((ds.prod : ℤ) * d) := by
      have hlt : ds.prod * d ≤ 2147483647 := by
        have := h.2.1
        rw [Nat.mul_comm] at this
        omega
      have hnonneg : (0 : ℤ) ≤ (ds.prod : ℤ) * d := by positivity
      exact ⟨by omega, by exact_mod_cast hlt⟩
    rw [List.map_cons, List.reverse_cons, List.foldlM_append, ih h.2.2]
    show (strideRound b _ (d : ℤ) >>= fun st => .ok st) = _
    rw [strideRound, i32Mul_of_fits hfits, List.prod_cons, RowMajor.strides, List.map_cons,
      List.reverse_cons, Nat.cast_mul, mul_comm]
    rfl

/-- **The strides are the products of the extents behind.** -/
theorem contiguousStrides_eq (b : Build) (h : TrailingFit ds) :
    contiguousStrides b (ds.map (↑)) = .ok ((RowMajor.strides ds).map (↑)) := by
  rw [contiguousStrides, strideLoop_eq b h]
  show Except.ok (List.reverse (List.reverse _)) = _
  rw [List.reverse_reverse]

/-- An address that wraps is the same `u64` as the exact sum. -/
theorem ofNat_usizeAdd {x y z : ℕ} (h : usizeAdd b x y = .ok z) :
    UInt64.ofNat z = UInt64.ofNat (x + y) := by
  unfold usizeAdd at h
  split at h
  · rw [Except.ok.inj h]
  · cases b with
    | checked => exact absurd h Run.panic_ne_ok
    | wrapping =>
      rw [← Except.ok.inj h]
      apply UInt64.toNat_inj.mp
      simp

/-- What `specAt` returns where nothing overflows. -/
def specOf (ptr : ℕ) (shape strides : List ℤ) : SpecializationBits :=
  computeSpec (UInt64.ofNat ptr) (shape.map Int32.ofInt) (strides.map Int32.ofInt)

/-- The specialization bits when every product fits. -/
theorem specAt_of_fits {shape strides : List ℤ} (b : Build) {ptr n : ℕ}
    (hptr : UInt64.ofNat ptr = UInt64.ofNat n) (hlen : shape.length ≤ strides.length)
    (h : SpecFits shape strides) : specAt b ptr shape strides = .ok (specOf n shape strides) := by
  rw [specAt, specOf, ← hptr]
  exact computeSpecIn_of_fits b (by simpa using hlen) h

/-- A build that wraps overflows nowhere. -/
theorem specAt_wrapping {shape strides : List ℤ} {ptr : ℕ} (hlen : shape.length = strides.length) :
    specAt .wrapping ptr shape strides = .ok (specOf ptr shape strides) :=
  computeSpecIn_wrapping (by simp [hlen])

/-- In a checked build every product fits. -/
theorem specFits_of_checked {shape strides : List ℤ} {ptr : ℕ} {spec : SpecializationBits}
    (h : specAt .checked ptr shape strides = .ok spec) : SpecFits shape strides :=
  (computeSpecIn_checked_iff.mp ⟨spec, h⟩).2

/-- The product of a row-major stride and its extent fits. -/
theorem TrailingFit.stride_mul_lt (h : TrailingFit ds) {w : ℕ × ℕ}
    (hw : w ∈ (RowMajor.strides ds).zip ds) : w.1 * w.2 < 2 ^ 31 := by
  induction ds with
  | nil => cases hw
  | cons d ds ih =>
    rw [RowMajor.strides, List.zip_cons_cons] at hw
    rcases List.mem_cons.mp hw with rfl | hw
    · rw [Nat.mul_comm]
      exact h.2.1
    · exact ih h.2.2 hw

/-- The strides of a shape in row-major order step over the axes behind, which is a product of
trailing extents. -/
theorem TrailingFit.specFits (h : TrailingFit ds) :
    SpecFits (ds.map (↑)) ((RowMajor.strides ds).map (↑)) := by
  refine productsFit_of_axes fun w hw => ?_
  rw [List.map_map, List.map_map, List.zip_map] at hw
  obtain ⟨⟨s, d⟩, hmem, rfl⟩ := List.mem_map.mp hw
  have hd : d < 2 ^ 31 := h.lt (List.of_mem_zip hmem).2
  have hs : s < 2 ^ 31 := h.strides_lt (List.of_mem_zip hmem).1
  have hlt : s * d < 2 ^ 31 := h.stride_mul_lt hmem
  have hcast : ∀ n : ℕ, n < 2 ^ 31 → (Int32.ofInt n).toInt = n := fun n hn =>
    Int32.toInt_ofInt_of_le (by norm_num) (by norm_num; omega)
  show FitsI32 ((Int32.ofInt s).toInt * (Int32.ofInt d).toInt)
  rw [hcast s hs, hcast d hd]
  have hint : (s * d : ℤ) < 2 ^ 31 := by exact_mod_cast hlt
  have hnonneg : (0 : ℤ) ≤ s * d := by positivity
  exact ⟨by omega, by omega⟩

/-- The number of elements is the product of the extents. -/
theorem checkedNumElements_eq {n : ℕ} (h : checkedNumElements ds = .ok n) : n = ds.prod := by
  have hloop : ∀ (ds : List ℕ) (acc : ℕ), ds.foldlM (fun acc dim =>
      (Run.okOr (Usize.checkedMul acc dim) .shapeOverflow : TensorRun ℕ)) acc = .ok n →
        n = acc * ds.prod := by
    intro ds
    induction ds with
    | nil =>
      intro acc h
      rw [List.prod_nil, mul_one]
      exact (Except.ok.inj h).symm
    | cons d ds ih =>
      intro acc h
      rw [List.foldlM_cons] at h
      obtain ⟨next, hnext, h⟩ := Run.bind_eq_ok.mp h
      obtain ⟨-, rfl⟩ := Usize.checkedMul_eq_some.mp (Run.okOr_eq_ok.mp hnext)
      rw [ih _ h, List.prod_cons, mul_assoc]
  rw [hloop ds 1 h, one_mul]

/-- The number of elements, with the sign of every extent checked. -/
theorem checkedNumElementsI32_eq {shape : List ℤ} {n : ℕ}
    (h : checkedNumElementsI32 shape = .ok n) :
    (∀ d ∈ shape, 0 ≤ d) ∧ n = (shape.map Int.toNat).prod := by
  have hloop : ∀ (shape : List ℤ) (acc : ℕ), shape.foldlM (fun acc dim => do
      Run.reject (dim < 0) TensorError.negativeDimension
      Run.okOr (Usize.checkedMul acc dim.toNat) .shapeOverflow) acc = .ok n →
        (∀ d ∈ shape, 0 ≤ d) ∧ n = acc * (shape.map Int.toNat).prod := by
    intro shape
    induction shape with
    | nil =>
      intro acc h
      refine ⟨fun d hd => absurd hd List.not_mem_nil, ?_⟩
      rw [List.map_nil, List.prod_nil, mul_one]
      exact (Except.ok.inj h).symm
    | cons d shape ih =>
      intro acc h
      rw [List.foldlM_cons] at h
      obtain ⟨next, hnext, h⟩ := Run.bind_eq_ok.mp h
      obtain ⟨u, hneg, hnext⟩ := Run.bind_eq_ok.mp hnext
      obtain ⟨-, rfl⟩ := Usize.checkedMul_eq_some.mp (Run.okOr_eq_ok.mp hnext)
      obtain ⟨hall, hn⟩ := ih _ h
      refine ⟨fun x hx => ?_, ?_⟩
      · rcases List.mem_cons.mp hx with rfl | hx
        · exact not_lt.mp (Run.reject_eq_ok.mp hneg)
        · exact hall x hx
      · rw [hn, List.map_cons, List.prod_cons, mul_assoc]
  have := hloop shape 1 h
  rwa [one_mul] at this

/-- The number of bytes. -/
theorem checkedNumBytes_eq {elemSize n : ℕ} (h : checkedNumBytes elemSize ds = .ok n) :
    n = ds.prod * elemSize := by
  obtain ⟨m, hm, h⟩ := Run.bind_eq_ok.mp h
  obtain ⟨-, rfl⟩ := Usize.checkedMul_eq_some.mp (Run.okOr_eq_ok.mp h)
  rw [checkedNumElements_eq hm]

/-- The number of bytes, with the sign of every extent checked. -/
theorem checkedNumBytesI32_eq {shape : List ℤ} {elemSize n : ℕ}
    (h : checkedNumBytesI32 elemSize shape = .ok n) :
    (∀ d ∈ shape, 0 ≤ d) ∧ n = (shape.map Int.toNat).prod * elemSize := by
  obtain ⟨m, hm, h⟩ := Run.bind_eq_ok.mp h
  obtain ⟨-, rfl⟩ := Usize.checkedMul_eq_some.mp (Run.okOr_eq_ok.mp h)
  obtain ⟨hall, rfl⟩ := checkedNumElementsI32_eq hm
  exact ⟨hall, rfl⟩

end Arithmetic

/-! ### Cells and addresses -/

section Cells

variable {ds target is ss : List ℕ} {h h' : Handle} {c : Cell}

/-- An offset over `ℤ` is one over `ℕ`. -/
theorem sum_zipWith_cast (is ss : List ℕ) :
    (List.zipWith (fun (i : ℕ) (s : ℤ) => i * s) is (ss.map (↑))).sum = (dot is ss : ℤ) := by
  induction is generalizing ss with
  | nil => simp [dot]
  | cons i is ih =>
    cases ss with
    | nil => simp [dot]
    | cons s ss =>
      rw [List.map_cons, List.zipWith_cons_cons, List.sum_cons, ih, dot]
      push_cast
      rfl

/-- A cell in range, over `ℕ`. -/
theorem inRange_iff (hshape : h.shape = ds.map (↑)) :
    h.InRange c ↔ InBox c.1 ds ∧ c.2 < h.elemSize := by
  rw [Handle.InRange, hshape, List.forall₂_map_right_iff]
  simp only [Nat.cast_lt]

/-- Two shapes over the same bytes, both in row-major order. -/
theorem sameByte_correct (hshape : h.shape = ds.map (↑))
    (hstrides : h.strides = (RowMajor.strides ds).map (↑)) (hshape' : h'.shape = target.map (↑))
    (hstrides' : h'.strides = (RowMajor.strides target).map (↑))
      (hoffset : h'.offsetBytes = h.offsetBytes)
    (hbytes : target.prod * h'.elemSize = ds.prod * h.elemSize) (hsize : 0 < h.elemSize)
    (hc : h'.InRange c) :
    h.InRange (Call.sameByte ds h.elemSize target h'.elemSize c) ∧
      h'.address c = h.address (Call.sameByte ds h.elemSize target h'.elemSize c) := by
  obtain ⟨hbox, hbyte⟩ := (inRange_iff hshape').mp hc
  obtain ⟨n, hn⟩ : ∃ n, dot c.1 (RowMajor.strides target) * h'.elemSize + c.2 = n := ⟨_, rfl⟩
  have hcell : Call.sameByte ds h.elemSize target h'.elemSize c =
      (unravel ds (n / h.elemSize), n % h.elemSize) := by
    rw [← hn]
    rfl
  -- the byte is one of the bytes that both shapes have
  have hlt : n / h.elemSize < ds.prod := by
    refine Nat.div_lt_of_lt_mul ?_
    rw [Nat.mul_comm, ← hbytes, ← hn]
    have := dot_strides_lt hbox
    calc dot c.1 (RowMajor.strides target) * h'.elemSize + c.2
        < (dot c.1 (RowMajor.strides target) + 1) * h'.elemSize := by
          rw [Nat.add_mul, Nat.one_mul]
          omega
      _ ≤ target.prod * h'.elemSize := Nat.mul_le_mul_right _ this
  rw [hcell]
  refine ⟨(inRange_iff hshape).mpr ⟨inBox_unravel hlt, Nat.mod_lt _ hsize⟩, ?_⟩
  have hsplit := Nat.div_add_mod' n h.elemSize
  have hnat : dot c.1 (RowMajor.strides target) * h'.elemSize + c.2 =
      n / h.elemSize * h.elemSize + n % h.elemSize := hn.trans hsplit.symm
  unfold Handle.address
  rw [hstrides, hstrides', hoffset, sum_zipWith_cast, sum_zipWith_cast, dot_unravel hlt]
  have hint : (dot c.1 (RowMajor.strides target) * h'.elemSize + c.2 : ℤ) =
      (n / h.elemSize : ℕ) * h.elemSize + (n % h.elemSize : ℕ) := by exact_mod_cast hnat
  linarith

/-- The ranges lie within the first extents. -/
def RangesIn : List Range → List ℕ → Prop
  | [], _ => True
  | _ :: _, [] => False
  | r :: rs, d :: ds => r.start ≤ r.stop ∧ r.stop ≤ d ∧ RangesIn rs ds

/-- A slice has the rank of the tensor. -/
theorem length_sliceShape {ranges : List Range} (hin : RangesIn ranges ds) :
    (sliceShape ranges ds).length = ds.length := by
  induction ranges generalizing ds with
  | nil => rfl
  | cons r rs ih =>
    cases ds with
    | nil => exact hin.elim
    | cons d ds => exact congrArg (· + 1) (ih hin.2.2)

/-- The extents of a slice are bounded by those of the tensor. -/
theorem sliceShape_lt {ranges : List Range} {n : ℕ} (hin : RangesIn ranges ds)
    (hds : ∀ d ∈ ds, d < n) : ∀ d ∈ sliceShape ranges ds, d < n := by
  induction ranges generalizing ds with
  | nil => exact hds
  | cons r rs ih =>
    cases ds with
    | nil => exact hin.elim
    | cons d ds =>
      obtain ⟨-, hstop, hrest⟩ := hin
      obtain ⟨hd, hds⟩ := List.forall_mem_cons.mp hds
      refine List.forall_mem_cons.mpr ⟨?_, ih hrest hds⟩
      omega

/-- An index of the slice is one of the tensor, behind the starts. -/
theorem inBox_addStarts {ranges : List Range} (hin : RangesIn ranges ds)
    (hbox : InBox is (sliceShape ranges ds)) : InBox (addStarts ranges is) ds := by
  induction ranges generalizing ds is with
  | nil => exact hbox
  | cons r rs ih =>
    cases ds with
    | nil => exact hin.elim
    | cons d ds =>
      obtain ⟨hle, hstop, hrest⟩ := hin
      cases hbox with
      | @cons i _ is _ hi his =>
        exact .cons (by omega) (ih hrest his)

/-- Adding the starts moves the address by their products with the strides. -/
theorem sum_addStarts {ranges : List Range} {strides : List ℤ} (hnonneg : ∀ s ∈ strides, 0 ≤ s)
    (hlen : is.length = strides.length) :
    (List.zipWith (fun (i : ℕ) (s : ℤ) => i * s) (addStarts ranges is) strides).sum =
      startOffset ranges strides +
        (List.zipWith (fun (i : ℕ) (s : ℤ) => i * s) is strides).sum := by
  induction ranges generalizing is strides with
  | nil => simp [addStarts, startOffset]
  | cons r rs ih =>
    cases strides with
    | nil =>
      obtain rfl := List.length_eq_zero_iff.mp hlen
      simp [addStarts, startOffset]
    | cons s ss =>
      cases is with
      | nil => cases hlen
      | cons i is =>
        have hs := Int.toNat_of_nonneg (hnonneg s List.mem_cons_self)
        have := ih (fun x hx => hnonneg x (List.mem_cons_of_mem _ hx)) (Nat.succ.inj hlen)
        rw [addStarts, startOffset, List.zipWith_cons_cons, List.zipWith_cons_cons, List.sum_cons,
          List.sum_cons, this]
        push_cast
        rw [hs]
        ring

/-- A slice reads the cells behind its starts. -/
theorem slice_correct {ranges : List Range} (hshape : h.shape = ds.map (↑))
    (hshape' : h'.shape = (sliceShape ranges ds).map (↑)) (hstrides : h'.strides = h.strides)
    (hsize : h'.elemSize = h.elemSize) (hrank : h.strides.length = h.shape.length)
    (hnonneg : ∀ s ∈ h.strides, 0 ≤ s) (hin : RangesIn ranges ds)
    (hoffset : h'.offsetBytes = h.offsetBytes + startOffset ranges h.strides * h.elemSize)
    (hc : h'.InRange c) :
    h.InRange (addStarts ranges c.1, c.2) ∧ h'.address c = h.address
      (addStarts ranges c.1, c.2) := by
  obtain ⟨hbox, hbyte⟩ := (inRange_iff hshape').mp hc
  have hlen : c.1.length = h.strides.length := by
    rw [hrank, hshape, List.length_map, hbox.length_eq, length_sliceShape hin]
  refine ⟨(inRange_iff hshape).mpr ⟨inBox_addStarts hin hbox, hsize ▸ hbyte⟩, ?_⟩
  unfold Handle.address
  rw [hstrides, hsize, sum_addStarts hnonneg hlen, hoffset]
  push_cast
  ring

end Cells

/-! ### The loop of a slice -/

section Slice

variable {b : Build} {shape strides : List ℤ} {st next : ℕ × List ℤ} {r : Range × ℕ}

/-- A round that goes on has its range in the extent. -/
theorem sliceRound_ok (h : sliceRound b shape strides st r = .ok next) :
    ∃ d s, shape[r.2]? = some d ∧ strides[r.2]? = some s ∧ r.1.start ≤ r.1.stop ∧
      r.1.stop ≤ asUsize d := by
  obtain ⟨d, hd, h⟩ := Run.bind_eq_ok.mp h
  obtain ⟨u, hbounds, h⟩ := Run.bind_eq_ok.mp h
  obtain ⟨s, hs, -⟩ := Run.bind_eq_ok.mp h
  have hin := Run.reject_eq_ok.mp hbounds
  rw [not_or] at hin
  exact ⟨d, s, Run.index_eq_ok.mp hd, Run.index_eq_ok.mp hs, not_lt.mp hin.1, not_lt.mp hin.2⟩

/-- What a round computes. -/
theorem sliceRound_eq {d s : ℤ} (hd : shape[r.2]? = some d) (hs : strides[r.2]? = some s)
    (hle : r.1.start ≤ r.1.stop) (hstop : r.1.stop ≤ asUsize d)
    (hfits : st.1 + r.1.start * asUsize s < 2 ^ 64) :
    sliceRound b shape strides st r =
      .ok (st.1 + r.1.start * asUsize s, st.2.set r.2 (asI32 (r.1.stop - r.1.start))) := by
  have hreject : (Run.reject (r.1.start > r.1.stop ∨ r.1.stop > asUsize d) .rangeOutOfBounds :
      TensorRun Unit) = .ok () := by
    rw [Run.reject_eq_ok, not_or]
    exact ⟨not_lt.mpr hle, not_lt.mpr hstop⟩
  have hmul : (usizeMul b r.1.start (asUsize s)) = .ok (r.1.start * asUsize s) :=
    usizeMul_of_lt (by omega)
  refine Run.bind_eq_ok.mpr ⟨d, Run.index_eq_ok.mpr hd, Run.bind_eq_ok.mpr ⟨(), hreject,
    Run.bind_eq_ok.mpr ⟨s, Run.index_eq_ok.mpr hs, Run.bind_eq_ok.mpr ⟨_, hmul,
      Run.bind_eq_ok.mpr ⟨_, usizeAdd_of_lt hfits, rfl⟩⟩⟩⟩⟩

/-- The entry behind `k` others. -/
private theorem getElem?_behind {pre xs : List ℤ} {x : ℤ} {k : ℕ} (hpre : pre.length = k) :
    (pre ++ x :: xs)[k]? = some x := by
  rw [List.getElem?_append_right hpre.le, hpre, Nat.sub_self]
  rfl

/-- The round for the first of the axes that are left. -/
theorem sliceRound_front {range : Range} {pre spre done ss : List ℤ} {ds : List ℕ} {off k e : ℕ}
    {s : ℤ} (hpre : pre.length = k) (hspre : spre.length = k) (hdone : done.length = k)
    (he : e < 2 ^ 31) (hs : 0 ≤ s ∧ s < 2 ^ 31) (hle : range.start ≤ range.stop)
    (hstop : range.stop ≤ e) (hfits : off + range.start * s.toNat < 2 ^ 64) :
    sliceRound b (pre ++ (e :: ds).map (↑)) (spre ++ s :: ss) (off, done ++ (e :: ds).map (↑))
        (range, k) =
      .ok (off + range.start * s.toNat,
        (done ++ [((range.stop - range.start : ℕ) : ℤ)]) ++ ds.map (↑)) := by
  have hextent : asUsize (e : ℤ) = e := asUsize_of_lt (by positivity) (by exact_mod_cast he)
  have hstride : asUsize s = s.toNat := asUsize_of_lt hs.1 hs.2
  have hset : (done ++ (e :: ds).map (↑) : List ℤ).set k (asI32 (range.stop - range.start)) =
      (done ++ [((range.stop - range.start : ℕ) : ℤ)]) ++ ds.map (↑) := by
    rw [asI32_of_lt (by omega), List.set_append_right _ _ hdone.le, hdone, Nat.sub_self]
    simp
  have hd : (pre ++ (e :: ds).map (↑) : List ℤ)[k]? = some (e : ℤ) := getElem?_behind hpre
  have hs' : (spre ++ s :: ss)[k]? = some s := getElem?_behind hspre
  rw [sliceRound_eq hd hs' hle (hextent.symm ▸ hstop) (by rwa [hstride]), hstride, hset]

/-- The rounds that are left, after those for the axes `pre`. -/
theorem sliceRounds_eq {ranges : List Range} {pre spre done ss : List ℤ} {ds : List ℕ} {off k : ℕ}
    (hpre : pre.length = k) (hspre : spre.length = k) (hdone : done.length = k)
    (hds : ∀ d ∈ ds, d < 2 ^ 31) (hss : ∀ s ∈ ss, 0 ≤ s ∧ s < 2 ^ 31) (hlen : ss.length = ds.length)
    (hlt : off + startOffset ranges ss < 2 ^ 64)
    (h : (ranges.zipIdx k).foldlM (sliceRound b (pre ++ ds.map (↑)) (spre ++ ss))
      (off, done ++ ds.map (↑)) = .ok st) :
    RangesIn ranges ds ∧ ∀ b', (ranges.zipIdx k).foldlM
      (sliceRound b' (pre ++ ds.map (↑)) (spre ++ ss))
      (off, done ++ ds.map (↑)) =
        .ok (off + startOffset ranges ss, done ++ (sliceShape ranges ds).map (↑)) := by
  induction ranges generalizing pre spre done ds ss off k with
  | nil => exact ⟨trivial, fun _ => rfl⟩
  | cons r rs ih =>
    rw [List.zipIdx_cons, List.foldlM_cons] at h
    obtain ⟨next, hround, h⟩ := Run.bind_eq_ok.mp h
    obtain ⟨d, s, hd, hs, hle, hstop⟩ := sliceRound_ok hround
    cases ds with
    | nil =>
      rw [List.map_nil, List.append_nil, List.getElem?_eq_none hpre.le] at hd
      cases hd
    | cons e ds =>
      cases ss with
      | nil => cases hlen
      | cons t ss =>
        have he := hds e List.mem_cons_self
        have ht := hss t List.mem_cons_self
        obtain rfl : d = e := Option.some.inj (hd.symm.trans (getElem?_behind hpre))
        have hstop' : r.stop ≤ e := by
          rw [asUsize_of_lt (by positivity) (by exact_mod_cast he)] at hstop
          exact hstop
        rw [startOffset] at hlt
        have hall : ∀ b', sliceRound b' (pre ++ (e :: ds).map (↑)) (spre ++ t :: ss)
            (off, done ++ (e :: ds).map (↑)) (r, k) = _ := fun b' =>
          sliceRound_front hpre hspre hdone he ht hle hstop' (by omega)
        have hsplit : (pre ++ (e :: ds).map (↑) : List ℤ) = (pre ++ [(e : ℤ)]) ++ ds.map (↑) := by
          simp
        have hssplit : spre ++ t :: ss = (spre ++ [t]) ++ ss := by simp
        rw [hall b] at hround
        obtain rfl := Except.ok.inj hround
        rw [hsplit, hssplit] at h
        obtain ⟨hin, hrest⟩ := ih (by rw [List.length_append, hpre]; rfl)
          (by rw [List.length_append, hspre]; rfl) (by rw [List.length_append, hdone]; rfl)
          (fun x hx => hds x (List.mem_cons_of_mem _ hx))
            (fun x hx => hss x (List.mem_cons_of_mem _ hx))
          (Nat.succ.inj hlen) (by omega) h
        refine ⟨⟨hle, hstop', hin⟩, fun b' => ?_⟩
        rw [List.zipIdx_cons, List.foldlM_cons, hall b']
        show (rs.zipIdx (k + 1)).foldlM _ _ = _
        rw [hsplit, hssplit, hrest b', startOffset, sliceShape]
        simp [Nat.add_assoc]

/-- **The loop of a slice** finds the offset of the starts and the lengths of the ranges. -/
theorem sliceLoop_eq {ranges : List Range} {ds : List ℕ} (hshape : shape = ds.map (↑))
    (hds : ∀ d ∈ ds, d < 2 ^ 31) (hss : ∀ s ∈ strides, 0 ≤ s ∧ s < 2 ^ 31)
    (hlen : strides.length = shape.length) (hlt : startOffset ranges strides < 2 ^ 64)
    (h : sliceLoop b shape strides ranges = .ok st) :
    RangesIn ranges ds ∧ ∀ b', sliceLoop b' shape strides ranges =
      .ok (startOffset ranges strides, (sliceShape ranges ds).map (↑)) := by
  subst hshape
  obtain ⟨u, hranges, h⟩ := Run.bind_eq_ok.mp h
  -- nothing before the first axis
  obtain ⟨hin, hall⟩ := @sliceRounds_eq _ _ ranges [] [] [] _ ds 0 0 rfl rfl rfl hds hss
    (hlen.trans (List.length_map _)) (by rwa [Nat.zero_add]) h
  refine ⟨hin, fun b' => Run.bind_eq_ok.mpr ⟨u, hranges, (hall b').trans ?_⟩⟩
  rw [Nat.zero_add]
  rfl

end Slice

/-! ### One call -/

/-- The metadata of a handle whose addresses do not wrap: extents and strides are not negative. -/
structure Good (h : Handle) : Prop where
  size : 0 < h.elemSize
  rank : h.strides.length = h.shape.length
  shape : ∀ d ∈ h.shape, 0 ≤ d ∧ d < 2 ^ 31
  strides : ∀ s ∈ h.strides, 0 ≤ s ∧ s < 2 ^ 31

/-- The extents of a good handle are natural numbers. -/
theorem Good.shape_eq {h : Handle} (hgood : Good h) : h.shape = h.extents.map (↑) := by
  rw [Handle.extents, List.map_map]
  refine (List.map_id _).symm.trans (List.map_congr_left fun d hd => ?_)
  exact (Int.toNat_of_nonneg (hgood.shape d hd).1).symm

/-- The extents of a good handle fit. -/
theorem Good.extents_lt {h : Handle} (hgood : Good h) : ∀ d ∈ h.extents, d < 2 ^ 31 := by
  intro d hd
  obtain ⟨x, hx, rfl⟩ := List.mem_map.mp hd
  have := hgood.shape x hx
  omega

/-- What a call leaves behind: the shape that was asked for, and elements that stand for elements of
the tensor before, in every build.  The storage stays, and the offset grows. -/
structure Kept (h : Handle) (call : Call) (h' : Handle) : Prop where
  good : Good h'
  ptr : h'.ptr = h.ptr
  offset_le : h.offsetBytes ≤ h'.offsetBytes
  -- the address is an `u64`, whose sum may not fit where no byte is addressed
  builds : ∀ b, h'.ptr + h'.offsetBytes < 2 ^ 64 → Step b h call h'
  shape : h'.shape = (call.requested h.extents).map (↑)
  cells : ∀ c, h'.InRange c → h.InRange (call.designated h.extents h.elemSize c) ∧
    h'.address c = h.address (call.designated h.extents h.elemSize c)

section Calls

variable {b : Build} {h h' : Handle} {call : Call} {target ds : List ℕ}

/-- A row-major handle is good. -/
theorem good_of_rowMajor (hfit : TrailingFit target) (hsize : 0 < h'.elemSize)
    (hshape : h'.shape = target.map (↑)) (hstrides : h'.strides =
      (RowMajor.strides target).map (↑)) :
    Good h' := by
  refine ⟨hsize, ?_, fun d hd => ?_, fun s hs => ?_⟩
  · rw [hstrides, hshape, List.length_map, List.length_map, length_strides]
  · rw [hshape] at hd
    obtain ⟨n, hn, rfl⟩ := List.mem_map.mp hd
    exact ⟨by positivity, by exact_mod_cast hfit.lt hn⟩
  · rw [hstrides] at hs
    obtain ⟨n, hn, rfl⟩ := List.mem_map.mp hs
    exact ⟨by positivity, by exact_mod_cast hfit.strides_lt hn⟩

/-- A view that is validated has the bytes of a contiguous tensor. -/
theorem validateViewShapeFor_ok {elemSize : ℕ} {strides : List ℤ} {u : Unit} (hfit : TrailingFit ds)
    (h : validateViewShapeFor b elemSize (ds.map (↑)) strides target = .ok u) :
    strides = (RowMajor.strides ds).map (↑) ∧ target.prod * elemSize = ds.prod * elemSize ∧
      ∀ b', validateViewShapeFor b' elemSize (ds.map (↑)) strides target = .ok () := by
  have hbuilds : ∀ b', validateViewShapeFor b' elemSize (ds.map (↑)) strides target =
      validateViewShapeFor b elemSize (ds.map (↑)) strides target := by
    intro b'
    rw [validateViewShapeFor, validateViewShapeFor, contiguousStrides_eq b hfit,
      contiguousStrides_eq b' hfit]
  refine ⟨?_, ?_, fun b' => (hbuilds b').trans h⟩ <;>
    obtain ⟨contiguous, hcontiguous, h⟩ := Run.bind_eq_ok.mp h <;>
      obtain ⟨v, hsame, h⟩ := Run.bind_eq_ok.mp h
  · rw [contiguousStrides_eq b hfit] at hcontiguous
    obtain rfl := Except.ok.inj hcontiguous
    exact not_not.mp (Run.reject_eq_ok.mp hsame)
  · obtain ⟨targetNumBytes, htarget, h⟩ := Run.bind_eq_ok.mp h
    obtain ⟨currentNumBytes, hcurrent, h⟩ := Run.bind_eq_ok.mp h
    have heq := not_not.mp (Run.reject_eq_ok.mp h)
    obtain ⟨-, hbytes⟩ := checkedNumBytesI32_eq hcurrent
    rw [checkedNumBytes_eq htarget, hbytes, List.map_map] at heq
    have hid : (Int.toNat ∘ ((↑) : ℕ → ℤ)) = id := funext Int.toNat_natCast
    rwa [hid, List.map_id] at heq

/-- The strides of the new shape. -/
theorem newStrides_eq (hfit : TrailingFit target) (b : Build) :
    contiguousStrides b (target.map asI32) = .ok ((RowMajor.strides target).map (↑)) := by
  rw [hfit.map_asI32, contiguousStrides_eq b hfit]

/-- The specialization bits of the new shape. -/
theorem newSpec_eq {ptr n : ℕ} (hfit : TrailingFit target)
    (hptr : UInt64.ofNat ptr = UInt64.ofNat n) :
    specAt b ptr (target.map asI32) ((RowMajor.strides target).map (↑)) =
      .ok (specOf n (target.map (↑)) ((RowMajor.strides target).map (↑))) := by
  rw [hfit.map_asI32]
  exact specAt_of_fits b hptr (by simp [length_strides]) hfit.specFits

/-- The body of `view` and `reshape`, which make a value of the new shape, its strides and what is
inferred from them at the address `n`. -/
theorem newMetadata_ok {α : Type} (address : Build → TensorRun ℕ)
    (make : List ℤ → List ℤ → SpecializationBits → α) {elemSize n : ℕ} {shape strides : List ℤ}
    {r : α} (hshape : shape = ds.map (↑))
    (hfit : TrailingFit ds) (hfit' : TrailingFit target)
    (haddress : ∀ b ptr, address b = .ok ptr → UInt64.ofNat ptr = UInt64.ofNat n)
    (h : (do
      validateViewShapeFor b elemSize shape strides target
      let newStrides ← contiguousStrides b (target.map asI32)
      let spec ← specAt b (← address b) (target.map asI32) newStrides
      .ok (make (target.map asI32) newStrides spec)) = .ok r) :
    strides = (RowMajor.strides ds).map (↑) ∧ target.prod * elemSize = ds.prod * elemSize ∧
      make (target.map (↑)) ((RowMajor.strides target).map (↑))
        (specOf n (target.map (↑)) ((RowMajor.strides target).map (↑))) = r ∧
        ∀ b' ptr, address b' = .ok ptr → (do
          validateViewShapeFor b' elemSize shape strides target
          let newStrides ← contiguousStrides b' (target.map asI32)
          let spec ← specAt b' (← address b') (target.map asI32) newStrides
          .ok (make (target.map asI32) newStrides spec)) = .ok r := by
  subst hshape
  obtain ⟨u, hvalid, h⟩ := Run.bind_eq_ok.mp h
  obtain ⟨newStrides, hnew, h⟩ := Run.bind_eq_ok.mp h
  obtain ⟨ptr, hptr, h⟩ := Run.bind_eq_ok.mp h
  obtain ⟨spec, hspec, h⟩ := Run.bind_eq_ok.mp h
  rw [newStrides_eq hfit'] at hnew
  obtain rfl := Except.ok.inj hnew
  rw [newSpec_eq hfit' (haddress b ptr hptr)] at hspec
  obtain rfl := Except.ok.inj hspec
  obtain ⟨hstrides, hbytes, hbuilds⟩ := validateViewShapeFor_ok hfit hvalid
  refine ⟨hstrides, hbytes, ?_, fun b' ptr' hptr' => ?_⟩
  · have hmake := Except.ok.inj h
    rwa [hfit'.map_asI32] at hmake
  · exact Run.bind_eq_ok.mpr ⟨(), hbuilds b', Run.bind_eq_ok.mpr ⟨_, newStrides_eq hfit' b',
      Run.bind_eq_ok.mpr ⟨ptr', hptr', Run.bind_eq_ok.mpr
        ⟨_, newSpec_eq hfit' (haddress b' ptr' hptr'), h⟩⟩⟩⟩

/-- A call that gives the same bytes a new shape. -/
theorem kept_of_sameByte (hgood : Good h) (hfit : TrailingFit target)
    (hstrides : h.strides = (RowMajor.strides h.extents).map (↑))
      (hshape' : h'.shape = target.map (↑))
    (hstrides' : h'.strides = (RowMajor.strides target).map (↑)) (hptr : h'.ptr = h.ptr)
    (hoffset : h'.offsetBytes = h.offsetBytes)
    (hsize' : 0 < h'.elemSize) (hbytes : target.prod * h'.elemSize = h.extents.prod * h.elemSize)
    (hbuilds : ∀ b, h'.ptr + h'.offsetBytes < 2 ^ 64 → Step b h call h')
    (hrequested : call.requested h.extents = target)
    (hdesignated : call.designated h.extents h.elemSize =
      Call.sameByte h.extents h.elemSize target h'.elemSize) : Kept h call h' where
  good := good_of_rowMajor hfit hsize' hshape' hstrides'
  ptr := hptr
  offset_le := hoffset.ge
  builds := hbuilds
  shape := by rw [hrequested, hshape']
  cells c hc := by
    rw [hdesignated]
    exact sameByte_correct hgood.shape_eq hstrides hshape' hstrides' hoffset hbytes hgood.size hc

/-- `Tensor::view` keeps the cells. -/
theorem kept_tensorView {t : Tensor} {v : TensorView} (hgood : Good (.tensor t))
    (hfit : TrailingFit (Handle.tensor t).extents) (hfit' : TrailingFit target)
    (h : t.view b target = .ok v) : Kept (.tensor t) (.view target) (.view v) := by
  obtain ⟨hstrides, hbytes, rfl, hbuilds⟩ := newMetadata_ok (fun _ => .ok t.ptr)
    (fun shape strides spec => (⟨t, 0, shape, strides, spec⟩ : TensorView))
      hgood.shape_eq hfit hfit'
    (fun _ _ hptr => congrArg _ (Except.ok.inj hptr).symm) h
  exact kept_of_sameByte hgood hfit' hstrides rfl rfl rfl rfl hgood.size hbytes
    (fun b' _ => .view (hbuilds b' _ rfl)) rfl rfl

/-- `Tensor::reshape` keeps the cells. -/
theorem kept_reshape {t t' : Tensor} (hgood : Good (.tensor t))
    (hfit : TrailingFit (Handle.tensor t).extents) (hfit' : TrailingFit target)
    (h : t.reshape b target = .ok t') : Kept (.tensor t) (.reshape target) (.tensor t') := by
  obtain ⟨hstrides, hbytes, rfl, hbuilds⟩ := newMetadata_ok (fun _ => .ok t.ptr)
    (fun shape strides spec => (⟨t.elemSize, t.ptr, t.storageNumBytes, shape, strides,
      spec⟩ : Tensor))
    hgood.shape_eq hfit hfit' (fun _ _ hptr => congrArg _ (Except.ok.inj hptr).symm) h
  exact kept_of_sameByte hgood hfit' hstrides rfl rfl rfl rfl hgood.size hbytes
    (fun b' _ => .reshape (hbuilds b' _ rfl)) rfl rfl

/-- `TensorView::view` keeps the cells. -/
theorem kept_viewView {v v' : TensorView} (hgood : Good (.view v))
    (hfit : TrailingFit (Handle.view v).extents) (hfit' : TrailingFit target)
    (h : v.view b target = .ok v') : Kept (.view v) (.view target) (.view v') := by
  obtain ⟨hstrides, hbytes, rfl, hbuilds⟩ := newMetadata_ok
    (fun b => usizeAdd b v.base.ptr v.offsetBytes)
    (fun shape strides spec => (⟨v.base, v.offsetBytes, shape, strides, spec⟩ : TensorView))
    hgood.shape_eq hfit hfit' (fun _ _ => ofNat_usizeAdd) h
  exact kept_of_sameByte hgood hfit' hstrides rfl rfl rfl rfl hgood.size hbytes
    (fun b' hlt => .viewView (hbuilds b' _ (usizeAdd_of_lt hlt))) rfl rfl

/-- `expect` goes on with the value. -/
theorem expect_eq_ok {α : Type} {x : TensorRun α} {a : α} : expect x = .ok a ↔ x = .ok a := by
  cases x with
  | ok a => rfl
  | error e => exact ⟨fun h => absurd h Run.panic_ne_ok, fun h => by cases h⟩

/-- A reinterpretation that is validated has the bytes of a contiguous tensor. -/
theorem validateReinterpretShape_ok {t : Tensor} {elemSize align : ℕ} {u : Unit} {ds : List ℕ}
    (hshape : t.shape = ds.map (↑)) (hfit : TrailingFit ds)
    (h : t.validateReinterpretShape b elemSize align target = .ok u) :
    t.strides = (RowMajor.strides ds).map (↑) ∧ target.prod * elemSize = ds.prod * t.elemSize ∧
      ∀ b', t.validateReinterpretShape b' elemSize align target = .ok () := by
  have hbuilds : ∀ b', t.validateReinterpretShape b' elemSize align target =
      t.validateReinterpretShape b elemSize align target := by
    intro b'
    rw [Tensor.validateReinterpretShape, Tensor.validateReinterpretShape, hshape,
      contiguousStrides_eq b hfit, contiguousStrides_eq b' hfit]
  refine ⟨?_, ?_, fun b' => (hbuilds b').trans h⟩ <;>
    obtain ⟨contiguous, hcontiguous, h⟩ := Run.bind_eq_ok.mp h <;>
      obtain ⟨v, hsame, h⟩ := Run.bind_eq_ok.mp h
  · rw [hshape, contiguousStrides_eq b hfit] at hcontiguous
    obtain rfl := Except.ok.inj hcontiguous
    exact not_not.mp (Run.reject_eq_ok.mp hsame)
  · obtain ⟨targetNumBytes, htarget, h⟩ := Run.bind_eq_ok.mp h
    obtain ⟨typedNumBytes, htyped, h⟩ := Run.bind_eq_ok.mp h
    obtain ⟨w, heq, -⟩ := Run.bind_eq_ok.mp h
    have heq := not_not.mp (Run.reject_eq_ok.mp heq)
    obtain ⟨-, hbytes⟩ := checkedNumBytesI32_eq (expect_eq_ok.mp htyped)
    rw [checkedNumBytes_eq htarget, hbytes, hshape, List.map_map] at heq
    have hid : (Int.toNat ∘ ((↑) : ℕ → ℤ)) = id := funext Int.toNat_natCast
    rwa [hid, List.map_id] at heq

/-- `Tensor::reinterpret` keeps the cells. -/
theorem kept_reinterpret {t t' : Tensor} {elemSize align : ℕ} (hsize : 0 < elemSize)
    (hgood : Good (.tensor t)) (hfit : TrailingFit (Handle.tensor t).extents)
      (hfit' : TrailingFit target)
    (h : t.reinterpret b elemSize align target = .ok t') :
    Kept (.tensor t) (.reinterpret elemSize align target) (.tensor t') := by
  obtain ⟨u, hvalid, h⟩ := Run.bind_eq_ok.mp h
  obtain ⟨newStrides, hnew, h⟩ := Run.bind_eq_ok.mp h
  obtain ⟨spec, hspec, h⟩ := Run.bind_eq_ok.mp h
  rw [newStrides_eq hfit'] at hnew
  obtain rfl := Except.ok.inj hnew
  rw [newSpec_eq hfit' rfl] at hspec
  obtain rfl := Except.ok.inj hspec
  obtain rfl := Except.ok.inj h
  obtain ⟨hstrides, hbytes, hbuilds⟩ := validateReinterpretShape_ok hgood.shape_eq hfit hvalid
  refine kept_of_sameByte hgood hfit' hstrides hfit'.map_asI32 rfl rfl rfl hsize hbytes
    (fun b' _ => ?_) rfl rfl
  exact .reinterpret hsize (Run.bind_eq_ok.mpr ⟨(), hbuilds b', Run.bind_eq_ok.mpr
    ⟨_, newStrides_eq hfit' b', Run.bind_eq_ok.mpr ⟨_, newSpec_eq hfit' rfl, rfl⟩⟩⟩)

/-- A slice, whose offset fits. -/
theorem kept_of_slice {ranges : List Range} (hgood : Good h) (hin : RangesIn ranges h.extents)
    (hshape' : h'.shape = (sliceShape ranges h.extents).map (↑)) (hstrides : h'.strides = h.strides)
    (hsize : h'.elemSize = h.elemSize) (hptr : h'.ptr = h.ptr)
    (hoffset : h'.offsetBytes = h.offsetBytes + startOffset ranges h.strides * h.elemSize)
    (hbuilds : ∀ b, h'.ptr + h'.offsetBytes < 2 ^ 64 → Step b h (.slice ranges) h') :
    Kept h (.slice ranges) h' where
  good := by
    refine ⟨hsize ▸ hgood.size, ?_, fun d hd => ?_, hstrides ▸ hgood.strides⟩
    · rw [hstrides, hgood.rank, hshape', List.length_map, length_sliceShape hin, Handle.extents,
        List.length_map]
    · rw [hshape'] at hd
      obtain ⟨n, hn, rfl⟩ := List.mem_map.mp hd
      exact ⟨by positivity, by exact_mod_cast sliceShape_lt hin hgood.extents_lt n hn⟩
  ptr := hptr
  offset_le := by
    rw [hoffset]
    exact Nat.le_add_right _ _
  builds := hbuilds
  shape := hshape'
  cells _ hc := slice_correct hgood.shape_eq hshape' hstrides hsize hgood.rank
    (fun s hs => (hgood.strides s hs).1) hin hoffset hc

/-- The specialization bits of a slice. -/
theorem slicedSpec_eq {ranges : List Range} {ptr n : ℕ} (hgood : Good h)
    (hin : RangesIn ranges h.extents) (hptr : UInt64.ofNat ptr = UInt64.ofNat n)
    (hfit : SpecFits ((sliceShape ranges h.extents).map (↑)) h.strides) :
    specAt b ptr ((sliceShape ranges h.extents).map (↑)) h.strides =
      .ok (specOf n ((sliceShape ranges h.extents).map (↑)) h.strides) := by
  refine specAt_of_fits b hptr ?_ hfit
  rw [List.length_map, length_sliceShape hin, hgood.rank, Handle.extents, List.length_map]

/-- `Tensor::slice` keeps the cells. -/
theorem kept_tensorSlice {t : Tensor} {v : TensorView} {ranges : List Range}
    (hgood : Good (.tensor t))
    (hfits : startOffset ranges t.strides * t.elemSize < 2 ^ 64)
    (hspecFits : SpecFits ((sliceShape ranges (Handle.tensor t).extents).map (↑)) t.strides)
    (h : t.slice b ranges = .ok v) : Kept (.tensor t) (.slice ranges) (.view v) := by
  obtain ⟨st, hloop, h⟩ := Run.bind_eq_ok.mp h
  have hlt : startOffset ranges t.strides < 2 ^ 64 :=
    (Nat.le_mul_of_pos_right _ hgood.size).trans_lt hfits
  obtain ⟨hin, hall⟩ :=
    sliceLoop_eq hgood.shape_eq hgood.extents_lt hgood.strides hgood.rank hlt hloop
  obtain rfl := Except.ok.inj (hloop.symm.trans (hall b))
  obtain ⟨offsetBytes, hmul, h⟩ := Run.bind_eq_ok.mp h
  obtain ⟨ptr, hptr, h⟩ := Run.bind_eq_ok.mp h
  obtain ⟨spec, hspec, h⟩ := Run.bind_eq_ok.mp h
  obtain rfl := Except.ok.inj (hmul.symm.trans (usizeMul_of_lt hfits))
  obtain rfl := Except.ok.inj
    (hspec.symm.trans (slicedSpec_eq hgood hin (ofNat_usizeAdd hptr) hspecFits))
  obtain rfl := Except.ok.inj h
  refine kept_of_slice hgood hin rfl rfl rfl rfl (Nat.zero_add _).symm fun b' hlt => .slice ?_
  exact Run.bind_eq_ok.mpr ⟨_, hall b', Run.bind_eq_ok.mpr ⟨_, usizeMul_of_lt hfits,
    Run.bind_eq_ok.mpr ⟨_, usizeAdd_of_lt hlt, Run.bind_eq_ok.mpr
      ⟨_, slicedSpec_eq hgood hin rfl hspecFits, rfl⟩⟩⟩⟩

/-- `TensorView::slice` keeps the cells. -/
theorem kept_viewSlice {v v' : TensorView} {ranges : List Range} (hgood : Good (.view v))
    (hfits : v.offsetBytes + startOffset ranges v.strides * v.base.elemSize < 2 ^ 64)
    (hspecFits : SpecFits ((sliceShape ranges (Handle.view v).extents).map (↑)) v.strides)
    (h : v.slice b ranges = .ok v') : Kept (.view v) (.slice ranges) (.view v') := by
  obtain ⟨st, hloop, h⟩ := Run.bind_eq_ok.mp h
  have hmulfits : startOffset ranges v.strides * v.base.elemSize < 2 ^ 64 :=
    (Nat.le_add_left _ _).trans_lt hfits
  have hlt : startOffset ranges v.strides < 2 ^ 64 :=
    (Nat.le_mul_of_pos_right _ hgood.size).trans_lt hmulfits
  obtain ⟨hin, hall⟩ :=
    sliceLoop_eq hgood.shape_eq hgood.extents_lt hgood.strides hgood.rank hlt hloop
  obtain rfl := Except.ok.inj (hloop.symm.trans (hall b))
  obtain ⟨product, hmul, h⟩ := Run.bind_eq_ok.mp h
  obtain ⟨offsetBytes, hadd, h⟩ := Run.bind_eq_ok.mp h
  obtain ⟨ptr, hptr, h⟩ := Run.bind_eq_ok.mp h
  obtain ⟨spec, hspec, h⟩ := Run.bind_eq_ok.mp h
  obtain rfl := Except.ok.inj (hmul.symm.trans (usizeMul_of_lt hmulfits))
  obtain rfl := Except.ok.inj (hadd.symm.trans (usizeAdd_of_lt hfits))
  obtain rfl := Except.ok.inj
    (hspec.symm.trans (slicedSpec_eq hgood hin (ofNat_usizeAdd hptr) hspecFits))
  obtain rfl := Except.ok.inj h
  refine kept_of_slice hgood hin rfl rfl rfl rfl rfl fun b' hlt => .viewSlice ?_
  exact Run.bind_eq_ok.mpr ⟨_, hall b', Run.bind_eq_ok.mpr ⟨_, usizeMul_of_lt hmulfits,
    Run.bind_eq_ok.mpr ⟨_, usizeAdd_of_lt hfits, Run.bind_eq_ok.mpr ⟨_, usizeAdd_of_lt hlt,
      Run.bind_eq_ok.mpr ⟨_, slicedSpec_eq hgood hin rfl hspecFits, rfl⟩⟩⟩⟩⟩

/-- **One call.** -/
theorem kept_of_step (hgood : Good h) (hmeets : MeetsCall h call) (hstep : Step b h call h') :
    Kept h call h' := by
  cases hstep with
  | view hview => exact kept_tensorView hgood hmeets.1 hmeets.2 hview
  | reshape hreshape => exact kept_reshape hgood hmeets.1 hmeets.2 hreshape
  | reinterpret hsize hreinterpret =>
    exact kept_reinterpret hsize hgood hmeets.1 hmeets.2 hreinterpret
  | slice hslice =>
    rw [MeetsCall, Handle.offsetBytes, Nat.zero_add] at hmeets
    exact kept_tensorSlice hgood hmeets.1 hmeets.2 hslice
  | viewView hview => exact kept_viewView hgood hmeets.1 hmeets.2 hview
  | viewSlice hslice => exact kept_viewSlice hgood hmeets.1 hmeets.2 hslice

end Calls

/-! ### Chains -/

/-- Metadata that the constructors accept, with strides that are not negative. -/
structure Tensor.Valid (t : Tensor) : Prop where
  metadata : Tensor.assertValidMetadata t.elemSize t.shape t.strides t.storageNumBytes = .ok ()
  size : 0 < t.elemSize
  shape : ∀ d ∈ t.shape, FitsI32 d
  strides : ∀ s ∈ t.strides, FitsI32 s
  nonneg : ∀ s ∈ t.strides, 0 ≤ s

/-- A valid tensor is good. -/
theorem Tensor.Valid.good {t : Tensor} (h : t.Valid) : Good (.tensor t) := by
  obtain ⟨u, hrank, hrest⟩ := Run.bind_eq_ok.mp h.metadata
  obtain ⟨numBytes, hbytes, -⟩ := Run.bind_eq_ok.mp hrest
  have hlen := (Run.assert_eq_ok.mp hrank)
  obtain ⟨hshape, -⟩ := checkedNumBytesI32_eq (expect_eq_ok.mp hbytes)
  refine ⟨h.size, hlen.symm, fun d hd => ⟨hshape d hd, ?_⟩, fun s hs => ⟨h.nonneg s hs, ?_⟩⟩
  · have := (h.shape d hd).2
    omega
  · have := (h.strides s hs).2
    omega

/-- A chain of calls keeps the cells. -/
theorem chain_kept {b : Build} {h h' : Handle} {calls : List Call} {f : Cell → Cell}
    (hchain : Chain b h calls h' f) (hgood : Good h) (hmeets : MeetsChain b h calls) :
    h'.ptr = h.ptr ∧ h.offsetBytes ≤ h'.offsetBytes ∧
      (∀ b', h'.ptr + h'.offsetBytes < 2 ^ 64 → Chain b' h calls h' f) ∧
        h'.shape = (requestedShape h.extents calls).map (↑) ∧
          ∀ c, h'.InRange c → h.InRange (f c) ∧ h'.address c = h.address (f c) := by
  induction hchain with
  | nil => exact ⟨rfl, le_rfl, fun _ _ => .nil, hgood.shape_eq, fun c hc => ⟨hc, rfl⟩⟩
  | cons hstep hrest ih =>
    obtain ⟨hcall, hnext⟩ := hmeets
    have hkept := kept_of_step hgood hcall hstep
    obtain ⟨hptr, hoffset, hbuilds, hshape, hcells⟩ := ih hkept.good (hnext _ hstep)
    refine ⟨hptr.trans hkept.ptr, hkept.offset_le.trans hoffset, fun b' hlt => ?_, ?_,
      fun c hc => ?_⟩
    -- the offset only grows, so that the address fits before the last call too
    · exact .cons (hkept.builds b' (by omega)) (hbuilds b' hlt)
    · rw [hshape, requestedShape, Handle.extents, hkept.shape, List.map_map]
      have hid : (Int.toNat ∘ ((↑) : ℕ → ℤ)) = id := funext Int.toNat_natCast
      rw [hid, List.map_id]
    · obtain ⟨hin, haddress⟩ := hcells c hc
      obtain ⟨hin', haddress'⟩ := hkept.cells _ hin
      exact ⟨hin', haddress.trans haddress'⟩

/-! ### The condition is exact -/

section Exact

variable {h h' : Handle} {call : Call} {ds target : List ℕ}

/-- In a checked build the product fits `i32`. -/
theorem fits_of_i32Mul {x y z : ℤ} (h : i32Mul .checked x y = .ok z) : FitsI32 (x * y) := by
  by_contra hover
  rw [i32Mul, if_neg hover] at h
  exact absurd h Run.panic_ne_ok

/-- In a checked build the product fits `usize`. -/
theorem usizeMul_checked {x y z : ℕ} (h : usizeMul .checked x y = .ok z) :
    x * y < 2 ^ 64 ∧ z = x * y := by
  have hlt : x * y < 2 ^ 64 := by
    by_contra hover
    rw [usizeMul, if_neg hover] at h
    exact absurd h Run.panic_ne_ok
  exact ⟨hlt, (Except.ok.inj ((usizeMul_of_lt hlt).symm.trans h)).symm⟩

/-- In a checked build the sum fits `usize`. -/
theorem usizeAdd_checked {x y z : ℕ} (h : usizeAdd .checked x y = .ok z) :
    x + y < 2 ^ 64 ∧ z = x + y := by
  have hlt : x + y < 2 ^ 64 := by
    by_contra hover
    rw [usizeAdd, if_neg hover] at h
    exact absurd h Run.panic_ne_ok
  exact ⟨hlt, (Except.ok.inj ((usizeAdd_of_lt hlt).symm.trans h)).symm⟩

/-- Where no product overflows, all of them fit. -/
theorem trailingFit_of_checked {strides : List ℤ} (hlt : ∀ d ∈ ds, d < 2 ^ 31)
    (h : contiguousStrides .checked (ds.map (↑)) = .ok strides) : TrailingFit ds := by
  obtain ⟨st, hloop, -⟩ := Run.bind_eq_ok.mp h
  clear h
  induction ds generalizing st with
  | nil => trivial
  | cons d ds ih =>
    rw [List.map_cons, List.reverse_cons, List.foldlM_append] at hloop
    obtain ⟨next, hnext, hround⟩ := Run.bind_eq_ok.mp hloop
    have hfit := ih (fun x hx => hlt x (List.mem_cons_of_mem _ hx)) next hnext
    have hprod : next.1 = ds.prod := by
      rw [strideLoop_eq .checked hfit] at hnext
      obtain rfl := Except.ok.inj hnext
      rfl
    rw [List.foldlM_cons] at hround
    obtain ⟨last, hlast, -⟩ := Run.bind_eq_ok.mp hround
    obtain ⟨stride, hmul, -⟩ := Run.bind_eq_ok.mp hlast
    have hmax := (fits_of_i32Mul hmul).2
    rw [hprod] at hmax
    have hnat : ds.prod * d ≤ 2147483647 := by exact_mod_cast hmax
    refine ⟨hlt d List.mem_cons_self, ?_, hfit⟩
    rw [Nat.mul_comm]
    omega

/-- An extent that the cast keeps is small. -/
theorem lt_of_asI32 {x : ℕ} (h : asI32 x = x) : x < 2 ^ 31 := by
  have hlt : asI32 x < ((2 ^ 32 : ℕ) + 1) / 2 := Int.bmod_lt (by norm_num)
  rw [h] at hlt
  norm_num at hlt
  omega

/-- In a checked build the new shape fits. -/
theorem trailingFit_of_newStrides {strides : List ℤ}
    (h : contiguousStrides .checked (target.map asI32) = .ok strides)
    (hshape : target.map asI32 = target.map (↑)) : TrailingFit target := by
  rw [hshape] at h
  refine trailingFit_of_checked (fun d hd => ?_) h
  exact lt_of_asI32 (List.map_inj_left.mp hshape d hd)

/-- In a checked build a good handle fits. -/
theorem Good.trailingFit {strides : List ℤ} (hgood : Good h)
    (hstrides : contiguousStrides .checked h.shape = .ok strides) : TrailingFit h.extents := by
  rw [hgood.shape_eq] at hstrides
  exact trailingFit_of_checked hgood.extents_lt hstrides

/-- The rounds of a slice that overflow nowhere add up exactly. -/
theorem sliceRounds_checked {shape strides : List ℤ} {ranges : List Range} {k : ℕ}
    {st st' : ℕ × List ℤ}
    (hss : ∀ s ∈ strides, 0 ≤ s ∧ s < 2 ^ 31)
    (h : (ranges.zipIdx k).foldlM (sliceRound .checked shape strides) st = .ok st') :
    st'.1 = st.1 + startOffset ranges (strides.drop k) := by
  induction ranges generalizing k st with
  | nil =>
    obtain rfl := Except.ok.inj h
    rfl
  | cons r rs ih =>
    rw [List.zipIdx_cons, List.foldlM_cons] at h
    obtain ⟨next, hround, h⟩ := Run.bind_eq_ok.mp h
    obtain ⟨d, -, hround⟩ := Run.bind_eq_ok.mp hround
    obtain ⟨u, -, hround⟩ := Run.bind_eq_ok.mp hround
    obtain ⟨s, hs, hround⟩ := Run.bind_eq_ok.mp hround
    obtain ⟨product, hmul, hround⟩ := Run.bind_eq_ok.mp hround
    obtain ⟨offset, hadd, hround⟩ := Run.bind_eq_ok.mp hround
    obtain rfl := Except.ok.inj hround
    obtain ⟨-, rfl⟩ := usizeMul_checked hmul
    obtain ⟨-, rfl⟩ := usizeAdd_checked hadd
    have hs' := Run.index_eq_ok.mp hs
    obtain ⟨h0, hlt⟩ := hss s (List.mem_of_getElem? hs')
    obtain ⟨hk, hget⟩ := List.getElem?_eq_some_iff.mp hs'
    have hdrop : strides.drop k = s :: strides.drop (k + 1) := by
      rw [List.drop_eq_getElem_cons hk, hget]
    rw [ih h, hdrop, startOffset, asUsize_of_lt h0 hlt, Nat.add_assoc]

/-- In a checked build the loop computes the offset of the starts. -/
theorem sliceLoop_checked {shape strides : List ℤ} {ranges : List Range} {st : ℕ × List ℤ}
    (hss : ∀ s ∈ strides, 0 ≤ s ∧ s < 2 ^ 31)
      (h : sliceLoop .checked shape strides ranges = .ok st) :
    st.1 = startOffset ranges strides := by
  obtain ⟨u, -, h⟩ := Run.bind_eq_ok.mp h
  rw [sliceRounds_checked hss h, Nat.zero_add, List.drop_zero]

/-- **A call that nowhere overflows meets the condition.** -/
theorem meets_of_checked (hgood : Good h) (hstep : Step .checked h call h')
    (hshape : h'.shape = (call.requested h.extents).map (↑)) : MeetsCall h call := by
  -- each call has computed the products that the condition is about, and none has overflowed
  cases hstep with
  | view hcall | reshape hcall =>
    obtain ⟨u, hvalid, hcall⟩ := Run.bind_eq_ok.mp hcall
    obtain ⟨newStrides, hnew, hcall⟩ := Run.bind_eq_ok.mp hcall
    obtain ⟨spec, -, hcall⟩ := Run.bind_eq_ok.mp hcall
    obtain ⟨contiguous, hcontiguous, -⟩ := Run.bind_eq_ok.mp hvalid
    obtain rfl := Except.ok.inj hcall
    exact ⟨hgood.trailingFit hcontiguous, trailingFit_of_newStrides hnew hshape⟩
  | reinterpret hsize hcall =>
    obtain ⟨u, hvalid, hcall⟩ := Run.bind_eq_ok.mp hcall
    obtain ⟨newStrides, hnew, hcall⟩ := Run.bind_eq_ok.mp hcall
    obtain ⟨spec, -, hcall⟩ := Run.bind_eq_ok.mp hcall
    obtain ⟨contiguous, hcontiguous, -⟩ := Run.bind_eq_ok.mp hvalid
    obtain rfl := Except.ok.inj hcall
    exact ⟨hgood.trailingFit hcontiguous, trailingFit_of_newStrides hnew hshape⟩
  | viewView hcall =>
    obtain ⟨u, hvalid, hcall⟩ := Run.bind_eq_ok.mp hcall
    obtain ⟨newStrides, hnew, hcall⟩ := Run.bind_eq_ok.mp hcall
    obtain ⟨ptr, -, hcall⟩ := Run.bind_eq_ok.mp hcall
    obtain ⟨spec, -, hcall⟩ := Run.bind_eq_ok.mp hcall
    obtain ⟨contiguous, hcontiguous, -⟩ := Run.bind_eq_ok.mp hvalid
    obtain rfl := Except.ok.inj hcall
    exact ⟨hgood.trailingFit hcontiguous, trailingFit_of_newStrides hnew hshape⟩
  -- a slice has computed its offset and the bits of its shape
  | slice hcall =>
    obtain ⟨st, hloop, hcall⟩ := Run.bind_eq_ok.mp hcall
    obtain ⟨offsetBytes, hmul, hcall⟩ := Run.bind_eq_ok.mp hcall
    obtain ⟨ptr, -, hcall⟩ := Run.bind_eq_ok.mp hcall
    obtain ⟨spec, hspec, hcall⟩ := Run.bind_eq_ok.mp hcall
    obtain rfl := Except.ok.inj hcall
    have hlt := (usizeMul_checked hmul).1
    rw [sliceLoop_checked hgood.strides hloop] at hlt
    rw [MeetsCall, Handle.offsetBytes, Nat.zero_add]
    exact ⟨hlt, hshape ▸ specFits_of_checked hspec⟩
  | viewSlice hcall =>
    obtain ⟨st, hloop, hcall⟩ := Run.bind_eq_ok.mp hcall
    obtain ⟨product, hmul, hcall⟩ := Run.bind_eq_ok.mp hcall
    obtain ⟨offsetBytes, hadd, hcall⟩ := Run.bind_eq_ok.mp hcall
    obtain ⟨ptr, -, hcall⟩ := Run.bind_eq_ok.mp hcall
    obtain ⟨spec, hspec, hcall⟩ := Run.bind_eq_ok.mp hcall
    obtain rfl := Except.ok.inj hcall
    have hlt := (usizeAdd_checked hadd).1
    rw [(usizeMul_checked hmul).2, sliceLoop_checked hgood.strides hloop] at hlt
    exact ⟨hlt, hshape ▸ specFits_of_checked hspec⟩

end Exact

/-- **A chain of calls that meet the condition** gives the shape that was asked for, and each
element of the result is the element of the source that it stands for.  It runs alike in both
builds, where the address of the result is a `u64`.  The condition is exact: a call that overflows
nowhere and gives the shape that was asked for meets it. -/
theorem chain_correct (b : Build) {t : Tensor} (ht : t.Valid) :
    (∀ (calls : List Call) (h : Handle) (f : Cell → Cell), Chain b (.tensor t) calls h f →
      MeetsChain b (.tensor t) calls →
        (∀ b', t.ptr + h.offsetBytes < 2 ^ 64 → Chain b' (.tensor t) calls h f) ∧
          h.shape = (requestedShape (t.shape.map Int.toNat) calls).map (↑) ∧
            ∀ c, h.InRange c →
              (Handle.tensor t).InRange (f c) ∧ h.address c = (Handle.tensor t).address (f c)) ∧
      ∀ h call h', Good h → Step .checked h call h' →
        h'.shape = (call.requested h.extents).map (↑) → MeetsCall h call := by
  refine ⟨fun calls h f hchain hmeets => ?_, fun _ _ _ hgood hstep hshape =>
    meets_of_checked hgood hstep hshape⟩
  obtain ⟨hptr, -, hbuilds, hshape, hcells⟩ := chain_kept hchain ht.good hmeets
  refine ⟨fun b' hlt => hbuilds b' ?_, hshape, hcells⟩
  rw [hptr]
  exact hlt

/-- The first row of a tensor whose axes overlap: the test goes as far as the third axis, which no
extent in the slice makes shorter. -/
example : ¬SpecFits [1, 2, 65536, 2] [1, 2, 65536, 131072] := by
  have hsorted : sortedAxes [1, 2, 65536, 2] [1, 2, 65536, 131072] =
      [(1, 1), (2, 2), (65536, 65536), (131072, 2)] := sortedAxes_of_sorted (by simp [strideLe])
  intro h
  have hfit : ProductsFit (sortedAxes [1, 2, 65536, 2] [1, 2, 65536, 131072]) := h
  rw [hsorted] at hfit
  simp [ProductsFit, FitsI32] at hfit

/-- Eight words. -/
def words : Tensor := ⟨4, 0, 32, [8], [1], specOf 0 [8] [1]⟩

/-- Eight words as two rows. -/
def wordsRows : TensorView := ⟨words, 0, [2, 4], [4, 1], specOf 0 [2, 4] [4, 1]⟩

/-- The second of the two rows. -/
def wordsRow : TensorView := ⟨words, 16, [1, 4], [4, 1], specOf 16 [1, 4] [4, 1]⟩

/-- The view of the example. -/
theorem words_view : words.view .wrapping [2, 4] = .ok wordsRows :=
  Run.bind_eq_ok.mpr ⟨(), rfl, Run.bind_eq_ok.mpr ⟨[4, 1], rfl, Run.bind_eq_ok.mpr
    ⟨_, specAt_wrapping rfl, rfl⟩⟩⟩

/-- The slice of the example. -/
theorem wordsRows_slice : wordsRows.slice .wrapping [⟨1, 2⟩] = .ok wordsRow :=
  Run.bind_eq_ok.mpr ⟨(4, [1, 4]), rfl, Run.bind_eq_ok.mpr ⟨16, rfl, Run.bind_eq_ok.mpr
    ⟨16, rfl, Run.bind_eq_ok.mpr ⟨16, rfl, Run.bind_eq_ok.mpr ⟨_, specAt_wrapping rfl, rfl⟩⟩⟩⟩⟩

/-- The chain of the example. -/
theorem chain_correct_words : ∃ f,
    Chain .wrapping (.tensor words) [.view [2, 4], .slice [⟨1, 2⟩]] (.view wordsRow) f ∧
      ∀ c, (Handle.view wordsRow).InRange c → (Handle.tensor words).InRange (f c) ∧
        (Handle.view wordsRow).address c = (Handle.tensor words).address (f c) := by
  have hchain : Chain .wrapping (.tensor words) [.view [2, 4], .slice [⟨1, 2⟩]]
    (.view wordsRow) _ :=
    .cons (.view words_view) (.cons (.viewSlice wordsRows_slice) .nil)
  refine ⟨_, hchain, ((chain_correct .wrapping ?_).1 _ _ _ hchain ⟨⟨?_, ?_⟩, ?_⟩).2.2⟩
  · exact ⟨by decide, by decide, by decide, by decide, by decide⟩
  · decide
  · decide
  · intro h' hstep
    cases hstep with
    | view h =>
      obtain rfl := Except.ok.inj (words_view.symm.trans h)
      refine ⟨⟨?_, productsFit_of_axes ?_⟩, fun _ _ => trivial⟩
      · show 0 + startOffset [⟨1, 2⟩] [4, 1] * 4 < 2 ^ 64
        decide
      · show ∀ w ∈ [(Int32.ofInt 4, Int32.ofInt 1), (Int32.ofInt 1, Int32.ofInt 4)], _
        simp [FitsI32]

/-- Four gibibytes, contiguous. -/
def wideTensor : Tensor :=
  ⟨1, 0, 4294967296, [65536, 65536], [65536, 1], specOf 0 [65536, 65536] [65536, 1]⟩

/-- A view whose strides wrapped. -/
def wideView : TensorView :=
  ⟨wideTensor, 0, [2, 32768, 65536], [-2147483648, 65536, 1],
    specOf 0 [2, 32768, 65536] [-2147483648, 65536, 1]⟩

/-- In a wrapping build the first stride comes out negative: the second half of the view lies below
the tensor, instead of in its second half. -/
theorem view_wraps : wideTensor.Valid ∧
    ∃ f, Chain .wrapping (.tensor wideTensor) [.view [2, 32768, 65536]] (.view wideView) f ∧
      (Handle.view wideView).InRange ([1, 0, 0], 0) ∧
        (Handle.view wideView).address ([1, 0, 0], 0) = -2147483648 ∧
          (Handle.tensor wideTensor).address (f ([1, 0, 0], 0)) = 2147483648 := by
  refine ⟨⟨by decide, by decide, by decide, by decide, by decide⟩, _,
    .cons (.view ?_) .nil, ?_, ?_, ?_⟩
  · exact Run.bind_eq_ok.mpr ⟨(), rfl, Run.bind_eq_ok.mpr ⟨[-2147483648, 65536, 1], rfl,
      Run.bind_eq_ok.mpr ⟨_, specAt_wrapping rfl, rfl⟩⟩⟩
  · refine ⟨.cons (by decide) (.cons (by decide) (.cons (by decide) .nil)), by decide⟩
  · decide
  · decide

end CudaOxide.Tile.Views
