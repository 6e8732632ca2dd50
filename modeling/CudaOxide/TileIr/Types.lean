import Mathlib.Tactic.Common

/-!
# Types of Tile IR

The types a value can have (`cutile-ir/src/ir/types.rs`).  A view carries the tensor view it is laid
over; a function type is the only one with a list of types in it.
-/

namespace CudaOxide.TileIr

/-- Element types: integers and floats. -/
inductive ScalarType where
  | i1 | i4 | i8 | i16 | i32 | i64
  | f16 | bf16 | f32 | tf32 | f64
  | f8e4m3fn | f8e5m2 | f8e8m0fnu | f4e2m1fn | f8e5m3fnu
  deriving DecidableEq, Repr

/-- `PointerType`. -/
structure PointerType where
  pointee : ScalarType
  deriving DecidableEq, Repr

/-- An element of a tile. -/
inductive TileElementType where
  | scalar (s : ScalarType)
  | pointer (p : PointerType)
  deriving DecidableEq, Repr

/-- What a pointer addresses.  A type without a classification is not one classified `none`. -/
inductive PointerAttribute where
  | none | unicast | multicast
  deriving DecidableEq, Repr

/-- `TileType`. -/
structure TileType where
  shape : List Int64
  elementType : TileElementType
  deriving DecidableEq

/-- `TensorViewType`. -/
structure TensorViewType where
  elementType : ScalarType
  shape : List Int64
  strides : List Int64
  deriving DecidableEq

/-- What an access outside the tensor reads. -/
inductive PaddingValue where
  | zero | negZero | nan | posInf | negInf
  deriving DecidableEq, Repr

/-- `PartitionViewType`. -/
structure PartitionViewType where
  tileShape : List Int32
  tensorView : TensorViewType
  dimMap : List Int32
  paddingValue : Option PaddingValue
  deriving DecidableEq

/-- `GatherScatterViewType`. -/
structure GatherScatterViewType where
  tileShape : List Int32
  tensorView : TensorViewType
  sparseDim : Int32
  paddingValue : Option PaddingValue
  deriving DecidableEq

/-- `StridedViewType`. -/
structure StridedViewType where
  tileShape : List Int32
  traversalStrides : List Int32
  tensorView : TensorViewType
  dimMap : List Int32
  paddingValue : Option PaddingValue
  deriving DecidableEq

/-- The type of a value (`Type`). -/
inductive Ty where
  | scalar (s : ScalarType)
  | pointer (p : PointerType)
  | tile (t : TileType)
  | tensorView (v : TensorViewType)
  | partitionView (v : PartitionViewType)
  | gatherScatterView (v : GatherScatterViewType)
  | stridedView (v : StridedViewType)
  | func (inputs results : List Ty)
  | token
  | withPointerAttribute (base : Ty) (a : PointerAttribute)

namespace Ty

/-! ### Equality -/

mutual

/-- Equality of types, decided. -/
def beq : Ty → Ty → Bool
  | scalar s, scalar s' => s = s'
  | pointer p, pointer p' => p = p'
  | tile t, tile t' => t = t'
  | tensorView v, tensorView v' => v = v'
  | partitionView v, partitionView v' => v = v'
  | gatherScatterView v, gatherScatterView v' => v = v'
  | stridedView v, stridedView v' => v = v'
  | func is rs, func is' rs' => beqAll is is' && beqAll rs rs'
  | token, token => true
  | withPointerAttribute t a, withPointerAttribute t' a' => beq t t' && decide (a = a')
  | _, _ => false

/-- Equality of lists of types, decided. -/
def beqAll : List Ty → List Ty → Bool
  | [], [] => true
  | t :: ts, t' :: ts' => beq t t' && beqAll ts ts'
  | _, _ => false

end

mutual

/-- The decision is right for a type. -/
theorem beq_iff : (t t' : Ty) → (beq t t' = true ↔ t = t')
  | func is rs, t' => by
    cases t' <;> simp [beq, beqAll_iff is, beqAll_iff rs]
  | withPointerAttribute t a, t' => by
    cases t' <;> simp [beq, beq_iff t]
  | scalar s, t' => by cases t' <;> simp [beq]
  | pointer p, t' => by cases t' <;> simp [beq]
  | tile t, t' => by cases t' <;> simp [beq]
  | tensorView v, t' => by cases t' <;> simp [beq]
  | partitionView v, t' => by cases t' <;> simp [beq]
  | gatherScatterView v, t' => by cases t' <;> simp [beq]
  | stridedView v, t' => by cases t' <;> simp [beq]
  | token, t' => by cases t' <;> simp [beq]

/-- The decision is right for a list of types. -/
theorem beqAll_iff : (ts ts' : List Ty) → (beqAll ts ts' = true ↔ ts = ts')
  | [], ts' => by cases ts' <;> simp [beqAll]
  | t :: ts, ts' => by
    cases ts' <;> simp [beqAll, beq_iff t, beqAll_iff ts]

end

instance : DecidableEq Ty := fun t t' => decidable_of_iff (beq t t' = true) (beq_iff t t')

/-! ### Pointer classifications -/

/-- The type without its pointer attributes. -/
def withoutPointerAttribute : Ty → Ty
  | withPointerAttribute base _ => base.withoutPointerAttribute
  | t => t

/-- `t` classified as `a`, whatever it was classified as before. -/
def withPointerAttribute' (t : Ty) (a : PointerAttribute) : Ty :=
  withPointerAttribute t.withoutPointerAttribute a

end Ty

end CudaOxide.TileIr
