import CudaOxide.TileIr.Ir
import Mathlib.Data.Prod.Lex

/-!
# Version requirements of Tile IR

The bytecode version that introduced an operation, an element type or an attribute value
(`cutile-ir/src/requirements.rs`, `bytecode/enums.rs`).

* `BytecodeVersion` — versions, ordered by major, minor and tag.
* `Feature.since` — the version that introduced a feature.
* `opcodeRequirement`, `scalarRequirement`, `attributeFeature` — the feature something belongs to.
-/

namespace CudaOxide.TileIr

/-! ### Versions -/

/-- `BytecodeVersion`. -/
structure BytecodeVersion where
  major : ℕ
  minor : ℕ
  tag : ℕ
  deriving DecidableEq, Repr

namespace BytecodeVersion

/-- Version 13.2. -/
def v13_2 : BytecodeVersion := ⟨13, 2, 0⟩

/-- Version 13.3. -/
def v13_3 : BytecodeVersion := ⟨13, 3, 0⟩

/-- Version 13.4. -/
def v13_4 : BytecodeVersion := ⟨13, 4, 0⟩

/-- Version 13.5. -/
def v13_5 : BytecodeVersion := ⟨13, 5, 0⟩

/-- `MIN_SUPPORTED`. -/
def minSupported : BytecodeVersion := v13_2

/-- The versions the writer can emit. -/
def supported : List BytecodeVersion := [v13_2, v13_3, v13_4, v13_5]

/-- Bit 0 of the tag marks an image with public-preview operations. -/
def withPreview (v : BytecodeVersion) : BytecodeVersion := ⟨v.major, v.minor, v.tag / 2 * 2 + 1⟩

/-- The version without its preview bit. -/
def withoutPreview (v : BytecodeVersion) : BytecodeVersion := ⟨v.major, v.minor, v.tag / 2 * 2⟩

/-- The preview bit of the version. -/
def isPreview (v : BytecodeVersion) : Bool := v.tag % 2 = 1

/-- The order of versions is that of major, minor and tag. -/
def key (v : BytecodeVersion) : ℕ ×ₗ ℕ ×ₗ ℕ := toLex (v.major, toLex (v.minor, v.tag))

/-- Versions with the same key are the same. -/
theorem key_injective : Function.Injective key := by
  rintro ⟨a, b, c⟩ ⟨a', b', c'⟩ h
  simp only [key, EmbeddingLike.apply_eq_iff_eq, Prod.mk.injEq] at h
  obtain ⟨rfl, rfl, rfl⟩ := h
  rfl

instance : LinearOrder BytecodeVersion := LinearOrder.lift' key key_injective

example : v13_2 < v13_3 ∧ v13_3 < v13_4 ∧ v13_4 < v13_5 := by decide

end BytecodeVersion

/-! ### Features -/

/-- The features a writer has to look at. -/
inductive Feature where
  | baseline | allocation | packing | scaledMma | gatherScatterView | stridedView | atomicRedView
  | insert | integerPower | gdcTokens | aliasFence | int4 | fp8 | e8Scale | fp4 | f8e5m3fnu
  | pointerAttribute | fabricPointer | multimem | atomicViewInbounds | validityCheck
  | controlFlowHints | minCtasPerSm | argumentAttributes | nearestAway | saturatingFToI | inbounds
  | fastAccumulation | expRounding | producer | globalConstant | globalVisibility | workerWarps
  | loopReturn | hopperTarget | rubinTarget | foreignCall
  deriving DecidableEq, Repr

namespace Feature

open BytecodeVersion

/-- The version that introduced the feature. -/
def since : Feature → BytecodeVersion
  | baseline | fp8 | e8Scale => v13_2
  | allocation | packing | scaledMma | gatherScatterView | stridedView | atomicRedView | int4 | fp4
  | fastAccumulation | expRounding | producer | globalConstant | globalVisibility | workerWarps
  | hopperTarget => v13_3
  | insert | integerPower | gdcTokens | aliasFence | f8e5m3fnu | pointerAttribute | nearestAway
  | saturatingFToI | inbounds | loopReturn | rubinTarget => v13_4
  | fabricPointer | multimem | atomicViewInbounds | validityCheck | controlFlowHints | minCtasPerSm
  | argumentAttributes | foreignCall => v13_5

end Feature

open Feature

/-- What an opcode requires. -/
def opcodeRequirement : Opcode → Feature
  | .multimemLoadReduceViewTko | .multimemReduceViewTko | .multimemStoreViewTko => multimem
  | .pack | .unpack => packing
  | .alloca => allocation
  | .mmaFScaled => scaledMma
  | .makeGatherScatterView => gatherScatterView
  | .makeStridedView => stridedView
  | .atomicRedViewTko => atomicRedView
  | .insert => insert
  | .gdcLaunchDependentsTko | .gdcWaitTko => gdcTokens
  | .fPowI => integerPower
  | .memoryFenceAliasTko => aliasFence
  | .previewCall => foreignCall
  | _ => baseline

/-- What a scalar type requires. -/
def scalarRequirement : ScalarType → Feature
  | .i1 | .i8 | .i16 | .i32 | .i64 | .f16 | .bf16 | .f32 | .tf32 | .f64 => baseline
  | .i4 => int4
  | .f8e4m3fn | .f8e5m2 => fp8
  | .f8e8m0fnu => e8Scale
  | .f4e2m1fn => fp4
  | .f8e5m3fnu => f8e5m3fnu

/-- The feature a classification belongs to (`PointerAttribute::feature`). -/
def PointerAttribute.feature : PointerAttribute → Feature
  | .none => pointerAttribute
  | .unicast | .multicast => fabricPointer

/-- An argument without attributes. -/
def Attribute.isEmptyDictionary : Attribute → Bool
  | .dictionary entries => entries.isEmpty
  | _ => false

/-- The attribute is `true`. -/
def Attribute.isTrue : Attribute → Bool
  | .bool b => b
  | _ => false

/-- The feature that a value of an attribute belongs to, where it is not the default meaning. -/
def attributeFeature (op : Opcode) (name : String) (attr : Attribute) : Option Feature :=
  match name, attr with
  | "valid_check", .bool true => some validityCheck
  | "arg_attrs", .array items =>
    if items.all Attribute.isEmptyDictionary then none else some argumentAttributes
  | "arg_attrs", _ => some argumentAttributes
  | "optimization_hints", _ => if op = .ifOp ∨ op = .select then some controlFlowHints else none
  | "rounding_mode", .integer v _ =>
    if v = 7 then some nearestAway
    else if op = .exp ∧ v ≠ 5 then some expRounding
    else none
  | "saturating", .bool true => some saturatingFToI
  | "inbounds", .array elems =>
    if elems.any Attribute.isTrue then
      some (if op = .atomicRedViewTko then atomicViewInbounds else inbounds)
    else none
  | "fast_acc", .bool true => some fastAccumulation
  | "producer", _ => some Feature.producer
  | _, _ => none

/-- What a requirement is about. -/
inductive Subject where
  | opcode (op : Opcode)
  | feature (f : Feature)
  | scalar (s : ScalarType)
  | hintTarget (arch : String)
  | hint (key : String)
  | attribute (op : Opcode) (name : String)
  deriving DecidableEq, Repr

/-- The targets a hint can name, with the feature each belongs to (`TARGETS`). -/
def targets : List (ℕ × Feature) :=
  [(80, baseline), (86, baseline), (87, baseline), (88, baseline), (89, baseline),
    (90, hopperTarget), (100, baseline), (103, baseline), (107, rubinTarget), (110, baseline),
    (120, baseline), (121, baseline)]

/-- What a target requires. -/
def targetRequirement (sm : ℕ) : Option Feature := (targets.find? (·.1 = sm)).map (·.2)

end CudaOxide.TileIr
