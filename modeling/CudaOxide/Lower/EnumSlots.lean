import CudaOxide.Lib.Loop
import CudaOxide.Lower.StructSlots
import CudaOxide.Mir.EnumDiscriminant

namespace CudaOxide.Lower

open Lib LlvmType

/-!
# Slots of enums

The variants of an enum share its bytes, which a struct cannot say.  The lowering gives each field a
slot of its own, one that it shares with a field of the same type, one slot for each of its leaves,
or none (`enum_layout.rs`).

* `EnumType` — what rustc's layout says of an enum.
* `PayloadField.place`, `EnumType.place` — the claims on the bytes, in the order of the offsets.
* `emit` — the struct: the claims in their places, with fillers between them.
* `buildEnumSlotMap` — `build_enum_slot_map`.
-/

/-! ### Types -/

/-- `MirEnumType`, with the layout that rustc reports.  An unknown layout is `none`. -/
structure EnumType where
  discriminantTy : MirType
  allFieldTypes : List MirType
  allFieldOffsets : List ℕ
  allFieldSizes : List ℕ
  variantFieldCounts : List ℕ
  variantInhabited : List ℕ
  tagOffset : ℕ
  totalSize : ℕ
  abiAlign : ℕ
  layoutKind : Option Mir.EnumLayoutKind
  carrierKind : Mir.EnumCarrierKind
  carrierWidth : ℕ
  carrierAddressSpace : ℕ

/-- Why an enum has no slot map. -/
inductive SlotError where
  /-- `enum slot map: … has unknown physical layout; refusing to guess its bytes` -/
  | unknownLayout
  /-- `… uses a shared-memory pointer carrier whose size is target-mode dependent …` -/
  | sharedPointerCarrier
  /-- `… integer carrier width … is not a whole number of bytes; …` -/
  | carrierWidth
  /-- the error of `convert_type` -/
  | unconverted
  /-- `… direct carrier does not match its declared discriminant type` -/
  | carrierMismatch
  /-- `… has … field offsets for … fields` -/
  | fieldCounts (offsets fields : ℕ)
  /-- `… carrier has unsupported LLVM layout` -/
  | carrierLayout
  /-- `… carrier (size …, align …) cannot sit at byte … of …` -/
  | carrierPlace (size align offset totalSize : ℕ)
  /-- the error of `enum_payload_storage_type` -/
  | fieldStorage (flat : ℕ)
  /-- `… field … has unsupported LLVM size/alignment` -/
  | fieldLayout (flat : ℕ)
  /-- `… field … lowers to … bytes but rustc says …` -/
  | fieldSize (flat size rustSize : ℕ)
  /-- `… field … (size …) at byte … exceeds total size …` -/
  | fieldBounds (flat size offset totalSize : ℕ)
  /-- `… field … requires alignment … but rustc offset … is not aligned; …` -/
  | fieldAlign (flat align offset : ℕ)
  /-- `… field … contains bool storage hidden behind a union; …` -/
  | hiddenBool (flat : ℕ)
  /-- `… scalar bool field … overlaps storage other than one exact i8 byte; …` -/
  | boolOverlap (flat : ℕ)
  /-- `… field … overlaps pointer storage whose arrays are not supported above the bounded rewrite
  limit; …` -/
  | arrayLeafBound (flat required : ℕ)
  /-- `… has overlapping pointer and non-identical storage at byte …; …` -/
  | provenanceLoss (offset : ℕ)
  /-- `… field … overlaps non-identical storage but its lowered type is not byte-faithful …` -/
  | notByteFaithful (flat : ℕ)
  /-- `… has unsupported LLVM layout` -/
  | structLayout
  /-- `… lowered to … bytes but rustc says …` -/
  | structSize (size totalSize : ℕ)
  /-- `… lowered with alignment … but rustc requires …; …` -/
  | structAlign (align abiAlign : ℕ)
  deriving DecidableEq

/-- A field of a variant, with what the flat vectors say of it. -/
structure PayloadField where
  flat : ℕ
  mirTy : MirType
  llvmTy : LlvmType
  offset : ℕ
  rustSize : ℕ
  isInhabited : Bool

namespace EnumType

variable (e : EnumType)

/-- `field_is_inhabited` -/
def fieldIsInhabited : List Bool :=
  e.variantFieldCounts.zipIdx.flatMap fun v =>
    List.replicate v.1 (((e.variantInhabited[v.2]?).getD 0) != 0)

/-- The fields in flat order. -/
def payloadFields (types : List LlvmType) : List PayloadField :=
  (List.range types.length).filterMap fun flat =>
    (e.allFieldTypes[flat]?).bind fun mirTy => (types[flat]?).bind fun llvmTy =>
      (e.allFieldOffsets[flat]?).bind fun offset => (e.allFieldSizes[flat]?).map fun rustSize =>
        { flat, mirTy, llvmTy, offset, rustSize
          isInhabited := (e.fieldIsInhabited[flat]?).getD false }

/-- The type of the carrier. -/
def carrierTy : Run SlotError (Option LlvmType) :=
  match e.carrierKind with
  | .none => .ok none
  | .integer =>
    if e.layoutKind = some .direct then do
      let converted ← Run.okOr (convertType e.discriminantTy) .unconverted
      Run.reject (converted ≠ int e.carrierWidth) .carrierMismatch
      return some converted
    else .ok (some (int e.carrierWidth))
  | .pointer => .ok (some (ptr e.carrierAddressSpace))

/-- The claim of the carrier, which comes first. -/
def carrierClaim : Option LlvmType → Run SlotError (List Claim)
  | none => .ok []
  | some ty => do
    let l ← Run.okOr (sizeAlign ty) .carrierLayout
    Run.reject (l.1 ≠ (e.carrierWidth + 7) / 8 ∨ e.tagOffset % max l.2 1 ≠ 0 ∨
      e.totalSize < e.tagOffset + l.1) (.carrierPlace l.1 l.2 e.tagOffset e.totalSize)
    return [⟨e.tagOffset, l.1, ty⟩]

end EnumType

/-! ### Placement -/

/-- The path of a leaf, and its claim. -/
abbrev LeafClaim := List ℕ × ℕ

/-- The claims on the bytes so far, and those of the fields and of their leaves. -/
structure Placement where
  claims : List Claim
  claimOfField : ℕ → Option ℕ
  leafPlacementOfField : ℕ → Option (List LeafClaim)

/-- The leaves of a payload: each reuses the same type at the same bytes, or is put on bytes that no
claim covers. -/
def placeLeaves (claims : List Claim) : List PayloadLeaf → List Claim →
    Option (List LeafClaim × List Claim)
  | [], fresh => some ([], fresh)
  | leaf :: rest, fresh =>
    (enumPayloadStorageType leaf.ty).bind fun storage => (sizeAlign storage).bind fun l =>
      if l.1 = 0 then placeLeaves claims rest fresh
      else if leaf.offset % max l.2 1 ≠ 0 then none
      else
        match claims.findIdx? (· == ⟨leaf.offset, l.1, storage⟩) with
        | some claim =>
          (placeLeaves claims rest fresh).map fun r => ((leaf.path, claim) :: r.1, r.2)
        | none =>
          if claims.any (·.Meets leaf.offset l.1) then none
          else (placeLeaves claims rest (fresh ++ [⟨leaf.offset, l.1, storage⟩])).map fun r =>
            ((leaf.path, claims.length + fresh.length) :: r.1, r.2)

/-- `try_decompose_aggregate_payload`, for structs and tuples. -/
def tryDecomposeAggregatePayload (mirTy : MirType) (storage : LlvmType) (offset : ℕ)
    (claims : List Claim) : Option (List LeafClaim × List Claim) :=
  match mirTy with
  | .leaf _ => none
  | .aggregate .. =>
    if containsI1 storage then none
    else (collectPayloadLeaves mirTy offset []).bind fun leaves => placeLeaves claims leaves []

/-- A storage type with its size and alignment. -/
structure Stored where
  ty : LlvmType
  size : ℕ
  align : ℕ

namespace PayloadField

variable (f : PayloadField)

/-- The storage of a field: rustc agrees on its size. -/
def storage : Run SlotError Stored := do
  let ty ← Run.okOr (enumPayloadStorageType f.llvmTy) (.fieldStorage f.flat)
  let l ← Run.okOr (sizeAlign ty) (.fieldLayout f.flat)
  Run.reject (l.1 ≠ f.rustSize) (.fieldSize f.flat l.1 f.rustSize)
  return ⟨ty, l.1, l.2⟩

/-- A scalar bool claims a byte, or finds its byte claimed. -/
def placeBool (size : ℕ) (p : Placement) : Run SlotError Placement :=
  let colliding := p.claims.filter (·.Meets f.offset size)
  if colliding.isEmpty then
    .ok { p with claims := p.claims ++ [⟨f.offset, 1, int 8⟩] }
  else if colliding.all (· == ⟨f.offset, 1, int 8⟩) then .ok p
  else Run.fail (.boolOverlap f.flat)

/-- The pointers of a field over other storage that have no slot yet. -/
def extraPointerClaims (storage : LlvmType) (size : ℕ) (colliding : List Claim) :
    Run SlotError (List Claim) :=
  if containsPointer storage || colliding.any fun c => containsPointer c.ty then
    match analyzePointerOverlap f.offset size storage colliding with
    | .ok extra => .ok (extra.map fun q => ⟨q.offset, q.size, ptr q.addressSpace⟩)
    | .error (.overArrayLeafBound required) => Run.fail (.arrayLeafBound f.flat required)
    | .error .provenanceLoss => Run.fail (.provenanceLoss f.offset)
  else .ok []

/-- A field over bytes that others claim: leaf by leaf, or through memory. -/
def placeColliding (storage : LlvmType) (size : ℕ) (colliding : List Claim) (p : Placement) :
    Run SlotError Placement :=
  match tryDecomposeAggregatePayload f.mirTy storage f.offset p.claims with
  | some d => .ok { p with
      claims := p.claims ++ d.2
      leafPlacementOfField := Function.update p.leafPlacementOfField f.flat (some d.1) }
  | none => do
    let extra ← f.extraPointerClaims storage size colliding
    Run.reject (!isByteFaithful storage || !colliding.all fun c => isByteFaithful c.ty)
      (.notByteFaithful f.flat)
    return { p with claims := p.claims ++ extra }

/-- A claim of the same type at the same offset is shared; other bytes are claimed.  A field with
bools has no slot. -/
def placeStorage (storage : LlvmType) (size : ℕ) (p : Placement) : Run SlotError Placement :=
  let slotted (claim : ℕ) : ℕ → Option ℕ :=
    if containsI1 f.llvmTy then p.claimOfField
      else Function.update p.claimOfField f.flat (some claim)
  match p.claims.findIdx? fun c => c.offset == f.offset && c.ty == storage with
  | some claim => .ok { p with claimOfField := slotted claim }
  | none =>
    let colliding := p.claims.filter (·.Meets f.offset size)
    if colliding.isEmpty then
      .ok { p with
        claims := p.claims ++ [⟨f.offset, size, storage⟩]
        claimOfField := slotted p.claims.length }
    else f.placeColliding storage size colliding p

/-- One field of the loop. -/
def place (totalSize : ℕ) (p : Placement) : Run SlotError Placement :=
  if !f.isInhabited then .ok p
  else do
    let s ← f.storage
    if s.size = 0 ∨ isZeroSized f.llvmTy then return p
    Run.reject (totalSize < f.offset + s.size) (.fieldBounds f.flat s.size f.offset totalSize)
    Run.reject (f.offset % max s.align 1 ≠ 0) (.fieldAlign f.flat s.align f.offset)
    if f.llvmTy = int 1 then f.placeBool s.size p
    else do
      Run.reject (f.mirTy.containsI1 && !containsI1 f.llvmTy) (.hiddenBool f.flat)
      f.placeStorage s.ty s.size p

/-- The order of the fields: by offset, those first that keep all of their bits, then flat. -/
def Precedes (f g : PayloadField) : Prop :=
  toLex (f.offset, toLex (!isByteFaithful f.llvmTy, f.flat)) ≤
    toLex (g.offset, toLex (!isByteFaithful g.llvmTy, g.flat))

instance : DecidableRel Precedes := fun _ _ => inferInstanceAs (Decidable (_ ≤ _))

end PayloadField

/-- The fields in the order in which they claim their bytes. -/
def placeFields (totalSize : ℕ) : List PayloadField → Placement → Run SlotError Placement
  | [], p => .ok p
  | f :: fs, p => f.place totalSize p >>= placeFields totalSize fs

/-- The type of the carrier, the types of the fields, and who has which bytes. -/
structure Placed where
  carrierTy : Option LlvmType
  types : List LlvmType
  placement : Placement

/-- Phase 1 of `build_enum_slot_map`: the carrier, and then the fields. -/
def EnumType.place (e : EnumType) : Run SlotError Placed := do
  Run.reject (e.layoutKind = none) .unknownLayout
  Run.reject (e.carrierKind = .pointer ∧ e.carrierAddressSpace = shared) .sharedPointerCarrier
  Run.reject (e.carrierKind = .integer ∧ e.carrierWidth % 8 ≠ 0) .carrierWidth
  let carrierTy ← e.carrierTy
  let types ← Run.okOr (convertTypes e.allFieldTypes) .unconverted
  Run.reject (e.allFieldOffsets.length ≠ types.length ∨ e.allFieldSizes.length ≠ types.length)
    (.fieldCounts (min e.allFieldOffsets.length e.allFieldSizes.length) types.length)
  let carrier ← e.carrierClaim carrierTy
  let placement ← placeFields e.totalSize
    ((e.payloadFields types).insertionSort PayloadField.Precedes)
      ⟨carrier, fun _ => none, fun _ => none⟩
  return { carrierTy, types, placement }

/-! ### The struct -/

/-- `make_enum_filler_type` -/
def makeEnumFillerType (offset size abiAlign : ℕ) : LlvmType :=
  match [8, 4, 2].find? fun width => size % width = 0 ∧ offset % width = 0 ∧ width ≤ abiAlign with
  | some width => if size = width then int (width * 8) else array (int (width * 8)) (size / width)
  | none => makePaddingType size

/-- `alignment_anchor_type` -/
def alignmentAnchorType (abiAlign : ℕ) : LlvmType := array (int (min (max abiAlign 1) 16 * 8)) 0

/-- The slots that are laid down, the slot of each claim, and the end of the bytes. -/
structure Emission where
  llvmFields : List LlvmType
  slotOfClaim : ℕ → ℕ
  currentOffset : ℕ

namespace Emission

/-- Nothing emitted yet. -/
def start : Emission := ⟨[], fun _ => 0, 0⟩

/-- A filler up to an offset. -/
def padTo (s : Emission) (abiAlign offset : ℕ) : Emission :=
  if s.currentOffset < offset then
    { s with
      llvmFields :=
        s.llvmFields ++ [makeEnumFillerType s.currentOffset (offset - s.currentOffset) abiAlign]
      currentOffset := offset }
  else s

/-- The next slot is that of a claim. -/
def push (s : Emission) (claim : ℕ) (c : Claim) : Emission :=
  { llvmFields := s.llvmFields ++ [c.ty]
    slotOfClaim := Function.update s.slotOfClaim claim s.llvmFields.length
    currentOffset := s.currentOffset + c.size }

end Emission

/-- A claim comes before another: by offset, and by index where these are equal. -/
def Emitted (x y : Claim × ℕ) : Prop :=
  x.1.offset < y.1.offset ∨ x.1.offset = y.1.offset ∧ x.2 ≤ y.2

instance : DecidableRel Emitted := fun _ _ => inferInstanceAs (Decidable (_ ∨ _))

/-- The claims in the order of their offsets. -/
def emitOrder (claims : List Claim) : List (Claim × ℕ) := claims.zipIdx.insertionSort Emitted

/-- Phase 2: the slots in byte order, with fillers in the gaps and at the end. -/
def emit (abiAlign totalSize : ℕ) (claims : List Claim) : Emission :=
  ((emitOrder claims).foldl (fun s x => (s.padTo abiAlign x.1.offset).push x.2 x.1)
    Emission.start).padTo
    abiAlign totalSize

/-- `EnumSlotMap` -/
structure EnumSlotMap where
  llvmFields : List LlvmType
  carrierSlot : Option ℕ
  carrierLlvmTy : Option LlvmType
  fieldSlots : List (Option ℕ)
  fieldLeafSlots : List (Option (List (List ℕ × ℕ)))
  fieldOffsets : List ℕ
  fieldLlvmTypes : List LlvmType
  deriving DecidableEq

/-- `EnumSlotMap::llvm_struct_ty`: an ordinary struct of the emitted fields. -/
def EnumSlotMap.llvmStructTy (m : EnumSlotMap) : LlvmType := struct m.llvmFields false

/-- The fields of the struct and the slots of the claims: the struct has rustc's size, and an anchor
where it would be aligned less than rustc asks. -/
def EnumType.structOf (e : EnumType) (claims : List Claim) :
    Run SlotError (List LlvmType × (ℕ → ℕ)) := do
  let s := emit e.abiAlign e.totalSize claims
  let l ← Run.okOr ((sizeAligns s.llvmFields).bind naturalStructLayout) .structLayout
  Run.reject (l.2.1 ≠ e.totalSize) (.structSize l.2.1 e.totalSize)
  Run.reject (max e.abiAlign 1 < l.2.2) (.structAlign l.2.2 e.abiAlign)
  if l.2.2 < max e.abiAlign 1 then
    return (alignmentAnchorType (max e.abiAlign 1) :: s.llvmFields,
      fun claim => s.slotOfClaim claim + 1)
  else return (s.llvmFields, s.slotOfClaim)

/-- `build_enum_slot_map` -/
def buildEnumSlotMap (e : EnumType) : Run SlotError EnumSlotMap := do
  let r ← e.place
  let s ← e.structOf r.placement.claims
  return {
    llvmFields := s.1
    carrierSlot := r.carrierTy.map fun _ => s.2 0
    carrierLlvmTy := r.carrierTy
    fieldSlots := (List.range r.types.length).map fun flat =>
      (r.placement.claimOfField flat).map s.2
    fieldLeafSlots := (List.range r.types.length).map fun flat =>
      (r.placement.leafPlacementOfField flat).map fun leaves => leaves.map fun l => (l.1, s.2 l.2)
    fieldOffsets := e.allFieldOffsets
    fieldLlvmTypes := r.types }

end CudaOxide.Lower
