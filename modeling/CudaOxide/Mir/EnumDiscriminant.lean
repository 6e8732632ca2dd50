import Mathlib

namespace CudaOxide.Mir

/-!
# Enum discriminants

An enum selects its variant by a carrier: a tag that holds the discriminant, or the niche of a
payload field.  The importer records the encoding (`mir-importer/src/translator/types.rs`), one
function writes the carrier (`enum_carrier_bits_for_variant`), the code that
`convert_get_discriminant` emits reads it, and constants are decoded by `const_enum.rs`.

* `RustEnum`, `RustEnum.WellFormed` — the layout that rustc reports, and what rustc promises of it.
* `Code`, `Code.eval` — the instructions that a discriminant read is lowered to, and what they
  compute.
* `RustEnum.DecodedBy` — the encoder, the emitted code and the decoder of constants agree.
* `discriminant_decoded` — they do for every layout that the importer accepts.
-/

/-! ### Layouts -/

/-- `abi::Primitive`; an integer has its width in bits. -/
inductive Primitive where
  | int (width : ℕ)
  | float (width : ℕ)
  | pointer (addressSpace width : ℕ)
  deriving DecidableEq

/-- `Primitive::size`, in bits. -/
def Primitive.width : Primitive → ℕ
  | int width | float width | pointer _ width => width

/-- `abi::TagEncoding`. -/
inductive TagEncoding where
  | direct
  | niche (untaggedVariant nicheVariantStart nicheVariantEnd nicheStart : ℕ)
  deriving DecidableEq

/-- `abi::VariantsShape`. -/
inductive VariantsShape where
  | single (index : ℕ)
  | empty
  | multiple (tag : Primitive) (encoding : TagEncoding)
  deriving DecidableEq

/-- What rustc reports of an enum: its layout, the width of its declared discriminant type, the
value of `discriminant_for_variant` for each variant, and which variants are inhabited. -/
structure RustEnum where
  variants : VariantsShape
  declaredWidth : ℕ
  discriminants : List ℕ
  inhabited : List Bool
  deriving DecidableEq

/-- The variant is inhabited. -/
def RustEnum.Inhabited (e : RustEnum) (v : ℕ) : Prop :=
  e.inhabited[v]? = some true

/-- `EnumLayoutKind`. -/
inductive EnumLayoutKind where
  | direct
  | niche
  | single
  | empty
  deriving DecidableEq

/-- `EnumCarrierKind`. -/
inductive EnumCarrierKind where
  | none
  | integer
  | pointer
  deriving DecidableEq

/-- `MirEnumType`, without the fields of its variants. -/
structure MirEnumType where
  /-- the width of `discriminant_ty` -/
  discriminantWidth : ℕ
  variantDiscriminants : List ℕ
  layoutKind : EnumLayoutKind
  carrierKind : EnumCarrierKind
  carrierWidth : ℕ
  nicheStart : ℕ
  nicheVariantStart : ℕ
  nicheVariantEnd : ℕ
  untaggedVariant : ℕ
  singleVariant : ℕ
  variantInhabited : List Bool
  deriving DecidableEq

/-- Why an enum is not imported. -/
inductive ImportError where
  /-- `Direct enum tag for … is not an integer` -/
  | tagNotInteger
  /-- `Niche pointer carrier for … is in shared address space 3` -/
  | sharedPointerCarrier
  /-- `Niche pointer carrier for … is … bits in address space …` -/
  | pointerCarrierWidth
  /-- `Niche carrier for … is a floating-point scalar` -/
  | floatCarrier
  /-- `Niche enum … has declared discriminant … for variant …` -/
  | nicheDiscriminant (v : ℕ)
  /-- `Enum … uses a …-bit discriminant; widths above 64 bits are not yet represented losslessly` -/
  | discriminantWidth
  deriving DecidableEq

/-- The carrier of a niche layout. -/
def nicheCarrier (tag : Primitive) : Except ImportError EnumCarrierKind :=
  match tag with
  | .int _ => .ok .integer
  | .pointer addressSpace width =>
    if addressSpace = 3 then .error .sharedPointerCarrier
    else if width ≠ 64 then .error .pointerCarrierWidth
    else .ok .pointer
  | .float _ => .error .floatCarrier

/-- The declared discriminants, masked to the width that holds them. -/
def maskedDiscriminants (width : ℕ) (discriminants : List ℕ) : Except ImportError (List ℕ) :=
  if width > 64 ∧ discriminants ≠ [] then .error .discriminantWidth
  else .ok (discriminants.map fun d => d % 2 ^ width)

/-- In a niche layout the discriminants are the indices of the variants. -/
def nicheDiscriminants (discriminants : List ℕ) : Except ImportError (List ℕ) :=
  match (discriminants.zipIdx).find? fun d => d.1 != d.2 with
  | some d => .error (.nicheDiscriminant d.2)
  | none => .ok (List.range discriminants.length)

/-- The enum arm of `translate_type`. -/
def translateEnum (e : RustEnum) : Except ImportError MirEnumType :=
  let ty : MirEnumType := ⟨e.declaredWidth, [], .empty, .none, 0, 0, 0, 0, 0, 0, e.inhabited⟩
  match e.variants with
  | .multiple (.int width) .direct => do
    let variantDiscriminants ← maskedDiscriminants width e.discriminants
    return { ty with
      discriminantWidth := width, variantDiscriminants, layoutKind := .direct
      carrierKind := .integer, carrierWidth := width }
  | .multiple _ .direct => .error .tagNotInteger
  | .multiple tag (.niche untaggedVariant nicheVariantStart nicheVariantEnd nicheStart) => do
    let carrierKind ← nicheCarrier tag
    let variantDiscriminants ← nicheDiscriminants e.discriminants
    return { ty with
      variantDiscriminants, layoutKind := .niche, carrierKind, carrierWidth := tag.width, nicheStart
      nicheVariantStart, nicheVariantEnd, untaggedVariant }
  | .single singleVariant => do
    let variantDiscriminants ← maskedDiscriminants e.declaredWidth e.discriminants
    return { ty with variantDiscriminants, layoutKind := .single, singleVariant }
  | .empty => do
    let variantDiscriminants ← maskedDiscriminants e.declaredWidth e.discriminants
    return { ty with
      variantDiscriminants, variantInhabited := e.inhabited.map fun _ => false }

/-! ### The carrier -/

/-- Why a variant is not selected, or a discriminant not read. -/
inductive LowerError where
  /-- `cannot select uninhabited or missing variant … of …` -/
  | uninhabited (v : ℕ)
  /-- `variant … has no declared discriminant` -/
  | noDiscriminant (v : ℕ)
  /-- `inhabited variant … is not representable by niche layout of …` -/
  | notRepresentable (v : ℕ)
  /-- `variant … is not the single inhabited variant of …` -/
  | notSingle (v : ℕ)
  /-- `enum … is uninhabited` -/
  | empty
  deriving DecidableEq

/-- The carrier bits that select a variant, or `none` where nothing is to be written. -/
def enumCarrierBitsForVariant (ty : MirEnumType) (v : ℕ) : Except LowerError (Option ℕ) :=
  if ty.variantInhabited[v]? ≠ some true then .error (.uninhabited v)
  else match ty.layoutKind with
    | .direct =>
      match ty.variantDiscriminants[v]? with
      | some bits => .ok (some bits)
      | none => .error (.noDiscriminant v)
    | .niche =>
      -- the untagged variant comes first: its index may lie inside the range
      if v = ty.untaggedVariant then .ok none
      else if ¬(ty.nicheVariantStart ≤ v ∧ v ≤ ty.nicheVariantEnd) then .error (.notRepresentable v)
      else
        let bits := (ty.nicheStart + (v - ty.nicheVariantStart)) % 2 ^ 128
        .ok (some (if ty.carrierWidth < 128 then bits &&& (2 ^ ty.carrierWidth - 1) else bits))
    | .single => if v = ty.singleVariant then .ok none else .error (.notSingle v)
    | .empty => .error .empty

/-- The instructions of a discriminant read, over a carrier of `c` bits.  A pointer carrier is read
as its address. -/
inductive Code (c : ℕ) : ℕ → Type where
  /-- `extractvalue` of the carrier slot, and `ptrtoint` for a pointer -/
  | carrier : Code c c
  | const (w bits : ℕ) : Code c w
  | sub {w : ℕ} (a b : Code c w) : Code c w
  | add {w : ℕ} (a b : Code c w) : Code c w
  | trunc {w : ℕ} (w' : ℕ) (a : Code c w) : Code c w'
  | zext {w : ℕ} (w' : ℕ) (a : Code c w) : Code c w'
  /-- `select (icmp ule a b) x y` -/
  | selectUle {w w' : ℕ} (a b : Code c w) (x y : Code c w') : Code c w'

/-- What the instructions compute. -/
def Code.eval {c : ℕ} (carrier : BitVec c) : {w : ℕ} → Code c w → BitVec w
  | _, .carrier => carrier
  | w, .const _ bits => BitVec.ofNat w bits
  | _, .sub a b => a.eval carrier - b.eval carrier
  | _, .add a b => a.eval carrier + b.eval carrier
  | _, .trunc w' a => (a.eval carrier).setWidth w'
  | _, .zext w' a => (a.eval carrier).setWidth w'
  | _, .selectUle a b x y =>
    if a.eval carrier ≤ b.eval carrier then x.eval carrier else y.eval carrier

/-- A value of `c` bits at a width of `w`. -/
def Code.resize {c v : ℕ} (w : ℕ) (a : Code c v) : Code c w :=
  if h : v = w then h ▸ a else if v < w then .zext w a else .trunc w a

/-- The lowering of `mir.get_discriminant`: the width of the result, and its code. -/
def convertGetDiscriminant (ty : MirEnumType) :
    Except LowerError ((w : ℕ) × Code ty.carrierWidth w) :=
  match ty.layoutKind with
  | .direct => .ok ⟨ty.carrierWidth, .carrier⟩
  | .single =>
    if ty.variantInhabited[ty.singleVariant]? ≠ some true then
      .error (.uninhabited ty.singleVariant)
    else match ty.variantDiscriminants[ty.singleVariant]? with
      | some value => .ok ⟨ty.discriminantWidth, .const ty.discriminantWidth value⟩
      | none => .error (.noDiscriminant ty.singleVariant)
  | .niche =>
    let w := ty.discriminantWidth
    let relative := .sub .carrier (.const ty.carrierWidth ty.nicheStart)
    let max := .const ty.carrierWidth (ty.nicheVariantEnd - ty.nicheVariantStart)
    let nicheVariant := .add (relative.resize w) (.const w ty.nicheVariantStart)
    .ok ⟨w, .selectUle relative max nicheVariant (.const w ty.untaggedVariant)⟩
  | .empty => .error .empty

/-! ### Constants -/

/-- `decode_niche_variant_index`, in `u128` arithmetic. -/
def decodeNicheVariantIndex (tagValue carrierMask nicheStart nicheVariantStart nicheVariantEnd
    untaggedVariant : ℕ) : ℕ :=
  let relative := (tagValue + (2 ^ 128 - nicheStart)) % 2 ^ 128 &&& carrierMask
  if relative ≤ nicheVariantEnd - nicheVariantStart then
    nicheVariantStart + relative % 2 ^ 64
  else
    untaggedVariant

/-- `discriminant_to_variant_index`: the first variant with the tag. -/
def discriminantToVariantIndex (discriminants : List ℕ) (tagValue mask : ℕ) : Option ℕ :=
  discriminants.findIdx? fun d => d &&& mask == tagValue &&& mask

/-- Why the variant of a constant is not found. -/
inductive ConstError where
  /-- `Cannot materialize a constant for an uninhabited enum` -/
  | uninhabited
  /-- `Enum tag width … exceeds 128 bits` -/
  | tagWidth
  /-- `Enum constant tag value … matches no declared discriminant` -/
  | noDiscriminant
  deriving DecidableEq

/-- `enum_variant_index_from_bytes`, from the value of the tag. -/
def enumVariantIndexFromBytes (e : RustEnum) (tagValue : ℕ) : Except ConstError ℕ :=
  match e.variants with
  | .single index => .ok index
  | .empty => .error .uninhabited
  | .multiple tag encoding =>
    if tag.width > 128 then .error .tagWidth
    else
      let mask := 2 ^ tag.width - 1
      match encoding with
      | .direct =>
        match discriminantToVariantIndex e.discriminants tagValue mask with
        | some index => .ok index
        | none => .error .noDiscriminant
      | .niche untaggedVariant nicheVariantStart nicheVariantEnd nicheStart =>
        .ok (decodeNicheVariantIndex tagValue mask nicheStart nicheVariantStart nicheVariantEnd
          untaggedVariant)

/-! ### What rustc promises -/

/-- The carrier value that encodes variant `v` in a niche layout. -/
def nicheValue (width nicheStart nicheVariantStart v : ℕ) : ℕ :=
  (nicheStart + (v - nicheVariantStart)) % 2 ^ width

/-- The layouts that rustc produces. -/
structure RustEnum.WellFormed (e : RustEnum) : Prop where
  inhabited_length : e.inhabited.length = e.discriminants.length
  /-- a single layout has one variant that may be inhabited -/
  single : ∀ index, e.variants = .single index → index < e.discriminants.length ∧
    ∀ v, e.Inhabited v → v = index
  empty : e.variants = .empty → ∀ v, ¬e.Inhabited v
  /-- a tag has at most `128` bits -/
  width_le : ∀ tag encoding, e.variants = .multiple tag encoding → tag.width ≤ 128
  /-- the encoded variants are variants, and fewer than `2 ^ 32` -/
  range : ∀ tag untagged first last start, e.variants = .multiple tag
    (.niche untagged first last start) →
    first ≤ last ∧ last < e.discriminants.length ∧ untagged < e.discriminants.length ∧
      last < 2 ^ 32 ∧
      start < 2 ^ 128
  /-- their values are distinct -/
  distinct : ∀ tag untagged first last start,
    e.variants = .multiple tag (.niche untagged first last start) → last - first < 2 ^ tag.width
  /-- an inhabited variant is encoded or untagged -/
  encoded : ∀ tag untagged first last start,
    e.variants = .multiple tag (.niche untagged first last start) →
    ∀ v, e.Inhabited v → v = untagged ∨ first ≤ v ∧ v ≤ last

/-- The carrier may hold the value where variant `v` is stored: the bits that are written, or, where
nothing is written in a niche layout, a value of the payload, which encodes no variant. -/
def RustEnum.Carries (e : RustEnum) (bits : Option ℕ) (value : ℕ) : Prop :=
  match bits with
  | some bits => value = bits
  | none => ∀ tag untagged first last start,
      e.variants = .multiple tag (.niche untagged first last start) →
    ∀ v, first ≤ v → v ≤ last → value ≠ nicheValue tag.width start first v

/-- The encoder, the emitted code and the decoder of constants agree. -/
structure RustEnum.DecodedBy (e : RustEnum) (ty : MirEnumType) : Prop where
  /-- an inhabited variant is selected, and its discriminant read back -/
  variant : ∀ v, e.Inhabited v → ∃ bits code, enumCarrierBitsForVariant ty v = .ok bits ∧
    convertGetDiscriminant ty = .ok code ∧ ∀ carrier : BitVec ty.carrierWidth,
      e.Carries bits carrier.toNat →
        ∃ d, e.discriminants[v]? = some d ∧ (code.2.eval carrier).toNat = d % 2 ^ code.1
  /-- a value outside the encoded range is read as the untagged variant -/
  untagged : ∀ tag untagged first last start,
    e.variants = .multiple tag (.niche untagged first last start) →
      ∀ code, convertGetDiscriminant ty = .ok code → ∀ carrier : BitVec ty.carrierWidth,
        (∀ v, first ≤ v → v ≤ last → carrier.toNat ≠ nicheValue tag.width start first v) →
          (code.2.eval carrier).toNat = untagged % 2 ^ code.1
  /-- a constant is decoded to the variant whose discriminant the code computes -/
  constant : ∀ (carrier : BitVec ty.carrierWidth) index,
    enumVariantIndexFromBytes e carrier.toNat = .ok index →
      ∀ code, convertGetDiscriminant ty = .ok code →
        ∃ d, e.discriminants[index]? = some d ∧ (code.2.eval carrier).toNat = d % 2 ^ code.1

/-! ### Niches -/

section Niche

variable {w : ℕ} {carrier : BitVec w} {first last untagged start : ℕ}

/-- How far the carrier is into the niche, around the end of the carrier. -/
def nicheOffset (carrier : BitVec w) (start : ℕ) : ℕ :=
  (carrier - BitVec.ofNat w start).toNat

/-- The variant that a carrier of a niche layout selects. -/
def nicheVariant (carrier : BitVec w) (untagged first last start : ℕ) : ℕ :=
  if nicheOffset carrier start ≤ last - first then first + nicheOffset carrier start else untagged

/-- The carrier is the niche start and its offset. -/
theorem toNat_eq_nicheOffset (carrier : BitVec w) (start : ℕ) :
    carrier.toNat = (start + nicheOffset carrier start) % 2 ^ w := by
  have hsum : carrier = BitVec.ofNat w start + (carrier - BitVec.ofNat w start) := by
    rw [BitVec.add_comm, BitVec.sub_add_cancel]
  have htoNat := congrArg BitVec.toNat hsum
  rw [BitVec.toNat_add, BitVec.toNat_ofNat, Nat.mod_add_mod] at htoNat
  exact htoNat

/-- The offset of an encoded variant. -/
theorem nicheOffset_nicheValue {v : ℕ} (hw : v - first < 2 ^ w)
    (hcarrier : carrier.toNat = nicheValue w start first v) :
    nicheOffset carrier start = v - first := by
  have heq : carrier = BitVec.ofNat w start + BitVec.ofNat w (v - first) := by
    rw [← BitVec.ofNat_add]
    refine BitVec.eq_of_toNat_eq ?_
    rw [hcarrier, BitVec.toNat_ofNat, nicheValue]
  rw [nicheOffset, heq, BitVec.add_comm, BitVec.add_sub_cancel, BitVec.toNat_ofNat,
    Nat.mod_eq_of_lt hw]

/-- The carrier of a niche variant names the variant. -/
theorem nicheVariant_nicheValue {v : ℕ} (hv : first ≤ v ∧ v ≤ last) (hw : last - first < 2 ^ w)
    (hcarrier : carrier.toNat = nicheValue w start first v) :
    nicheVariant carrier untagged first last start = v := by
  have hoffset := nicheOffset_nicheValue (by omega) hcarrier
  rw [nicheVariant, hoffset, if_pos (by omega)]
  omega

/-- A carrier that encodes no variant is one of the untagged variant. -/
theorem nicheVariant_untagged
    (h : ∀ v, first ≤ v → v ≤ last → carrier.toNat ≠ nicheValue w start first v)
    (hrange : first ≤ last) : nicheVariant carrier untagged first last start = untagged := by
  refine if_neg fun hle => ?_
  refine h (first + nicheOffset carrier start) (by omega) (by omega) ?_
  rw [nicheValue, Nat.add_sub_cancel_left]
  exact toNat_eq_nicheOffset carrier start

/-- `u128` arithmetic under the carrier mask is carrier arithmetic. -/
theorem masked_sub (hw : w ≤ 128) (hstart : start < 2 ^ 128) :
    (carrier.toNat + (2 ^ 128 - start)) % 2 ^ 128 &&& (2 ^ w - 1) = nicheOffset carrier start := by
  have hdvd : 2 ^ w ∣ 2 ^ 128 := Nat.pow_dvd_pow 2 hw
  have hlt : nicheOffset carrier start < 2 ^ w := BitVec.isLt _
  rw [Nat.and_two_pow_sub_one_eq_mod, Nat.mod_mod_of_dvd _ hdvd, toNat_eq_nicheOffset carrier start,
    Nat.mod_add_mod]
  have hsum : start + nicheOffset carrier start + (2 ^ 128 - start) =
      nicheOffset carrier start + 2 ^ 128 := by omega
  obtain ⟨k, hk⟩ := hdvd
  rw [hsum, hk, Nat.add_mul_mod_self_left, Nat.mod_eq_of_lt hlt]

/-- The mask of the encoder, which is left out at the full width. -/
theorem masked_eq_mod (hw : w ≤ 128) (x : ℕ) :
    (if w < 128 then x % 2 ^ 128 &&& (2 ^ w - 1) else x % 2 ^ 128) = x % 2 ^ w := by
  split
  · rw [Nat.and_two_pow_sub_one_eq_mod, Nat.mod_mod_of_dvd _ (Nat.pow_dvd_pow 2 hw)]
  · obtain rfl : w = 128 := by omega
    rfl

/-- The decoding in 128 bits is the niche variant of the carrier. -/
theorem decodeNicheVariantIndex_eq (hw : w ≤ 128) (hstart : start < 2 ^ 128)
    (hlast : last < 2 ^ 32) :
    decodeNicheVariantIndex carrier.toNat (2 ^ w - 1) start first last untagged =
      nicheVariant carrier untagged first last start := by
  unfold decodeNicheVariantIndex nicheVariant
  simp only [masked_sub hw hstart]
  split
  · rename_i hle
    rw [Nat.mod_eq_of_lt (by omega)]
  · rfl

/-- Resizing a code resizes its value. -/
theorem Code.eval_resize {c v w : ℕ} (carrier : BitVec c) (a : Code c v) :
    (a.resize w).eval carrier = (a.eval carrier).setWidth w := by
  unfold Code.resize
  split
  · rename_i h
    subst h
    simp
  split
  · rfl
  · rfl

end Niche

/-! ### The emitted code -/

section Lowering

variable {e : RustEnum} {ty : MirEnumType}

/-- The code of a niche layout computes the variant, at the width of the result. -/
theorem convertGetDiscriminant_niche (hkind : ty.layoutKind = .niche)
    (hdistinct : ty.nicheVariantEnd - ty.nicheVariantStart < 2 ^ ty.carrierWidth) :
    ∃ code, convertGetDiscriminant ty = .ok code ∧ ∀ carrier : BitVec ty.carrierWidth,
      (code.2.eval carrier).toNat =
        nicheVariant carrier ty.untaggedVariant ty.nicheVariantStart ty.nicheVariantEnd
          ty.nicheStart % 2 ^ code.1 := by
  unfold convertGetDiscriminant
  rw [hkind]
  refine ⟨_, rfl, fun carrier => ?_⟩
  have hmax : (BitVec.ofNat ty.carrierWidth (ty.nicheVariantEnd - ty.nicheVariantStart)).toNat =
      ty.nicheVariantEnd - ty.nicheVariantStart := by
    rw [BitVec.toNat_ofNat, Nat.mod_eq_of_lt hdistinct]
  simp only [Code.eval, Code.eval_resize]
  by_cases hle : nicheOffset carrier ty.nicheStart ≤ ty.nicheVariantEnd - ty.nicheVariantStart
  · rw [nicheVariant, if_pos hle, if_pos (BitVec.le_def.mpr (hmax.symm ▸ hle)), BitVec.toNat_add,
      BitVec.toNat_setWidth, BitVec.toNat_ofNat, ← Nat.add_mod, Nat.add_comm]
    rfl
  · rw [nicheVariant, if_neg hle, if_neg (fun hle' => hle (hmax ▸ BitVec.le_def.mp hle')),
      BitVec.toNat_ofNat]

/-! ### The importer -/

/-- The discriminants are reduced to the width. -/
theorem maskedDiscriminants_ok {width : ℕ} {ds ds' : List ℕ}
    (h : maskedDiscriminants width ds = .ok ds') : ds' = ds.map (· % 2 ^ width) := by
  unfold maskedDiscriminants at h
  split at h
  · cases h
  · cases h
    rfl

/-- The discriminants of an imported niche layout are the indices. -/
theorem nicheDiscriminants_ok {ds ds' : List ℕ} (h : nicheDiscriminants ds = .ok ds') {v : ℕ}
    (hv : v < ds.length) : ds[v]? = some v := by
  unfold nicheDiscriminants at h
  split at h
  · cases h
  · rename_i hnone
    have hmem : (ds[v], v) ∈ ds.zipIdx :=
      List.mem_zipIdx_iff_getElem?.mpr (List.getElem?_eq_getElem hv)
    have heq : ds[v] = v := by simpa using List.find?_eq_none.mp hnone _ hmem
    rw [List.getElem?_eq_getElem hv, heq]

/-- How a directly tagged enum is translated. -/
theorem translateEnum_direct {width : ℕ} (hvariants : e.variants = .multiple (.int width) .direct)
    (h : translateEnum e = .ok ty) : ty.layoutKind = .direct ∧ ty.carrierWidth = width ∧
      ty.variantDiscriminants = e.discriminants.map (· % 2 ^ width) ∧
        ty.variantInhabited = e.inhabited := by
  unfold translateEnum at h
  rw [hvariants] at h
  cases hds : maskedDiscriminants width e.discriminants with
  | error err =>
    simp only [hds] at h
    cases h
  | ok ds =>
    simp only [hds] at h
    cases h
    exact ⟨rfl, rfl, maskedDiscriminants_ok hds, rfl⟩

/-- How an enum of one layout variant is translated. -/
theorem translateEnum_single {index : ℕ} (hvariants : e.variants = .single index)
    (h : translateEnum e = .ok ty) : ty.layoutKind = .single ∧ ty.singleVariant = index ∧
      ty.discriminantWidth = e.declaredWidth ∧
        ty.variantDiscriminants = e.discriminants.map (· % 2 ^ e.declaredWidth) ∧
          ty.variantInhabited = e.inhabited := by
  unfold translateEnum at h
  rw [hvariants] at h
  cases hds : maskedDiscriminants e.declaredWidth e.discriminants with
  | error err =>
    simp only [hds] at h
    cases h
  | ok ds =>
    simp only [hds] at h
    cases h
    exact ⟨rfl, rfl, rfl, maskedDiscriminants_ok hds, rfl⟩

/-- How a niche-encoded enum is translated. -/
theorem translateEnum_niche {tag : Primitive} {untagged first last start : ℕ}
    (hvariants : e.variants = .multiple tag (.niche untagged first last start))
    (h : translateEnum e = .ok ty) : ty.layoutKind = .niche ∧ ty.carrierWidth = tag.width ∧
      ty.nicheStart = start ∧ ty.nicheVariantStart = first ∧ ty.nicheVariantEnd = last ∧
        ty.untaggedVariant = untagged ∧ ty.variantInhabited = e.inhabited ∧
          ∀ v < e.discriminants.length, e.discriminants[v]? = some v := by
  unfold translateEnum at h
  rw [hvariants] at h
  cases hkind : nicheCarrier tag with
  | error err =>
    simp only [hkind] at h
    cases h
  | ok kind =>
    cases hds : nicheDiscriminants e.discriminants with
    | error err =>
      simp only [hkind, hds] at h
      cases h
    | ok ds =>
      simp only [hkind, hds] at h
      cases h
      exact ⟨rfl, rfl, rfl, rfl, rfl, rfl, rfl, fun v => nicheDiscriminants_ok hds⟩

/-- A direct tag is an integer. -/
theorem translateEnum_direct_int {tag : Primitive} (hvariants : e.variants = .multiple tag .direct)
    (h : translateEnum e = .ok ty) : ∃ width, tag = .int width := by
  unfold translateEnum at h
  rw [hvariants] at h
  cases tag with
  | int width => exact ⟨width, rfl⟩
  | float width => cases h
  | pointer space width => cases h

/-! ### Agreement -/

/-- A constant of a direct layout is decoded to a variant with the same discriminant. -/
theorem enumVariantIndexFromBytes_direct {tag : Primitive} {value index : ℕ}
    (hvariants : e.variants = .multiple tag .direct)
    (h : enumVariantIndexFromBytes e value = .ok index) :
    ∃ d, e.discriminants[index]? = some d ∧ d % 2 ^ tag.width = value % 2 ^ tag.width := by
  unfold enumVariantIndexFromBytes discriminantToVariantIndex at h
  rw [hvariants] at h
  simp only [Nat.and_two_pow_sub_one_eq_mod] at h
  split at h
  · cases h
  · split at h
    · rename_i i hfind
      cases h
      obtain ⟨hlt, heq, _⟩ := List.findIdx?_eq_some_iff_getElem.mp hfind
      exact ⟨_, List.getElem?_eq_getElem hlt, by simpa using heq⟩
    · cases h

/-- The layout is direct: the carrier holds the discriminant. -/
theorem decodedBy_direct {width : ℕ} (hwf : e.WellFormed)
    (hvariants : e.variants = .multiple (.int width) .direct) (h : translateEnum e = .ok ty) :
    e.DecodedBy ty := by
  obtain ⟨hkind, rfl, hds, hinh⟩ := translateEnum_direct hvariants h
  have hcode : convertGetDiscriminant ty = .ok ⟨ty.carrierWidth, .carrier⟩ := by
    rw [convertGetDiscriminant, hkind]
  constructor
  · intro v hv
    have hlt : v < e.discriminants.length := by
      rw [← hwf.inhabited_length]
      exact (List.getElem?_eq_some_iff.mp hv).1
    have hd : e.discriminants[v]? = some e.discriminants[v] := List.getElem?_eq_getElem hlt
    refine ⟨some (e.discriminants[v] % 2 ^ ty.carrierWidth), _, ?_, hcode, fun carrier hc => ?_⟩
    · unfold enumCarrierBitsForVariant
      rw [if_neg (by rw [hinh]; exact not_not_intro hv), hkind, hds]
      simp [hd]
    · exact ⟨_, hd, hc⟩
  · intro tag untagged first last start hniche
    rw [hvariants] at hniche
    cases hniche
  · intro carrier index hindex code hok
    obtain rfl := Except.ok.inj (hcode.symm.trans hok)
    obtain ⟨d, hd, hsame⟩ := enumVariantIndexFromBytes_direct hvariants hindex
    refine ⟨d, hd, ?_⟩
    exact (hsame.trans (Nat.mod_eq_of_lt carrier.isLt)).symm

/-- The layout has one variant, and its discriminant is a constant. -/
theorem decodedBy_single {index : ℕ} (hwf : e.WellFormed) (hvariants : e.variants = .single index)
    (h : translateEnum e = .ok ty) : e.DecodedBy ty := by
  obtain ⟨hkind, rfl, hwidth, hds, hinh⟩ := translateEnum_single hvariants h
  obtain ⟨hlt, honly⟩ := hwf.single _ hvariants
  -- the single variant has its discriminant
  have hd : e.discriminants[ty.singleVariant]? = some e.discriminants[ty.singleVariant] :=
    List.getElem?_eq_getElem hlt
  have hds' : ty.variantDiscriminants[ty.singleVariant]? =
      some (e.discriminants[ty.singleVariant] % 2 ^ ty.discriminantWidth) := by
    rw [hds, hwidth, List.getElem?_map, hd]
    rfl
  have hcode : ty.variantInhabited[ty.singleVariant]? = some true → convertGetDiscriminant ty =
      .ok ⟨ty.discriminantWidth, .const ty.discriminantWidth
        (e.discriminants[ty.singleVariant] % 2 ^ ty.discriminantWidth)⟩ := by
    intro hsome
    unfold convertGetDiscriminant
    rw [hkind]
    simp only [hsome, hds', ne_eq, not_true_eq_false, if_false]
  have heval (carrier : BitVec ty.carrierWidth) :
      ((Code.const ty.discriminantWidth (e.discriminants[ty.singleVariant] %
        2 ^ ty.discriminantWidth)).eval carrier).toNat =
          e.discriminants[ty.singleVariant] % 2 ^ ty.discriminantWidth := by
    rw [Code.eval, BitVec.toNat_ofNat, Nat.mod_mod]
  constructor
  -- only that variant is inhabited
  · intro v hv
    obtain rfl := honly v hv
    refine ⟨none, _, ?_, hcode (hinh ▸ hv), fun carrier _ => ⟨_, hd, heval carrier⟩⟩
    unfold enumCarrierBitsForVariant
    rw [if_neg (by rw [hinh]; exact not_not_intro hv), hkind]
    simp
  · intro tag untagged first last start hniche
    rw [hvariants] at hniche
    cases hniche
  -- and only of that variant a discriminant is asked for
  · intro carrier index hindex code hok
    obtain rfl : ty.singleVariant = index := by
      unfold enumVariantIndexFromBytes at hindex
      rw [hvariants] at hindex
      exact Except.ok.inj hindex
    by_cases hsome : ty.variantInhabited[ty.singleVariant]? = some true
    · obtain rfl := Except.ok.inj ((hcode hsome).symm.trans hok)
      exact ⟨_, hd, heval carrier⟩
    · unfold convertGetDiscriminant at hok
      simp only [hkind, ne_eq, hsome, not_false_eq_true, if_true] at hok
      cases hok

/-- The layout has a niche: what the code computes is the variant that the carrier selects. -/
theorem decodedBy_niche {tag : Primitive} {untagged first last start : ℕ} (hwf : e.WellFormed)
    (hvariants : e.variants = .multiple tag (.niche untagged first last start))
    (h : translateEnum e = .ok ty) : e.DecodedBy ty := by
  obtain ⟨hkind, hwidth, rfl, rfl, rfl, rfl, hinh, hds⟩ := translateEnum_niche hvariants h
  obtain ⟨hrange, hlast, huntagged, hlast32, hstart⟩ := hwf.range _ _ _ _ _ hvariants
  have hdistinct := hwf.distinct _ _ _ _ _ hvariants
  have hle := hwf.width_le _ _ hvariants
  rw [← hwidth] at hdistinct hle
  -- the decoding is that of the niche variant, with its wrap-around
  obtain ⟨code, hcode, heval⟩ := convertGetDiscriminant_niche hkind hdistinct
  constructor
  · intro v hv
    have hlt : v < e.discriminants.length := by
      rw [← hwf.inhabited_length]
      exact (List.getElem?_eq_some_iff.mp hv).1
    -- the untagged variant keeps the carrier, every other one writes its niche value
    by_cases huv : v = ty.untaggedVariant
    · refine ⟨none, code, ?_, hcode, fun carrier hc => ⟨v, hds v hlt, ?_⟩⟩
      · unfold enumCarrierBitsForVariant
        rw [if_neg (by rw [hinh]; exact not_not_intro hv), hkind]
        simp [huv]
      · rw [heval, nicheVariant_untagged (fun u hu hu' => ?_) hrange, huv]
        have hne := hc _ _ _ _ _ hvariants u hu hu'
        rwa [← hwidth] at hne
    · have hin := (hwf.encoded _ _ _ _ _ hvariants v hv).resolve_left huv
      refine ⟨some (nicheValue ty.carrierWidth ty.nicheStart ty.nicheVariantStart v),
        code, ?_, hcode,
        fun carrier hc => ⟨v, hds v hlt, ?_⟩⟩
      · unfold enumCarrierBitsForVariant
        rw [if_neg (by rw [hinh]; exact not_not_intro hv), hkind]
        simp only [huv, hin, and_self, not_true_eq_false, if_false, masked_eq_mod hle]
        rfl
      · rw [heval, nicheVariant_nicheValue hin hdistinct hc]
  -- a carrier outside the niche is that of the untagged variant
  · intro tag' untagged first last start hniche code' hok carrier hout
    obtain rfl := Except.ok.inj (hcode.symm.trans hok)
    rw [hvariants] at hniche
    cases hniche
    rw [heval, nicheVariant_untagged (fun u hu hu' => ?_) hrange]
    have hne := hout u hu hu'
    rwa [← hwidth] at hne
  · intro carrier index hindex code' hok
    obtain rfl := Except.ok.inj (hcode.symm.trans hok)
    have hindex : nicheVariant carrier ty.untaggedVariant ty.nicheVariantStart ty.nicheVariantEnd
        ty.nicheStart = index := by
      unfold enumVariantIndexFromBytes at hindex
      rw [hvariants] at hindex
      simp only [← hwidth] at hindex
      rw [if_neg (by omega)] at hindex
      rw [← decodeNicheVariantIndex_eq hle hstart hlast32]
      exact Except.ok.inj hindex
    -- the decoded variant exists
    have hlt : index < e.discriminants.length := by
      rw [← hindex, nicheVariant]
      split <;> omega
    exact ⟨index, hds index hlt, by rw [heval, hindex]⟩

/-- **Discriminants survive the encoding.**  For every layout that rustc produces and the importer
accepts, the carrier that is written for a variant is read back as its declared discriminant, and
the variant that a constant is decoded to has the discriminant that the emitted code computes. -/
theorem discriminant_decoded (hwf : e.WellFormed) (h : translateEnum e = .ok ty) :
    e.DecodedBy ty := by
  cases hvariants : e.variants with
  | single index => exact decodedBy_single hwf hvariants h
  | empty =>
    constructor
    · exact fun v hv => absurd hv (hwf.empty hvariants v)
    · intro tag untagged first last start hniche
      rw [hvariants] at hniche
      cases hniche
    · intro carrier index hindex
      unfold enumVariantIndexFromBytes at hindex
      rw [hvariants] at hindex
      cases hindex
  | multiple tag encoding =>
    cases encoding with
    | direct =>
      obtain ⟨width, rfl⟩ := translateEnum_direct_int hvariants h
      exact decodedBy_direct hwf hvariants h
    | niche untagged first last start => exact decodedBy_niche hwf hvariants h

end Lowering

/-- The niche of a byte from `254` on, for the variants `1` to `3`, of which `2` is untagged. -/
theorem discriminant_decoded_wrapping : ∃ (e : RustEnum) (ty : MirEnumType),
    e.variants = .multiple (.int 8) (.niche 2 1 3 254) ∧
      enumCarrierBitsForVariant ty 3 = .ok (some 0) ∧ e.DecodedBy ty := by
  refine ⟨⟨.multiple (.int 8) (.niche 2 1 3 254), 64, [0, 1, 2, 3], [false, true, true, true]⟩,
    ⟨64, [0, 1, 2, 3], .niche, .integer, 8, 254, 1, 3, 2, 0, [false, true, true, true]⟩,
    rfl, rfl, discriminant_decoded ?_ rfl⟩
  constructor
  · rfl
  · intro index h
    cases h
  · intro h
    cases h
  · intro tag encoding h
    cases h
    decide
  · intro tag untagged first last start h
    cases h
    decide
  · intro tag untagged first last start h
    cases h
    decide
  · intro tag untagged first last start h v hv
    cases h
    rcases v with _ | _ | _ | _ | v
    · cases hv
    · exact .inr (by decide)
    · exact .inl rfl
    · exact .inr (by decide)
    · cases hv

end CudaOxide.Mir
