import CudaOxide.TileIr.Reader

/-!
# Entries of the type section

An entry of the type section holds a tag, numbers, and the indices of the types it is made of
(`decode_type_entry` of `cutile-ir/src/bytecode/decoder.rs`).

* `decodeTypeEntry` — the fields of an entry as the decoder reads them; where the entry ends too
  soon, it goes on with zeros.
* `TypeEntry.describe` — the text the decoder makes of them.
* `TypeEntry.resolve` — the type an entry stands for.
* `TypeEntry.encode` — how an entry is laid out; `decodeTypeEntry_encode` is the round trip.
-/

namespace CudaOxide.TileIr

open CudaOxide.Lib CudaOxide.Lib.Bytes Decode

/-! ### Tags -/

/-- The tag of a scalar type. -/
def ScalarType.typeTag : ScalarType → ℕ
  | .i1 => 0 | .i8 => 1 | .i16 => 2 | .i32 => 3 | .i64 => 4 | .f16 => 5 | .bf16 => 6 | .f32 => 7
  | .tf32 => 8 | .f64 => 9 | .f8e4m3fn => 10 | .f8e5m2 => 11 | .f8e8m0fnu => 18 | .f4e2m1fn => 19
  | .i4 => 22 | .f8e5m3fnu => 0x82

/-- The scalar that a tag stands for. -/
def ScalarType.ofTag : ℕ → Option ScalarType
  | 0 => some .i1 | 22 => some .i4 | 1 => some .i8 | 2 => some .i16 | 3 => some .i32
  | 4 => some .i64 | 5 => some .f16 | 6 => some .bf16 | 7 => some .f32 | 8 => some .tf32
  | 9 => some .f64 | 10 => some .f8e4m3fn | 11 => some .f8e5m2 | 18 => some .f8e8m0fnu
  | 19 => some .f4e2m1fn | 0x82 => some .f8e5m3fnu
  | _ => none

/-- A scalar type comes back from its tag. -/
theorem ScalarType.ofTag_typeTag (s : ScalarType) : ofTag (s.typeTag % 256) = some s := by
  cases s <;> rfl

/-- The name the decoder gives a scalar. -/
def ScalarType.name : ScalarType → String
  | .i1 => "i1" | .i4 => "i4" | .i8 => "i8" | .i16 => "i16" | .i32 => "i32" | .i64 => "i64"
  | .f16 => "f16" | .bf16 => "bf16" | .f32 => "f32" | .tf32 => "tf32" | .f64 => "f64"
  | .f8e4m3fn => "f8e4m3fn" | .f8e5m2 => "f8e5m2" | .f8e8m0fnu => "f8e8m0fnu"
  | .f4e2m1fn => "f4e2m1fn" | .f8e5m3fnu => "f8e5m3fnu"

/-- The byte of a pointer attribute. -/
def PointerAttribute.toByte : PointerAttribute → UInt8
  | .none => 0 | .unicast => 1 | .multicast => 2

/-- The pointer attribute of a byte. -/
def PointerAttribute.ofByte : UInt8 → Option PointerAttribute
  | 0 => some .none | 1 => some .unicast | 2 => some .multicast
  | _ => Option.none

/-- A pointer attribute comes back from its byte. -/
theorem PointerAttribute.ofByte_toByte (a : PointerAttribute) : ofByte a.toByte = some a := by
  cases a <;> rfl

/-- The byte of a padding value. -/
def PaddingValue.toByte : PaddingValue → UInt8
  | .zero => 0 | .negZero => 1 | .nan => 2 | .posInf => 3 | .negInf => 4

/-- The padding value of a number. -/
def PaddingValue.ofNat? : ℕ → Option PaddingValue
  | 0 => some .zero | 1 => some .negZero | 2 => some .nan | 3 => some .posInf | 4 => some .negInf
  | _ => none

/-- A padding value comes back from its byte. -/
theorem PaddingValue.ofNat?_toByte (v : PaddingValue) : ofNat? v.toByte.toNat = some v := by
  cases v <;> rfl

/-! ### Entries -/

/-- The fields of an entry. -/
inductive TypeEntry where
  | scalar (s : ScalarType)
  | token
  | pointer (elem : ℕ) (attr : Option UInt8)
  | tile (elem : ℕ) (shape : List Int64)
  | tensorView (elem : ℕ) (shape strides : List Int64) (attr : Option UInt8)
  | partitionView (tileShape : List Int32) (view : ℕ) (dimMap : List Int32) (padding : Option ℕ)
  | gatherScatterView (tileShape : List Int32) (view sparseDim : ℕ) (padding : Option ℕ)
  | stridedView (tileShape traversalStrides : List Int32) (view : ℕ) (dimMap : List Int32)
      (padding : Option ℕ)
  | func (inputs results : List ℕ)
  | unknown (tag : ℕ)
  | readError

namespace Decode

/-- A number, or `0` where there is none. -/
def readVarintOr0 : Decode ℕ := readVarint.orElse 0

/-- A byte, 0 behind the end. -/
def readByteOr0 : Decode ℕ := do return (← readByte.orElse 0).toNat

/-- A rank and as many numbers. -/
def readVector {α : Type} (elem : Decode α) : Decode (List α) := do
  let rank ← readVarintOr0
  reserve rank
  elem.times rank

/-- A shape of 64-bit extents. -/
def readShape64 : Decode (List Int64) := readVector (readLeI64.orElse 0)

/-- A shape of 32-bit extents. -/
def readShape32 : Decode (List Int32) := readVector (readLeI32.orElse 0)

/-- What is there where bit 0 of the flags is set. -/
def whenFlag {α : Type} (flags : ℕ) (x : Decode α) : Decode (Option α) :=
  if flags % 2 = 1 then do return some (← x) else return none

end Decode

/-- The flags of a pointer or a tensor view, which are new in 13.4. -/
def readAttrFlags (version : BytecodeVersion) : Decode ℕ :=
  if .v13_4 ≤ version then readVarintOr0 else return 0

/-- What follows the tag. -/
def decodeTagged (version : BytecodeVersion) (tag : ℕ) : Decode TypeEntry :=
  match tag with
  | 17 => return .token
  | 12 => do
    let flags ← readAttrFlags version
    let elem ← readVarintOr0
    let attr ← whenFlag flags (readByte.orElse 0)
    return .pointer elem attr
  | 13 => do
    let elem ← readVarintOr0
    let shape ← readShape64
    return .tile elem shape
  | 14 => do
    let flags ← readAttrFlags version
    let elem ← readVarintOr0
    let shape ← readShape64
    let strides ← readShape64
    let attr ← whenFlag flags (readByte.orElse 0)
    return .tensorView elem shape strides attr
  | 15 =>
    if .v13_3 ≤ version then do
      let flags ← readVarintOr0
      let tileShape ← readShape32
      let view ← readVarintOr0
      let dimMap ← readShape32
      let padding ← whenFlag flags readByteOr0
      return .partitionView tileShape view dimMap padding
    else do
      let tileShape ← readShape32
      let view ← readVarintOr0
      let dimMap ← readShape32
      let hasPadding ← readByteOr0
      let padding ← whenFlag (if hasPadding = 0 then 0 else 1) readVarintOr0
      return .partitionView tileShape view dimMap padding
  | 20 => do
    let flags ← readVarintOr0
    let tileShape ← readShape32
    let view ← readVarintOr0
    let sparseDim ← readVarintOr0
    let padding ← whenFlag flags readByteOr0
    return .gatherScatterView tileShape view sparseDim padding
  | 21 => do
    let flags ← readVarintOr0
    let tileShape ← readShape32
    let traversalStrides ← readShape32
    let view ← readVarintOr0
    let dimMap ← readShape32
    let padding ← whenFlag flags readByteOr0
    return .stridedView tileShape traversalStrides view dimMap padding
  | 16 => do
    let inputs ← readVector readVarintOr0
    let results ← readVector readVarintOr0
    return .func inputs results
  | tag => return .unknown tag

/-- What the tag stands for, and what follows it. -/
def decodeFields (version : BytecodeVersion) (tag : ℕ) : Decode TypeEntry :=
  match ScalarType.ofTag tag with
  | some s => return .scalar s
  | none => decodeTagged version tag

/-- The tag is cut to a byte. -/
def decodeTypeEntry (version : BytecodeVersion) : Decode TypeEntry := do
  let tag ← Read.orElse (do return some (← readVarint)) none
  match tag with
  | none => return .readError
  | some tag => decodeFields version (tag % 256)

namespace TypeEntry

/-! ### Text -/

/-- The extent that is not known. -/
def dynamic : Int64 := -9223372036854775808

/-- An extent, where `?` stands for one that is not known. -/
def dimText (d : Int64) : String := if d = dynamic then "?" else toString d.toInt

/-- The numbers, separated. -/
def texts32 (separator : String) (vs : List Int32) : String :=
  separator.intercalate (vs.map fun v => toString v.toInt)

/-- The text of a padding value. -/
def paddingText (padding : Option ℕ) : String :=
  padding.elim "" fun p => ", padding=" ++ toString p

/-- What the decoder shows of an entry, with the texts of the entries before it.  The dimension map
of a partition view is left out. -/
def describe (prev : List String) : TypeEntry → String
  | scalar s => s.name
  | token => "token"
  | pointer elem none => "ptr<" ++ prev.getD elem "?" ++ ">"
  | pointer elem (some attr) =>
    "ptr<" ++ prev.getD elem "?" ++ ", ptr_attr=" ++ toString attr.toNat ++ ">"
  | tile elem shape =>
    let dims := "x".intercalate (shape.map fun d => toString d.toInt)
    if dims.isEmpty then "tile<" ++ prev.getD elem "?" ++ ">"
    else "tile<" ++ dims ++ "x" ++ prev.getD elem "?" ++ ">"
  | tensorView elem shape strides attr =>
    "tensor_view<" ++ "x".intercalate (shape.map dimText) ++ "x" ++ prev.getD elem "?" ++
      ", strides=[" ++ ",".intercalate (strides.map dimText) ++ "]" ++
      attr.elim "" (fun a => ", ptr_attr=" ++ toString a.toNat) ++ ">"
  | partitionView tileShape view _ padding =>
    "partition_view<tile=(" ++ texts32 "x" tileShape ++ "), tv=" ++ prev.getD view "?" ++
      paddingText padding ++ ">"
  | gatherScatterView tileShape view sparseDim padding =>
    "gather_scatter_view<tile=(" ++ texts32 "x" tileShape ++ "), tv=" ++ prev.getD view "?" ++
      ", sparse_dim=" ++ toString sparseDim ++ paddingText padding ++ ">"
  | stridedView tileShape traversalStrides view dimMap padding =>
    "strided_view<tile=(" ++ texts32 "x" tileShape ++ "), traversal_strides=[" ++
      texts32 "," traversalStrides ++ "], tv=" ++ prev.getD view "?" ++ ", dim_map=[" ++
      texts32 "," dimMap ++ "]" ++ paddingText padding ++ ">"
  | func inputs results =>
    "(" ++ ", ".intercalate (inputs.map fun i => prev.getD i "?") ++ ") -> (" ++
      ", ".intercalate (results.map fun i => prev.getD i "?") ++ ")"
  | unknown tag => "<unknown type tag " ++ toString tag ++ ">"
  | readError => "<read error>"

/-! ### Types -/

/-- A type with the classification that is written with it. -/
def classify (ty : Ty) : Option UInt8 → Option Ty
  | none => some ty
  | some b => (PointerAttribute.ofByte b).map (.withPointerAttribute ty)

/-- A view over the tensor view it is laid over; a classification is handed on to the view. -/
def overView (view : TensorViewType → Ty) : Ty → Option Ty
  | .tensorView v => some (view v)
  | .withPointerAttribute (.tensorView v) a => some (.withPointerAttribute (view v) a)
  | _ => none

/-- The tile of an element type. -/
def overElement (shape : List Int64) : Ty → Option Ty
  | .scalar s => some (.tile ⟨shape, .scalar s⟩)
  | .pointer p => some (.tile ⟨shape, .pointer p⟩)
  | .withPointerAttribute (.pointer p) a =>
    some (.withPointerAttribute (.tile ⟨shape, .pointer p⟩) a)
  | _ => none

/-- The scalar that a type is. -/
def scalar? : Ty → Option ScalarType
  | .scalar s => some s
  | _ => none

/-- The padding value of a code, if it is one. -/
def padding? (padding : Option ℕ) : Option (Option PaddingValue) :=
  match padding with
  | none => some none
  | some p => (PaddingValue.ofNat? p).map some

/-- The types at the indices. -/
def typesAt (prev : List Ty) : List ℕ → Option (List Ty)
  | [] => some []
  | i :: is => do return (← prev[i]?) :: (← typesAt prev is)

/-- The type that an entry stands for, with the types of the entries before it. -/
def resolve (prev : List Ty) : TypeEntry → Option Ty
  | scalar s => some (.scalar s)
  | token => some .token
  | pointer elem attr => do classify (.pointer ⟨← scalar? (← prev[elem]?)⟩) attr
  | tile elem shape => do overElement shape (← prev[elem]?)
  | tensorView elem shape strides attr => do
    classify (.tensorView ⟨← scalar? (← prev[elem]?), shape, strides⟩) attr
  | partitionView tileShape view dimMap padding => do
    let p ← padding? padding
    overView (fun v => .partitionView ⟨tileShape, v, dimMap, p⟩) (← prev[view]?)
  | gatherScatterView tileShape view sparseDim padding => do
    let p ← padding? padding
    overView
      (fun v => .gatherScatterView ⟨tileShape, v, (UInt64.ofNat sparseDim).toInt64.toInt32, p⟩)
      (← prev[view]?)
  | stridedView tileShape traversalStrides view dimMap padding => do
    let p ← padding? padding
    overView (fun v => .stridedView ⟨tileShape, traversalStrides, v, dimMap, p⟩) (← prev[view]?)
  | func inputs results => do return .func (← typesAt prev inputs) (← typesAt prev results)
  | unknown _ | readError => none

/-- The indices in an entry. -/
def indices : TypeEntry → List ℕ
  | pointer elem _ | tile elem _ | tensorView elem _ _ _ => [elem]
  | partitionView _ view _ _ | gatherScatterView _ view _ _ | stridedView _ _ view _ _ => [view]
  | func inputs results => inputs ++ results
  | scalar _ | token | unknown _ | readError => []

/-! ### Layout -/

/-- The flags of an optional part. -/
def flagBytes {α : Type} (part : Option α) : Bytes := varint part.isSome.toNat

/-- The flag of an attribute, from the version on that has it. -/
def attrFlagBytes (version : BytecodeVersion) (attr : Option UInt8) : Bytes :=
  if .v13_4 ≤ version then flagBytes attr else []

/-- The byte of a padding value, if there is one. -/
def paddingBytes (padding : Option ℕ) : Bytes := padding.elim [] fun p => [.ofNat p]

/-- How an entry is laid out.  Before 13.3 a partition view has its padding flag behind the
dimension map, and the padding as a varint. -/
def encode (version : BytecodeVersion) : TypeEntry → Bytes
  | scalar s => varint s.typeTag
  | token => varint 17
  | pointer elem attr => varint 12 ++ (attrFlagBytes version attr ++ (varint elem ++ attr.toList))
  | tile elem shape => varint 13 ++ (varint elem ++ leI64s shape)
  | tensorView elem shape strides attr =>
    varint 14 ++ (attrFlagBytes version attr ++ (varint elem ++ (leI64s shape ++
      (leI64s strides ++ attr.toList))))
  | partitionView tileShape view dimMap padding =>
    if .v13_3 ≤ version then
      varint 15 ++ (flagBytes padding ++ (leI32s tileShape ++ (varint view ++ (leI32s dimMap ++
        paddingBytes padding))))
    else
      varint 15 ++ (leI32s tileShape ++ (varint view ++ (leI32s dimMap ++
        ([.ofNat padding.isSome.toNat] ++ padding.elim [] varint))))
  | gatherScatterView tileShape view sparseDim padding =>
    varint 20 ++ (flagBytes padding ++ (leI32s tileShape ++ (varint view ++ (varint sparseDim ++
      paddingBytes padding))))
  | stridedView tileShape traversalStrides view dimMap padding =>
    varint 21 ++ (flagBytes padding ++ (leI32s tileShape ++ (leI32s traversalStrides ++
      (varint view ++ (leI32s dimMap ++ paddingBytes padding)))))
  | func inputs results =>
    varint 16 ++ ((varint inputs.length ++ inputs.flatMap varint) ++
      (varint results.length ++ results.flatMap varint))
  | unknown tag => varint tag
  | readError => []

/-- The version has the parts of the entry, and its numbers fit their fields. -/
def Writable (version : BytecodeVersion) : TypeEntry → Prop
  | scalar _ | token | tile _ _ | func _ _ => True
  | pointer _ attr | tensorView _ _ _ attr => attr.isSome → .v13_4 ≤ version
  | partitionView _ _ _ padding | stridedView _ _ _ _ padding => ∀ p ∈ padding, p < 256
  | gatherScatterView _ _ sparseDim padding => sparseDim < 2 ^ 64 ∧ ∀ p ∈ padding, p < 256
  | unknown _ | readError => False

end TypeEntry

/-! ### Round trip -/

section

variable {α : Type} {pos n : ℕ} {version : BytecodeVersion} {attr : Option UInt8}
  {padding : Option ℕ}

/-- A number is read back. -/
theorem readVarintOr0_consumes (hn : n < 2 ^ 64) : Consumes pos (varint n) readVarintOr0 n :=
  (readVarint_consumes hn).orElse 0

/-- A counted list is read back. -/
theorem readVector_consumes {elem : Decode α} {enc : α → Bytes} {vs : List α}
    (hsize : ∀ v, enc v ≠ []) (helem : ∀ v ∈ vs, ∀ pos, Consumes pos (enc v) elem v) :
    Consumes pos (varint vs.length ++ vs.flatMap enc) (readVector elem) vs := by
  have hroom : vs.length ≤ (vs.flatMap enc).length := by
    induction vs with
    | nil => exact Nat.zero_le _
    | cons v vs ih =>
      have := List.length_pos_iff.mpr (hsize v)
      have := ih fun v hv => helem v (List.mem_cons_of_mem _ hv)
      rw [List.flatMap_cons, List.length_append, List.length_cons]
      omega
  apply Consumes.of_length
  intro hlen
  rw [List.length_append] at hlen
  apply (readVarintOr0_consumes (by omega)).bind
  apply reserve_bind_consumes hroom
  exact Consumes.times helem

/-- A word has bytes. -/
theorem leBytes_ne_nil (k v : ℕ) : leBytes (k + 1) v ≠ [] := List.cons_ne_nil _ _

/-- A shape of 64-bit extents is read back. -/
theorem readShape64_consumes (vs : List Int64) : Consumes pos (leI64s vs) readShape64 vs :=
  readVector_consumes (fun _ => leBytes_ne_nil _ _) fun v _ _ => (readLeI64_consumes v).orElse 0

/-- A shape of 32-bit extents is read back. -/
theorem readShape32_consumes (vs : List Int32) : Consumes pos (leI32s vs) readShape32 vs :=
  readVector_consumes (fun _ => leBytes_ne_nil _ _) fun v _ _ => (readLeI32_consumes v).orElse 0

/-- Indices are read back. -/
theorem readIndices_consumes {is : List ℕ} (his : ∀ i ∈ is, i < 2 ^ 64) :
    Consumes pos (varint is.length ++ is.flatMap varint) (readVector readVarintOr0) is :=
  readVector_consumes Varint.encode_ne_nil fun i hi _ => readVarintOr0_consumes (his i hi)

/-- A flag fits a byte. -/
theorem isSome_toNat_lt (part : Option α) : part.isSome.toNat < 256 :=
  (Bool.toNat_lt _).trans (by decide)

/-- A flag is read back. -/
theorem readFlag_consumes (part : Option α) :
    Consumes pos (TypeEntry.flagBytes part) readVarintOr0 part.isSome.toNat :=
  readVarintOr0_consumes ((isSome_toNat_lt part).trans (by decide))

/-- The flag of an attribute is read back. -/
theorem readAttrFlags_consumes (h : attr.isSome → .v13_4 ≤ version) :
    Consumes pos (TypeEntry.attrFlagBytes version attr) (readAttrFlags version)
      attr.isSome.toNat := by
  unfold TypeEntry.attrFlagBytes readAttrFlags
  split
  · exact readFlag_consumes attr
  · cases attr with
    | none => exact Consumes.pure
    | some b => exact absurd (h rfl) ‹_›

/-- What a flag announces is read back. -/
theorem whenFlag_consumes {x : Decode α} {part : Option α} {bs : Bytes}
    (hsome : ∀ a, part = some a → Consumes pos bs x a) (hnone : part = none → bs = []) :
    Consumes pos bs (whenFlag part.isSome.toNat x) part := by
  cases part with
  | none =>
    rw [hnone rfl]
    exact Consumes.pure
  | some a => exact (hsome a rfl).map

/-- An attribute is read back. -/
theorem attr_consumes : Consumes pos attr.toList
    (whenFlag attr.isSome.toNat (readByte.orElse 0)) attr := by
  apply whenFlag_consumes
  · rintro b rfl
    exact (readByte_consumes b).orElse 0
  · rintro rfl
    rfl

/-- A byte is read back. -/
theorem readByteOr0_consumes (hn : n < 256) : Consumes pos [.ofNat n] readByteOr0 n := by
  have h := ((@readByte_consumes pos (UInt8.ofNat n)).orElse 0).map (g := UInt8.toNat)
  rwa [UInt8.toNat_ofNat_of_lt' hn] at h

/-- A padding value is read back. -/
theorem padding_consumes (h : ∀ p ∈ padding, p < 256) : Consumes pos
    (TypeEntry.paddingBytes padding) (whenFlag padding.isSome.toNat readByteOr0) padding := by
  apply whenFlag_consumes
  · rintro p rfl
    exact readByteOr0_consumes (h p rfl)
  · rintro rfl
    rfl

/-- An entry is its tag and its fields. -/
theorem decodeTypeEntry_consumes {tag : ℕ} {bs : Bytes} {e : TypeEntry} (htag : tag < 256)
    (h : Consumes (pos + (varint tag).length) bs (decodeFields version tag) e) :
    Consumes pos (varint tag ++ bs) (decodeTypeEntry version) e := by
  apply ((readVarint_consumes (by omega)).map.orElse none).bind
  have hsame : decodeFields version (tag % 256) = decodeFields version tag := by
    rw [Nat.mod_eq_of_lt htag]
  rw [← hsame] at h
  exact h

/-- A tag below 256 that is no scalar's. -/
theorem decodeTypeEntry_tagged {tag : ℕ} {bs : Bytes} {e : TypeEntry} (htag : tag < 256)
    (hscalar : ScalarType.ofTag tag = none)
    (h : Consumes (pos + (varint tag).length) bs (decodeTagged version tag) e) :
    Consumes pos (varint tag ++ bs) (decodeTypeEntry version) e := by
  apply decodeTypeEntry_consumes htag
  rw [decodeFields, hscalar]
  exact h

/-- An entry is read as it is laid out. -/
theorem decodeTypeEntry_encode {e : TypeEntry} (h : e.Writable version)
    (hindices : ∀ i ∈ e.indices, i < 2 ^ 64) :
    Consumes pos (e.encode version) (decodeTypeEntry version) e := by
  cases e with
  | scalar s =>
    have htag : s.typeTag < 256 := by cases s <;> decide
    have hscalar := s.ofTag_typeTag
    rw [Nat.mod_eq_of_lt htag] at hscalar
    have h := @decodeTypeEntry_consumes pos version s.typeTag [] (.scalar s) htag (by
      rw [decodeFields, hscalar]
      exact Consumes.pure)
    rwa [List.append_nil] at h
  | token =>
    have hscalar : ScalarType.ofTag 17 = none := rfl
    have h := @decodeTypeEntry_tagged pos version 17 [] .token (by decide) hscalar Consumes.pure
    rwa [List.append_nil] at h
  | pointer elem attr =>
    apply decodeTypeEntry_tagged (by decide) rfl
    apply (readAttrFlags_consumes h).bind
    apply (readVarintOr0_consumes (hindices elem (List.mem_singleton.mpr rfl))).bind
    exact attr_consumes.map
  | tile elem shape =>
    apply decodeTypeEntry_tagged (by decide) rfl
    apply (readVarintOr0_consumes (hindices elem (List.mem_singleton.mpr rfl))).bind
    exact (readShape64_consumes shape).map
  | tensorView elem shape strides attr =>
    apply decodeTypeEntry_tagged (by decide) rfl
    apply (readAttrFlags_consumes h).bind
    apply (readVarintOr0_consumes (hindices elem (List.mem_singleton.mpr rfl))).bind
    apply (readShape64_consumes shape).bind
    apply (readShape64_consumes strides).bind
    exact attr_consumes.map
  | partitionView tileShape view dimMap padding =>
    have hview := hindices view (List.mem_singleton.mpr rfl)
    -- from 13.3 on the flags stand in front of the fields
    by_cases hversion : .v13_3 ≤ version
    · rw [TypeEntry.encode, if_pos hversion]
      apply decodeTypeEntry_tagged (by decide) rfl
      simp only [decodeTagged, if_pos hversion]
      apply (readFlag_consumes padding).bind
      apply (readShape32_consumes tileShape).bind
      apply (readVarintOr0_consumes hview).bind
      apply (readShape32_consumes dimMap).bind
      exact (padding_consumes h).map
    · rw [TypeEntry.encode, if_neg hversion]
      apply decodeTypeEntry_tagged (by decide) rfl
      simp only [decodeTagged, if_neg hversion]
      apply (readShape32_consumes tileShape).bind
      apply (readVarintOr0_consumes hview).bind
      apply (readShape32_consumes dimMap).bind
      apply (readByteOr0_consumes (isSome_toNat_lt padding)).bind
      -- before 13.3 the flag is a byte of its own
      have hsame : (if padding.isSome.toNat = 0 then 0 else 1) = padding.isSome.toNat := by
        cases padding with
        | none => rfl
        | some _ => rfl
      rw [hsame]
      apply Consumes.map
      apply whenFlag_consumes
      · rintro p rfl
        have := h p rfl
        exact readVarintOr0_consumes (by omega)
      · rintro rfl
        rfl
  | gatherScatterView tileShape view sparseDim padding =>
    apply decodeTypeEntry_tagged (by decide) rfl
    apply (readFlag_consumes padding).bind
    apply (readShape32_consumes tileShape).bind
    apply (readVarintOr0_consumes (hindices view (List.mem_singleton.mpr rfl))).bind
    apply (readVarintOr0_consumes h.1).bind
    exact (padding_consumes h.2).map
  | stridedView tileShape traversalStrides view dimMap padding =>
    apply decodeTypeEntry_tagged (by decide) rfl
    apply (readFlag_consumes padding).bind
    apply (readShape32_consumes tileShape).bind
    apply (readShape32_consumes traversalStrides).bind
    apply (readVarintOr0_consumes (hindices view (List.mem_singleton.mpr rfl))).bind
    apply (readShape32_consumes dimMap).bind
    exact (padding_consumes h).map
  | func inputs results =>
    apply decodeTypeEntry_tagged (by decide) rfl
    apply (readIndices_consumes fun i hi =>
      hindices i (List.mem_append_left results hi)).bind
    exact (readIndices_consumes fun i hi =>
      hindices i (List.mem_append_right inputs hi)).map
  | unknown tag => exact h.elim
  | readError => exact h.elim

end

end CudaOxide.TileIr
