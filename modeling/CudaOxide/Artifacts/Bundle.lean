import CudaOxide.Lib.Bytes

/-!
# Embedded device artifact bundles

A bundle names a producer, records the device target it was built for, and carries one or more
generated device-code payloads.  In the object file it is a blob:

    header (32 bytes) | name | target | payload records | entry records | payload and entry data

A record holds the offsets of its data, which are only known once the data is written, so records
and header are filled in afterwards.

* `ArtifactCompileOptions` — the options word; only supported combinations of bits can be built.
* `buildArtifactBlob` — the writer.

Offsets are `usize` numbers of a 64-bit host.
-/

namespace CudaOxide.Artifacts

open Lib Lib.Bytes

/-! ### Compile options -/

/-- `OPTION_NO_FMA_CONTRACTION` -/
def optionNoFmaContraction : UInt64 := 1

/-- `OPTION_DEBUG_LINE_TABLES` -/
def optionDebugLineTables : UInt64 := 2

/-- `OPTION_DEBUG_FULL` -/
def optionDebugFull : UInt64 := 4

/-- `OPTION_DEBUG_MASK`: the bits of the debug policy. -/
def optionDebugMask : UInt64 := optionDebugLineTables ||| optionDebugFull

/-- `KNOWN_COMPILE_OPTIONS`: every other bit is refused. -/
def knownCompileOptions : UInt64 := optionNoFmaContraction ||| optionDebugMask

/-- `bits` says nothing unknown, and not two things about debug information. -/
def SupportedOptions (bits : UInt64) : Prop :=
  bits &&& ~~~knownCompileOptions = 0 ∧ bits &&& optionDebugMask ≠ optionDebugMask

instance (bits : UInt64) : Decidable (SupportedOptions bits) :=
  inferInstanceAs (Decidable (_ ∧ _))

/-- Debug information that later compilation stages must retain. -/
inductive ArtifactDebugPolicy where
  | none
  | lineTables
  | full
  deriving DecidableEq, Repr

/-- Compilation policy that stays attached to an artifact. -/
@[ext] structure ArtifactCompileOptions where
  bits : UInt64
  supported : SupportedOptions bits
  deriving DecidableEq

/-- Setting the bits of a mask apart and putting them back changes nothing. -/
theorem and_or_and_not (bits mask : UInt64) : (bits &&& mask) ||| (bits &&& ~~~mask) = bits := by
  apply UInt64.toBitVec_inj.mp
  rw [UInt64.toBitVec_or, UInt64.toBitVec_and, UInt64.toBitVec_and, UInt64.toBitVec_not]
  ext i hi
  simp only [BitVec.getElem_or, BitVec.getElem_and, BitVec.getElem_not]
  cases bits.toBitVec[i] <;> simp

/-- The six supported option words. -/
theorem supportedOptions_iff {bits : UInt64} :
    SupportedOptions bits ↔ bits ∈ ([0, 1, 2, 3, 4, 5] : List UInt64) := by
  constructor
  · rintro ⟨hknown, hdebug⟩
    have hlow : bits &&& knownCompileOptions = bits := by
      conv_rhs => rw [← and_or_and_not bits knownCompileOptions, hknown, UInt64.or_zero]
    have hle : bits.toNat ≤ 7 := by
      rw [← hlow, UInt64.toNat_and]
      exact Nat.and_le_right
    have hbits : bits = .ofNat bits.toNat := by simp
    generalize bits.toNat = n at hle hbits
    subst hbits
    interval_cases n <;> first | decide | exact absurd rfl hdebug
  · intro h
    fin_cases h <;> decide

namespace ArtifactCompileOptions

/-- The historical default policy. -/
def new : ArtifactCompileOptions := ⟨0, by decide⟩

/-- `with_fma_contraction`: the bit forbids contraction. -/
def withFmaContraction (o : ArtifactCompileOptions) (enabled : Bool) : ArtifactCompileOptions where
  bits := if enabled then o.bits &&& ~~~optionNoFmaContraction
    else o.bits ||| optionNoFmaContraction
  supported := by
    have h := supportedOptions_iff.mp o.supported
    generalize o.bits = bits at h
    fin_cases h <;> cases enabled <;> decide

/-- `with_debug_policy`: the policy replaces the one that was there. -/
def withDebugPolicy (o : ArtifactCompileOptions) (policy : ArtifactDebugPolicy) :
    ArtifactCompileOptions where
  bits := (o.bits &&& ~~~optionDebugMask) |||
    match policy with
    | .none => 0
    | .lineTables => optionDebugLineTables
    | .full => optionDebugFull
  supported := by
    have h := supportedOptions_iff.mp o.supported
    generalize o.bits = bits at h
    fin_cases h <;> cases policy <;> decide

end ArtifactCompileOptions

/-! ### Bundles -/

/-- What a payload is compiled to. -/
inductive ArtifactPayloadKind where
  | ptx
  | nvvmIr
  | ltoir
  | cubin
  deriving DecidableEq, Repr

namespace ArtifactPayloadKind

/-- The number of a payload kind in its record. -/
def toU16 : ArtifactPayloadKind → ℕ
  | ptx => 0x100
  | nvvmIr => 0x110
  | ltoir => 0x120
  | cubin => 0x200

/-- The payload kind of a number, if it is known. -/
def fromU16 (value : ℕ) : Option ArtifactPayloadKind :=
  if value = 0x100 then some ptx
  else if value = 0x110 then some nvvmIr
  else if value = 0x120 then some ltoir
  else if value = 0x200 then some cubin
  else none

/-- A payload kind is read back from its number. -/
@[simp] theorem fromU16_toU16 (kind : ArtifactPayloadKind) : fromU16 kind.toU16 = some kind := by
  cases kind <;> rfl

theorem toU16_lt (kind : ArtifactPayloadKind) : kind.toU16 < 2 ^ 16 := by
  cases kind <;> decide

end ArtifactPayloadKind

/-- What an entry names: a kernel or a function of the device. -/
inductive ArtifactEntryKind where
  | kernel
  | deviceFunction
  deriving DecidableEq, Repr

namespace ArtifactEntryKind

/-- The number of an entry kind in its record. -/
def toU16 : ArtifactEntryKind → ℕ
  | kernel => 1
  | deviceFunction => 2

/-- The entry kind of a number, if it is known. -/
def fromU16 (value : ℕ) : Option ArtifactEntryKind :=
  if value = 1 then some kernel else if value = 2 then some deviceFunction else none

/-- An entry kind is read back from its number. -/
@[simp] theorem fromU16_toU16 (kind : ArtifactEntryKind) : fromU16 kind.toU16 = some kind := by
  cases kind <;> rfl

theorem toU16_lt (kind : ArtifactEntryKind) : kind.toU16 < 2 ^ 16 := by
  cases kind <;> decide

end ArtifactEntryKind

/-- Code for one target, under a name. -/
structure ArtifactPayload where
  kind : ArtifactPayloadKind
  name : String
  bytes : Bytes
  deriving DecidableEq

/-- A symbol of the bundle, with a word of metadata where it has one. -/
structure ArtifactEntry where
  symbol : String
  kind : ArtifactEntryKind
  metadata : Option UInt64
  deriving DecidableEq

/-- What a blob carries.  The specification the writer takes has the same fields. -/
structure ArtifactBundle where
  name : String
  target : String
  compileOptions : ArtifactCompileOptions
  payloads : List ArtifactPayload
  entries : List ArtifactEntry
  deriving DecidableEq

/-- A bundle as it is handed to the writer; the reader returns the same. -/
abbrev ArtifactBundleSpec := ArtifactBundle

/-- `ArtifactError` -/
inductive ArtifactError where
  | tooLarge (field : String)
  | emptyBundleName
  | emptyTarget
  | emptyPayloadName
  | emptyPayload
  | emptyEntrySymbol
  | truncated (field : String)
  | badMagic
  | unsupportedVersion (version : ℕ)
  | unsupportedCompileOptions (bits : UInt64)
  | unsupportedPayloadKind (kind : ℕ)
  | unsupportedEntryKind (kind : ℕ)
  | invalidUtf8 (field : String)
  | malformed (message : String)
  deriving DecidableEq, Repr

/-! ### The writer -/

/-- The magic `OXIDEART`. -/
def artifactMagic : Bytes := [79, 88, 73, 68, 69, 65, 82, 84]

/-- The version of the format that records compile options. -/
def artifactVersion : ℕ := 2

/-- The version without compile options, which older readers accept. -/
def legacyArtifactVersion : ℕ := 1

/-- The size of the header. -/
def headerBytes : ℕ := 32

/-- The size of a payload's record. -/
def payloadRecordBytes : ℕ := 24

/-- The size of an entry's record. -/
def entryRecordBytes : ℕ := 24

/-- `as_bytes` -/
def utf8 (s : String) : Bytes := s.toByteArray.data.toList

open Run

/-- A number that is stored in two bytes. -/
def checkedU16 (value : ℕ) (field : String) : Run ArtifactError ℕ :=
  if value < 2 ^ 16 then .ok value else fail (.tooLarge field)

/-- A number that is stored in four bytes. -/
def checkedU32 (value : ℕ) (field : String) : Run ArtifactError ℕ :=
  if value < 2 ^ 32 then .ok value else fail (.tooLarge field)

/-- `out.resize(len, 0)` -/
def resize (out : Bytes) (len : ℕ) : Bytes :=
  out.take len ++ List.replicate (len - out.length) 0

/-- Pad with zeros to a multiple of the alignment. -/
def alignVec (out : Bytes) (alignment : ℕ) : Run ArtifactError Bytes :=
  let rem := out.length % alignment
  if rem ≠ 0 then do
    let padded ← Usize.add out.length alignment
    .ok (resize out (padded - rem))
  else .ok out

/-- `out[offset..offset + data.len()].copy_from_slice(data)` -/
def writeAt (out : Bytes) (offset : ℕ) (data : Bytes) : Run ArtifactError Bytes :=
  if offset + data.length ≤ out.length then .ok (overwrite out offset data)
  else panic .indexOutOfBounds

/-- `write_u16` -/
def writeU16 (out : Bytes) (offset value : ℕ) := writeAt out offset (leBytes 2 value)

/-- `write_u32` -/
def writeU32 (out : Bytes) (offset value : ℕ) := writeAt out offset (leBytes 4 value)

/-- `write_u64` -/
def writeU64 (out : Bytes) (offset value : ℕ) := writeAt out offset (leBytes 8 value)

/-- `validate_spec`: names, payloads and symbols are not empty. -/
def validateSpec (spec : ArtifactBundleSpec) : Run ArtifactError Unit := do
  reject (spec.name = "") .emptyBundleName
  reject (spec.target = "") .emptyTarget
  reject (spec.payloads = []) .emptyPayload
  spec.payloads.forM fun payload => do
    reject (payload.name = "") .emptyPayloadName
    reject (payload.bytes = []) .emptyPayload
  spec.entries.forM fun entry => reject (entry.symbol = "") .emptyEntrySymbol

/-- One pass over the payloads: its name and its data, then its record. -/
def writePayload (recordStart : ℕ) (out : Bytes) (item : ArtifactPayload × ℕ) :
    Run ArtifactError Bytes := do
  let payload := item.1
  let index := item.2
  let nameOffset ← checkedU32 out.length "payload name offset"
  let out := out ++ utf8 payload.name
  let out ← alignVec out 8
  let dataOffset ← checkedU32 out.length "payload data offset"
  let out := out ++ payload.bytes
  let out ← alignVec out 8
  let record := recordStart + index * payloadRecordBytes
  let out ← writeU16 out record payload.kind.toU16
  let out ← writeU16 out (record + 2) 0
  let out ← writeU32 out (record + 4) dataOffset
  let out ← writeU32 out (record + 8) (← checkedU32 payload.bytes.length "payload length")
  let out ← writeU32 out (record + 12) nameOffset
  writeU16 out (record + 16) (← checkedU16 (utf8 payload.name).length "payload name length")

/-- One pass over the entries: its symbol, then its record. -/
def writeEntry (recordStart : ℕ) (out : Bytes) (item : ArtifactEntry × ℕ) :
    Run ArtifactError Bytes := do
  let entry := item.1
  let index := item.2
  let symbolOffset ← checkedU32 out.length "entry symbol offset"
  let out := out ++ utf8 entry.symbol
  let out ← alignVec out 8
  let record := recordStart + index * entryRecordBytes
  let out ← writeU16 out record entry.kind.toU16
  let out ← writeU16 out (record + 2) (if entry.metadata.isSome then 1 else 0)
  let out ← writeU64 out (record + 4) (entry.metadata.getD 0).toNat
  let out ← writeU32 out (record + 12) symbolOffset
  writeU16 out (record + 16) (← checkedU16 (utf8 entry.symbol).length "entry symbol length")

/-- `write_header`, once the total length is known. -/
def writeHeader (spec : ArtifactBundleSpec) (out : Bytes) : Run ArtifactError Bytes := do
  let totalLen ← checkedU32 out.length "total length"
  let out ← writeAt out 0 artifactMagic
  -- default-policy bundles stay on version 1, so that older readers accept them
  let version :=
    if spec.compileOptions = .new then legacyArtifactVersion else artifactVersion
  let out ← writeU16 out 8 version
  let out ← writeU16 out 10 headerBytes
  let out ← writeU32 out 12 totalLen
  let out ← writeU16 out 16 (← checkedU16 (utf8 spec.name).length "name length")
  let out ← writeU16 out 18 (← checkedU16 (utf8 spec.target).length "target length")
  let out ← writeU16 out 20 (← checkedU16 spec.payloads.length "payload count")
  let out ← writeU16 out 22 (← checkedU16 spec.entries.length "entry count")
  writeU64 out 24 spec.compileOptions.bits.toNat

/-- `build_artifact_blob`: the header, the names, the two tables of records, then the data. -/
def buildArtifactBlob (spec : ArtifactBundleSpec) : Run ArtifactError Bytes := do
  validateSpec spec
  let out := List.replicate headerBytes 0 ++ utf8 spec.name ++ utf8 spec.target
  let payloadRecordStart := out.length
  let out := resize out
    (← Usize.add out.length (← Usize.mul spec.payloads.length payloadRecordBytes))
  let entryRecordStart := out.length
  let out := resize out
    (← Usize.add out.length (← Usize.mul spec.entries.length entryRecordBytes))
  let out ← spec.payloads.zipIdx.foldlM (writePayload payloadRecordStart) out
  let out ← spec.entries.zipIdx.foldlM (writeEntry entryRecordStart) out
  writeHeader spec out

end CudaOxide.Artifacts
