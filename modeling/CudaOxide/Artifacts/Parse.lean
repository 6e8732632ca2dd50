import CudaOxide.Artifacts.Bundle
import CudaOxide.Lib.Safe

/-!
# Reading artifact bundles

A section is a run of blobs followed by zero padding.  Everything in it is untrusted: lengths and
offsets come from the header and the records.

* `parseArtifactBlob`, `parseArtifactSection` — the readers.  Index arithmetic and slicing are
  spelled out as the operations that can panic.
* `parseArtifactBlob_safe`, `parseArtifactSection_safe` — they never do.
-/

namespace CudaOxide.Artifacts

open Lib Lib.Bytes Lib.Run

/-! ### The readers -/

/-- `core::str::from_utf8` -/
def decodeUtf8 (bytes : Bytes) : Option String := String.fromUTF8? ⟨bytes.toArray⟩

/-- `bytes.get(start..stop)` -/
def getRange (bytes : Bytes) (start stop : ℕ) : Option Bytes :=
  if start ≤ stop ∧ stop ≤ bytes.length then some (slice bytes start (stop - start)) else none

/-- `&bytes[..stop]` -/
def sliceTo (bytes : Bytes) (stop : ℕ) : Run ArtifactError Bytes :=
  if stop ≤ bytes.length then .ok (bytes.take stop) else panic .indexOutOfBounds

/-- `read_slice`: the range must be a range of `usize` and inside the bytes. -/
def readSlice (bytes : Bytes) (offset len : ℕ) (field : String) : Run ArtifactError Bytes := do
  let stop ← okOr (Usize.checkedAdd offset len) (.tooLarge field)
  okOr (getRange bytes offset stop) (.truncated field)

/-- `read_str` -/
def readStr (bytes : Bytes) (offset len : ℕ) (field : String) : Run ArtifactError String := do
  let bytes ← readSlice bytes offset len field
  okOr (decodeUtf8 bytes) (.invalidUtf8 field)

/-- `require_len` -/
def requireLen (bytes : Bytes) (len : ℕ) (field : String) : Run ArtifactError Unit :=
  reject (bytes.length < len) (.truncated field)

/-- `from_le_bytes([bytes[0], …])` over the `k` bytes at `offset`. -/
def readLe (k : ℕ) (bytes : Bytes) (offset : ℕ) (field : String) : Run ArtifactError ℕ := do
  let bytes ← readSlice bytes offset k field
  let bytes ← sliceTo bytes k
  .ok (ofLeBytes bytes)

/-- `read_u16` -/
def readU16 (bytes : Bytes) (offset : ℕ) := readLe 2 bytes offset "u16"

/-- `read_u32` -/
def readU32 (bytes : Bytes) (offset : ℕ) := readLe 4 bytes offset "u32"

/-- `read_u64` -/
def readU64 (bytes : Bytes) (offset : ℕ) := readLe 8 bytes offset "u64"

namespace ArtifactCompileOptions

/-- The options of a header; unknown bits are refused. -/
def fromBits (bits : UInt64) : Run ArtifactError ArtifactCompileOptions :=
  if h : SupportedOptions bits then .ok ⟨bits, h⟩ else fail (.unsupportedCompileOptions bits)

end ArtifactCompileOptions

/-- The checks on magic and length that both readers make. -/
def readTotalLen (bytes : Bytes) : Run ArtifactError ℕ := do
  let totalLen ← readU32 bytes 12
  if totalLen < headerBytes then
    fail (.malformed s!"embedded artifact length {totalLen} is smaller than the header")
  else do
    reject (bytes.length < totalLen) (.truncated "blob")
    .ok totalLen

/-- `artifact_blob_total_len`: the length that a blob claims for itself. -/
def artifactBlobTotalLen (bytes : Bytes) : Run ArtifactError ℕ := do
  requireLen bytes headerBytes "header"
  reject ((← sliceTo bytes 8) ≠ artifactMagic) .badMagic
  readTotalLen bytes

/-- The payload that a record describes. -/
def parsePayload (bytes : Bytes) (payloadRecords index : ℕ) :
    Run ArtifactError ArtifactPayload := do
  let record ← Usize.add payloadRecords (← Usize.mul index payloadRecordBytes)
  let kindRaw ← readU16 bytes record
  let kind ← okOr (ArtifactPayloadKind.fromU16 kindRaw) (.unsupportedPayloadKind kindRaw)
  let dataOffset ← readU32 bytes (← Usize.add record 4)
  let dataLen ← readU32 bytes (← Usize.add record 8)
  let nameOffset ← readU32 bytes (← Usize.add record 12)
  let nameLen ← readU16 bytes (← Usize.add record 16)
  let name ← readStr bytes nameOffset nameLen "payload name"
  let data ← readSlice bytes dataOffset dataLen "payload data"
  .ok ⟨kind, name, data⟩

/-- The entry that a record describes. -/
def parseEntry (bytes : Bytes) (entryRecords index : ℕ) : Run ArtifactError ArtifactEntry := do
  let record ← Usize.add entryRecords (← Usize.mul index entryRecordBytes)
  let kindRaw ← readU16 bytes record
  let kind ← okOr (ArtifactEntryKind.fromU16 kindRaw) (.unsupportedEntryKind kindRaw)
  let flags ← readU16 bytes (← Usize.add record 2)
  let metadata ← (if flags &&& 1 ≠ 0 then do
      let value ← readU64 bytes (← Usize.add record 4)
      .ok (some (.ofNat value))
    else .ok none)
  let symbolOffset ← readU32 bytes (← Usize.add record 12)
  let symbolLen ← readU16 bytes (← Usize.add record 16)
  let symbol ← readStr bytes symbolOffset symbolLen "entry symbol"
  .ok ⟨symbol, kind, metadata⟩

/-- What follows the header, in a blob cut to its length. -/
def parseBody (bytes : Bytes) (version : ℕ) : Run ArtifactError ArtifactBundle := do
  let nameLen ← readU16 bytes 16
  let targetLen ← readU16 bytes 18
  let payloadCount ← readU16 bytes 20
  let entryCount ← readU16 bytes 22
  let compileOptions ← (if version = legacyArtifactVersion then .ok ArtifactCompileOptions.new
    else do ArtifactCompileOptions.fromBits (.ofNat (← readU64 bytes 24)))
  let cursor := headerBytes
  let name ← readStr bytes cursor nameLen "bundle name"
  let cursor ← Usize.add cursor nameLen
  let target ← readStr bytes cursor targetLen "target"
  let cursor ← Usize.add cursor targetLen
  let payloadRecords := cursor
  let cursor ← okOr (Usize.checkedAdd cursor (← Usize.mul payloadCount payloadRecordBytes))
    (.tooLarge "payload records")
  requireLen bytes cursor "payload records"
  let entryRecords := cursor
  let cursor ← okOr (Usize.checkedAdd cursor (← Usize.mul entryCount entryRecordBytes))
    (.tooLarge "entry records")
  requireLen bytes cursor "entry records"
  let payloads ← (List.range payloadCount).mapM (parsePayload bytes payloadRecords)
  let entries ← (List.range entryCount).mapM (parseEntry bytes entryRecords)
  .ok ⟨name, target, compileOptions, payloads, entries⟩

/-- `parse_artifact_blob`: the header is checked before anything behind it is read. -/
def parseArtifactBlob (bytes : Bytes) : Run ArtifactError ArtifactBundle := do
  requireLen bytes headerBytes "header"
  reject ((← sliceTo bytes 8) ≠ artifactMagic) .badMagic
  let version ← readU16 bytes 8
  reject (version ≠ legacyArtifactVersion ∧ version ≠ artifactVersion)
    (.unsupportedVersion version)
  let headerLen ← readU16 bytes 10
  if headerLen ≠ headerBytes then
    fail (.malformed s!"unsupported embedded artifact header length {headerLen}")
  else do
    let totalLen ← readTotalLen bytes
    parseBody (← sliceTo bytes totalLen) version

/-! ### What a successful read says -/

section Reads

variable {bytes : Bytes} {offset len k v : ℕ} {field : String}

/-- A slice is read exactly where it is a range inside the bytes. -/
theorem readSlice_eq_ok {data : Bytes} :
    readSlice bytes offset len field = .ok data ↔
      offset + len < 2 ^ 64 ∧ offset + len ≤ bytes.length ∧ slice bytes offset len = data := by
  simp only [readSlice, bind_eq_ok, okOr_eq_ok, Usize.checkedAdd_eq_some, getRange]
  constructor
  · rintro ⟨_, ⟨hlt, rfl⟩, h⟩
    split at h
    · rename_i hle
      simp only [Option.some.injEq, Nat.add_sub_cancel_left] at h
      exact ⟨hlt, hle.2, h⟩
    · cases h
  · rintro ⟨hlt, hle, rfl⟩
    exact ⟨_, ⟨hlt, rfl⟩, by rw [if_pos ⟨Nat.le_add_right _ _, hle⟩, Nat.add_sub_cancel_left]⟩

/-- A slice inside the bytes has its full length. -/
theorem length_slice (h : offset + len ≤ bytes.length) : (slice bytes offset len).length = len := by
  rw [slice, List.length_take, List.length_drop]
  omega

/-- What is read from `k` bytes fits in them. -/
theorem readLe_lt (h : readLe k bytes offset field = .ok v) : v < 256 ^ k := by
  simp only [readLe, bind_eq_ok, readSlice_eq_ok] at h
  obtain ⟨_, ⟨-, hle, rfl⟩, cut, hcut, hv⟩ := h
  cases hv
  unfold sliceTo at hcut
  split at hcut
  · cases hcut
    have hlen : ((slice bytes offset k).take k).length = k := by
      rw [List.length_take, length_slice hle, min_self]
    have := ofLeBytes_lt ((slice bytes offset k).take k)
    rwa [hlen] at this
  · exact absurd hcut panic_ne_ok

/-- What is read from two bytes fits in them. -/
theorem readU16_lt (h : readU16 bytes offset = .ok v) : v < 2 ^ 16 := readLe_lt h

/-- The total length covers the header and stays inside the bytes. -/
theorem readTotalLen_spec (h : readTotalLen bytes = .ok v) :
    headerBytes ≤ v ∧ v ≤ bytes.length := by
  simp only [readTotalLen, bind_eq_ok] at h
  obtain ⟨totalLen, -, h⟩ := h
  split at h
  · exact absurd h fail_ne_ok
  · simp only [bind_eq_ok, reject_eq_ok] at h
    obtain ⟨_, hle, hv⟩ := h
    cases hv
    omega

/-- The same of the function that checks the magic first. -/
theorem artifactBlobTotalLen_spec (h : artifactBlobTotalLen bytes = .ok v) :
    headerBytes ≤ v ∧ v ≤ bytes.length := by
  simp only [artifactBlobTotalLen, bind_eq_ok] at h
  obtain ⟨_, -, _, -, _, -, h⟩ := h
  exact readTotalLen_spec h

end Reads

/-- Parse blobs until only padding is left. -/
def parseArtifactSection (bytes : Bytes) : Run ArtifactError (List ArtifactBundle) :=
  if bytes = [] then .ok []
  else if bytes.all (· == 0) then .ok []
  else
    match _h : artifactBlobTotalLen bytes with
    | .error stop => .error stop
    | .ok totalLen =>
      -- `bytes.split_at(total_len)`
      if totalLen ≤ bytes.length then do
        let bundle ← parseArtifactBlob (bytes.take totalLen)
        let bundles ← parseArtifactSection (bytes.drop totalLen)
        .ok (bundle :: bundles)
      else panic .indexOutOfBounds
  termination_by bytes.length
  decreasing_by
    have hspec := artifactBlobTotalLen_spec ‹artifactBlobTotalLen bytes = .ok totalLen›
    have : headerBytes = 32 := rfl
    rw [List.length_drop]
    omega

/-! ### No panic -/

section NoPanic

variable {bytes : Bytes} {offset len k : ℕ} {field : String}

/-- A prefix that is there can be sliced. -/
theorem sliceTo_safe (h : k ≤ bytes.length) : (sliceTo bytes k).Safe := by
  rw [sliceTo, if_pos h]
  exact Safe.ok _

/-- Reading a slice does not panic. -/
theorem readSlice_safe : (readSlice bytes offset len field).Safe :=
  (Safe.okOr _ _).bind fun _ _ => Safe.okOr _ _

/-- Nor does reading a string. -/
theorem readStr_safe : (readStr bytes offset len field).Safe :=
  readSlice_safe.bind fun _ _ => Safe.okOr _ _

theorem requireLen_safe : (requireLen bytes len field).Safe := Safe.reject _ _

/-- Numbers of any width are read without a panic. -/
theorem readLe_safe : (readLe k bytes offset field).Safe := by
  refine readSlice_safe.bind fun data hdata => ?_
  obtain ⟨-, hle, rfl⟩ := readSlice_eq_ok.mp hdata
  exact (sliceTo_safe (length_slice hle).ge).bind fun _ _ => Safe.ok _

theorem readU16_safe : (readU16 bytes offset).Safe := readLe_safe
theorem readU32_safe : (readU32 bytes offset).Safe := readLe_safe
theorem readU64_safe : (readU64 bytes offset).Safe := readLe_safe

/-- Nor does reading the total length. -/
theorem readTotalLen_safe : (readTotalLen bytes).Safe := by
  refine readU32_safe.bind fun _ _ => Safe.ite (fun _ => Safe.fail _) fun _ => ?_
  exact (Safe.reject _ _).bind fun _ _ => Safe.ok _

/-- Behind the check of the length, the magic can be sliced. -/
theorem magic_safe (h : requireLen bytes headerBytes "header" = .ok ()) :
    (sliceTo bytes 8).Safe := by
  have hlen : headerBytes = 32 := rfl
  have := reject_eq_ok.mp h
  exact sliceTo_safe (by omega)

/-- The total length is read or refused on any bytes. -/
theorem artifactBlobTotalLen_safe : (artifactBlobTotalLen bytes).Safe := by
  refine requireLen_safe.bind fun _ h => (magic_safe h).bind fun _ _ => ?_
  exact (Safe.reject _ _).bind fun _ _ => readTotalLen_safe

/-- Records that lie below `2 ^ 32` are read without overflow. -/
theorem parsePayload_safe {start index : ℕ} (hstart : start < 2 ^ 32) (hindex : index < 2 ^ 16) :
    (parsePayload bytes start index).Safe := by
  have hmul : index * payloadRecordBytes < 2 ^ 21 := by
    rw [show payloadRecordBytes = 24 from rfl]
    omega
  refine (Usize.mul_safe (by omega)).bind fun n hn => ?_
  obtain ⟨-, rfl⟩ := Usize.mul_eq_ok.mp hn
  refine (Usize.add_safe (by omega)).bind fun record hrecord => ?_
  obtain ⟨-, rfl⟩ := Usize.add_eq_ok.mp hrecord
  refine readU16_safe.bind fun _ _ => (Safe.okOr _ _).bind fun _ _ => ?_
  refine (Usize.add_safe (by omega)).bind fun _ _ => readU32_safe.bind fun _ _ => ?_
  refine (Usize.add_safe (by omega)).bind fun _ _ => readU32_safe.bind fun _ _ => ?_
  refine (Usize.add_safe (by omega)).bind fun _ _ => readU32_safe.bind fun _ _ => ?_
  refine (Usize.add_safe (by omega)).bind fun _ _ => readU16_safe.bind fun _ _ => ?_
  exact readStr_safe.bind fun _ _ => readSlice_safe.bind fun _ _ => Safe.ok _

/-- An entry's record is at an offset that does not overflow. -/
theorem parseEntry_safe {start index : ℕ} (hstart : start < 2 ^ 32) (hindex : index < 2 ^ 16) :
    (parseEntry bytes start index).Safe := by
  have hmul : index * entryRecordBytes < 2 ^ 21 := by
    rw [show entryRecordBytes = 24 from rfl]
    omega
  refine (Usize.mul_safe (by omega)).bind fun n hn => ?_
  obtain ⟨-, rfl⟩ := Usize.mul_eq_ok.mp hn
  refine (Usize.add_safe (by omega)).bind fun record hrecord => ?_
  obtain ⟨-, rfl⟩ := Usize.add_eq_ok.mp hrecord
  refine readU16_safe.bind fun _ _ => (Safe.okOr _ _).bind fun _ _ => ?_
  refine (Usize.add_safe (by omega)).bind fun _ _ => readU16_safe.bind fun _ _ => ?_
  refine Safe.bind (Safe.ite (fun _ => ?_) fun _ => Safe.ok _) fun _ _ => ?_
  · exact (Usize.add_safe (by omega)).bind fun _ _ => readU64_safe.bind fun _ _ => Safe.ok _
  · refine (Usize.add_safe (by omega)).bind fun _ _ => readU32_safe.bind fun _ _ => ?_
    refine (Usize.add_safe (by omega)).bind fun _ _ => readU16_safe.bind fun _ _ => ?_
    exact readStr_safe.bind fun _ _ => Safe.ok _

/-- Refusing options is no panic. -/
theorem fromBits_safe (bits : UInt64) : (ArtifactCompileOptions.fromBits bits).Safe := by
  unfold ArtifactCompileOptions.fromBits
  split
  · exact Safe.ok _
  · exact Safe.fail _

/-- The tables of a blob are read or refused, whatever its version. -/
theorem parseBody_safe (version : ℕ) : (parseBody bytes version).Safe := by
  have h32 : headerBytes = 32 := rfl
  refine readU16_safe.bind fun nameLen hname => readU16_safe.bind fun targetLen htarget => ?_
  refine readU16_safe.bind fun payloadCount hpayloads => ?_
  refine readU16_safe.bind fun entryCount hentries => ?_
  -- the counts are 16-bit numbers, which bounds every sum below
  have hname := readU16_lt hname
  have htarget := readU16_lt htarget
  have hpayloads := readU16_lt hpayloads
  have hentries := readU16_lt hentries
  have hmul : payloadCount * payloadRecordBytes < 2 ^ 21 := by
    rw [show payloadRecordBytes = 24 from rfl]
    omega
  have hmul' : entryCount * entryRecordBytes < 2 ^ 21 := by
    rw [show entryRecordBytes = 24 from rfl]
    omega
  refine Safe.bind (Safe.ite (fun _ => Safe.ok _) fun _ => ?_) fun _ _ => ?_
  · exact readU64_safe.bind fun _ _ => fromBits_safe _
  refine readStr_safe.bind fun _ _ => (Usize.add_safe (by omega)).bind fun cursor hcursor => ?_
  obtain ⟨-, rfl⟩ := Usize.add_eq_ok.mp hcursor
  refine readStr_safe.bind fun _ _ => (Usize.add_safe (by omega)).bind fun cursor hcursor => ?_
  obtain ⟨-, rfl⟩ := Usize.add_eq_ok.mp hcursor
  refine (Usize.mul_safe (by omega)).bind fun n hn => ?_
  obtain ⟨-, rfl⟩ := Usize.mul_eq_ok.mp hn
  refine (Safe.okOr _ _).bind fun cursor hcursor => ?_
  obtain ⟨-, rfl⟩ := Usize.checkedAdd_eq_some.mp (okOr_eq_ok.mp hcursor)
  refine requireLen_safe.bind fun _ _ => ?_
  refine (Usize.mul_safe (by omega)).bind fun n hn => ?_
  refine (Safe.okOr _ _).bind fun _ _ => requireLen_safe.bind fun _ _ => ?_
  refine (Safe.mapM fun i hi => ?_).bind fun _ _ => ?_
  · have := List.mem_range.mp hi
    exact parsePayload_safe (by omega) (by omega)
  refine (Safe.mapM fun i hi => ?_).bind fun _ _ => Safe.ok _
  have := List.mem_range.mp hi
  exact parseEntry_safe (by omega) (by omega)

/-- **Reading a blob never panics.** -/
theorem parseArtifactBlob_safe (bytes : Bytes) : (parseArtifactBlob bytes).Safe := by
  refine requireLen_safe.bind fun _ h => (magic_safe h).bind fun _ _ => ?_
  refine (Safe.reject _ _).bind fun _ _ => readU16_safe.bind fun _ _ => ?_
  refine (Safe.reject _ _).bind fun _ _ => readU16_safe.bind fun _ _ => ?_
  refine Safe.ite (fun _ => Safe.fail _) fun _ => ?_
  refine readTotalLen_safe.bind fun totalLen htotal => ?_
  exact (sliceTo_safe (readTotalLen_spec htotal).2).bind fun _ _ => parseBody_safe _

/-- **Reading a section never panics.**  Each blob is at least as long as its header, so the loop
ends. -/
theorem parseArtifactSection_safe (bytes : Bytes) : (parseArtifactSection bytes).Safe := by
  induction hn : bytes.length using Nat.strongRecOn generalizing bytes with
  | ind n ih =>
    unfold parseArtifactSection
    refine Safe.ite (fun _ => Safe.ok _) fun hne => Safe.ite (fun _ => Safe.ok _) fun _ => ?_
    split
    · rename_i stop hstop
      intro p hp
      cases hp
      exact artifactBlobTotalLen_safe p hstop
    · rename_i totalLen htotal
      have hspec := artifactBlobTotalLen_spec htotal
      have h32 : headerBytes = 32 := rfl
      rw [if_pos hspec.2]
      refine (parseArtifactBlob_safe _).bind fun _ _ => ?_
      refine Safe.bind (ih _ ?_ _ rfl) fun _ _ => Safe.ok _
      rw [List.length_drop]
      omega

end NoPanic

end CudaOxide.Artifacts
