import CudaOxide.Lib.Bytes
import CudaOxide.Lib.Safe

/-!
# The disk cache of compiled kernels

A compiled kernel is stored under a hash of all that the compiler read, with a header by which a hit
is checked against the request again (`jit_cache.rs`).  The hash is a function to 32 bytes.

* `l2Preimage` — what is hashed; `l2Preimage_injective` — different requests are never hashed as
  one.
* `encodeEntry`, `decodeEntry` — the codec.  Slicing and index arithmetic are the operations that
  can panic; `decodeEntry_safe` — they do not.
* `Reads` — what has been checked of an entry that is read; `decodeEntry_spec` puts the codec
  together.
-/

namespace CudaOxide.Tile.JitCache

open Lib Lib.Bytes Lib.Run

/-! ### Data -/

/-- A `&[u8]`, or the bytes of a `&str`: at most `isize::MAX` of them. -/
structure Slice where
  bytes : Bytes
  fits : bytes.length < 2 ^ 63
  deriving DecidableEq

/-- Slices with the same bytes are the same. -/
@[ext] theorem Slice.ext {a b : Slice} (h : a.bytes = b.bytes) : a = b := by
  cases a
  cases b
  cases h
  rfl

/-- A `[u8; 32]`. -/
structure Digest where
  bytes : Bytes
  length_eq : bytes.length = 32
  deriving DecidableEq

/-- `BytecodeVersion` -/
structure BytecodeVersion where
  major : UInt8
  minor : UInt8
  tag : UInt16
  deriving DecidableEq

/-- `CodegenMode`. -/
inductive CodegenMode where
  | debug
  | optimized (level : UInt8) (lineinfo : Bool)
  deriving DecidableEq

/-- `opt_level`. -/
def CodegenMode.optLevel : CodegenMode → UInt8
  | debug => 0
  | optimized level _ => level

/-- `TileirasOptions`, with the digest of the tile libraries it links. -/
structure TileirasOptions where
  codegen : CodegenMode
  sanitizeMemcheck : Bool
  tilelibDigest : Option Slice
  deriving DecidableEq

/-- The flags that the code generation mode sets. -/
def CodegenMode.flags : CodegenMode → UInt8
  | debug => 0b001
  | optimized _ lineinfo => lineinfo.toUInt8 <<< 1

/-- `flags_byte`: the mode and the sanitizer. -/
def TileirasOptions.flagsByte (opts : TileirasOptions) : UInt8 :=
  opts.codegen.flags ||| (opts.sanitizeMemcheck.toUInt8 <<< 2)

/-! ### The key -/

/-- `b"cutile-jit-cubin-v1\0"` -/
def domain : Bytes :=
  [99, 117, 116, 105, 108, 101, 45, 106, 105, 116, 45, 99, 117, 98, 105, 110, 45, 118, 49, 0]

/-- `b"tilelibs"` -/
def tilelibs : Bytes := [116, 105, 108, 101, 108, 105, 98, 115]

/-- A field with its length in front. -/
def putField (bytes : Bytes) : Bytes := leBytes 8 bytes.length ++ bytes

/-- What `l2_key` reads. -/
structure KeyInput where
  bc : Slice
  bcVersion : BytecodeVersion
  gpuName : Slice
  opts : TileirasOptions
  tileirasFp : Slice
  deriving DecidableEq

/-- The digest of the tile libraries, when there is one. -/
def putTilelibs : Option Slice → Bytes
  | some digest => putField tilelibs ++ putField digest.bytes
  | none => []

/-- The bytes that `l2_key` hashes, in the order of the updates. -/
def l2Preimage (key : KeyInput) : Bytes :=
  domain ++ putField [key.bcVersion.major, key.bcVersion.minor] ++
    putField (leBytes 2 key.bcVersion.tag.toNat) ++
    putField key.bc.bytes ++
    putField key.gpuName.bytes ++
    putField [key.opts.codegen.optLevel, key.opts.flagsByte] ++
    putField key.tileirasFp.bytes ++
    putTilelibs key.opts.tilelibDigest

/-! ### The codec -/

/-- `b"CUTILECUBIN\0"` -/
def entryMagic : Bytes := [67, 85, 84, 73, 76, 69, 67, 85, 66, 73, 78, 0]

/-- `ENTRY_FORMAT_VERSION`. -/
def entryFormatVersion : ℕ := 1

/-- `ENTRY_HEADER_LEN`. -/
def entryHeaderLen : ℕ := 96

/-- The fields an entry is checked against; names are their bytes. -/
structure EntryParams where
  bcSha256 : Digest
  gpuName : Bytes
  optLevel : UInt8
  flags : UInt8
  tileirasFp : Bytes
  deriving DecidableEq

/-- `u16::try_from` -/
def toU16 (n : ℕ) : Option ℕ := if n < 2 ^ 16 then some n else none

/-- `encode_entry` -/
def encodeEntry (sha256 : Bytes → Digest) (params : EntryParams) (cubin : Bytes) :
    Option Bytes := do
  let gpuLen ← toU16 params.gpuName.length
  let fpLen ← toU16 params.tileirasFp.length
  some (entryMagic ++ leBytes 2 entryFormatVersion ++ [0, 0] ++ (sha256 cubin).bytes ++
    params.bcSha256.bytes ++ leBytes 2 gpuLen ++ leBytes 2 fpLen ++ [params.optLevel] ++
      [params.flags] ++
    [0, 0] ++ leBytes 8 cubin.length ++ params.gpuName ++ params.tileirasFp ++ cubin)

/-- `&bytes[start..stop]` -/
def sliceRange (bytes : Bytes) (start stop : ℕ) : Run Unit Bytes :=
  if start ≤ stop ∧ stop ≤ bytes.length then .ok (slice bytes start (stop - start))
  else panic .indexOutOfBounds

/-- `bytes.try_into().unwrap()`, to an array of `n` bytes. -/
def toArray (n : ℕ) (bytes : Bytes) : Run Unit Bytes :=
  if bytes.length = n then .ok bytes else panic .assertion

/-- `bytes[i]` -/
def index (bytes : Bytes) (i : ℕ) : Run Unit UInt8 :=
  match bytes[i]? with
  | some b => .ok b
  | none => panic .indexOutOfBounds

/-- `usize::try_from` of a `u64` -/
def toUsize (n : ℕ) : Option ℕ := if n < 2 ^ 64 then some n else none

/-- `decode_entry`: the error stands for `None`. -/
def decodeEntry (sha256 : Bytes → Digest) (bytes : Bytes) (params : EntryParams) :
    Run Unit Bytes := do
  reject (bytes.length < entryHeaderLen) ()
  reject ((← sliceRange bytes 0 12) ≠ entryMagic) ()
  reject (ofLeBytes (← toArray 2 (← sliceRange bytes 12 14)) ≠ entryFormatVersion) ()
  let payloadSha256 ← toArray 32 (← sliceRange bytes 16 48)
  let bcSha256 ← toArray 32 (← sliceRange bytes 48 80)
  let gpuLen ← toArray 2 (← sliceRange bytes 80 82)
  let fpLen ← toArray 2 (← sliceRange bytes 82 84)
  let optLevel ← index bytes 84
  let flags ← index bytes 85
  let payloadLen ← toArray 8 (← sliceRange bytes 88 96)
  let payloadLen ← okOr (toUsize (ofLeBytes payloadLen)) ()
  let total ← okOr (Usize.checkedAdd entryHeaderLen (ofLeBytes gpuLen)) ()
  let total ← okOr (Usize.checkedAdd total (ofLeBytes fpLen)) ()
  let total ← okOr (Usize.checkedAdd total payloadLen) ()
  reject (bytes.length ≠ total) ()
  let gpuEnd ← Usize.add entryHeaderLen (ofLeBytes gpuLen)
  let gpuName ← sliceRange bytes entryHeaderLen gpuEnd
  let fpEnd ← Usize.add gpuEnd (ofLeBytes fpLen)
  let fp ← sliceRange bytes gpuEnd fpEnd
  let payload ← sliceRange bytes fpEnd bytes.length
  reject (bcSha256 ≠ params.bcSha256.bytes ∨ gpuName ≠ params.gpuName ∨ optLevel ≠ params.optLevel ∨
    flags ≠ params.flags ∨ fp ≠ params.tileirasFp ∨ (sha256 payload).bytes ≠ payloadSha256) ()
  .ok payload

/-! ### Different requests, different keys -/

/-- The flags of a debug build determine the sanitizer. -/
theorem flags_debug_inj : ∀ x y : Bool,
    (1 : UInt8) ||| x.toUInt8 <<< (2 : UInt8) = (1 : UInt8) ||| y.toUInt8 <<< (2 : UInt8) →
      x = y := by
  decide

/-- The flags of a debug build are none of an optimized one. -/
theorem flags_debug_ne : ∀ x y lineinfo : Bool,
    (1 : UInt8) ||| x.toUInt8 <<< 2 ≠ lineinfo.toUInt8 <<< 1 ||| y.toUInt8 <<< 2 := by
  decide

/-- The flags of an optimized build determine both options. -/
theorem flags_optimized_inj : ∀ x y lineinfo lineinfo' : Bool,
    lineinfo.toUInt8 <<< 1 ||| x.toUInt8 <<< 2 = lineinfo'.toUInt8 <<< 1 ||| y.toUInt8 <<< 2 →
      lineinfo = lineinfo' ∧ x = y := by
  decide

/-- The level and the flags tell the options apart. -/
theorem codegen_of_flags {a b : TileirasOptions} (hlevel : a.codegen.optLevel = b.codegen.optLevel)
    (hflags : a.flagsByte = b.flagsByte) :
    a.codegen = b.codegen ∧ a.sanitizeMemcheck = b.sanitizeMemcheck := by
  unfold TileirasOptions.flagsByte at hflags
  cases ha : a.codegen with
  | debug =>
    cases hb : b.codegen with
    | debug =>
      rw [ha, hb] at hflags
      exact ⟨rfl, flags_debug_inj _ _ hflags⟩
    | optimized level lineinfo =>
      rw [ha, hb] at hflags
      exact absurd hflags (flags_debug_ne _ _ lineinfo)
  | optimized level lineinfo =>
    cases hb : b.codegen with
    | debug =>
      rw [ha, hb] at hflags
      exact absurd hflags.symm (flags_debug_ne _ _ lineinfo)
    | optimized level' lineinfo' =>
      rw [ha, hb] at hflags hlevel
      obtain ⟨rfl, hsanitize⟩ := flags_optimized_inj _ _ lineinfo lineinfo' hflags
      obtain rfl : level = level' := hlevel
      exact ⟨rfl, hsanitize⟩

/-- A field ends where its length says. -/
theorem putField_append_inj {a b s r : Bytes} (ha : a.length < 2 ^ 64) (hb : b.length < 2 ^ 64)
    (h : putField a ++ s = putField b ++ r) : a = b ∧ s = r := by
  unfold putField at h
  rw [List.append_assoc, List.append_assoc] at h
  obtain ⟨hlen, hrest⟩ := List.append_inj h (by rw [length_leBytes, length_leBytes])
  have hlength : a.length = b.length := leBytes_inj (k := 8) ha hb hlen
  exact List.append_inj hrest hlength

/-- A field has at least its length. -/
theorem putField_ne_nil (a : Bytes) : putField a ≠ [] := by
  rw [putField, leBytes]
  exact List.cons_ne_nil _ _

/-- A slice has fewer than `2^64` bytes. -/
theorem Slice.lt (a : Slice) : a.bytes.length < 2 ^ 64 := a.fits.trans (by decide)

/-- The digest can be read back. -/
theorem putTilelibs_inj {a b : Option Slice} (h : putTilelibs a = putTilelibs b) : a = b := by
  cases a with
  | none =>
    cases b with
    | none => rfl
    | some b => exact absurd (List.append_eq_nil_iff.mp h.symm).1 (putField_ne_nil _)
  | some a =>
    cases b with
    | none => exact absurd (List.append_eq_nil_iff.mp h).1 (putField_ne_nil _)
    | some b =>
      have hdigest : putField a.bytes ++ [] = putField b.bytes ++ [] := by
        rw [List.append_nil, List.append_nil]
        exact List.append_cancel_left h
      rw [Slice.ext (putField_append_inj a.lt b.lt hdigest).1]

/-- **The key tells requests apart.** -/
theorem l2Preimage_injective : Function.Injective l2Preimage := by
  rintro ⟨bc, ⟨major, minor, tag⟩, gpu, ⟨codegen, sanitize, digest⟩, fp⟩
    ⟨bc', ⟨major', minor', tag'⟩, gpu', ⟨codegen', sanitize', digest'⟩, fp'⟩ h
  unfold l2Preimage at h
  simp only [List.append_assoc] at h
  have hshort : ∀ x y : UInt8, [x, y].length < 2 ^ 64 := fun x y => by simp
  have htag : ∀ v, (leBytes 2 v).length < 2 ^ 64 := fun v => by rw [length_leBytes]; decide
  -- field by field
  have h := List.append_cancel_left h
  obtain ⟨hversion, h⟩ := putField_append_inj (hshort _ _) (hshort _ _) h
  obtain ⟨htags, h⟩ := putField_append_inj (htag _) (htag _) h
  obtain ⟨hbc, h⟩ := putField_append_inj bc.lt bc'.lt h
  obtain ⟨hgpu, h⟩ := putField_append_inj gpu.lt gpu'.lt h
  obtain ⟨hopts, h⟩ := putField_append_inj (hshort _ _) (hshort _ _) h
  obtain ⟨hfp, hdigest⟩ := putField_append_inj fp.lt fp'.lt h
  obtain rfl := Slice.ext hbc
  obtain rfl := Slice.ext hgpu
  obtain rfl := Slice.ext hfp
  obtain ⟨rfl, hminor⟩ := List.cons.inj hversion
  obtain ⟨rfl, -⟩ := List.cons.inj hminor
  obtain rfl : tag = tag' :=
    UInt16.toNat_inj.mp (leBytes_inj (k := 2) tag.toNat_lt tag'.toNat_lt htags)
  obtain ⟨hlevel, hflags⟩ := List.cons.inj hopts
  obtain ⟨hcodegen, hsanitize⟩ := codegen_of_flags (a := ⟨codegen, sanitize, digest⟩)
    (b := ⟨codegen', sanitize', digest'⟩) hlevel (List.cons.inj hflags).1
  obtain rfl : codegen = codegen' := hcodegen
  obtain rfl : sanitize = sanitize' := hsanitize
  rw [putTilelibs_inj hdigest]

/-! ### What an entry is -/

section Entry

variable {sha256 : Bytes → Digest} {bytes cubin reserved padding : Bytes}
  {params other : EntryParams}

/-- The bytes of an entry, whatever the header bytes are that nothing reads. -/
def entryBytes (sha256 : Bytes → Digest) (params : EntryParams) (cubin reserved padding : Bytes) :
    Bytes :=
  entryMagic ++ leBytes 2 entryFormatVersion ++ reserved ++ (sha256 cubin).bytes ++
    params.bcSha256.bytes ++ leBytes 2 params.gpuName.length ++
      leBytes 2 params.tileirasFp.length ++
    [params.optLevel] ++ [params.flags] ++ padding ++ leBytes 8 cubin.length ++ params.gpuName ++
    params.tileirasFp ++ cubin

/-- `toU16` succeeds exactly below `2^16`. -/
theorem toU16_eq_some {n m : ℕ} : toU16 n = some m ↔ n < 2 ^ 16 ∧ n = m := by
  rw [toU16, Option.ite_none_right_eq_some, Option.some.injEq]

/-- An entry is written unless a name is too long. -/
theorem encodeEntry_eq_some {out : Bytes} : encodeEntry sha256 params cubin = some out ↔
    params.gpuName.length < 2 ^ 16 ∧ params.tileirasFp.length < 2 ^ 16 ∧
      entryBytes sha256 params cubin [0, 0] [0, 0] = out := by
  unfold encodeEntry
  simp only [Option.bind_eq_bind, Option.bind_eq_some_iff, toU16_eq_some, Option.some_inj]
  constructor
  · rintro ⟨gpuLen, ⟨hgpu, rfl⟩, fpLen, ⟨hfp, rfl⟩, rfl⟩
    exact ⟨hgpu, hfp, rfl⟩
  · rintro ⟨hgpu, hfp, rfl⟩
    exact ⟨_, ⟨hgpu, rfl⟩, _, ⟨hfp, rfl⟩, rfl⟩

/-! ### Reading -/

/-- A range can be taken exactly when it is in order and in bounds. -/
theorem sliceRange_eq_ok {start stop : ℕ} {part : Bytes} : sliceRange bytes start stop = .ok part ↔
    (start ≤ stop ∧ stop ≤ bytes.length) ∧ slice bytes start (stop - start) = part := by
  unfold sliceRange
  split_ifs with h
  · simp [h]
  · simp [h]

/-- An array is made of exactly its bytes. -/
theorem toArray_eq_ok {n : ℕ} {part : Bytes} :
    toArray n bytes = .ok part ↔ bytes.length = n ∧ bytes = part := by
  unfold toArray
  split_ifs with h
  · simp [h]
  · simp [h]

/-- A byte can be taken exactly in bounds. -/
theorem index_eq_ok {i : ℕ} {b : UInt8} : index bytes i = .ok b ↔ bytes[i]? = some b := by
  unfold index
  cases bytes[i]? <;> simp

/-- `toUsize` succeeds exactly below `2^64`. -/
theorem toUsize_eq_some {n m : ℕ} : toUsize n = some m ↔ n < 2 ^ 64 ∧ n = m := by
  rw [toUsize, Option.ite_none_right_eq_some, Option.some.injEq]

/-- What the reader has checked when it returns. -/
structure Reads (sha256 : Bytes → Digest) (bytes : Bytes) (params : EntryParams) (cubin : Bytes) :
    Prop where
  header : 96 ≤ bytes.length
  magic : slice bytes 0 12 = entryMagic
  version : ofLeBytes (slice bytes 12 2) = entryFormatVersion
  payloadSha256 : slice bytes 16 32 = (sha256 cubin).bytes
  bcSha256 : slice bytes 48 32 = params.bcSha256.bytes
  gpuLen : ofLeBytes (slice bytes 80 2) = params.gpuName.length
  fpLen : ofLeBytes (slice bytes 82 2) = params.tileirasFp.length
  optLevel : bytes[84]? = some params.optLevel
  flags : bytes[85]? = some params.flags
  payloadLen : ofLeBytes (slice bytes 88 8) = cubin.length
  total : bytes.length = 96 + params.gpuName.length + params.tileirasFp.length + cubin.length
  addressable : bytes.length < 2 ^ 64
  gpuName : slice bytes 96 params.gpuName.length = params.gpuName
  fp : slice bytes (96 + params.gpuName.length) params.tileirasFp.length = params.tileirasFp
  payload : slice bytes (96 + params.gpuName.length + params.tileirasFp.length) cubin.length = cubin

/-- A decoded entry reads right at every offset. -/
theorem reads_of_decodeEntry (h : decodeEntry sha256 bytes params = .ok cubin) :
    Reads sha256 bytes params cubin := by
  unfold decodeEntry at h
  simp only [bind_eq_ok, reject_eq_ok, sliceRange_eq_ok, toArray_eq_ok, index_eq_ok, okOr_eq_ok,
    toUsize_eq_some, Usize.checkedAdd_eq_some, Usize.add_eq_ok, Except.ok.injEq, and_assoc,
      exists_and_left,
    exists_eq_left', exists_const] at h
  obtain ⟨hheader, -, -, hmagic, -, -, -, hversion, -, -, -, -, -, -, -, -, -, -, -, -, optLevel,
    hopt, flags,
    hflags, -, -, -, -, -, -, hlt, htotal, -, -, -, -, -, -, -, -, hfields, rfl⟩ := h
  push Not at hmagic hversion htotal hfields
  obtain ⟨hbc, hgpu, rfl, rfl, hfp, hpayload⟩ := hfields
  unfold entryHeaderLen at *
  simp only [Nat.reduceSub, Nat.add_sub_cancel_left] at *
  generalize hg : ofLeBytes (slice bytes 80 2) = g at *
  generalize hf : ofLeBytes (slice bytes 82 2) = f at *
  generalize hn : ofLeBytes (slice bytes 88 8) = n at *
  have hgpuLen : params.gpuName.length = g := by rw [← hgpu, length_slice (by omega)]
  have hfpLen : params.tileirasFp.length = f := by rw [← hfp, length_slice (by omega)]
  have hrest : bytes.length - (96 + g + f) = n := by omega
  have hpayloadLen : (slice bytes (96 + g + f) n).length = n := length_slice (by omega)
  rw [hrest] at hpayload ⊢
  exact {
    header := by omega
    magic := hmagic
    version := hversion
    payloadSha256 := hpayload.symm
    bcSha256 := hbc
    gpuLen := by rw [hg, hgpuLen]
    fpLen := by rw [hf, hfpLen]
    optLevel := hopt
    flags := hflags
    payloadLen := by rw [hn, hpayloadLen]
    total := by rw [hgpuLen, hfpLen, hpayloadLen, htotal]
    addressable := by rw [htotal]; exact hlt
    gpuName := by rw [hgpuLen, hgpu]
    fp := by rw [hgpuLen, hfpLen, hfp]
    payload := by rw [hgpuLen, hfpLen, hpayloadLen] }

/-- An entry that reads right at every offset is decoded. -/
theorem decodeEntry_of_reads (h : Reads sha256 bytes params cubin) :
    decodeEntry sha256 bytes params = .ok cubin := by
  have hheader := h.header
  have htotal := h.total
  have hlt := h.addressable
  have hgpuLen := h.gpuLen
  have hfpLen := h.fpLen
  have hpayloadLen := h.payloadLen
  have hpayload : bytes.length - (96 + params.gpuName.length + params.tileirasFp.length) =
      cubin.length := by
    omega
  unfold decodeEntry
  simp only [bind_eq_ok, reject_eq_ok, sliceRange_eq_ok, toArray_eq_ok, index_eq_ok, okOr_eq_ok,
    toUsize_eq_some, Usize.checkedAdd_eq_some, Usize.add_eq_ok, Except.ok.injEq, Nat.reduceSub]
  unfold entryHeaderLen
  have hfield : ∀ off len, off + len ≤ 96 → (slice bytes off len).length = len := fun off len hle =>
    length_slice (hle.trans hheader)
  refine ⟨(), by omega, _, ⟨by omega, rfl⟩, (), not_not_intro h.magic,
    _, ⟨by omega, rfl⟩, _, ⟨hfield 12 2 (by omega), rfl⟩, (), not_not_intro h.version,
    _, ⟨by omega, rfl⟩, _, ⟨hfield 16 32 (by omega), rfl⟩, _, ⟨by omega, rfl⟩, _,
      ⟨hfield 48 32 (by omega), rfl⟩,
    _, ⟨by omega, rfl⟩, _, ⟨hfield 80 2 (by omega), rfl⟩, _, ⟨by omega, rfl⟩, _,
      ⟨hfield 82 2 (by omega), rfl⟩,
    _, h.optLevel, _, h.flags, _, ⟨by omega, rfl⟩, _, ⟨hfield 88 8 (by omega), rfl⟩,
    _, ⟨by omega, rfl⟩, _, ⟨by omega, rfl⟩, _, ⟨by omega, rfl⟩, _, ⟨by omega, rfl⟩, (), by omega,
    _, ⟨by omega, rfl⟩, _, ⟨by omega, rfl⟩, _, ⟨by omega, rfl⟩, _, ⟨by omega, rfl⟩, _,
      ⟨by omega, rfl⟩,
    (), ?_, ?_⟩
  · have hpayloadSlice : slice bytes (96 + params.gpuName.length + params.tileirasFp.length)
        (bytes.length - (96 + params.gpuName.length + params.tileirasFp.length)) = cubin := by
      rw [hpayload, h.payload]
    push Not
    rw [hgpuLen, hfpLen, hpayloadSlice, Nat.add_sub_cancel_left, Nat.add_sub_cancel_left]
    exact ⟨h.bcSha256, h.gpuName, rfl, rfl, h.fp, h.payloadSha256.symm⟩
  · rw [hgpuLen, hfpLen, hpayload, h.payload]

/-- A field of the header, as an array, and what follows. -/
theorem safe_field {α : Type} {f : Bytes → Run Unit α} {start stop n : ℕ} (hn : start + n = stop)
    (hle : stop ≤ bytes.length) (hf : ∀ part, (f part).Safe) :
    (sliceRange bytes start stop >>= fun part => toArray n part >>= f).Safe := by
  have hslice : sliceRange bytes start stop = .ok (slice bytes start n) := by
    rw [sliceRange_eq_ok, ← hn, Nat.add_sub_cancel_left]
    exact ⟨⟨Nat.le_add_right _ _, hn ▸ hle⟩, rfl⟩
  have harray : toArray n (slice bytes start n) = .ok (slice bytes start n) :=
    toArray_eq_ok.mpr ⟨length_slice (hn ▸ hle), rfl⟩
  rw [hslice]
  show (toArray n (slice bytes start n) >>= f).Safe
  rw [harray]
  exact hf _

/-- A range in bounds does not panic. -/
theorem safe_sliceRange {start stop : ℕ} (h : start ≤ stop) (hle : stop ≤ bytes.length) :
    (sliceRange bytes start stop).Safe := by
  rw [sliceRange_eq_ok.mpr ⟨⟨h, hle⟩, rfl⟩]
  exact .ok _

/-- An index in bounds does not panic. -/
theorem safe_index {i : ℕ} (h : i < bytes.length) : (index bytes i).Safe := by
  rw [index_eq_ok.mpr (List.getElem?_eq_getElem h)]
  exact .ok _

/-- **Reading does not panic.** -/
theorem decodeEntry_safe (sha256 : Bytes → Digest) (bytes : Bytes) (params : EntryParams) :
    (decodeEntry sha256 bytes params).Safe := by
  unfold decodeEntry
  refine (Safe.reject _ _).bind fun _ hreject => ?_
  have hheader : 96 ≤ bytes.length := by
    have hnot := reject_eq_ok.mp hreject
    unfold entryHeaderLen at hnot
    omega
  refine (safe_sliceRange (by omega) (by omega)).bind fun _ _ => ?_
  refine (Safe.reject _ _).bind fun _ _ => ?_
  refine safe_field (by omega) (by omega) fun _ => ?_
  refine (Safe.reject _ _).bind fun _ _ => ?_
  refine safe_field (by omega) (by omega) fun _ => ?_
  refine safe_field (by omega) (by omega) fun _ => ?_
  refine safe_field (by omega) (by omega) fun gpuLen => ?_
  refine safe_field (by omega) (by omega) fun fpLen => ?_
  refine (safe_index (by omega)).bind fun _ _ => ?_
  refine (safe_index (by omega)).bind fun _ _ => ?_
  refine safe_field (by omega) (by omega) fun _ => ?_
  refine (Safe.okOr _ _).bind fun payloadLen _ => ?_
  refine (Safe.okOr _ _).bind fun total₁ h₁ => ?_
  refine (Safe.okOr _ _).bind fun total₂ h₂ => ?_
  refine (Safe.okOr _ _).bind fun total h => ?_
  refine (Safe.reject _ _).bind fun _ htotal => ?_
  -- the total is the length, so that nothing that follows overflows or is out of bounds
  rw [okOr_eq_ok, Usize.checkedAdd_eq_some] at h₁ h₂ h
  rw [reject_eq_ok, not_not] at htotal
  refine (Usize.add_safe (by omega)).bind fun gpuEnd hgpuEnd => ?_
  rw [Usize.add_eq_ok] at hgpuEnd
  refine (safe_sliceRange (by omega) (by omega)).bind fun _ _ => ?_
  refine (Usize.add_safe (by omega)).bind fun fpEnd hfpEnd => ?_
  rw [Usize.add_eq_ok] at hfpEnd
  refine (safe_sliceRange (by omega) (by omega)).bind fun _ _ => ?_
  refine (safe_sliceRange (by omega) (by omega)).bind fun _ _ => ?_
  exact (Safe.reject _ _).bind fun _ _ => .ok _

/-! ### The entries that are read -/

/-- The length of an entry. -/
theorem length_entryBytes (hreserved : reserved.length = 2) (hpadding : padding.length = 2) :
    (entryBytes sha256 params cubin reserved padding).length =
      96 + params.gpuName.length + params.tileirasFp.length + cubin.length := by
  unfold entryBytes
  simp only [List.length_append, length_leBytes, hreserved, hpadding, Digest.length_eq,
    List.length_cons,
    List.length_nil]
  have hmagic : entryMagic.length = 12 := rfl
  omega

/-- The bytes from an offset on begin with what stands there. -/
theorem drop_eq {off len stop : ℕ} {data : Bytes} (h : slice bytes off len = data)
    (hstop : off + len = stop) :
    bytes.drop off = data ++ bytes.drop stop := by
  rw [← h, ← hstop, slice_append_drop]

/-- A slice of one byte. -/
theorem slice_one {i : ℕ} {b : UInt8} (h : bytes[i]? = some b) : slice bytes i 1 = [b] := by
  obtain ⟨hlt, rfl⟩ := List.getElem?_eq_some_iff.mp h
  rw [slice, List.drop_eq_getElem_cons hlt, List.take_succ_cons, List.take_zero]

/-- What is checked leaves nothing but the bytes that are not read. -/
theorem Reads.bytes_eq (h : Reads sha256 bytes params cubin) :
    bytes = entryBytes sha256 params cubin (slice bytes 14 2) (slice bytes 86 2) := by
  have hle : ∀ {off n v}, off + n ≤ 96 → ofLeBytes (slice bytes off n) = v →
      slice bytes off n = leBytes n v := by
    intro off n v hoff hv
    have hlen : (slice bytes off n).length = n := length_slice (hoff.trans h.header)
    rw [← hv]
    nth_rewrite 2 [← hlen]
    rw [leBytes_ofLeBytes]
  have hend : bytes.drop bytes.length = [] := List.drop_length
  calc bytes = bytes.drop 0 := rfl
    _ = entryMagic ++ bytes.drop 12 := drop_eq h.magic rfl
    _ = entryMagic ++ (leBytes 2 entryFormatVersion ++ (slice bytes 14 2 ++ ((sha256 cubin).bytes ++
          (params.bcSha256.bytes ++ bytes.drop 80)))) := by
      rw [drop_eq (hle (by omega) h.version) rfl, drop_eq (rfl : slice bytes 14 2 = _) rfl,
        drop_eq h.payloadSha256 rfl, drop_eq h.bcSha256 rfl]
    _ = entryMagic ++ (leBytes 2 entryFormatVersion ++ (slice bytes 14 2 ++ ((sha256 cubin).bytes ++
          (params.bcSha256.bytes ++ (leBytes 2 params.gpuName.length ++
            (leBytes 2 params.tileirasFp.length ++
          ([params.optLevel] ++ ([params.flags] ++ (slice bytes 86 2 ++ (leBytes 8 cubin.length ++
          bytes.drop 96)))))))))) := by
      rw [drop_eq (hle (by omega) h.gpuLen) rfl, drop_eq (hle (by omega) h.fpLen) rfl,
        drop_eq (slice_one h.optLevel) rfl, drop_eq (slice_one h.flags) rfl,
        drop_eq (rfl : slice bytes 86 2 = _) rfl, drop_eq (hle (by omega) h.payloadLen) rfl]
    _ = entryBytes sha256 params cubin (slice bytes 14 2) (slice bytes 86 2) := by
      rw [drop_eq h.gpuName rfl, drop_eq h.fp rfl, drop_eq h.payload h.total.symm, hend,
        List.append_nil]
      unfold entryBytes
      simp only [List.append_assoc]

/-- The fields of an entry, in their order. -/
def entryFields (sha256 : Bytes → Digest) (params : EntryParams) (cubin reserved padding : Bytes) :
    List Bytes :=
  [entryMagic, leBytes 2 entryFormatVersion, reserved, (sha256 cubin).bytes, params.bcSha256.bytes,
    leBytes 2 params.gpuName.length, leBytes 2 params.tileirasFp.length, [params.optLevel],
      [params.flags],
    padding, leBytes 8 cubin.length, params.gpuName, params.tileirasFp, cubin]

/-- The fields of an entry in a row are its bytes. -/
theorem flatten_entryFields : (entryFields sha256 params cubin reserved padding).flatten =
    entryBytes sha256 params cubin reserved padding := by
  simp [entryFields, entryBytes]

/-- The bytes of an entry read right at every offset. -/
theorem reads_entryBytes (hgpu : params.gpuName.length < 2 ^ 16)
    (hfp : params.tileirasFp.length < 2 ^ 16)
    (hcubin : cubin.length < 2 ^ 63) (hreserved : reserved.length = 2)
      (hpadding : padding.length = 2) :
    Reads sha256 (entryBytes sha256 params cubin reserved padding) params cubin := by
  -- every read is one of the fields, at the offset that the header gives it
  have hlen : (entryBytes sha256 params cubin reserved padding).length = _ :=
    length_entryBytes hreserved hpadding
  have hmagic : entryMagic.length = 12 := rfl
  have hfield : ∀ {k off len data}, (entryFields sha256 params cubin reserved padding)[k]? =
    some data →
      (((entryFields sha256 params cubin reserved padding).take k).map List.length).sum = off →
      data.length = len → slice (entryBytes sha256 params cubin reserved padding) off len =
        data := by
    intro k off len data hget hoff hlen
    rw [← flatten_entryFields]
    exact slice_flatten hget hoff hlen
  -- a slice of one byte is that byte
  have hone : ∀ {i b}, slice (entryBytes sha256 params cubin reserved padding) i 1 = [b] →
      (entryBytes sha256 params cubin reserved padding)[i]? = some b := by
    intro i b hslice
    have hhead := congrArg List.head? hslice
    rw [slice, List.head?_take, if_neg (by decide), List.head?_drop] at hhead
    exact hhead
  have hversion : slice (entryBytes sha256 params cubin reserved padding) 12 2 =
    leBytes 2 entryFormatVersion :=
    hfield (k := 1) rfl rfl rfl
  exact {
    header := by omega
    magic := hfield (k := 0) rfl rfl rfl
    version := by rw [hversion, ofLeBytes_leBytes (by decide)]
    payloadSha256 := hfield (k := 3) rfl (by simp [entryFields, hmagic, hreserved])
      (sha256 cubin).length_eq
    bcSha256 := hfield (k := 4) rfl (by simp [entryFields, hmagic, hreserved, Digest.length_eq])
      params.bcSha256.length_eq
    gpuLen := by
      rw [hfield (k := 5) rfl (by simp [entryFields, hmagic, hreserved, Digest.length_eq])
        (length_leBytes _ _),
        ofLeBytes_leBytes hgpu]
    fpLen := by
      rw [hfield (k := 6) rfl (by simp [entryFields, hmagic, hreserved, Digest.length_eq])
        (length_leBytes _ _),
        ofLeBytes_leBytes hfp]
    optLevel :=
      hone (hfield (k := 7) rfl (by simp [entryFields, hmagic, hreserved, Digest.length_eq]) rfl)
    flags :=
      hone (hfield (k := 8) rfl (by simp [entryFields, hmagic, hreserved, Digest.length_eq]) rfl)
    payloadLen := by
      rw [hfield (k := 10) rfl (by simp [entryFields, hmagic, hreserved, hpadding,
        Digest.length_eq])
        (length_leBytes _ _), ofLeBytes_leBytes (hcubin.trans (by decide))]
    total := hlen
    addressable := by omega
    gpuName :=
      hfield (k := 11) rfl (by simp [entryFields, hmagic, hreserved, hpadding, Digest.length_eq])
      rfl
    fp := hfield (k := 12) rfl
      (by simp [entryFields, hmagic, hreserved, hpadding, Digest.length_eq]; omega) rfl
    payload := hfield (k := 13) rfl
      (by simp [entryFields, hmagic, hreserved, hpadding, Digest.length_eq]; omega) rfl }

/-- An entry is read for one request only. -/
theorem Reads.params_eq (h : Reads sha256 bytes params cubin)
    (h' : Reads sha256 bytes other cubin) :
    params = other := by
  have hgpuLen : params.gpuName.length = other.gpuName.length := h.gpuLen.symm.trans h'.gpuLen
  have hfpLen : params.tileirasFp.length = other.tileirasFp.length := h.fpLen.symm.trans h'.fpLen
  have hbc : params.bcSha256.bytes = other.bcSha256.bytes := h.bcSha256.symm.trans h'.bcSha256
  have hgpu : params.gpuName = other.gpuName := by rw [← h.gpuName, hgpuLen, h'.gpuName]
  have hfp : params.tileirasFp = other.tileirasFp := by rw [← h.fp, hgpuLen, hfpLen, h'.fp]
  have hopt : params.optLevel = other.optLevel :=
    Option.some.inj (h.optLevel.symm.trans h'.optLevel)
  have hflags : params.flags = other.flags := Option.some.inj (h.flags.symm.trans h'.flags)
  obtain ⟨⟨bc, hlen⟩, gpu, opt, flags, fp⟩ := params
  obtain ⟨⟨bc', hlen'⟩, gpu', opt', flags', fp'⟩ := other
  subst hbc hgpu hfp hopt hflags
  rfl

/-- The names of an entry fit their length fields. -/
theorem Reads.names_fit (h : Reads sha256 bytes params cubin) :
    params.gpuName.length < 2 ^ 16 ∧ params.tileirasFp.length < 2 ^ 16 := by
  have hheader := h.header
  have hfield : ∀ off, off + 2 ≤ 96 → ofLeBytes (slice bytes off 2) < 2 ^ 16 := by
    intro off hoff
    have hlt := ofLeBytes_lt (slice bytes off 2)
    rwa [length_slice (hoff.trans hheader)] at hlt
  exact ⟨h.gpuLen ▸ hfield 80 (by omega), h.fpLen ▸ hfield 82 (by omega)⟩

/-- **The cache.**  An entry is read back for the request it was written for and for no other;
whatever the bytes are, reading does not panic, and returns only what an entry of the request holds,
but for the header bytes that nothing reads; and what the key hashes tells requests apart. -/
theorem decodeEntry_spec (sha256 : Bytes → Digest) :
    (∀ params cubin, (encodeEntry sha256 params cubin).isSome = true ↔
      params.gpuName.length < 2 ^ 16 ∧ params.tileirasFp.length < 2 ^ 16) ∧
    (∀ (params other : EntryParams) (cubin : Slice) out,
      encodeEntry sha256 params cubin.bytes = some out →
      (decodeEntry sha256 out other = .ok cubin.bytes ↔ other = params)) ∧
    (∀ bytes params, (decodeEntry sha256 bytes params).Safe ∧
      ∀ cubin, decodeEntry sha256 bytes params = .ok cubin → ∃ reserved padding,
        reserved.length = 2 ∧ padding.length = 2 ∧
        bytes = entryBytes sha256 params cubin reserved padding ∧
        encodeEntry sha256 params cubin = some (entryBytes sha256 params cubin [0, 0] [0, 0])) ∧
    Function.Injective l2Preimage := by
  refine ⟨fun params cubin => ?_, fun params other cubin out hout => ?_, fun bytes params =>
    ⟨decodeEntry_safe _ _ _, fun cubin h => ?_⟩, l2Preimage_injective⟩
  · rw [Option.isSome_iff_exists]
    constructor
    · rintro ⟨out, hout⟩
      obtain ⟨hgpu, hfp, -⟩ := encodeEntry_eq_some.mp hout
      exact ⟨hgpu, hfp⟩
    · rintro ⟨hgpu, hfp⟩
      exact ⟨_, encodeEntry_eq_some.mpr ⟨hgpu, hfp, rfl⟩⟩
  · obtain ⟨hgpu, hfp, rfl⟩ := encodeEntry_eq_some.mp hout
    have hreads :
      Reads sha256 (entryBytes sha256 params cubin.bytes [0, 0] [0, 0]) params cubin.bytes :=
      reads_entryBytes hgpu hfp cubin.fits rfl rfl
    constructor
    · intro h
      exact (reads_of_decodeEntry h).params_eq hreads
    · rintro rfl
      exact decodeEntry_of_reads hreads
  · have hreads := reads_of_decodeEntry h
    have hheader := hreads.header
    obtain ⟨hgpu, hfp⟩ := hreads.names_fit
    exact ⟨slice bytes 14 2, slice bytes 86 2, length_slice (by omega), length_slice (by omega),
      hreads.bytes_eq, encodeEntry_eq_some.mpr ⟨hgpu, hfp, rfl⟩⟩

end Entry

end CudaOxide.Tile.JitCache
