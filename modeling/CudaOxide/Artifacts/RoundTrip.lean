import CudaOxide.Artifacts.Parse

/-!
# What is written is read back

The proof has two halves that meet at `BlobStored`, a description of a blob by what stands where.
The writer's half follows it through its three phases (payloads, entries, header): each phase only
grows the buffer or writes in its own record area.  The reader's half computes on the description.

* `buildArtifactBlob_stored`, `BlobStored.parse` — the two halves.
* `parseArtifactSection_cons` — one round of the scanner on a whole blob.
* `parseArtifactSection_build` — the round trip.
* `artifactReaders_spec` — no panic, and no cut of a section loses a bundle silently.
-/

namespace CudaOxide.Artifacts

open Lib Lib.Bytes Lib.Run

/-! ### Reading what stands in the buffer -/

section Reading

variable {buf : Bytes} {off k v : ℕ} {field : String}

/-- Text survives the way through its bytes. -/
@[simp] theorem decodeUtf8_utf8 (s : String) : decodeUtf8 (utf8 s) = some s := by
  have hbytes : (⟨(utf8 s).toArray⟩ : ByteArray) = s.toByteArray := by simp [utf8]
  rw [decodeUtf8, hbytes, String.fromUTF8?, dif_pos s.isValidUTF8]
  rfl

/-- The bytes of a text that is not empty. -/
theorem utf8_ne_nil {s : String} (hs : s ≠ "") : utf8 s ≠ [] := by
  intro h
  have := decodeUtf8_utf8 s
  rw [h] at this
  have hempty := decodeUtf8_utf8 ""
  rw [show utf8 "" = [] from rfl, this] at hempty
  exact hs (Option.some.inj hempty)

/-- Bytes that are stored are read back. -/
theorem readSlice_of_holds {data : Bytes} (hlen : buf.length < 2 ^ 32) (hne : data ≠ [])
    (h : Holds buf off data) : readSlice buf off data.length field = .ok data := by
  have hle := h.le_length hne
  exact readSlice_eq_ok.mpr ⟨by omega, hle, h.slice_eq⟩

/-- So is a string. -/
theorem readStr_of_holds {s : String} (hlen : buf.length < 2 ^ 32) (hs : s ≠ "")
    (h : Holds buf off (utf8 s)) : readStr buf off (utf8 s).length field = .ok s := by
  rw [readStr, readSlice_of_holds hlen (utf8_ne_nil hs) h]
  show okOr (decodeUtf8 (utf8 s)) _ = _
  rw [decodeUtf8_utf8]
  rfl

/-- So is a number of any width. -/
theorem readLe_of_holds (hlen : buf.length < 2 ^ 32) (hk : 0 < k) (hv : v < 256 ^ k)
    (h : Holds buf off (leBytes k v)) : readLe k buf off field = .ok v := by
  have hne : leBytes k v ≠ [] := List.ne_nil_of_length_pos (by rwa [length_leBytes])
  have hread : readSlice buf off (leBytes k v).length field = .ok (leBytes k v) :=
    readSlice_of_holds hlen hne h
  rw [length_leBytes] at hread
  rw [readLe, hread]
  show (do let b ← sliceTo (leBytes k v) k; _) = _
  rw [sliceTo, if_pos (length_leBytes k v).ge]
  show (.ok (ofLeBytes ((leBytes k v).take k)) : Run ArtifactError ℕ) = _
  rw [List.take_of_length_le (length_leBytes k v).le, ofLeBytes_leBytes hv]

/-- The case of two bytes. -/
theorem readU16_of_holds (hlen : buf.length < 2 ^ 32) (hv : v < 2 ^ 16)
    (h : Holds buf off (leBytes 2 v)) : readU16 buf off = .ok v :=
  readLe_of_holds hlen (by decide) hv h

/-- The case of four bytes. -/
theorem readU32_of_holds (hlen : buf.length < 2 ^ 32) (hv : v < 2 ^ 32)
    (h : Holds buf off (leBytes 4 v)) : readU32 buf off = .ok v :=
  readLe_of_holds hlen (by decide) hv h

/-- The case of eight bytes. -/
theorem readU64_of_holds (hlen : buf.length < 2 ^ 32) (hv : v < 2 ^ 64)
    (h : Holds buf off (leBytes 8 v)) : readU64 buf off = .ok v :=
  readLe_of_holds hlen (by decide) hv h

end Reading

/-! ### The steps of the writer -/

section Writing

variable {out out' data more : Bytes} {off v w : ℕ} {field : String}

/-- A number passes the check of two bytes if it fits, and is unchanged. -/
@[simp] theorem checkedU16_eq_ok : checkedU16 v field = .ok w ↔ v < 2 ^ 16 ∧ v = w := by
  unfold checkedU16
  split
  · simp_all
  · simp_all [fail_ne_ok]

/-- The same for four bytes. -/
@[simp] theorem checkedU32_eq_ok : checkedU32 v field = .ok w ↔ v < 2 ^ 32 ∧ v = w := by
  unfold checkedU32
  split
  · simp_all
  · simp_all [fail_ne_ok]

/-- A write succeeds exactly inside the buffer. -/
theorem writeAt_eq_ok :
    writeAt out off data = .ok out' ↔
      off + data.length ≤ out.length ∧ overwrite out off data = out' := by
  unfold writeAt
  split
  · simp_all
  · simp_all [panic_ne_ok]

/-- Two writes side by side are one. -/
theorem writeAt_append (h : writeAt out off data = .ok out')
    {off' : ℕ} (hoff : off' = off + data.length) {out'' : Bytes}
    (h' : writeAt out' off' more = .ok out'') : writeAt out off (data ++ more) = .ok out'' := by
  rw [writeAt_eq_ok] at h h' ⊢
  obtain ⟨hfit, rfl⟩ := h
  obtain ⟨hfit', rfl⟩ := h'
  rw [length_overwrite hfit, hoff] at hfit'
  rw [hoff, overwrite_overwrite hfit', List.length_append]
  exact ⟨by omega, rfl⟩

/-- Growing a buffer appends zeros. -/
theorem resize_eq {len : ℕ} (h : out.length ≤ len) :
    resize out len = out ++ List.replicate (len - out.length) 0 := by
  rw [resize, List.take_of_length_le h]

/-- Alignment appends to a buffer and makes its length a multiple of eight. -/
theorem alignVec_spec (h : alignVec out 8 = .ok out') :
    ∃ pad, out' = out ++ pad ∧ 8 ∣ out'.length := by
  unfold alignVec at h
  simp only at h
  split at h
  · simp only [bind_eq_ok, Usize.add_eq_ok] at h
    obtain ⟨_, ⟨-, rfl⟩, hout⟩ := h
    cases hout
    refine ⟨_, resize_eq (by omega), ?_⟩
    rw [resize_eq (by omega), List.length_append, List.length_replicate]
    omega
  · cases h
    exact ⟨[], (List.append_nil _).symm, by omega⟩

end Writing

/-! ### Records -/

/-- The bytes of a payload's record. -/
def payloadRecord (p : ArtifactPayload) (nameOffset dataOffset : ℕ) : Bytes :=
  leBytes 2 p.kind.toU16 ++ leBytes 2 0 ++ leBytes 4 dataOffset ++ leBytes 4 p.bytes.length ++
    leBytes 4 nameOffset ++ leBytes 2 (utf8 p.name).length

/-- The bytes of an entry's record. -/
def entryRecord (e : ArtifactEntry) (symbolOffset : ℕ) : Bytes :=
  leBytes 2 e.kind.toU16 ++ leBytes 2 (if e.metadata.isSome then 1 else 0) ++
    leBytes 8 (e.metadata.getD 0).toNat ++ leBytes 4 symbolOffset ++
    leBytes 2 (utf8 e.symbol).length

/-- The record without its padding. -/
theorem length_payloadRecord (p : ArtifactPayload) (nameOffset dataOffset : ℕ) :
    (payloadRecord p nameOffset dataOffset).length = 18 := by
  simp [payloadRecord]

/-- The record of an entry has the same length. -/
theorem length_entryRecord (e : ArtifactEntry) (symbolOffset : ℕ) :
    (entryRecord e symbolOffset).length = 18 := by
  simp [entryRecord]

/-- A payload stands in the buffer: its record at `record`, its name and its data above `floor`. -/
def PayloadStored (floor : ℕ) (buf : Bytes) (record : ℕ) (p : ArtifactPayload) : Prop :=
  ∃ nameOffset dataOffset, nameOffset < 2 ^ 32 ∧ dataOffset < 2 ^ 32 ∧ floor ≤ nameOffset ∧
    floor ≤ dataOffset ∧ p.bytes.length < 2 ^ 32 ∧ (utf8 p.name).length < 2 ^ 16 ∧
    Holds buf record (payloadRecord p nameOffset dataOffset) ∧
    Holds buf nameOffset (utf8 p.name) ∧ Holds buf dataOffset p.bytes

/-- The record stands at its offset and the symbol where the record says, behind `floor`. -/
def EntryStored (floor : ℕ) (buf : Bytes) (record : ℕ) (e : ArtifactEntry) : Prop :=
  ∃ symbolOffset, symbolOffset < 2 ^ 32 ∧ floor ≤ symbolOffset ∧
    (utf8 e.symbol).length < 2 ^ 16 ∧ Holds buf record (entryRecord e symbolOffset) ∧
    Holds buf symbolOffset (utf8 e.symbol)

section Stored

variable {floor lo hi record : ℕ} {buf buf' : Bytes}

/-- Bytes that change elsewhere leave a stored payload alone. -/
theorem PayloadStored.keeps {p : ArtifactPayload} (h : PayloadStored floor buf record p)
    (hk : Keeps lo hi buf buf') (hrecord : record + 24 ≤ lo ∨ hi ≤ record) (hfloor : hi ≤ floor) :
    PayloadStored floor buf' record p := by
  obtain ⟨n, d, hn, hd, hfn, hfd, hl, hnl, hr, hname, hdata⟩ := h
  have hlen := length_payloadRecord p n d
  refine ⟨n, d, hn, hd, hfn, hfd, hl, hnl, hr.keeps hk (by omega), ?_, ?_⟩
  · exact hname.keeps hk (.inr (hfloor.trans hfn))
  · exact hdata.keeps hk (.inr (hfloor.trans hfd))

/-- Bytes that change elsewhere leave a stored entry alone. -/
theorem EntryStored.keeps {e : ArtifactEntry} (h : EntryStored floor buf record e)
    (hk : Keeps lo hi buf buf') (hrecord : record + 24 ≤ lo ∨ hi ≤ record) (hfloor : hi ≤ floor) :
    EntryStored floor buf' record e := by
  obtain ⟨n, hn, hfn, hnl, hr, hname⟩ := h
  have hlen := length_entryRecord e n
  exact ⟨n, hn, hfn, hnl, hr.keeps hk (by omega), hname.keeps hk (.inr (hfloor.trans hfn))⟩

end Stored

/-! ### The phases of the writer -/

/-- What a phase does to the buffer: it writes in its record area `[lo, hi)` and otherwise only
grows the buffer; if it has any item, the buffer ends aligned. -/
structure Written (lo hi : ℕ) (out out' : Bytes) : Prop where
  keeps : Keeps lo hi out out'
  grows : out.length ≤ out'.length
  aligned : lo < hi ∨ 8 ∣ out.length → 8 ∣ out'.length

/-- Nothing was written. -/
theorem Written.refl {lo : ℕ} {out : Bytes} : Written lo lo out out where
  keeps := .refl
  grows := le_rfl
  aligned h := h.resolve_left (lt_irrefl lo)

/-- Two writes one after the other, into neighbouring ranges. -/
theorem Written.trans {lo mid hi : ℕ} {out out' out'' : Bytes} (h : Written lo mid out out')
    (h' : Written mid hi out' out'') (hlo : lo ≤ mid) (hhi : mid ≤ hi) :
    Written lo hi out out'' where
  keeps := (h.keeps.mono le_rfl hhi).trans (h'.keeps.mono hlo le_rfl)
  grows := h.grows.trans h'.grows
  aligned := by
    intro hstart
    apply h'.aligned
    by_cases hmid : mid < hi
    · exact .inl hmid
    · exact .inr (h.aligned (by omega))

section Items

variable {start index floor : ℕ} {out out' : Bytes}

/-- Data is appended, then the record of it is filled in. -/
theorem written_of_append {record : ℕ} {more : Bytes} (data : Bytes) (hdata : data.length ≤ 24)
    (hrecord : record + 24 ≤ out.length) (haligned : 8 ∣ (out ++ more).length)
    (h : overwrite (out ++ more) record data = out') :
    Written record (record + 24) out out' ∧ Holds out' record data ∧
      ∀ off more', Holds (out ++ more) off more' → record + 24 ≤ off → Holds out' off more' := by
  have hfit : record + data.length ≤ (out ++ more).length := by
    rw [List.length_append]
    omega
  have hkeeps : Keeps record (record + 24) (out ++ more) out' := by
    rw [← h]
    exact .overwrite hfit le_rfl (by omega)
  have hlength : out'.length = (out ++ more).length := by rw [← h, length_overwrite hfit]
  refine ⟨⟨(Keeps.append more).trans hkeeps, ?_, ?_⟩, ?_, ?_⟩
  · rw [hlength, List.length_append]
    omega
  · intro _
    rwa [hlength]
  · rw [← h]
    exact holds_overwrite hfit
  · intro off more' hstands hoff
    exact hstands.keeps hkeeps (.inr hoff)

/-- What was appended between two texts is there. -/
theorem holds_middle (before data after : Bytes) :
    Holds (before ++ data ++ after) before.length data := by
  have hkeeps : Keeps 0 0 (before ++ data) (before ++ data ++ after) := .append after
  exact holds_append_self.keeps hkeeps (.inr (Nat.zero_le _))

/-- One round of the first loop: it writes the record and appends the payload's bytes and name. -/
theorem writePayload_spec {p : ArtifactPayload} (h : writePayload start out (p, index) = .ok out')
    (hrecord : start + index * 24 + 24 ≤ floor) (hfloor : floor ≤ out.length) :
    Written (start + index * 24) (start + index * 24 + 24) out out' ∧
      PayloadStored floor out' (start + index * 24) p := by
  simp only [writePayload, payloadRecordBytes, bind_eq_ok, checkedU16_eq_ok,
    checkedU32_eq_ok] at h
  obtain ⟨_, ⟨hname, rfl⟩, out₁, h₁, _, ⟨hdata, rfl⟩, out₂, h₂, a, ha, b, hb, c, hc, _,
    ⟨hlen, rfl⟩, d, hd, e, he, _, ⟨hnameLen, rfl⟩, hf⟩ := h
  obtain ⟨pad₁, rfl, -⟩ := alignVec_spec h₁
  obtain ⟨pad₂, rfl, haligned⟩ := alignVec_spec h₂
  -- the six fields are one write
  have hwrite := writeAt_append (writeAt_append (writeAt_append (writeAt_append (writeAt_append
    ha (by simp) hb) (by simp) hc) (by simp) hd) (by simp) he) (by simp) hf
  have hover := (writeAt_eq_ok.mp hwrite).2
  have hshape : out ++ utf8 p.name ++ pad₁ ++ p.bytes ++ pad₂ =
      out ++ (utf8 p.name ++ pad₁ ++ p.bytes ++ pad₂) := by
    simp only [List.append_assoc]
  obtain ⟨hwritten, hstands, hrest⟩ :=
    written_of_append (payloadRecord p out.length (out ++ utf8 p.name ++ pad₁).length)
      (by rw [length_payloadRecord]; decide) (by omega) (hshape ▸ haligned) (hshape ▸ hover)
  refine ⟨hwritten, out.length, (out ++ utf8 p.name ++ pad₁).length, hname, hdata, hfloor, ?_,
    hlen, hnameLen, hstands, hrest _ _ ?_ (by omega), hrest _ _ ?_ ?_⟩
  · simp only [List.length_append]
    omega
  · rw [List.append_assoc (utf8 p.name), List.append_assoc (utf8 p.name), ← List.append_assoc]
    exact holds_middle _ _ _
  · rw [← hshape]
    exact holds_middle _ _ _
  · simp only [List.length_append]
    omega

/-- One round of the second loop: it writes the record and appends the symbol. -/
theorem writeEntry_spec {e : ArtifactEntry} (h : writeEntry start out (e, index) = .ok out')
    (hrecord : start + index * 24 + 24 ≤ floor) (hfloor : floor ≤ out.length) :
    Written (start + index * 24) (start + index * 24 + 24) out out' ∧
      EntryStored floor out' (start + index * 24) e := by
  simp only [writeEntry, entryRecordBytes, bind_eq_ok, checkedU16_eq_ok, checkedU32_eq_ok] at h
  obtain ⟨_, ⟨hsymbol, rfl⟩, out₁, h₁, a, ha, b, hb, c, hc, d, hd, _, ⟨hlen, rfl⟩, hf⟩ := h
  obtain ⟨pad, rfl, haligned⟩ := alignVec_spec h₁
  have hwrite := writeAt_append (writeAt_append (writeAt_append (writeAt_append
    ha (by simp) hb) (by simp) hc) (by simp) hd) (by simp) hf
  have hover := (writeAt_eq_ok.mp hwrite).2
  rw [List.append_assoc] at hover haligned
  obtain ⟨hwritten, hstands, hrest⟩ :=
    written_of_append (entryRecord e out.length)
      (by rw [length_entryRecord]; decide) (by omega) haligned hover
  refine ⟨hwritten, out.length, hsymbol, hfloor, hlen, hstands, hrest _ _ ?_ (by omega)⟩
  rw [← List.append_assoc]
  exact holds_middle _ _ _

end Items

section Phase

variable {ι : Type} {start : ℕ} {write : Bytes → ι × ℕ → Run ArtifactError Bytes}
  {Stored : Bytes → ℕ → ι → Prop}

/-- **A phase stores all its items.**  Each pass stores its own, and later passes write in records
of their own. -/
theorem foldlM_stored (floor : ℕ)
    (hwrite : ∀ x index out out', write out (x, index) = .ok out' →
      start + index * 24 + 24 ≤ floor → floor ≤ out.length →
      Written (start + index * 24) (start + index * 24 + 24) out out' ∧
        Stored out' (start + index * 24) x)
    (hkeeps : ∀ x record lo hi out out', Stored out record x → Keeps lo hi out out' →
      record + 24 ≤ lo ∨ hi ≤ record → hi ≤ floor → Stored out' record x)
    {xs : List ι} {n : ℕ} {out out' : Bytes} (h : (xs.zipIdx n).foldlM write out = .ok out')
    (hfit : start + (n + xs.length) * 24 ≤ floor) (hfloor : floor ≤ out.length) :
    Written (start + n * 24) (start + (n + xs.length) * 24) out out' ∧
      ∀ i (hi : i < xs.length), Stored out' (start + (n + i) * 24) xs[i] := by
  induction xs generalizing n out with
  | nil =>
    cases h
    exact ⟨.refl, fun i hi => absurd hi (Nat.not_lt_zero i)⟩
  | cons x xs ih =>
    rw [List.zipIdx_cons, List.foldlM_cons] at h
    obtain ⟨mid, hx, hxs⟩ := bind_eq_ok.mp h
    rw [List.length_cons] at hfit
    obtain ⟨hwritten, hstored⟩ := hwrite x n out mid hx (by omega) hfloor
    obtain ⟨hrest, hall⟩ := ih hxs (by omega) (hfloor.trans hwritten.grows)
    have hnext : start + n * 24 + 24 = start + (n + 1) * 24 := by omega
    have hlast : n + (x :: xs).length = n + 1 + xs.length := by
      rw [List.length_cons]
      omega
    rw [hlast]
    refine ⟨(hnext ▸ hwritten).trans hrest (by omega) (by omega), ?_⟩
    intro i hi
    cases i with
    | zero => exact hkeeps _ _ _ _ _ _ hstored hrest.keeps (.inl (by omega)) (by omega)
    | succ i =>
      have := hall i (Nat.lt_of_succ_lt_succ hi)
      rwa [show n + 1 + i = n + (i + 1) from by omega] at this

end Phase

/-! ### What a blob is -/

/-- The bytes of the header. -/
def header (spec : ArtifactBundleSpec) (totalLen : ℕ) : Bytes :=
  artifactMagic ++
    leBytes 2 (if spec.compileOptions = .new then legacyArtifactVersion else artifactVersion) ++
    leBytes 2 headerBytes ++ leBytes 4 totalLen ++ leBytes 2 (utf8 spec.name).length ++
    leBytes 2 (utf8 spec.target).length ++ leBytes 2 spec.payloads.length ++
    leBytes 2 spec.entries.length ++ leBytes 8 spec.compileOptions.bits.toNat

/-- The header is 32 bytes long. -/
theorem length_header (spec : ArtifactBundleSpec) (totalLen : ℕ) :
    (header spec totalLen).length = 32 := by
  simp [header, artifactMagic]

/-- Where the target's name starts, behind the name of the bundle. -/
def targetStart (spec : ArtifactBundleSpec) : ℕ := headerBytes + (utf8 spec.name).length

/-- Where the table of payloads starts. -/
def payloadRecordStart (spec : ArtifactBundleSpec) : ℕ :=
  targetStart spec + (utf8 spec.target).length

/-- Where the table of entries starts. -/
def entryRecordStart (spec : ArtifactBundleSpec) : ℕ :=
  payloadRecordStart spec + spec.payloads.length * payloadRecordBytes

/-- Where the data starts. -/
def dataStart (spec : ArtifactBundleSpec) : ℕ :=
  entryRecordStart spec + spec.entries.length * entryRecordBytes

/-- Where the areas begin. -/
theorem areas (spec : ArtifactBundleSpec) :
    targetStart spec = 32 + (utf8 spec.name).length ∧
      payloadRecordStart spec = targetStart spec + (utf8 spec.target).length ∧
      entryRecordStart spec = payloadRecordStart spec + spec.payloads.length * 24 ∧
      dataStart spec = entryRecordStart spec + spec.entries.length * 24 :=
  ⟨rfl, rfl, rfl, rfl⟩

/-- What the writer insists on. -/
structure ValidSpec (spec : ArtifactBundleSpec) : Prop where
  name : spec.name ≠ ""
  target : spec.target ≠ ""
  payloads : spec.payloads ≠ []
  payload : ∀ p ∈ spec.payloads, p.name ≠ "" ∧ p.bytes ≠ []
  entry : ∀ e ∈ spec.entries, e.symbol ≠ ""

/-- The counts and lengths fit their header fields. -/
structure HeaderFits (spec : ArtifactBundleSpec) (totalLen : ℕ) : Prop where
  totalLen : totalLen < 2 ^ 32
  name : (utf8 spec.name).length < 2 ^ 16
  target : (utf8 spec.target).length < 2 ^ 16
  payloads : spec.payloads.length < 2 ^ 16
  entries : spec.entries.length < 2 ^ 16

/-- **A blob of `spec`**, by what stands where. -/
structure BlobStored (spec : ArtifactBundleSpec) (blob : Bytes) : Prop where
  valid : ValidSpec spec
  fits : HeaderFits spec blob.length
  aligned : 8 ∣ blob.length
  records : dataStart spec ≤ blob.length
  header : Holds blob 0 (header spec blob.length)
  name : Holds blob headerBytes (utf8 spec.name)
  target : Holds blob (targetStart spec) (utf8 spec.target)
  payload : ∀ i (hi : i < spec.payloads.length),
    PayloadStored (dataStart spec) blob (payloadRecordStart spec + i * 24) spec.payloads[i]
  entry : ∀ i (hi : i < spec.entries.length),
    EntryStored (dataStart spec) blob (entryRecordStart spec + i * 24) spec.entries[i]

/-- What `validate_spec` accepts. -/
theorem validSpec_of_validateSpec {spec : ArtifactBundleSpec} (h : validateSpec spec = .ok ()) :
    ValidSpec spec := by
  simp only [validateSpec, bind_eq_ok, reject_eq_ok] at h
  obtain ⟨_, hname, _, htarget, _, hpayloads, _, hpayload, hentry⟩ := h
  refine ⟨hname, htarget, hpayloads, ?_, ?_⟩
  · intro p hp
    have := forM_eq_ok.mp hpayload p hp
    simp only [bind_eq_ok, reject_eq_ok] at this
    obtain ⟨_, hn, hb⟩ := this
    exact ⟨hn, hb⟩
  · intro e he
    exact reject_eq_ok.mp (forM_eq_ok.mp hentry e he)

/-- The header is written over the zeros that were kept for it, and its numbers fit. -/
theorem writeHeader_spec {spec : ArtifactBundleSpec} {out out' : Bytes}
    (h : writeHeader spec out = .ok out') :
    HeaderFits spec out'.length ∧ out'.length = out.length ∧
      Keeps 0 32 out out' ∧ Holds out' 0 (header spec out'.length) := by
  simp only [writeHeader, bind_eq_ok, checkedU16_eq_ok, checkedU32_eq_ok] at h
  obtain ⟨_, ⟨htotal, rfl⟩, a, ha, b, hb, c, hc, d, hd, _, ⟨hname, rfl⟩, e, he, _,
    ⟨htarget, rfl⟩, f, hf, _, ⟨hpayloads, rfl⟩, g, hg, _, ⟨hentries, rfl⟩, k, hk, hl⟩ := h
  -- the nine fields are one write
  have hwrite : writeAt out 0 (header spec out.length) = .ok out' :=
    writeAt_append (writeAt_append (writeAt_append (writeAt_append (writeAt_append
      (writeAt_append (writeAt_append (writeAt_append ha (by rfl) hb) (by rfl) hc) (by rfl) hd)
      (by rfl) he) (by rfl) hf) (by rfl) hg) (by rfl) hk) (by rfl) hl
  obtain ⟨hfit, rfl⟩ := writeAt_eq_ok.mp hwrite
  rw [length_overwrite hfit]
  refine ⟨⟨htotal, hname, htarget, hpayloads, hentries⟩, rfl, ?_, holds_overwrite hfit⟩
  exact .overwrite hfit le_rfl (by rw [length_header])

/-! ### The writer's half -/

/-- The first loop stores every payload: by induction on the payloads, with the rest of the table
free. -/
theorem payloads_stored {start floor : ℕ} {ps : List ArtifactPayload} {out out' : Bytes}
    (h : ps.zipIdx.foldlM (writePayload start) out = .ok out')
    (hfit : start + ps.length * 24 ≤ floor) (hfloor : floor ≤ out.length) :
    Written start (start + ps.length * 24) out out' ∧
      ∀ i (hi : i < ps.length), PayloadStored floor out' (start + i * 24) ps[i] := by
  have := foldlM_stored floor (fun _ _ _ _ => writePayload_spec)
    (fun _ _ _ _ _ _ => PayloadStored.keeps) h (by omega) hfloor
  simpa only [Nat.zero_add, Nat.zero_mul, Nat.add_zero] using this

/-- The second loop stores every entry. -/
theorem entries_stored {start floor : ℕ} {es : List ArtifactEntry} {out out' : Bytes}
    (h : es.zipIdx.foldlM (writeEntry start) out = .ok out')
    (hfit : start + es.length * 24 ≤ floor) (hfloor : floor ≤ out.length) :
    Written start (start + es.length * 24) out out' ∧
      ∀ i (hi : i < es.length), EntryStored floor out' (start + i * 24) es[i] := by
  have := foldlM_stored floor (fun _ _ _ _ => writeEntry_spec)
    (fun _ _ _ _ _ _ => EntryStored.keeps) h (by omega) hfloor
  simpa only [Nat.zero_add, Nat.zero_mul, Nat.add_zero] using this

/-- The buffer before the first phase. -/
def skeleton (spec : ArtifactBundleSpec) : Bytes :=
  List.replicate headerBytes 0 ++ utf8 spec.name ++ utf8 spec.target ++
    List.replicate (spec.payloads.length * payloadRecordBytes) 0 ++
    List.replicate (spec.entries.length * entryRecordBytes) 0

section Skeleton

variable {spec : ArtifactBundleSpec}

/-- The skeleton ends where the data starts. -/
theorem length_skeleton : (skeleton spec).length = dataStart spec := by
  simp [skeleton, dataStart, entryRecordStart, payloadRecordStart, targetStart, Nat.add_assoc]

/-- The name stands behind the header. -/
theorem holds_skeleton_name : Holds (skeleton spec) headerBytes (utf8 spec.name) := by
  have := holds_middle (List.replicate headerBytes 0) (utf8 spec.name)
    (utf8 spec.target ++ List.replicate (spec.payloads.length * payloadRecordBytes) 0 ++
      List.replicate (spec.entries.length * entryRecordBytes) 0)
  simpa only [skeleton, List.append_assoc, List.length_replicate] using this

/-- The target stands behind the name. -/
theorem holds_skeleton_target : Holds (skeleton spec) (targetStart spec) (utf8 spec.target) := by
  have := holds_middle (List.replicate headerBytes 0 ++ utf8 spec.name) (utf8 spec.target)
    (List.replicate (spec.payloads.length * payloadRecordBytes) 0 ++
      List.replicate (spec.entries.length * entryRecordBytes) 0)
  simpa only [skeleton, List.append_assoc, List.length_append, List.length_replicate,
    targetStart] using this

/-- The writer, phase by phase. -/
theorem buildArtifactBlob_phases {blob : Bytes} (h : buildArtifactBlob spec = .ok blob) :
    ValidSpec spec ∧ ∃ stored full,
      spec.payloads.zipIdx.foldlM (writePayload (payloadRecordStart spec)) (skeleton spec)
        = .ok stored ∧
      spec.entries.zipIdx.foldlM (writeEntry (entryRecordStart spec)) stored = .ok full ∧
      writeHeader spec full = .ok blob := by
  simp only [buildArtifactBlob, bind_eq_ok, Usize.mul_eq_ok, Usize.add_eq_ok] at h
  obtain ⟨_, hvalid, _, ⟨-, rfl⟩, _, ⟨-, rfl⟩, _, ⟨-, rfl⟩, _, ⟨-, rfl⟩, stored, hpayloads, full,
    hentries, hheader⟩ := h
  have hstart : (List.replicate headerBytes (0 : UInt8) ++ utf8 spec.name ++
      utf8 spec.target).length = payloadRecordStart spec := by
    simp [payloadRecordStart, targetStart, Nat.add_assoc]
  have hnext : (List.replicate headerBytes (0 : UInt8) ++ utf8 spec.name ++ utf8 spec.target ++
      List.replicate (spec.payloads.length * payloadRecordBytes) 0).length =
        entryRecordStart spec := by
    rw [List.length_append, hstart, List.length_replicate]
    rfl
  simp only [resize_eq (Nat.le_add_right _ _), Nat.add_sub_cancel_left] at hpayloads hentries
  rw [hstart] at hpayloads
  rw [hnext] at hentries
  exact ⟨validSpec_of_validateSpec hvalid, stored, full, hpayloads, hentries, hheader⟩

/-- **The writer's half.** -/
theorem buildArtifactBlob_stored {blob : Bytes} (h : buildArtifactBlob spec = .ok blob) :
    BlobStored spec blob := by
  obtain ⟨hvalid, stored, full, hpayloads, hentries, hheader⟩ := buildArtifactBlob_phases h
  have h32 : headerBytes = 32 := rfl
  obtain ⟨htarget, hpayload, hentry, hdata⟩ := areas spec
  obtain ⟨hwritten, hps⟩ :=
    payloads_stored hpayloads (by omega) length_skeleton.ge
  obtain ⟨hwritten', hes⟩ := entries_stored hentries (by omega)
    (length_skeleton.ge.trans hwritten.grows)
  obtain ⟨hfits, hlength, hkeeps, hholds⟩ := writeHeader_spec hheader
  have hwhole := hwritten.trans hwritten' (Nat.le_add_right _ _) (Nat.le_add_right _ _)
  refine ⟨hvalid, hfits, ?_, ?_, hholds, ?_, ?_, ?_, ?_⟩
  · rw [hlength]
    have := List.length_pos_iff.mpr hvalid.payloads
    exact hwhole.aligned (.inl (by omega))
  · rw [hlength, ← length_skeleton]
    exact hwhole.grows
  · exact (holds_skeleton_name.keeps hwhole.keeps (.inl (by omega))).keeps hkeeps (.inr h32.ge)
  · exact (holds_skeleton_target.keeps hwhole.keeps (.inl (by omega))).keeps hkeeps
      (.inr (by omega))
  · intro i hi
    exact ((hps i hi).keeps hwritten'.keeps (.inl (by omega)) (by omega)).keeps hkeeps
      (.inr (by omega)) (by omega)
  · intro i hi
    exact (hes i hi).keeps hkeeps (.inr (by omega)) (by omega)

end Skeleton

/-! ### The reader's half -/

section Reader

variable {spec : ArtifactBundleSpec} {blob : Bytes} {start index floor : ℕ}

/-- A stored payload is parsed back. -/
theorem parsePayload_of_stored {p : ArtifactPayload} (hlen : blob.length < 2 ^ 32)
    (hname : p.name ≠ "") (hbytes : p.bytes ≠ [])
    (h : PayloadStored floor blob (start + index * 24) p) :
    parsePayload blob start index = .ok p := by
  obtain ⟨n, d, hn, hd, -, -, hl, hnl, hr, hnameHolds, hdataHolds⟩ := h
  have hend : start + index * 24 + 18 ≤ blob.length := by
    have := hr.le_length (List.ne_nil_of_length_pos (by rw [length_payloadRecord]; decide))
    rwa [length_payloadRecord] at this
  simp only [payloadRecord, holds_append, List.length_append, length_leBytes] at hr
  obtain ⟨⟨⟨⟨⟨hkind, -⟩, hdata⟩, hdataLen⟩, hnameOff⟩, hnameLen⟩ := hr
  simp only [parsePayload, payloadRecordBytes, bind_eq_ok, Usize.mul_eq_ok, Usize.add_eq_ok]
  refine ⟨_, ⟨by omega, rfl⟩, _, ⟨by omega, rfl⟩, _,
    readU16_of_holds hlen (ArtifactPayloadKind.toU16_lt _) hkind, p.kind, ?_, _,
    ⟨by omega, rfl⟩, _, readU32_of_holds hlen hd hdata, _,
    ⟨by omega, rfl⟩, _, readU32_of_holds hlen hl hdataLen, _,
    ⟨by omega, rfl⟩, _, readU32_of_holds hlen hn hnameOff, _,
    ⟨by omega, rfl⟩, _, readU16_of_holds hlen hnl hnameLen, _,
    readStr_of_holds hlen hname hnameHolds, _, readSlice_of_holds hlen hbytes hdataHolds, rfl⟩
  rw [okOr_eq_ok, ArtifactPayloadKind.fromU16_toU16]

/-- A stored entry is parsed back. -/
theorem parseEntry_of_stored {e : ArtifactEntry} (hlen : blob.length < 2 ^ 32)
    (hsymbol : e.symbol ≠ "") (h : EntryStored floor blob (start + index * 24) e) :
    parseEntry blob start index = .ok e := by
  obtain ⟨n, hn, -, hl, hr, hholds⟩ := h
  have hend : start + index * 24 + 18 ≤ blob.length := by
    have := hr.le_length (List.ne_nil_of_length_pos (by rw [length_entryRecord]; decide))
    rwa [length_entryRecord] at this
  simp only [entryRecord, holds_append, List.length_append, length_leBytes] at hr
  obtain ⟨⟨⟨⟨hkind, hflags⟩, hmetadata⟩, hsymbolOff⟩, hsymbolLen⟩ := hr
  simp only [parseEntry, entryRecordBytes, bind_eq_ok, Usize.mul_eq_ok, Usize.add_eq_ok]
  refine ⟨_, ⟨by omega, rfl⟩, _, ⟨by omega, rfl⟩, _,
    readU16_of_holds hlen (ArtifactEntryKind.toU16_lt _) hkind, e.kind, ?_, _,
    ⟨by omega, rfl⟩, _, readU16_of_holds hlen ?_ hflags, e.metadata, ?_, _,
    ⟨by omega, rfl⟩, _, readU32_of_holds hlen hn hsymbolOff, _,
    ⟨by omega, rfl⟩, _, readU16_of_holds hlen hl hsymbolLen, _,
    readStr_of_holds hlen hsymbol hholds, rfl⟩
  · rw [okOr_eq_ok, ArtifactEntryKind.fromU16_toU16]
  · split
    · decide
    · decide
  · -- the flag says whether there is metadata
    cases hm : e.metadata with
    | none => rfl
    | some m =>
      rw [hm] at hmetadata
      show (if _ then _ else _) = _
      rw [if_pos (by simp)]
      simp only [bind_eq_ok, Usize.add_eq_ok]
      refine ⟨_, ⟨by omega, rfl⟩, _, readU64_of_holds hlen (UInt64.toNat_lt _) hmetadata, ?_⟩
      simp

/-- The fields of the header. -/
theorem BlobStored.reads (h : BlobStored spec blob) :
    readU16 blob 8 =
        .ok (if spec.compileOptions = .new then legacyArtifactVersion else artifactVersion) ∧
      readU16 blob 10 = .ok headerBytes ∧ readU32 blob 12 = .ok blob.length ∧
      readU16 blob 16 = .ok (utf8 spec.name).length ∧
      readU16 blob 18 = .ok (utf8 spec.target).length ∧
      readU16 blob 20 = .ok spec.payloads.length ∧ readU16 blob 22 = .ok spec.entries.length ∧
      readU64 blob 24 = .ok spec.compileOptions.bits.toNat := by
  obtain ⟨htotal, hname, htarget, hpayloads, hentries⟩ := h.fits
  have hholds := h.header
  simp only [Artifacts.header, holds_append] at hholds
  obtain ⟨⟨⟨⟨⟨⟨⟨⟨-, h8⟩, h10⟩, h12⟩, h16⟩, h18⟩, h20⟩, h22⟩, h24⟩ := hholds
  refine ⟨readU16_of_holds htotal ?_ h8, readU16_of_holds htotal (by decide) h10,
    readU32_of_holds htotal htotal h12, readU16_of_holds htotal hname h16,
    readU16_of_holds htotal htarget h18, readU16_of_holds htotal hpayloads h20,
    readU16_of_holds htotal hentries h22, readU64_of_holds htotal (UInt64.toNat_lt _) h24⟩
  split
  · decide
  · decide

/-- A stored blob starts with the magic. -/
theorem BlobStored.magic (h : BlobStored spec blob) : sliceTo blob 8 = .ok artifactMagic := by
  have hlen := h.header.le_length (List.ne_nil_of_length_pos (by rw [length_header]; decide))
  rw [length_header] at hlen
  have hholds := h.header
  simp only [Artifacts.header, holds_append] at hholds
  rw [sliceTo, if_pos (by omega)]
  exact congrArg Except.ok hholds.1.1.1.1.1.1.1.1.slice_eq

/-- It holds at least its header. -/
theorem BlobStored.headerBytes_le (h : BlobStored spec blob) : headerBytes ≤ blob.length := by
  have hlen := h.header.le_length (List.ne_nil_of_length_pos (by rw [length_header]; decide))
  rwa [length_header] at hlen

/-- Its header has its length. -/
theorem BlobStored.readTotalLen (h : BlobStored spec blob) :
    readTotalLen blob = .ok blob.length := by
  obtain ⟨-, -, htotal, -⟩ := h.reads
  have hlen := h.headerBytes_le
  simp only [Artifacts.readTotalLen, bind_eq_ok]
  refine ⟨_, htotal, ?_⟩
  rw [if_neg (by omega)]
  simp [bind_eq_ok]

/-- So the reader of a section can step over it. -/
theorem BlobStored.artifactBlobTotalLen (h : BlobStored spec blob) :
    artifactBlobTotalLen blob = .ok blob.length := by
  have hlen := h.headerBytes_le
  simp only [Artifacts.artifactBlobTotalLen, bind_eq_ok, requireLen, reject_eq_ok]
  exact ⟨(), by omega, _, h.magic, (), not_not_intro rfl, h.readTotalLen⟩

/-- Version 1 has no options word, and only the default options are written as version 1. -/
theorem parseOptions_of_reads (h : readU64 blob 24 = .ok spec.compileOptions.bits.toNat) :
    (if (if spec.compileOptions = .new then legacyArtifactVersion else artifactVersion) =
        legacyArtifactVersion then .ok ArtifactCompileOptions.new
      else do ArtifactCompileOptions.fromBits (.ofNat (← readU64 blob 24))) =
      (.ok spec.compileOptions : Run ArtifactError ArtifactCompileOptions) := by
  by_cases hnew : spec.compileOptions = .new
  · rw [if_pos hnew, if_pos rfl, hnew]
  · rw [if_neg hnew, if_neg (by decide), h]
    show ArtifactCompileOptions.fromBits (.ofNat spec.compileOptions.bits.toNat) = _
    rw [UInt64.ofNat_toNat, ArtifactCompileOptions.fromBits, dif_pos spec.compileOptions.supported]

/-- Its tables are parsed to what was stored. -/
theorem BlobStored.parseBody (h : BlobStored spec blob) :
    parseBody blob (if spec.compileOptions = .new then legacyArtifactVersion else artifactVersion)
      = .ok spec := by
  obtain ⟨-, -, -, hnameLen, htargetLen, hpayloads, hentries, hoptions⟩ := h.reads
  have hlen := h.fits.totalLen
  have hrecords := h.records
  obtain ⟨htarget, hpayload, hentry, hdata⟩ := areas spec
  simp only [Artifacts.parseBody, bind_eq_ok, Usize.mul_eq_ok, Usize.add_eq_ok, okOr_eq_ok,
    Usize.checkedAdd_eq_some, requireLen, reject_eq_ok, headerBytes, payloadRecordBytes,
    entryRecordBytes]
  refine ⟨_, hnameLen, _, htargetLen, _, hpayloads, _, hentries, spec.compileOptions, ?_, spec.name,
    readStr_of_holds hlen h.valid.name h.name, targetStart spec, ⟨by omega, rfl⟩, spec.target,
    readStr_of_holds hlen h.valid.target h.target, payloadRecordStart spec, ⟨by omega, rfl⟩, _,
    ⟨by omega, rfl⟩, entryRecordStart spec, ⟨by omega, rfl⟩, (), by omega, _, ⟨by omega, rfl⟩,
    dataStart spec, ⟨by omega, rfl⟩, (), by omega, spec.payloads, ?_, spec.entries, ?_, rfl⟩
  · exact parseOptions_of_reads hoptions
  · refine mapM_range_eq_ok fun i hi => ?_
    obtain ⟨hname, hbytes⟩ := h.valid.payload _ (List.getElem_mem hi)
    exact parsePayload_of_stored hlen hname hbytes (h.payload i hi)
  · refine mapM_range_eq_ok fun i hi => ?_
    exact parseEntry_of_stored hlen (h.valid.entry _ (List.getElem_mem hi)) (h.entry i hi)

/-- **The reader's half.** -/
theorem BlobStored.parse (h : BlobStored spec blob) : parseArtifactBlob blob = .ok spec := by
  obtain ⟨hversion, hheaderLen, -⟩ := h.reads
  have hlen := h.headerBytes_le
  simp only [parseArtifactBlob, bind_eq_ok, requireLen, reject_eq_ok]
  refine ⟨(), by omega, _, h.magic, (), not_not_intro rfl, _, hversion, (), ?_, _, hheaderLen, ?_⟩
  · split
    · exact fun h => h.1 rfl
    · exact fun h => h.2 rfl
  · rw [if_neg (not_not_intro rfl)]
    simp only [bind_eq_ok]
    refine ⟨_, h.readTotalLen, blob, ?_, h.parseBody⟩
    rw [sliceTo, if_pos le_rfl, List.take_length]

end Reader

/-! ### Sections -/

/-- `blob` is a whole blob that carries `bundle`. -/
def ValidBlob (blob : Bytes) (bundle : ArtifactBundle) : Prop :=
  parseArtifactBlob blob = .ok bundle ∧ artifactBlobTotalLen blob = .ok blob.length

/-- What the writer returns is a blob for its bundle. -/
theorem validBlob_of_build {spec : ArtifactBundleSpec} {blob : Bytes}
    (h : buildArtifactBlob spec = .ok blob) : ValidBlob blob spec :=
  ⟨(buildArtifactBlob_stored h).parse, (buildArtifactBlob_stored h).artifactBlobTotalLen⟩

section Section

variable {blob start whole : Bytes} {bundle : ArtifactBundle} {off len : ℕ} {field : String}

/-- Bytes that the whole only extends are read as before. -/
theorem readSlice_of_isPrefix (h : start <+: whole) (hlen : off + len ≤ start.length) :
    readSlice start off len field = readSlice whole off len field := by
  obtain ⟨rest, rfl⟩ := h
  have hslice : slice (start ++ rest) off len = slice start off len := by
    rw [slice, slice, List.drop_append_of_le_length (by omega), List.take_append_of_le_length]
    rw [List.length_drop]
    omega
  have hrange : getRange (start ++ rest) off (off + len) = getRange start off (off + len) := by
    rw [getRange, getRange, Nat.add_sub_cancel_left, hslice, 
      if_pos ⟨by omega, by rw [List.length_append]; omega⟩, if_pos ⟨by omega, hlen⟩]
  unfold readSlice
  by_cases hfit : off + len < 2 ^ 64
  · rw [Usize.checkedAdd, if_pos hfit]
    show okOr (getRange start off (off + len)) _ = okOr (getRange (start ++ rest) off (off + len)) _
    rw [hrange]
  · rw [Usize.checkedAdd, if_neg hfit]
    rfl

/-- Four bytes inside a prefix are the same in the whole. -/
theorem readU32_of_isPrefix (h : start <+: whole) (hlen : off + 4 ≤ start.length) :
    readU32 start off = readU32 whole off := by
  rw [readU32, readU32, readLe, readLe, readSlice_of_isPrefix h hlen]

/-- A prefix of a prefix is one of the whole. -/
theorem sliceTo_of_isPrefix (h : start <+: whole) (hlen : len ≤ start.length) :
    sliceTo start len = sliceTo whole len := by
  obtain ⟨rest, rfl⟩ := h
  rw [sliceTo, sliceTo, if_pos hlen, if_pos (by rw [List.length_append]; omega),
    List.take_append_of_le_length hlen]

/-- What a blob's length says about its header. -/
theorem artifactBlobTotalLen_eq_ok {n : ℕ} :
    artifactBlobTotalLen blob = .ok n ↔
      sliceTo blob 8 = .ok artifactMagic ∧ readU32 blob 12 = .ok n ∧ headerBytes ≤ n ∧
        n ≤ blob.length := by
  constructor
  · intro h
    have hspec := artifactBlobTotalLen_spec h
    simp only [artifactBlobTotalLen, readTotalLen, bind_eq_ok, reject_eq_ok, not_not] at h
    obtain ⟨_, -, _, hmagic, _, rfl, m, hm, h⟩ := h
    split at h
    · exact absurd h fail_ne_ok
    · simp only [bind_eq_ok, reject_eq_ok] at h
      obtain ⟨_, -, hn⟩ := h
      cases hn
      exact ⟨hmagic, hm, hspec⟩
  · rintro ⟨hmagic, hn, hle, hlen⟩
    simp only [artifactBlobTotalLen, readTotalLen, bind_eq_ok, requireLen, reject_eq_ok]
    refine ⟨(), by omega, _, hmagic, (), not_not_intro rfl, n, hn, ?_⟩
    rw [if_neg (by omega)]
    simp [bind_eq_ok, hlen]

/-- A blob is recognised in front of anything. -/
theorem artifactBlobTotalLen_append {n : ℕ} (h : artifactBlobTotalLen blob = .ok n)
    (rest : Bytes) : artifactBlobTotalLen (blob ++ rest) = .ok n := by
  obtain ⟨hmagic, hn, hle, hlen⟩ := artifactBlobTotalLen_eq_ok.mp h
  have h32 : headerBytes = 32 := rfl
  have hext : blob <+: blob ++ rest := ⟨rest, rfl⟩
  refine artifactBlobTotalLen_eq_ok.mpr ⟨?_, ?_, hle, ?_⟩
  · rw [← sliceTo_of_isPrefix hext (by omega), hmagic]
  · rw [← readU32_of_isPrefix hext (by omega), hn]
  · rw [List.length_append]
    omega

/-- A cut blob is not recognised. -/
theorem artifactBlobTotalLen_take (h : artifactBlobTotalLen blob = .ok blob.length) {cut : ℕ}
    (hcut : cut < blob.length) : ∃ e, artifactBlobTotalLen (blob.take cut) = fail e := by
  have hsafe : (artifactBlobTotalLen (blob.take cut)).Safe := artifactBlobTotalLen_safe
  cases hrun : artifactBlobTotalLen (blob.take cut) with
  | error stop =>
    cases stop with
    | err e => exact ⟨e, rfl⟩
    | panic p => exact absurd hrun (hsafe p)
  | ok n =>
    -- a length that is read is the length of the whole blob
    have hspec := artifactBlobTotalLen_spec hrun
    obtain ⟨-, hn, -⟩ := artifactBlobTotalLen_eq_ok.mp hrun
    obtain ⟨-, hwhole, -⟩ := artifactBlobTotalLen_eq_ok.mp h
    have h32 : headerBytes = 32 := rfl
    have hext : blob.take cut <+: blob := ⟨blob.drop cut, List.take_append_drop cut blob⟩
    rw [readU32_of_isPrefix hext (by omega), hwhole] at hn
    cases hn
    rw [List.length_take] at hspec
    omega

/-- The magic is not padding. -/
theorem exists_ne_zero_of_magic (h : sliceTo blob 8 = .ok artifactMagic) {cut : ℕ}
    (hcut : 0 < cut) : ((blob.take cut).all (· == 0)) = false ∧ blob.take cut ≠ [] := by
  unfold sliceTo at h
  split at h
  · injection h with htake
    cases blob with
    | nil => exact absurd htake (by decide)
    | cons b rest =>
      obtain ⟨k, rfl⟩ := Nat.exists_eq_succ_of_ne_zero hcut.ne'
      rw [List.take_succ_cons] at htake ⊢
      injection htake with hb _
      rw [hb]
      simp
  · exact absurd h panic_ne_ok

/-- One round of the loop on a blob in front. -/
theorem parseArtifactSection_cons (h : ValidBlob blob bundle) (rest : Bytes) :
    parseArtifactSection (blob ++ rest) =
      (parseArtifactSection rest >>= fun bundles => .ok (bundle :: bundles)) := by
  obtain ⟨hparse, htotal⟩ := h
  have h32 : headerBytes = 32 := rfl
  have hspec := artifactBlobTotalLen_spec htotal
  obtain ⟨hmagic, -⟩ := artifactBlobTotalLen_eq_ok.mp (artifactBlobTotalLen_append htotal rest)
  have hpos : 0 < (blob ++ rest).length := by
    rw [List.length_append]
    omega
  have hnonzero := exists_ne_zero_of_magic hmagic hpos
  rw [List.take_length] at hnonzero
  rw [parseArtifactSection, if_neg hnonzero.2, if_neg (by rw [hnonzero.1]; decide)]
  split
  · rename_i stop hstop
    rw [artifactBlobTotalLen_append htotal rest] at hstop
    cases hstop
  · rename_i n hn
    rw [artifactBlobTotalLen_append htotal rest] at hn
    cases hn
    rw [if_pos (by rw [List.length_append]; omega), List.take_left, List.drop_left, hparse]
    rfl

/-- Padding alone is an empty section. -/
@[simp] theorem parseArtifactSection_padding (n : ℕ) :
    parseArtifactSection (List.replicate n 0) = .ok [] := by
  rw [parseArtifactSection]
  split
  · rfl
  · rw [if_pos (by simp)]

/-- Blobs with padding behind them are read one after the other. -/
theorem parseArtifactSection_blobs {blobs : List Bytes} {bundles : List ArtifactBundle}
    (h : List.Forall₂ ValidBlob blobs bundles) (n : ℕ) :
    parseArtifactSection (blobs.flatten ++ List.replicate n 0) = .ok bundles := by
  induction h with
  | nil => exact parseArtifactSection_padding n
  | cons hblob _ ih =>
    rw [List.flatten_cons, List.append_assoc, parseArtifactSection_cons hblob, ih]
    rfl

/-- A section that ends inside its first blob is rejected. -/
theorem parseArtifactSection_take (h : ValidBlob blob bundle) {cut : ℕ} (hpos : 0 < cut)
    (hcut : cut < blob.length) : ∃ e, parseArtifactSection (blob.take cut) = fail e := by
  obtain ⟨e, he⟩ := artifactBlobTotalLen_take h.2 hcut
  have hnonzero := exists_ne_zero_of_magic (artifactBlobTotalLen_eq_ok.mp h.2).1 hpos
  refine ⟨e, ?_⟩
  rw [parseArtifactSection, if_neg hnonzero.2, if_neg (by rw [hnonzero.1]; decide)]
  split
  · rename_i stop hstop
    rw [he] at hstop
    cases hstop
    rfl
  · rename_i n hn
    rw [he] at hn
    cases hn

/-- Cut between two blobs, a section is the blobs in front. -/
theorem parseArtifactSection_boundary {blobs : List Bytes} {bundles : List ArtifactBundle}
    (h : List.Forall₂ ValidBlob blobs bundles) (k : ℕ) :
    parseArtifactSection (blobs.flatten.take (blobs.take k).flatten.length) =
      .ok (bundles.take k) := by
  have htake : blobs.flatten.take (blobs.take k).flatten.length = (blobs.take k).flatten := by
    conv_lhs => rw [← List.take_append_drop k blobs, List.flatten_append]
    rw [List.take_append_drop, List.take_left]
  have := parseArtifactSection_blobs (List.forall₂_take k h) 0
  rwa [List.replicate_zero, List.append_nil, ← htake] at this

/-- The cut is inside the first blob, or in what follows it. -/
theorem parseArtifactSection_cut {blobs : List Bytes} {bundles : List ArtifactBundle}
    (h : List.Forall₂ ValidBlob blobs bundles) {cut : ℕ} (hcut : cut ≤ blobs.flatten.length)
    (hinside : ∀ k ≤ blobs.length, cut ≠ (blobs.take k).flatten.length) :
    ∃ e, parseArtifactSection (blobs.flatten.take cut) = fail e := by
  induction h generalizing cut with
  | nil => exact absurd (Nat.le_zero.mp hcut) (hinside 0 le_rfl)
  | @cons blob bundle blobs bundles hblob _ ih =>
    rw [List.flatten_cons, List.length_append] at hcut
    rw [List.flatten_cons]
    by_cases hlt : cut < blob.length
    · rw [List.take_append_of_le_length hlt.le]
      exact parseArtifactSection_take hblob
        (Nat.pos_of_ne_zero (hinside 0 (Nat.zero_le _))) hlt
    · -- the first blob is whole: what is left is a cut of the rest
      obtain ⟨more, rfl⟩ := Nat.exists_eq_add_of_le (not_lt.mp hlt)
      rw [List.take_length_add_append, parseArtifactSection_cons hblob]
      obtain ⟨e, hfail⟩ := ih (Nat.le_of_add_le_add_left hcut) (by
        intro k hk hmore
        apply hinside (k + 1) (Nat.succ_le_succ hk)
        rw [List.take_succ_cons, List.flatten_cons, List.length_append, hmore])
      exact ⟨e, by rw [hfail]; rfl⟩

end Section

/-- **What is written is read back**, from any number of blobs with any padding after them. -/
theorem parseArtifactSection_build {specs : List ArtifactBundleSpec} {blobs : List Bytes}
    (h : List.Forall₂ (fun spec blob => buildArtifactBlob spec = .ok blob) specs blobs)
    (padding : ℕ) :
    parseArtifactSection (blobs.flatten ++ List.replicate padding 0) = .ok specs ∧
      ∀ blob ∈ blobs, 8 ∣ blob.length := by
  constructor
  · exact parseArtifactSection_blobs (h.flip.imp fun _ _ => validBlob_of_build) padding
  · induction h with
    | nil => exact List.forall_mem_nil _
    | cons hblob _ ih =>
      exact List.forall_mem_cons.mpr ⟨(buildArtifactBlob_stored hblob).aligned, ih⟩

/-- A bundle with one payload and one entry. -/
def sampleSpec : ArtifactBundleSpec where
  name := "k"
  target := "sm"
  compileOptions := .withDebugPolicy .new .full
  payloads := [⟨.ptx, "p", [1, 2, 3]⟩]
  entries := [⟨"f", .kernel, some 7⟩]

/-- Its blob. -/
def sampleBlob : Bytes := (buildArtifactBlob sampleSpec).toOption.getD []

/-- The blob is what the writer builds. -/
theorem buildArtifactBlob_sampleSpec : buildArtifactBlob sampleSpec = .ok sampleBlob := by
  decide +kernel

theorem parseArtifactSection_build_samples :
    parseArtifactSection ([sampleBlob, sampleBlob].flatten ++ List.replicate 5 0) =
        .ok [sampleSpec, sampleSpec] ∧
      ∀ blob ∈ [sampleBlob, sampleBlob], 8 ∣ blob.length :=
  parseArtifactSection_build
    (.cons buildArtifactBlob_sampleSpec (.cons buildArtifactBlob_sampleSpec .nil)) 5

/-- **Untrusted sections.**  No bytes make a reader panic, and no cut of a section loses a bundle:
cut between blobs it gives the bundles before the cut, cut inside a blob it is an error. -/
theorem artifactReaders_spec :
    (∀ bytes, (parseArtifactBlob bytes).Safe) ∧ (∀ bytes, (parseArtifactSection bytes).Safe) ∧
      ∀ blobs bundles, List.Forall₂ ValidBlob blobs bundles →
        (∀ k ≤ blobs.length,
          parseArtifactSection (blobs.flatten.take (blobs.take k).flatten.length) =
            .ok (bundles.take k)) ∧
        ∀ cut ≤ blobs.flatten.length,
          (∀ k ≤ blobs.length, cut ≠ (blobs.take k).flatten.length) →
            ∃ e, parseArtifactSection (blobs.flatten.take cut) = fail e := by
  refine ⟨parseArtifactBlob_safe, parseArtifactSection_safe, ?_⟩
  intro blobs bundles h
  constructor
  · intro k _
    exact parseArtifactSection_boundary h k
  · intro cut hcut hinside
    exact parseArtifactSection_cut h hcut hinside

theorem artifactReaders_spec_sample :
    ∃ e, parseArtifactSection ([sampleBlob].flatten.take 40) = fail e := by
  have hvalid := List.Forall₂.cons (validBlob_of_build buildArtifactBlob_sampleSpec) .nil
  exact (artifactReaders_spec.2.2 [sampleBlob] [sampleSpec] hvalid).2 40 (by decide +kernel)
    (by decide +kernel)

end CudaOxide.Artifacts
