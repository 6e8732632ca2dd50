import CudaOxide.Lib.Reader
import CudaOxide.TileIr.Encoding
import CudaOxide.TileIr.Requirements

/-!
# Reading bytecode

The primitives of `Reader` (`cutile-ir/src/bytecode/decoder.rs`), and for each of them what it makes
of the bytes that the matching primitive of `EncodingWriter` appends.

* `readByte`, `readBytes`, `readVarint`, `readLeI64`, … — numbers.
* `skipPadding` — the bytes that align a position.
* `readTable` — a count, a table of offsets, and the entries the offsets cut the rest into.
-/

namespace CudaOxide.TileIr

open CudaOxide.Lib CudaOxide.Lib.Bytes

/-- How the decoder can go down. -/
inductive DecodeFault where
  /-- A position and a length that do not add up to an address. -/
  | overflow
  /-- A slice whose end lies before its start or behind the data. -/
  | range
  /-- Room asked for by a count that the input cannot back. -/
  | allocation
  deriving DecidableEq, Repr

/-- `DecodeError`. -/
inductive DecodeError where
  | unexpectedEnd
  | varintOverflow
  | paddingByte (got : UInt8)
  | invalidMagic
  | producerIndex
  | attributeNesting
  | floatAttributeType
  | attributeLength
  | unknownAttributeTag
  | debugAttributeOffsets
  | unknownDebugTag (tag : UInt8)
  | debugIndexOffsets
  deriving DecidableEq, Repr

/-- A decoder. -/
abbrev Decode := Read DecodeFault DecodeError

namespace Decode

/-! ### Primitives -/

/-- `read_byte`. -/
def readByte : Decode UInt8 := fun r =>
  match r.data[r.pos]? with
  | some b => .ok (.ok b, r.advance 1)
  | none => .ok (.error .unexpectedEnd, r)

/-- The sum of the position and the length is taken before it is compared with the length of the
data. -/
def readBytes (n : ℕ) : Decode Bytes := fun r =>
  if 2 ^ 64 ≤ r.pos + n then .error .overflow
  else if r.data.length < r.pos + n then .ok (.error .unexpectedEnd, r)
  else .ok (.ok (slice r.data r.pos n), r.advance n)

/-- The groups of seven bits from `shift` on; ten of them at most. -/
def readVarintFrom : ℕ → UInt64 → ℕ → Decode UInt64
  | 0, _, _ => Read.fail .varintOverflow
  | k + 1, result, shift => do
    let b ← readByte
    let result' := result ||| (UInt64.ofNat (b.toNat % 128) <<< UInt64.ofNat shift)
    if b.toNat < 128 then return result' else readVarintFrom k result' (shift + 7)

/-- `read_varint`: at most ten bytes. -/
def readVarint : Decode ℕ := do return (← readVarintFrom 10 0 0).toNat

/-- A little-endian word of `k` bytes. -/
def readLe (k : ℕ) : Decode ℕ := do return ofLeBytes (← readBytes k)

/-- `read_le_i32`. -/
def readLeI32 : Decode Int32 := do return (UInt32.ofNat (← readLe 4)).toInt32

/-- `read_le_i64`. -/
def readLeI64 : Decode Int64 := do return (UInt64.ofNat (← readLe 8)).toInt64

/-- Padding bytes, each with its fixed value. -/
def skipPaddingBytes : ℕ → Decode Unit
  | 0 => return ()
  | n + 1 => do
    let b ← readByte
    if b = 0xCB then skipPaddingBytes n else Read.fail (.paddingByte b)

/-- `skip_padding`: up to the next multiple of the alignment. -/
def skipPadding (alignment : ℕ) : Decode Unit := do
  let r ← Read.cursor
  if alignment < 2 then return ()
  else skipPaddingBytes ((alignment - r.pos % alignment) % alignment)

/-- Room for `count` elements (`Vec::with_capacity`).  The allocator is asked for it before the
first element is read, so no more than the bytes there are should ever be asked for. -/
def reserve (count : ℕ) : Decode Unit := fun r =>
  if r.data.length < count then .error .allocation else .ok (.ok (), r)

/-- Everything that is left. -/
def readRemaining : Decode Bytes := do
  let r ← Read.cursor
  readBytes (r.data.length - r.pos)

/-- `data[start..stop]` -/
def range (data : Bytes) (start stop : ℕ) : Decode Bytes :=
  if start ≤ stop ∧ stop ≤ data.length then return slice data start (stop - start)
  else Read.abort .range

/-! ### Tables -/

section

variable {α : Type} (entry : Decode α)

/-- Each offset starts an entry that ends where the next one starts. -/
def readEntries (data : Bytes) : List ℕ → Decode (List α)
  | [] => return []
  | start :: offsets => do
    let piece ← range data start (offsets.headD data.length)
    let a ← Read.within piece entry
    let as ← readEntries data offsets
    return a :: as

/-- A count, offsets of `width` bytes, and the entries. -/
def readTable (width : ℕ) : Decode (List α) := do
  let count ← readVarint
  if count = 0 then return []
  else do
    skipPadding width
    reserve count
    let offsets ← (readLe width).times count
    let data ← readRemaining
    reserve count
    readEntries entry data offsets

end

/-! ### What the primitives read -/

section

variable {pos n count : ℕ} {bs : Bytes}

/-- A byte is read back. -/
theorem readByte_consumes (b : UInt8) : Consumes pos [b] readByte b := by
  intro r _ _ _ hb
  have hhead : r.data[r.pos]? = some b := hb 0 Nat.one_pos
  simp only [readByte, hhead]
  rfl

/-- Bytes are read back. -/
theorem readBytes_consumes (hn : bs.length = n) : Consumes pos bs (readBytes n) bs := by
  intro r hr _ hlen hbs
  have hsmall : ¬2 ^ 64 ≤ r.pos + n := by
    unfold Cursor.InMemory at hr
    omega
  have hfits : ¬r.data.length < r.pos + n := by omega
  rw [readBytes, if_neg hsmall, if_neg hfits, ← hn, hbs.slice_eq]

/-- A little-endian word is read back. -/
theorem readLe_consumes {k v : ℕ} (hv : v < 256 ^ k) : Consumes pos (leBytes k v) (readLe k) v := by
  have h := (@readBytes_consumes pos k _ (length_leBytes k v)).map (g := ofLeBytes)
  rwa [ofLeBytes_leBytes hv] at h

/-- A signed word of 32 bits is read back. -/
theorem readLeI32_consumes (v : Int32) :
    Consumes pos (leBytes 4 v.toUInt32.toNat) readLeI32 v := by
  have h := (@readLe_consumes pos 4 _ v.toUInt32.toNat_lt).map
    (g := fun v => (UInt32.ofNat v).toInt32)
  rwa [UInt32.ofNat_toNat, Int32.toInt32_toUInt32] at h

/-- A signed word of 64 bits is read back. -/
theorem readLeI64_consumes (v : Int64) :
    Consumes pos (leBytes 8 v.toUInt64.toNat) readLeI64 v := by
  have h := (@readLe_consumes pos 8 _ v.toUInt64.toNat_lt).map
    (g := fun v => (UInt64.ofNat v).toInt64)
  rwa [UInt64.ofNat_toNat, Int64.toInt64_toUInt64] at h

/-- Seven bits above the ones that are there. -/
theorem toNat_or_shiftLeft {result : UInt64} {d shift : ℕ} (hshift : shift < 64)
    (hresult : result.toNat < 2 ^ shift) (hd : d * 2 ^ shift < 2 ^ 64) :
    (result ||| (UInt64.ofNat d <<< UInt64.ofNat shift)).toNat = result.toNat + d * 2 ^ shift := by
  have hd64 : d < 2 ^ 64 := (Nat.le_mul_of_pos_right d (Nat.two_pow_pos shift)).trans_lt hd
  rw [UInt64.toNat_or, UInt64.toNat_shiftLeft, UInt64.toNat_ofNat_of_lt' hd64,
    UInt64.toNat_ofNat_of_lt' (hshift.trans (by decide)), Nat.mod_eq_of_lt hshift, Nat.shiftLeft_eq,
    Nat.mod_eq_of_lt hd, Nat.or_comm, Nat.mul_comm, ← Nat.two_pow_add_eq_or_of_lt hresult,
    Nat.add_comm]

/-- The groups that are left of a number are read back. -/
theorem readVarintFrom_consumes {k shift : ℕ} {result : UInt64} (hk : shift + 7 * k = 70)
    (hshift : shift < 64) (hresult : result.toNat < 2 ^ shift) (hn : n * 2 ^ shift < 2 ^ 64) :
    Consumes pos (varint n) (readVarintFrom k result shift)
      (UInt64.ofNat (result.toNat + n * 2 ^ shift)) := by
  induction k generalizing n shift result pos with
  | zero => omega
  | succ k ih =>
    -- the last byte has its top bit clear
    by_cases hlast : n < 128
    · have hb : (UInt8.ofNat n).toNat = n := by rw [UInt8.toNat_ofNat']; omega
      rw [varint, Varint.encode_of_lt hlast]
      apply (readByte_consumes (UInt8.ofNat n)).last
      rw [hb, if_pos hlast, Nat.mod_eq_of_lt hlast, ← toNat_or_shiftLeft hshift hresult hn,
        UInt64.ofNat_toNat]
      exact Consumes.pure
    -- seven more bits stand in the byte, and the rest behind it
    · have hb : (UInt8.ofNat (n % 128 + 128)).toNat = n % 128 + 128 := by
        rw [UInt8.toNat_ofNat']; omega
      have hsplit : n % 128 * 2 ^ shift + n / 128 * 2 ^ (shift + 7) = n * 2 ^ shift := by
        rw [pow_add, Nat.mul_comm (2 ^ shift), ← Nat.mul_assoc, ← Nat.add_mul]
        congr 1
        omega
      have hrest : n / 128 * 2 ^ (shift + 7) < 2 ^ 64 := by omega
      -- a number with more bytes to come is at least 128, so the shift stays in the word
      have hmore : shift + 7 < 64 := by
        have hone : 1 ≤ n / 128 := by omega
        have := (Nat.le_mul_of_pos_left (2 ^ (shift + 7)) hone).trans_lt hrest
        exact (Nat.pow_lt_pow_iff_right (by omega)).mp this
      have hvalue := toNat_or_shiftLeft hshift hresult (d := n % 128) (by omega)
      have hfits : result.toNat + n % 128 * 2 ^ shift < 2 ^ (shift + 7) := by
        have : n % 128 * 2 ^ shift ≤ 127 * 2 ^ shift := Nat.mul_le_mul_right _ (by omega)
        rw [pow_add]
        omega
      rw [varint, Varint.encode_of_le (by omega)]
      apply (readByte_consumes (UInt8.ofNat (n % 128 + 128))).bind
      rw [hb, if_neg (by omega), Nat.add_mod_right, Nat.mod_mod, ← hsplit, ← Nat.add_assoc,
        ← hvalue]
      exact ih (by omega) hmore (by rwa [hvalue]) hrest

/-- A number is read back. -/
theorem readVarint_consumes (hn : n < 2 ^ 64) : Consumes pos (varint n) readVarint n := by
  have h := (@readVarintFrom_consumes pos n 10 0 0 rfl (by omega) Nat.one_pos (by omega)).map
    (g := UInt64.toNat)
  rwa [UInt64.toNat_ofNat_of_lt' (by simpa using hn), UInt64.toNat_zero, pow_zero, Nat.mul_one,
    Nat.zero_add] at h

/-- Padding bytes are skipped. -/
theorem skipPaddingBytes_consumes :
    Consumes pos (List.replicate n 0xCB) (skipPaddingBytes n) () := by
  induction n generalizing pos with
  | zero => exact Consumes.pure
  | succ n ih => exact (readByte_consumes 0xCB).bind ih

/-- Asking for the cursor consumes nothing. -/
theorem cursor_bind_consumes {α : Type} {f : Cursor → Decode α} {a : α}
    (hf : ∀ r : Cursor, r.pos = pos → Consumes pos bs (f r) a) :
    Consumes pos bs (Read.cursor >>= f) a := by
  intro r hr hpos hlen hbs
  exact hf r hpos r hr hpos hlen hbs

/-- Padding is skipped. -/
theorem skipPadding_consumes (alignment : ℕ) :
    Consumes pos (padding pos alignment) (skipPadding alignment) () := by
  apply cursor_bind_consumes
  intro r hpos
  unfold padding
  split
  · exact Consumes.pure
  · rw [hpos]
    exact skipPaddingBytes_consumes

end

/-! ### Tables -/

section

variable {α β : Type} {pos count : ℕ} {bs front rest : Bytes} {f : Unit → Decode β} {b : β}

/-- Reserving consumes nothing. -/
theorem reserve_bind_consumes (hcount : count ≤ bs.length) (hf : Consumes pos bs (f ()) b) :
    Consumes pos bs (reserve count >>= f) b := by
  intro r hr hpos hlen hbs
  have hroom : ¬r.data.length < count := by omega
  have hrun : reserve count r = .ok (.ok (), r) := by rw [reserve, if_neg hroom]
  simpa only [Bind.bind, hrun] using hf r hr hpos hlen hbs

/-- Reserving leaves the bytes behind the cursor. -/
theorem reserve_bind_behind (hcount : count ≤ (front ++ rest).length) :
    (reserve count >>= f).behind front rest = (f ()).behind front rest := by
  have hrun : reserve count ⟨front ++ rest, front.length⟩ =
      .ok (.ok (), ⟨front ++ rest, front.length⟩) := if_neg (Nat.not_lt.mpr hcount)
  simp only [Read.behind, Bind.bind, hrun]

/-- Reading what remains leaves nothing. -/
theorem readRemaining_bind_behind {g : Bytes → Decode β} (hmem : (front ++ rest).length < 2 ^ 63) :
    (readRemaining >>= g).behind front rest = (g rest).behind (front ++ rest) [] := by
  have hlen : rest.length = (front ++ rest).length - front.length := by
    rw [List.length_append, Nat.add_sub_cancel_left]
  have hrun := readBytes_consumes hlen ⟨front ++ rest, front.length⟩ hmem rfl
    (by rw [List.length_append]) holds_append_self
  have hremaining : readRemaining ⟨front ++ rest, front.length⟩ =
      .ok (.ok rest, ⟨front ++ rest, front.length + rest.length⟩) := hrun
  simp only [Read.behind, Bind.bind, hremaining, List.append_nil, List.length_append]

/-- Where each entry starts, when the first one starts at `start`. -/
def startsFrom (start : ℕ) : List Bytes → List ℕ
  | [] => []
  | e :: es => start :: startsFrom (start + e.length) es

/-- There is one start for each part. -/
theorem length_startsFrom (start : ℕ) (es : List Bytes) :
    (startsFrom start es).length = es.length := by
  induction es generalizing start with
  | nil => rfl
  | cons e es ih => rw [startsFrom, List.length_cons, List.length_cons, ih]

/-- The first part starts at the start. -/
theorem headD_startsFrom (start : ℕ) (es : List Bytes) :
    (startsFrom start es).headD (start + es.flatten.length) = start := by
  cases es with
  | nil => rfl
  | cons e es => rfl

/-- The offsets cut the data into its entries. -/
theorem readEntries_consumes {entry : Decode α} {before : Bytes} {es : List Bytes} {as : List α}
    (h : List.Forall₂ (fun e a => Finishes [] e entry a) es as) :
    Consumes pos [] (readEntries entry (before ++ es.flatten)
      (startsFrom before.length es)) as := by
  induction h generalizing before pos with
  | nil => exact Consumes.pure
  | @cons e a es as he _ ih =>
    -- an entry stops where the next one starts
    have hstop : (startsFrom (before.length + e.length) es).headD
        (before ++ (e :: es).flatten).length = before.length + e.length := by
      rw [List.length_append, List.flatten_cons, List.length_append, ← Nat.add_assoc]
      exact headD_startsFrom _ _
    have hpiece : slice (before ++ (e :: es).flatten) before.length e.length = e := by
      rw [slice, List.drop_left, List.flatten_cons, List.take_left]
    rw [startsFrom, readEntries, hstop, range, if_pos, Nat.add_sub_cancel_left, hpiece]
    · apply Consumes.pure.seq
      apply he.within.seq
      have hrest := @ih pos (before ++ e)
      rw [List.length_append, List.append_assoc] at hrest
      exact hrest.map
    · rw [List.flatten_cons, List.length_append, List.length_append]
      omega

/-- A table as it is written: a count, the offsets, the data. -/
def tableBytes (width : ℕ) (offsets : List ℕ) (data : Bytes) : Bytes :=
  varint offsets.length ++ (padding (varint offsets.length).length width ++
    (offsets.flatMap (leBytes width) ++ data))

/-- Words of `k` bytes each. -/
theorem length_flatMap_leBytes (k : ℕ) (vs : List ℕ) :
    (vs.flatMap (leBytes k)).length = k * vs.length := by
  induction vs with
  | nil => rfl
  | cons v vs ih =>
    rw [List.flatMap_cons, List.length_append, length_leBytes, ih, List.length_cons, Nat.mul_succ,
      Nat.add_comm]

/-- The offsets and the data are read as they were written. -/
theorem readTable_behind {entry : Decode α} {width : ℕ} {offsets : List ℕ} {data : Bytes}
    (hwidth : 0 < width) (hne : offsets ≠ []) (hoffsets : ∀ o ∈ offsets, o < 256 ^ width)
    (hmem : (tableBytes width offsets data).length < 2 ^ 63) :
    (readTable entry width).behind [] (tableBytes width offsets data) =
      (readEntries entry data offsets).behind (tableBytes width offsets data) [] := by
  -- an offset takes at least one byte, so the count is not above the table
  have hroom : offsets.length ≤ (offsets.flatMap (leBytes width)).length := by
    rw [length_flatMap_leBytes]
    exact Nat.le_mul_of_pos_left _ hwidth
  unfold tableBytes at hmem ⊢
  simp only [List.length_append] at hmem
  have hzero : offsets.length ≠ 0 := fun h => hne (List.eq_nil_of_length_eq_zero h)
  have hread : ∀ pos, Consumes pos (offsets.flatMap (leBytes width))
      ((readLe width).times offsets.length) offsets := fun pos =>
    Consumes.times fun o ho _ => readLe_consumes (hoffsets o ho)
  have hcount : Consumes ([] : Bytes).length _ readVarint offsets.length :=
    readVarint_consumes (by omega)
  have hpadding : Consumes ([] ++ varint offsets.length).length
      (padding (varint offsets.length).length width) (skipPadding width) () :=
    skipPadding_consumes width
  unfold readTable
  rw [hcount.behind_bind (by simp only [List.length_append, List.length_nil]; omega), if_neg hzero,
    hpadding.behind_bind (by simp only [List.length_append, List.length_nil]; omega),
    reserve_bind_behind (by simp only [List.length_append]; omega),
    (hread _).behind_bind (by simp only [List.length_append, List.length_nil]; omega),
    readRemaining_bind_behind (by simp only [List.length_append, List.length_nil]; omega),
    reserve_bind_behind (by simp only [List.length_append]; omega)]
  simp only [List.nil_append, List.append_assoc]

/-- A table is read as it was written. -/
theorem readTable_finishes {entry : Decode α} {width : ℕ} {es : List Bytes} {as : List α}
    (h : List.Forall₂ (fun e a => Finishes [] e entry a) es as) (hwidth : 0 < width) (hne : es ≠ [])
    (hstarts : ∀ s ∈ startsFrom 0 es, s < 256 ^ width)
    (hmem : (tableBytes width (startsFrom 0 es) es.flatten).length < 2 ^ 63) :
    Finishes [] (tableBytes width (startsFrom 0 es) es.flatten) (readTable entry width) as := by
  have hne : startsFrom 0 es ≠ [] := by
    intro hnil
    apply hne
    rw [← List.length_eq_zero_iff, ← length_startsFrom 0, hnil, List.length_nil]
  have hentries : Consumes (tableBytes width (startsFrom 0 es) es.flatten).length []
      (readEntries entry es.flatten (startsFrom 0 es)) as :=
    @readEntries_consumes _ _ _ [] _ _ h
  obtain ⟨r, hrun⟩ := hentries.finishes (by rwa [List.append_nil])
  exact ⟨r, (readTable_behind hwidth hne hstarts hmem).trans hrun⟩

end

end Decode

end CudaOxide.TileIr
