import CudaOxide.Lib.Bytes

/-!
# Text as bytes

A `&str` is its bytes; offsets are byte offsets.  Slicing panics off the character boundaries.

* `bytes` — the bytes of a string; `Encoded text`: the bytes are characters in a row.
* `nextChar` — the offset behind the character at an offset; `Encoded.nextChar_eq_ok` and
  `Encoded.boundary_of_ascii` are the two ways from one boundary to the next.
-/

namespace CudaOxide.Lib.Text

open Bytes

variable {ε : Type}

/-- The second and later bytes of a character. -/
def isContinuation (b : UInt8) : Bool := 128 ≤ b && b < 192

/-- `is_char_boundary` -/
def isCharBoundary (text : Bytes) (offset : ℕ) : Bool :=
  offset == 0 ||
    match text[offset]? with
    | none => offset == text.length
    | some b => !isContinuation b

/-- `&text[start..stop]` -/
def sliceStr (text : Bytes) (start stop : ℕ) : Run ε Bytes :=
  if start ≤ stop ∧ stop ≤ text.length ∧ isCharBoundary text start ∧ isCharBoundary text stop then
    .ok (slice text start (stop - start))
  else Run.panic .indexOutOfBounds

/-- A slice succeeds exactly at two boundaries in order. -/
theorem sliceStr_eq_ok {text piece : Bytes} {start stop : ℕ} :
    (sliceStr text start stop : Run ε Bytes) = .ok piece ↔
      (start ≤ stop ∧ stop ≤ text.length ∧ isCharBoundary text start ∧ isCharBoundary text stop) ∧
        slice text start (stop - start) = piece := by
  unfold sliceStr
  split
  · simp_all
  · simp_all

@[simp] theorem isCharBoundary_zero (text : Bytes) : isCharBoundary text 0 = true := rfl

@[simp] theorem isCharBoundary_length (text : Bytes) :
    isCharBoundary text text.length = true := by
  simp [isCharBoundary]

/-- Behind the start, a boundary is a byte that continues no character. -/
theorem isCharBoundary_of_get {text : Bytes} {offset : ℕ} {b : UInt8}
    (hget : text[offset]? = some b)
    (hpos : 0 < offset) : isCharBoundary text offset = !isContinuation b := by
  have hzero : (offset == 0) = false := beq_eq_false_iff_ne.mpr hpos.ne'
  unfold isCharBoundary
  rw [hzero, hget, Bool.false_or]

/-- A byte that leads a character is at a boundary. -/
theorem isCharBoundary_of_lead {text : Bytes} {offset : ℕ} {b : UInt8}
    (hget : text[offset]? = some b) (hlead : isContinuation b = false) :
    isCharBoundary text offset = true := by
  unfold isCharBoundary
  rw [hget]
  show (offset == 0 || !isContinuation b) = true
  rw [hlead]
  exact Bool.or_true _

/-! ### Characters in a row -/

/-- The bytes of a string. -/
def bytes (s : String) : Bytes := s.toByteArray.data.toList

/-- The length of the character that starts with `b`. -/
def charLen (b : UInt8) : ℕ := if b < 0x80 then 1 else if b < 0xE0 then 2
    else if b < 0xF0 then 3 else 4

/-- Every character takes a byte. -/
theorem charLen_pos (b : UInt8) : 0 < charLen b := by
  unfold charLen
  split_ifs
  all_goals decide

/-- `cursor + text[cursor..].chars().next().expect(..).len_utf8()` -/
def nextChar (text : Bytes) (cursor : ℕ) : Run ε {next : ℕ // cursor < next} := do
  let rest ← sliceStr text cursor text.length
  match rest with
  | [] => Run.panic .assertion
  | b :: _ => .ok ⟨cursor + charLen b, Nat.lt_add_of_pos_right (charLen_pos b)⟩

/-- The bytes are the encodings of characters. -/
def Encoded (text : Bytes) : Prop := ∃ cs : List Char, text = cs.flatMap String.utf8EncodeChar

/-- The bytes of a string are encoded characters. -/
theorem encoded_bytes (s : String) : Encoded (bytes s) := by
  obtain ⟨cs, hcs⟩ := s.isValidUTF8
  refine ⟨cs, ?_⟩
  rw [bytes, hcs]
  simp [List.utf8Encode]

/-- A character is a leading byte and the continuation bytes it announces. -/
theorem utf8EncodeChar_shape (c : Char) : ∃ b rest, String.utf8EncodeChar c = b :: rest ∧
    isContinuation b = false ∧ (∀ x ∈ rest, isContinuation x = true) ∧
      rest.length + 1 = charLen b := by
  -- a continuation byte has `10` as its first bits
  have hcont : ∀ v : ℕ, isContinuation (UInt8.ofNat (v % 64 + 128)) = true := by
    intro v
    simp only [isContinuation, Bool.and_eq_true, decide_eq_true_eq, UInt8.le_iff_toNat_le,
      UInt8.lt_iff_toNat_lt, UInt8.toNat_ofNat', UInt8.reduceToNat]
    omega
  -- the greatest scalar value has 21 bits
  have hlt : c.val.toNat < 1114112 := by
    have := c.valid
    rcases this with h | h
    · have : c.val.toNat < 0xd800 := h
      omega
    · exact h.2
  -- the leading byte says how many bytes there are
  have hlead : ∀ v lo hi len : ℕ, v < hi → lo ≤ v → (lo, hi, len) ∈
      [(0, 128, 1), (192, 224, 2), (224, 240, 3), (240, 256, 4)] →
        isContinuation (UInt8.ofNat v) = false ∧ charLen (UInt8.ofNat v) = len := by
    intro v lo hi len hhi hlo hmem
    simp only [List.mem_cons, Prod.mk.injEq, List.not_mem_nil, or_false] at hmem
    have hv : (UInt8.ofNat v).toNat = v := by
      rw [UInt8.toNat_ofNat']
      omega
    simp only [isContinuation, charLen, Bool.and_eq_false_iff, decide_eq_false_iff_not,
      UInt8.le_iff_toNat_le, UInt8.lt_iff_toNat_lt, hv, UInt8.reduceToNat]
    constructor
    · omega
    · split_ifs
      all_goals omega
  unfold String.utf8EncodeChar
  dsimp only
  -- by the number of bytes
  split_ifs
  · obtain ⟨h₁, h₂⟩ := hlead c.val.toNat 0 128 1 (by omega) (by omega) (by decide)
    exact ⟨_, _, rfl, h₁, by simp, h₂.symm⟩
  · obtain ⟨h₁, h₂⟩ := hlead (c.val.toNat / 64 % 32 + 192) 192 224 2 (by omega) (by omega)
      (by decide)
    exact ⟨_, _, rfl, h₁, by simp only [List.forall_mem_cons, hcont, List.not_mem_nil,
      false_implies,
      implies_true, true_and], h₂.symm⟩
  · obtain ⟨h₁, h₂⟩ := hlead (c.val.toNat / 4096 % 16 + 224) 224 240 3 (by omega) (by omega)
      (by decide)
    exact ⟨_, _, rfl, h₁, by simp only [List.forall_mem_cons, hcont, List.not_mem_nil,
      false_implies,
      implies_true, true_and], h₂.symm⟩
  · obtain ⟨h₁, h₂⟩ := hlead (c.val.toNat / 262144 % 8 + 240) 240 256 4 (by omega) (by omega)
      (by decide)
    exact ⟨_, _, rfl, h₁, by simp only [List.forall_mem_cons, hcont, List.not_mem_nil,
      false_implies,
      implies_true, true_and], h₂.symm⟩

/-- Encoded text starts with a leading byte. -/
theorem Encoded.head {text : Bytes} (h : Encoded text) :
    ∀ b ∈ text.head?, isContinuation b = false := by
  obtain ⟨cs, rfl⟩ := h
  cases cs with
  | nil => simp
  | cons c cs =>
    obtain ⟨b, rest, hchar, hlead, -⟩ := utf8EncodeChar_shape c
    rw [List.flatMap_cons, hchar]
    simpa using hlead

/-- Behind `front`, the boundaries are those of the rest. -/
theorem isCharBoundary_append {front rest : Bytes} (hhead : ∀ b ∈ rest.head?,
    isContinuation b = false)
    (hfront : front ≠ []) (offset : ℕ) :
    isCharBoundary (front ++ rest) (front.length + offset) = isCharBoundary rest offset := by
  have hpos := List.length_pos_iff.mpr hfront
  have hzero : (front.length + offset == 0) = false := by
    rw [beq_eq_false_iff_ne]
    omega
  have hget : (front ++ rest)[front.length + offset]? = rest[offset]? := by
    rw [List.getElem?_append_right (by omega), Nat.add_sub_cancel_left]
  have hend : (front.length + offset == (front ++ rest).length) = (offset == rest.length) := by
    rw [List.length_append, Bool.eq_iff_iff, beq_iff_eq, beq_iff_eq]
    omega
  unfold isCharBoundary
  rw [hzero, hget, hend, Bool.false_or]
  by_cases hoffset : offset = 0
  · subst hoffset
    rw [beq_self_eq_true, Bool.true_or]
    cases rest with
    | nil => rfl
    | cons b rest =>
      show (!isContinuation b) = true
      rw [hhead b rfl]
      rfl
  · rw [beq_eq_false_iff_ne.mpr hoffset, Bool.false_or]

/-- **From one boundary to the next.** -/
theorem Encoded.next {text : Bytes} (h : Encoded text) {i : ℕ} {b : UInt8} (hi : text[i]? = some b)
    (hb : isCharBoundary text i = true) :
    i + charLen b ≤ text.length ∧ isCharBoundary text (i + charLen b) = true := by
  obtain ⟨cs, rfl⟩ := h
  induction cs generalizing i with
  | nil => cases hi
  | cons c cs ih =>
    obtain ⟨lead, conts, hchar, hlead, hconts, hlen⟩ := utf8EncodeChar_shape c
    have htail : Encoded (cs.flatMap String.utf8EncodeChar) := ⟨cs, rfl⟩
    rw [List.flatMap_cons, hchar] at hi hb ⊢
    have hne : lead :: conts ≠ [] := List.cons_ne_nil _ _
    have hfront : (lead :: conts).length = charLen lead := hlen
    have hbehind := isCharBoundary_append htail.head hne
    rw [List.length_append]
    by_cases hlt : i < (lead :: conts).length
    · rw [List.getElem?_append_left hlt] at hi
      have hzero : i = 0 := by
        by_contra hpos
        -- inside the first character there is no boundary
        obtain ⟨j, rfl⟩ := Nat.exists_eq_succ_of_ne_zero hpos
        have hmem : isContinuation b = true := hconts b (List.mem_of_getElem? hi)
        have hget : (lead :: conts ++ cs.flatMap String.utf8EncodeChar)[j.succ]? = some b :=
          (List.getElem?_append_left hlt).trans hi
        rw [isCharBoundary_of_get hget (Nat.succ_pos j), hmem] at hb
        cases hb
      subst hzero
      cases hi
      rw [Nat.zero_add, ← hfront]
      refine ⟨Nat.le_add_right _ _, ?_⟩
      have hboundary := hbehind 0
      rwa [Nat.add_zero, isCharBoundary_zero] at hboundary
    · obtain ⟨j, rfl⟩ := Nat.exists_eq_add_of_le (not_lt.mp hlt)
      rw [List.getElem?_append_right (Nat.le_add_right _ _), Nat.add_sub_cancel_left] at hi
      rw [hbehind] at hb
      obtain ⟨hle, hnext⟩ := ih hi hb
      rw [Nat.add_assoc]
      exact ⟨Nat.add_le_add_left hle _, by rw [hbehind]; exact hnext⟩

/-- Behind an ASCII byte at a boundary there is a boundary. -/
theorem Encoded.boundary_of_ascii {text : Bytes} (h : Encoded text) {i : ℕ} {b : UInt8}
    (hi : text[i]? = some b) (hb : isCharBoundary text i = true) (hascii : b < 0x80) :
    isCharBoundary text (i + 1) = true := by
  have hnext := (h.next hi hb).2
  rwa [charLen, if_pos hascii] at hnext

/-- The next character can be taken at every boundary before the end, and ends at one. -/
theorem Encoded.nextChar_eq_ok {text : Bytes} (h : Encoded text) {cursor : ℕ}
    (hlt : cursor < text.length) (hb : isCharBoundary text cursor = true) :
    ∃ next, (nextChar text cursor : Run ε _) = .ok next ∧ next.1 ≤ text.length ∧
      isCharBoundary text next.1 = true := by
  have hget := List.getElem?_eq_getElem hlt
  have hslice : (sliceStr text cursor text.length : Run ε Bytes) = .ok (text.drop cursor) := by
    rw [sliceStr_eq_ok]
    refine ⟨⟨hlt.le, le_rfl, hb, isCharBoundary_length text⟩, ?_⟩
    rw [slice, List.take_of_length_le]
    rw [List.length_drop]
  have hcons : text.drop cursor = text[cursor] :: text.drop (cursor + 1) :=
    List.drop_eq_getElem_cons hlt
  refine ⟨⟨cursor + charLen text[cursor], Nat.lt_add_of_pos_right (charLen_pos _)⟩, ?_,
    h.next hget hb⟩
  rw [nextChar, hslice, hcons]
  rfl

end CudaOxide.Lib.Text
