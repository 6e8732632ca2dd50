import CudaOxide.Lib.Safe
import CudaOxide.Lib.Text

/-!
# PTX tokens

The lexer splits a source text into tokens without dropping a byte (`lexer.rs`).

* `lex` — the machine's loop over the bytes, with its slices and assertions.
* `Lexed` — what the token list of a source is: the tokens follow each other from the first byte to
  the last, and every token starts and ends between characters.
* `lex_lexed` — every list that `lex` returns is one.
-/

namespace CudaOxide.Ptx

open Lib Lib.Bytes Lib.Text Lib.Run

/-! ### Tokens -/

/-- `TokenKind`. -/
inductive TokenKind where
  | whitespace
  | lineComment
  | blockComment
  | quotedString
  | preprocessor
  | word
  | punctuation
  | unknown
  deriving DecidableEq, Repr

/-- `is_trivia`. -/
def TokenKind.isTrivia : TokenKind → Bool
  | .whitespace | .lineComment | .blockComment => true
  | _ => false

/-- `Token`: its kind and its byte range. -/
structure Token where
  kind : TokenKind
  start : ℕ
  stop : ℕ
  deriving DecidableEq, Repr

/-- `ParseError`. -/
inductive ParseError where
  | sourceTooLarge (bytes : ℕ)
  | unterminatedBlockComment (offset : ℕ)
  | unterminatedQuotedString (offset : ℕ)
  deriving DecidableEq, Repr

/-- `u32::MAX`. -/
def u32Max : ℕ := 4294967295

variable {ε : Type}

namespace Token

/-- The offsets are stored as `u32`. -/
def new (kind : TokenKind) (start stop : ℕ) : Run ε Token := do
  Run.assert (start ≤ u32Max)
  Run.assert (stop ≤ u32Max)
  .ok ⟨kind, start, stop⟩

/-- `Token::text`. -/
def text (token : Token) (source : Bytes) : Run ε Bytes := sliceStr source token.start token.stop

end Token

/-! ### The loops of the lexer -/

/-- `u8::is_ascii_whitespace`. -/
def isAsciiWhitespace (b : UInt8) : Bool := b == 32 || b == 9 || b == 10 || b == 12 || b == 13

/-- `u8::is_ascii_alphabetic`. -/
def isAsciiAlphabetic (b : UInt8) : Bool := 65 ≤ b && b ≤ 90 || 97 ≤ b && b ≤ 122

/-- `u8::is_ascii_alphanumeric`. -/
def isAsciiAlphanumeric (b : UInt8) : Bool := isAsciiAlphabetic b || 48 ≤ b && b ≤ 57

/-- `u8::is_ascii_control`. -/
def isAsciiControl (b : UInt8) : Bool := b < 32 || b == 127

/-- `_`, `$`, `%` and `.` are word bytes too. -/
def isWordByte (b : UInt8) : Bool :=
  isAsciiAlphanumeric b || b == 95 || b == 36 || b == 37 || b == 46

/-- The end of the run of bytes from `cursor` on that satisfy `p`. -/
def skipWhile (p : UInt8 → Bool) (source : Bytes) (cursor : ℕ) : ℕ :=
  cursor + ((source.drop cursor).takeWhile p).length

/-- `bytes[cursor..].starts_with(word)` -/
def startsWithAt (source : Bytes) (cursor : ℕ) (word : Bytes) : Bool :=
  word.isPrefixOf (source.drop cursor)

/-- The offset of the `*/` that ends a block comment, or the end of the text. -/
def blockCommentEnd (source : Bytes) (cursor : ℕ) : Run ε ℕ :=
  if _h : cursor < source.length ∧ startsWithAt source cursor [42, 47] = false then do
    let next ← nextChar source cursor
    blockCommentEnd source next.1
  else .ok cursor
termination_by source.length - cursor
decreasing_by
  have := next.2
  omega

/-- The offset behind the closing quote, if there is one before the end of the line. -/
def quotedStringEnd (source : Bytes) (cursor : ℕ) : Run ε (Option ℕ) :=
  if h : cursor < source.length then
    if source[cursor] = 92 ∧ cursor + 1 < source.length then do
      let next ← nextChar source (cursor + 1)
      quotedStringEnd source next.1
    else if source[cursor] = 34 then .ok (some (cursor + 1))
    else if source[cursor] = 10 ∨ source[cursor] = 13 then .ok none
    else do
      let next ← nextChar source cursor
      quotedStringEnd source next.1
  else .ok none
termination_by source.length - cursor
decreasing_by
  · have := next.2
    omega
  · have := next.2
    omega

/-- `rfind` of one byte -/
def rfind (b : UInt8) (text : Bytes) : Option ℕ :=
  (text.reverse.findIdx? (· == b)).map fun k => text.length - 1 - k

/-- Only blanks stand before it on its line. -/
def isPreprocessorStart (source : Bytes) (offset : ℕ) : Run ε Bool := do
  let before ← sliceStr source 0 offset
  let lineStart := (rfind 10 before).elim 0 (· + 1)
  let blanks ← sliceStr source lineStart offset
  .ok (blanks.all fun b => b == 32 || b == 9 || b == 13 || b == 12)

/-- Whether the byte before an offset is `b`. -/
def byteBefore (b : UInt8) (source : Bytes) (offset : ℕ) : Run ε Bool :=
  if offset = 0 then .ok false
  else do
    let before ← Run.index source (offset - 1)
    .ok (before == b)

/-- The end of the logical line: a backslash continues it. -/
def preprocessorEnd (source : Bytes) (cursor : ℕ) : Run ε ℕ :=
  -- `bytes[cursor..]`
  if _hslice : cursor ≤ source.length then
    match h : (source.drop cursor).findIdx? (· == 10) with
    | none => .ok source.length
    | some relativeNewline => do
      let newline := cursor + relativeNewline
      let carriage ← byteBefore 13 source newline
      let last := if carriage then newline - 1 else newline
      let continued ← byteBefore 92 source last
      if continued then preprocessorEnd source (newline + 1) else .ok newline
  else Run.panic .indexOutOfBounds
termination_by source.length - cursor
decreasing_by
  have := (List.findIdx?_eq_some_iff_getElem.mp h).1
  rw [List.length_drop] at this
  omega

/-- The token at an offset: its kind and where it ends. -/
def lexToken (source : Bytes) (cursor : ℕ) (h : cursor < source.length) :
    Run ParseError (TokenKind × ℕ) := do
  let b := source[cursor]
  if isAsciiWhitespace b then
    .ok (.whitespace, skipWhile isAsciiWhitespace source (cursor + 1))
  else if startsWithAt source cursor [47, 47] then
    .ok (.lineComment, skipWhile (· != 10) source (cursor + 2))
  else if startsWithAt source cursor [47, 42] then do
    let stop ← blockCommentEnd source (cursor + 2)
    Run.reject (stop = source.length) (.unterminatedBlockComment cursor)
    .ok (.blockComment, stop + 2)
  else if b = 34 then do
    let closed ← quotedStringEnd source (cursor + 1)
    let stop ← Run.okOr closed (.unterminatedQuotedString cursor)
    .ok (.quotedString, stop)
  else do
    let preprocessor ← (if b = 35 then isPreprocessorStart source cursor else .ok false)
    if preprocessor then do
      let stop ← preprocessorEnd source (cursor + 1)
      .ok (.preprocessor, stop)
    else if isWordByte b then .ok (.word, skipWhile isWordByte source (cursor + 1))
    else if startsWithAt source cursor [58, 58] then .ok (.punctuation, cursor + 2)
    else if b < 128 && !isAsciiControl b then .ok (.punctuation, cursor + 1)
    else do
      let next ← nextChar source cursor
      .ok (.unknown, next.1)

/-! ### The bytes a loop stops at -/

variable {source : Bytes} {cursor stop : ℕ} {kind : TokenKind}

/-- What holds at `cursor` and is kept by every byte that is skipped holds where the loop stops. -/
theorem skipWhile_spec {p : UInt8 → Bool} {I : ℕ → Prop} (h0 : I cursor)
    (hle : cursor ≤ source.length)
    (hstep : ∀ i b, source[i]? = some b → p b = true → I i → I (i + 1)) :
    I (skipWhile p source cursor) ∧ cursor ≤ skipWhile p source cursor ∧
      skipWhile p source cursor ≤ source.length ∧
      ∀ b, source[skipWhile p source cursor]? = some b → p b = false := by
  obtain ⟨n, hn⟩ : ∃ n, source.length - cursor = n := ⟨_, rfl⟩
  induction n generalizing cursor with
  | zero =>
    have hend : source.drop cursor = [] := List.drop_eq_nil_of_le (by omega)
    have hskip : skipWhile p source cursor = cursor := by
      rw [skipWhile, hend]
      rfl
    rw [hskip]
    refine ⟨h0, le_rfl, hle, ?_⟩
    intro b hb
    rw [List.getElem?_eq_none (by omega)] at hb
    cases hb
  | succ n ih =>
    have hlt : cursor < source.length := by omega
    have hcons : source.drop cursor = source[cursor] :: source.drop (cursor + 1) :=
      List.drop_eq_getElem_cons hlt
    by_cases hp : p source[cursor] = true
    · have hskip : skipWhile p source cursor = skipWhile p source (cursor + 1) := by
        rw [skipWhile, skipWhile, hcons, List.takeWhile_cons_of_pos hp, List.length_cons]
        omega
      rw [hskip]
      obtain ⟨hI, hge, hrest⟩ :=
        ih (hstep cursor _ (List.getElem?_eq_getElem hlt) hp h0) hlt (by omega)
      exact ⟨hI, by omega, hrest⟩
    · have hskip : skipWhile p source cursor = cursor := by
        rw [skipWhile, hcons, List.takeWhile_cons_of_neg hp]
        rfl
      rw [hskip]
      refine ⟨h0, le_rfl, hle, ?_⟩
      intro b hb
      rw [List.getElem?_eq_getElem hlt] at hb
      rw [← Option.some.inj hb]
      exact Bool.eq_false_iff.mpr hp

/-- A word that starts at the cursor has its bytes there. -/
theorem getElem?_of_startsWithAt {word : Bytes} (h : startsWithAt source cursor word = true) {k : ℕ}
    (hk : k < word.length) : source[cursor + k]? = some word[k] := by
  obtain ⟨rest, hrest⟩ := List.isPrefixOf_iff_prefix.mp h
  rw [← List.getElem?_drop, ← hrest, List.getElem?_append_left hk, List.getElem?_eq_getElem hk]

/-- Two ASCII bytes lead from one boundary to the next but one. -/
theorem boundary_of_startsWithAt {b b' : UInt8} (hsource : Encoded source)
    (hb : isCharBoundary source cursor = true) (h : startsWithAt source cursor [b, b'] = true)
    (h₁ : b < 0x80) (h₂ : b' < 0x80) :
    cursor + 2 ≤ source.length ∧ isCharBoundary source (cursor + 2) = true := by
  have hfirst : source[cursor]? = some b := getElem?_of_startsWithAt h (by decide : 0 < 2)
  have hsecond : source[cursor + 1]? = some b' := getElem?_of_startsWithAt h (by decide : 1 < 2)
  have hmid := hsource.boundary_of_ascii hfirst hb h₁
  have hlt := (List.getElem?_eq_some_iff.mp hsecond).1
  exact ⟨hlt, hsource.boundary_of_ascii hsecond hmid h₂⟩

/-! ### Every token moves on, from one boundary to the next -/

/-- An offset between characters. -/
structure Lands (source : Bytes) (stop : ℕ) : Prop where
  le_length : stop ≤ source.length
  boundary : isCharBoundary source stop = true

/-- A block comment that ends, ends at a boundary behind its closing mark or at the end. -/
theorem blockCommentEnd_spec (h : (blockCommentEnd source cursor : Run ε ℕ) = .ok stop) :
    cursor ≤ stop ∧ (Encoded source → cursor ≤ source.length →
      isCharBoundary source cursor = true → Lands source stop ∧
        (stop ≠ source.length → startsWithAt source stop [42, 47] = true)) := by
  fun_induction blockCommentEnd source cursor with
  | case1 cursor hmore ih =>
    obtain ⟨next, hnext, hrest⟩ := bind_eq_ok.mp h
    obtain ⟨hle, hreach⟩ := ih next hrest
    refine ⟨next.2.le.trans hle, ?_⟩
    intro hsource _ hb
    obtain ⟨next', hnext', hle', hb'⟩ := hsource.nextChar_eq_ok (ε := ε) hmore.1 hb
    obtain rfl := Except.ok.inj (hnext.symm.trans hnext')
    obtain ⟨⟨h₁, h₂⟩, h₃⟩ := hreach hsource hle' hb'
    exact ⟨⟨h₁, h₂⟩, h₃⟩
  | case2 cursor hdone =>
    cases h
    refine ⟨le_rfl, ?_⟩
    intro _ hle hb
    refine ⟨⟨hle, hb⟩, ?_⟩
    intro hne
    by_contra hmore
    exact hdone ⟨by omega, Bool.eq_false_iff.mpr hmore⟩

/-- A quoted string that ends, ends at a boundary. -/
theorem quotedStringEnd_spec (h : (quotedStringEnd source cursor : Run ε _) = .ok (some stop)) :
    cursor < stop ∧ (Encoded source → isCharBoundary source cursor = true →
      Lands source stop) := by
  fun_induction quotedStringEnd source cursor with
  | case1 cursor hlt hescape ih =>
    obtain ⟨next, hnext, hrest⟩ := bind_eq_ok.mp h
    obtain ⟨hle, hreach⟩ := ih next hrest
    refine ⟨(Nat.lt_of_succ_lt next.2).trans hle, ?_⟩
    intro hsource hb
    have hbackslash : source[cursor]? = some 92 := by rw [List.getElem?_eq_getElem hlt, hescape.1]
    have hb₁ := hsource.boundary_of_ascii hbackslash hb (by decide)
    obtain ⟨next', hnext', hle', hb'⟩ := hsource.nextChar_eq_ok (ε := ε) hescape.2 hb₁
    obtain rfl := Except.ok.inj (hnext.symm.trans hnext')
    obtain ⟨h₁, h₂⟩ := hreach hsource hb'
    exact ⟨h₁, h₂⟩
  | case2 cursor hlt _ hquote =>
    obtain rfl := Option.some.inj (Except.ok.inj h)
    refine ⟨Nat.lt_succ_self _, ?_⟩
    intro hsource hb
    have hget : source[cursor]? = some 34 := by rw [List.getElem?_eq_getElem hlt, hquote]
    exact ⟨hlt, hsource.boundary_of_ascii hget hb (by decide)⟩
  | case3 cursor => cases h
  | case4 cursor hlt _ _ _ ih =>
    obtain ⟨next, hnext, hrest⟩ := bind_eq_ok.mp h
    obtain ⟨hle, hreach⟩ := ih next hrest
    refine ⟨next.2.trans hle, ?_⟩
    intro hsource hb
    obtain ⟨next', hnext', hle', hb'⟩ := hsource.nextChar_eq_ok (ε := ε) hlt hb
    obtain rfl := Except.ok.inj (hnext.symm.trans hnext')
    obtain ⟨h₁, h₂⟩ := hreach hsource hb'
    exact ⟨h₁, h₂⟩
  | case5 cursor => cases h

/-- A byte before an offset is read inside the text. -/
theorem byteBefore_returns (b : UInt8) {offset : ℕ} (h : offset ≤ source.length) :
    (byteBefore b source offset : Run ε Bool).Returns fun _ => True := by
  unfold byteBefore
  refine .ite (fun _ => .ok trivial) fun hpos => ?_
  exact (Returns.index (by omega)).bind fun _ _ => .ok trivial

/-- A logical line ends at a newline or with the text. -/
theorem preprocessorEnd_returns (h : cursor ≤ source.length) :
    (preprocessorEnd source cursor : Run ε ℕ).Returns fun stop =>
      cursor ≤ stop ∧ Lands source stop := by
  fun_induction preprocessorEnd source cursor with
  | case1 cursor => exact .ok ⟨h, le_rfl, isCharBoundary_length source⟩
  | case2 cursor _ k hfind newline ih =>
    obtain ⟨hk, hbyte, -⟩ := List.findIdx?_eq_some_iff_getElem.mp hfind
    have hnewline : source[newline]? = some 10 := by
      rw [← List.getElem?_drop, List.getElem?_eq_getElem hk, eq_of_beq hbyte]
    rw [List.length_drop] at hk
    refine (byteBefore_returns 13 (by omega)).bind fun carriage _ => ?_
    refine (byteBefore_returns 92 (by split <;> omega)).bind fun continued _ => ?_
    refine .ite (fun _ => ?_) fun _ => .ok ?_
    · refine (ih (by omega)).mono ?_
      rintro stop ⟨hle, hlands⟩
      exact ⟨by omega, hlands⟩
    · exact ⟨Nat.le_add_right _ _, by omega, isCharBoundary_of_lead hnewline (by decide)⟩
  | case3 cursor hslice => exact absurd h hslice

/-- White space is ASCII. -/
theorem isAscii_of_isAsciiWhitespace {b : UInt8} (h : isAsciiWhitespace b = true) : b < 0x80 := by
  simp only [isAsciiWhitespace, Bool.or_eq_true, beq_iff_eq] at h
  rcases h with (((rfl | rfl) | rfl) | rfl) | rfl
  all_goals decide

/-- Word bytes are ASCII. -/
theorem isAscii_of_isWordByte {b : UInt8} (h : isWordByte b = true) : b < 0x80 := by
  simp only [isWordByte, isAsciiAlphanumeric, isAsciiAlphabetic, Bool.or_eq_true, Bool.and_eq_true,
    decide_eq_true_eq, beq_iff_eq, UInt8.le_iff_toNat_le, UInt8.reduceToNat] at h
  rw [UInt8.lt_iff_toNat_lt]
  show b.toNat < 128
  rcases h with ((((h | h) | rfl) | rfl) | rfl) | rfl
  · omega
  · omega
  all_goals decide

/-- A run of ASCII bytes ends between characters. -/
theorem skipWhile_lands {p : UInt8 → Bool} (hascii : ∀ b, p b = true → b < 0x80)
    (hsource : Encoded source) (hb : isCharBoundary source cursor = true)
      (hlt : cursor < source.length)
    (hp : p source[cursor] = true) : Lands source (skipWhile p source (cursor + 1)) := by
  have hnext : isCharBoundary source (cursor + 1) = true :=
    hsource.boundary_of_ascii (List.getElem?_eq_getElem hlt) hb (hascii _ hp)
  obtain ⟨hI, -, hle, -⟩ := skipWhile_spec (I := fun i => isCharBoundary source i = true) hnext hlt
    fun i b hi hp hI => hsource.boundary_of_ascii hi hI (hascii b hp)
  exact ⟨hle, hI⟩

/-- A line comment stops at a newline or with the text. -/
theorem lineComment_lands (hle : cursor ≤ source.length) :
    Lands source (skipWhile (· != 10) source cursor) := by
  obtain ⟨-, -, hle, hstop⟩ := skipWhile_spec (p := fun b => b != 10) (I := fun _ => True)
    trivial hle fun _ _ _ _ _ => trivial
  refine ⟨hle, ?_⟩
  cases hnext : source[skipWhile (fun b => b != 10) source cursor]? with
  | none =>
    have hend := List.getElem?_eq_none_iff.mp hnext
    rw [Nat.le_antisymm hle hend]
    exact isCharBoundary_length source
  | some b =>
    have hnewline : b = 10 := by simpa using hstop b hnext
    exact isCharBoundary_of_lead hnext (by rw [hnewline]; decide)

/-- A block comment that is closed moves on, and ends behind the two bytes that close it. -/
theorem blockComment_lands (hclose : (blockCommentEnd source (cursor + 2) : Run ε ℕ) = .ok stop)
    (hne : stop ≠ source.length) (hcomment : startsWithAt source cursor [47, 42] = true)
    (hsource : Encoded source) (hb : isCharBoundary source cursor = true) :
    Lands source (stop + 2) := by
  obtain ⟨hle₂, hb₂⟩ := boundary_of_startsWithAt hsource hb hcomment (by decide) (by decide)
  obtain ⟨⟨-, hbstop⟩, hterminated⟩ := (blockCommentEnd_spec hclose).2 hsource hle₂ hb₂
  obtain ⟨hle₃, hb₃⟩ := boundary_of_startsWithAt hsource hbstop (hterminated hne)
    (by decide) (by decide)
  exact ⟨hle₃, hb₃⟩

/-- **A token moves on and ends between characters.** -/
theorem lexToken_spec {hlt : cursor < source.length}
    (h : lexToken source cursor hlt = .ok (kind, stop)) :
    cursor < stop ∧ (Encoded source → isCharBoundary source cursor = true → Lands source stop) := by
  have hget := List.getElem?_eq_getElem hlt
  unfold lexToken at h
  dsimp only at h
  -- the kinds of tokens, in the order in which the code looks for them
  split at h
  · -- whitespace
    rename_i hspace
    cases h
    refine ⟨Nat.lt_of_succ_le (Nat.le_add_right _ _), fun hsource hb => ?_⟩
    exact skipWhile_lands (fun _ => isAscii_of_isAsciiWhitespace) hsource hb hlt hspace
  split at h
  · -- a line comment
    rename_i hcomment
    cases h
    refine ⟨Nat.lt_of_lt_of_le (Nat.lt_add_of_pos_right two_pos) (Nat.le_add_right _ _), ?_⟩
    intro hsource hb
    exact lineComment_lands
      (boundary_of_startsWithAt hsource hb hcomment (by decide) (by decide)).1
  split at h
  · -- a block comment
    rename_i hcomment
    obtain ⟨close, hclose, hrest⟩ := bind_eq_ok.mp h
    obtain ⟨_, hreject, hok⟩ := bind_eq_ok.mp hrest
    cases hok
    have hle := (blockCommentEnd_spec hclose).1
    refine ⟨by omega, fun hsource hb => ?_⟩
    exact blockComment_lands hclose (reject_eq_ok.mp hreject) hcomment hsource hb
  split at h
  · -- a quoted string
    rename_i hquote
    obtain ⟨closed, hclosed, hrest⟩ := bind_eq_ok.mp h
    obtain ⟨close, hclose, hok⟩ := bind_eq_ok.mp hrest
    cases hok
    rw [okOr_eq_ok.mp hclose] at hclosed
    obtain ⟨hle, hlands⟩ := quotedStringEnd_spec hclosed
    refine ⟨by omega, fun hsource hb => ?_⟩
    exact hlands hsource (hsource.boundary_of_ascii hget hb (by rw [hquote]; decide))
  obtain ⟨preprocessor, hpreprocessor, hrest⟩ := bind_eq_ok.mp h
  split at hrest
  · -- a preprocessor line
    obtain ⟨stop', hstop, hle, hlands⟩ :=
      preprocessorEnd_returns (ε := ParseError) (Nat.succ_le_of_lt hlt)
    rw [hstop] at hrest
    cases hrest
    exact ⟨hle, fun _ _ => hlands⟩
  split at hrest
  · -- a word
    rename_i hword
    cases hrest
    refine ⟨Nat.lt_of_succ_le (Nat.le_add_right _ _), fun hsource hb => ?_⟩
    exact skipWhile_lands (fun _ => isAscii_of_isWordByte) hsource hb hlt hword
  split at hrest
  · -- a double colon
    rename_i hcolons
    cases hrest
    refine ⟨Nat.lt_add_of_pos_right two_pos, fun hsource hb => ?_⟩
    obtain ⟨hle, hb₂⟩ := boundary_of_startsWithAt hsource hb hcolons (by decide) (by decide)
    exact ⟨hle, hb₂⟩
  split at hrest
  · -- one ASCII byte
    rename_i hascii
    cases hrest
    refine ⟨Nat.lt_succ_self _, fun hsource hb => ?_⟩
    rw [Bool.and_eq_true, decide_eq_true_eq] at hascii
    exact ⟨hlt, hsource.boundary_of_ascii hget hb hascii.1⟩
  · -- one character
    obtain ⟨next, hnext, hok⟩ := bind_eq_ok.mp hrest
    cases hok
    refine ⟨next.2, fun hsource hb => ?_⟩
    obtain ⟨next', hnext', hle, hb'⟩ := hsource.nextChar_eq_ok (ε := ParseError) hlt hb
    obtain rfl := Except.ok.inj (hnext.symm.trans hnext')
    exact ⟨hle, hb'⟩

/-! ### The lexer -/

/-- The tokens from an offset on. -/
def lexFrom (source : Bytes) (cursor : ℕ) : Run ParseError (List Token) :=
  if hlt : cursor < source.length then
    match _h : lexToken source cursor hlt with
    | .error e => .error e
    | .ok (kind, stop) => do
      let token ← Token.new kind cursor stop
      let rest ← lexFrom source stop
      .ok (token :: rest)
  else .ok []
termination_by source.length - cursor
decreasing_by
  have := (lexToken_spec _h).1
  omega

/-- `lex`, with its length check and its assertions. -/
def lex (source : Bytes) : Run ParseError (List Token) := do
  Run.reject (u32Max < source.length) (.sourceTooLarge source.length)
  let tokens ← lexFrom source 0
  Run.assert ((tokens.head?.elim 0 Token.start) = 0)
  Run.assert ((tokens.getLast?.elim 0 Token.stop) = source.length)
  Run.assert ((tokens.zip tokens.tail).all (fun pair => pair.1.stop == pair.2.start) = true)
  .ok tokens

/-- From `cursor` on, the tokens follow each other to the end of the text. -/
inductive Tiles (source : Bytes) : ℕ → List Token → Prop where
  | nil : Tiles source source.length []
  | cons {token : Token} {rest : List Token} (hlt : token.start < token.stop)
      (hlands : Lands source token.stop) (hrest : Tiles source token.stop rest) :
      Tiles source token.start (token :: rest)

/-- The tokens of a source text. -/
structure Lexed (source : Bytes) (tokens : List Token) : Prop where
  tiles : Tiles source 0 tokens
  length_le : source.length ≤ u32Max

/-- What the loop lexes tiles the source from the cursor. -/
theorem lexFrom_tiles {tokens : List Token} (hsource : Encoded source)
    (hle : cursor ≤ source.length) (hb : isCharBoundary source cursor = true)
    (h : lexFrom source cursor = .ok tokens) : Tiles source cursor tokens := by
  fun_induction lexFrom source cursor generalizing tokens with
  | case1 cursor hlt e he => cases h
  | case2 cursor hlt kind stop hstep ih =>
    obtain ⟨token, htoken, hrest⟩ := bind_eq_ok.mp h
    obtain ⟨rest, hlex, hok⟩ := bind_eq_ok.mp hrest
    cases hok
    obtain ⟨_, _, hnew⟩ := bind_eq_ok.mp htoken
    obtain ⟨_, _, hnew⟩ := bind_eq_ok.mp hnew
    cases hnew
    obtain ⟨hmore, hlands⟩ := lexToken_spec hstep
    have hlands := hlands hsource hb
    have hrest := ih hlands.le_length hlands.boundary hlex
    exact @Tiles.cons source ⟨kind, cursor, stop⟩ rest hmore hlands hrest
  | case3 cursor hend =>
    cases h
    rw [show cursor = source.length by omega]
    exact .nil

/-- **Lexing drops no byte and splits no character.** -/
theorem lex_lexed {tokens : List Token} (hsource : Encoded source) (h : lex source = .ok tokens) :
    Lexed source tokens := by
  obtain ⟨_, hsize, h⟩ := bind_eq_ok.mp h
  obtain ⟨list, hlist, h⟩ := bind_eq_ok.mp h
  obtain ⟨_, _, h⟩ := bind_eq_ok.mp h
  obtain ⟨_, _, h⟩ := bind_eq_ok.mp h
  obtain ⟨_, _, h⟩ := bind_eq_ok.mp h
  cases h
  exact ⟨lexFrom_tiles hsource (Nat.zero_le _) rfl hlist, not_lt.mp (reject_eq_ok.mp hsize)⟩

end CudaOxide.Ptx
