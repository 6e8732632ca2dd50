import CudaOxide.Cute.Parse
import CudaOxide.Lib.Delimiters
import CudaOxide.Lib.Splice

/-!
# Operands of an instruction

How the operands are split at the commas that stand outside of all delimiters (`lib.rs`).  A text is
the list of its characters; offsets count bytes, and the delimiters are bytes of their own.

* `splitTopLevelSpans` — the pass over the text.
* `Piece` — an operand with the white space around it; `spansFrom` — where operands stand.
* `TopLevelPieces` — what stands between the commas.
* `splitTopLevelSpans_spec` — the operands are found if and only if the text is balanced and none of
  them is blank.
-/

namespace CudaOxide.Ptx.Operands

open Lib Lib.Delimiters

/-! ### Bytes -/

/-- `s.len()` -/
def byteLen (s : List Char) : ℕ := (s.map Char.utf8Size).sum

/-- The characters behind the first bytes. -/
def dropBytes : ℕ → List Char → List Char
  | 0, s => s
  | _, [] => []
  | n + 1, c :: s => dropBytes (n + 1 - c.utf8Size) s

/-- The characters of the first bytes. -/
def takeBytes : ℕ → List Char → List Char
  | 0, _ => []
  | _, [] => []
  | n + 1, c :: s => c :: takeBytes (n + 1 - c.utf8Size) s

/-- `&s[start..stop]`, between characters -/
def sliceText (s : List Char) (start stop : ℕ) : List Char :=
  takeBytes (stop - start) (dropBytes start s)

/-- `trim_end`. -/
def trimEnd (s : List Char) : List Char := s.rdropWhile Cute.isWhitespace

/-- `trim`. -/
def trim (s : List Char) : List Char := trimEnd (Cute.trimStart s)

/-! ### The pass -/

/-- The empty range at its end, where the text is blank. -/
def trimSpan (source : List Char) (span : Span) : Span :=
  let text := sliceText source span.start span.stop
  if trim text = [] then ⟨span.stop, span.stop⟩
  else
    let leading := byteLen text - byteLen (Cute.trimStart text)
    let trailing := byteLen (trimEnd text)
    ⟨span.start + leading, span.start + trailing⟩

/-- The loop over the rest of the text: `delimiters` are to be closed, the last one first. -/
def splitLoop (source : List Char) (base : ℕ) :
    List Char → ℕ → List Char → ℕ → List Span → Option (List Span)
  | [], _, delimiters, operandStart, operands =>
    if delimiters ≠ [] then none
    else
      let span := trimSpan source ⟨operandStart, byteLen source⟩
      if span.start < span.stop then some (operands ++ [⟨base + span.start, base + span.stop⟩])
      else none
  | c :: cs, index, delimiters, operandStart, operands =>
    let next := index + c.utf8Size
    if c = '\x7b' then splitLoop source base cs next ('\x7d' :: delimiters) operandStart operands
    else if c = '[' then splitLoop source base cs next (']' :: delimiters) operandStart operands
    else if c = '(' then splitLoop source base cs next (')' :: delimiters) operandStart operands
    else if c = '\x7d' ∨ c = ']' ∨ c = ')' then
      if delimiters.head? = some c then
        splitLoop source base cs next delimiters.tail operandStart operands
      else none
    else if c = ',' ∧ delimiters = [] then
      let span := trimSpan source ⟨operandStart, index⟩
      if span.start < span.stop then
        splitLoop source base cs next delimiters (index + 1)
          (operands ++ [⟨base + span.start, base + span.stop⟩])
      else none
    else splitLoop source base cs next delimiters operandStart operands

/-- `split_top_level_spans` -/
def splitTopLevelSpans (source : List Char) (base : ℕ) : Option (List Span) :=
  let leading := byteLen source - byteLen (Cute.trimStart source)
  let source := trim source
  if source = [] then some []
  else splitLoop source (base + leading) source 0 [] 0 []

/-! ### What is to be found -/

/-- The brackets of a PTX operand. -/
def delimiter (c : Char) : Delimiter Char :=
  if c = '\x7b' then .opens '\x7d'
  else if c = '[' then .opens ']'
  else if c = '(' then .opens ')'
  else if c = '\x7d' ∨ c = ']' ∨ c = ')' then .closes
  else .other

/-- There is nothing but white space. -/
def Blank (s : List Char) : Prop := ∀ c ∈ s, Cute.isWhitespace c = true

/-- An operand with the white space around it. -/
structure Piece where
  lead : List Char
  text : List Char
  trail : List Char
  lead_blank : Blank lead
  trail_blank : Blank trail
  text_ne : text ≠ []
  head : ∀ c ∈ text.head?, Cute.isWhitespace c = false
  last : ∀ c ∈ text.getLast?, Cute.isWhitespace c = false

/-- The characters of a piece, white space included. -/
def Piece.chars (p : Piece) : List Char := p.lead ++ p.text ++ p.trail

/-- Where the operands stand, with a comma behind each but the last. -/
def spansFrom : ℕ → List Piece → List Span
  | _, [] => []
  | off, p :: ps =>
    ⟨off + byteLen p.lead, off + byteLen p.lead + byteLen p.text⟩ ::
      spansFrom (off + byteLen p.chars + 1) ps

/-- What stands between the commas outside of all delimiters; a blank text has no pieces. -/
def TopLevelPieces (source : List Char) (pieces : List (List Char)) : Prop :=
  (Blank source ∧ pieces = []) ∨
    (¬Blank source ∧ pieces ≠ [] ∧ source = [','].intercalate pieces ∧
      ∀ p ∈ pieces, Nested delimiter (· = ',') p)

/-! ### Bytes and white space -/

section Bytes

variable {a b s : List Char} {c : Char}

/-- Nothing has no bytes. -/
@[simp] theorem byteLen_nil : byteLen [] = 0 := rfl

/-- The bytes of a character and of the rest. -/
@[simp] theorem byteLen_cons : byteLen (c :: s) = c.utf8Size + byteLen s := rfl

/-- Byte lengths are added. -/
@[simp] theorem byteLen_append : byteLen (a ++ b) = byteLen a + byteLen b := by
  rw [byteLen, List.map_append, List.sum_append]
  rfl

/-- A text that is not empty has bytes. -/
theorem byteLen_pos (h : s ≠ []) : 0 < byteLen s := by
  obtain ⟨c, s, rfl⟩ := List.exists_cons_of_ne_nil h
  have hpos := c.utf8Size_pos
  rw [byteLen_cons]
  omega

/-- Dropping the bytes of a prefix drops the prefix. -/
theorem dropBytes_append : dropBytes (byteLen a) (a ++ b) = b := by
  induction a with
  | nil => cases b <;> rfl
  | cons c a ih =>
    obtain ⟨n, hn⟩ := Nat.exists_eq_succ_of_ne_zero c.utf8Size_pos.ne'
    have hsucc : byteLen (c :: a) = n + byteLen a + 1 := by
      rw [byteLen_cons, hn]
      omega
    have hrest : n + byteLen a + 1 - c.utf8Size = byteLen a := by omega
    rw [hsucc, List.cons_append, dropBytes, hrest, ih]

/-- Taking the bytes of a prefix takes the prefix. -/
theorem takeBytes_append : takeBytes (byteLen a) (a ++ b) = a := by
  induction a with
  | nil => cases b <;> rfl
  | cons c a ih =>
    obtain ⟨n, hn⟩ := Nat.exists_eq_succ_of_ne_zero c.utf8Size_pos.ne'
    have hsucc : byteLen (c :: a) = n + byteLen a + 1 := by
      rw [byteLen_cons, hn]
      omega
    have hrest : n + byteLen a + 1 - c.utf8Size = byteLen a := by omega
    rw [hsucc, List.cons_append, takeBytes, hrest, ih]

/-- Slicing a part out. -/
theorem sliceText_append {t : List Char} :
    sliceText (a ++ (s ++ t)) (byteLen a) (byteLen a + byteLen s) = s := by
  rw [sliceText, dropBytes_append, Nat.add_sub_cancel_left, takeBytes_append]

/-- A text is blank when trimming leaves nothing. -/
theorem blank_iff_trim : Blank s ↔ trim s = [] := by
  unfold trim trimEnd Cute.trimStart
  rw [List.rdropWhile_eq_nil_iff]
  constructor
  · intro h c hc
    exact h c (List.dropWhile_sublist _ |>.subset hc)
  · intro h c hc
    have hmem : c ∈ s.takeWhile Cute.isWhitespace ++ s.dropWhile Cute.isWhitespace := by
      rwa [List.takeWhile_append_dropWhile]
    rcases List.mem_append.mp hmem with hmem | hmem
    · exact List.mem_takeWhile_imp hmem
    · exact h c hmem

/-- Blank texts in a row are blank. -/
theorem Blank.append (ha : Blank a) (hb : Blank b) : Blank (a ++ b) := by
  intro c hc
  rcases List.mem_append.mp hc with hc | hc
  · exact ha c hc
  · exact hb c hc

/-- Trimming the start of a piece. -/
theorem Piece.trimStart (p : Piece) : Cute.trimStart p.chars = p.text ++ p.trail := by
  obtain ⟨c, text, htext⟩ := List.exists_cons_of_ne_nil p.text_ne
  have hc : Cute.isWhitespace c = false := p.head c (by rw [htext]; rfl)
  rw [Cute.trimStart, Piece.chars, List.append_assoc,
    List.dropWhile_append_of_pos fun c hc => p.lead_blank c hc, htext, List.cons_append,
    List.dropWhile_cons_of_neg (by rw [hc]; decide)]

/-- White space at the end is trimmed. -/
theorem rdropWhile_append_blank (h : Blank b) : trimEnd (a ++ b) = trimEnd a := by
  unfold trimEnd List.rdropWhile
  rw [List.reverse_append, List.dropWhile_append_of_pos fun c hc => h c (List.mem_reverse.mp hc)]

/-- The text of a piece is trimmed. -/
theorem trimEnd_text (p : Piece) : trimEnd p.text = p.text := by
  rw [trimEnd, List.rdropWhile_eq_self_iff]
  intro hne
  rw [p.last _ (List.getLast?_eq_some_getLast hne)]
  decide

/-- Trimming the end of a piece. -/
theorem Piece.trimEnd (p : Piece) : Operands.trimEnd p.chars = p.lead ++ p.text := by
  rw [Piece.chars, rdropWhile_append_blank p.trail_blank, Operands.trimEnd,
    List.rdropWhile_eq_self_iff]
  intro hne
  rw [List.getLast_append_of_ne_nil hne p.text_ne,
    p.last _ (List.getLast?_eq_some_getLast p.text_ne)]
  decide

/-- Trimming a piece gives its text. -/
theorem Piece.trim (p : Piece) : Operands.trim p.chars = p.text := by
  rw [Operands.trim, p.trimStart, rdropWhile_append_blank p.trail_blank, trimEnd_text]

/-- A text that is not blank is an operand with white space around it. -/
theorem exists_piece (h : ¬Blank s) : ∃ p : Piece, p.chars = s := by
  have hne : Operands.trim s ≠ [] := fun hnil => h (blank_iff_trim.mpr hnil)
  have hend : (Cute.trimStart s).rdropWhile Cute.isWhitespace ++
      (Cute.trimStart s).rtakeWhile Cute.isWhitespace = Cute.trimStart s :=
        List.rdropWhile_append_rtakeWhile
  refine ⟨⟨s.takeWhile Cute.isWhitespace, Operands.trim s,
    (Cute.trimStart s).rtakeWhile Cute.isWhitespace, fun c hc => List.mem_takeWhile_imp hc,
    fun c hc => List.mem_rtakeWhile_imp hc, hne, ?_, ?_⟩, ?_⟩
  · intro c hc
    -- the first character that is left is the first one behind the white space
    have hne' : (Cute.trimStart s).rdropWhile Cute.isWhitespace ≠ [] := hne
    have hstart : (Cute.trimStart s).head? = some c := by
      rw [← hend, List.head?_append_of_ne_nil _ hne']
      exact hc
    have hnot := List.head?_dropWhile_not Cute.isWhitespace s
    unfold Cute.trimStart at hstart
    rw [hstart] at hnot
    simpa using hnot
  · intro c hc
    have hlast : (Operands.trim s).getLast hne = c := by
      rw [List.getLast?_eq_some_getLast hne] at hc
      exact Option.mem_some_iff.mp hc
    have hnot := List.rdropWhile_last_not Cute.isWhitespace (Cute.trimStart s) hne
    rw [Bool.not_eq_true] at hnot
    rw [← hlast]
    exact hnot
  · show s.takeWhile Cute.isWhitespace ++ (Cute.trimStart s).rdropWhile Cute.isWhitespace ++
      (Cute.trimStart s).rtakeWhile Cute.isWhitespace = s
    rw [List.append_assoc, hend]
    exact List.takeWhile_append_dropWhile

end Bytes

/-! ### Delimiters -/

/-- What an opening bracket waits for closes. -/
theorem delimiter_closes {c close : Char} (h : delimiter c = .opens close) :
    delimiter close = .closes := by
  unfold delimiter at h
  split_ifs at h <;> cases h <;> decide

/-- White space is no delimiter. -/
theorem delimiter_blank {c : Char} (h : Cute.isWhitespace c = true) :
    delimiter c = .other ∧ c ≠ ',' := by
  have hne : ∀ d, Cute.isWhitespace d = false → c ≠ d := by
    rintro d hd rfl
    rw [hd] at h
    cases h
  constructor
  · unfold delimiter
    rw [if_neg (hne _ (by decide)), if_neg (hne _ (by decide)), if_neg (hne _ (by decide)), if_neg]
    rintro (hc | hc | hc) <;> exact hne _ (by decide) hc
  · exact hne _ (by decide)

/-! ### The pass and its parts -/

/-- The ranges of the parts, the first of which begins at `off`; none where a part is blank. -/
def partSpans : ℕ → List (List Char) → Option (List Span)
  | _, [] => some []
  | off, p :: ps =>
    if trim p = [] then none
    else (partSpans (off + byteLen p + 1) ps).map
      (⟨off + (byteLen p - byteLen (Cute.trimStart p)), off + byteLen (trimEnd p)⟩ :: ·)

/-- A blank part refuses all spans. -/
theorem partSpans_none {off : ℕ} {ps : List (List Char)} (h : ∃ p ∈ ps, Blank p) :
    partSpans off ps = none := by
  induction ps generalizing off with
  | nil => simp at h
  | cons p ps ih =>
    unfold partSpans
    split_ifs with hp
    · rfl
    · obtain ⟨q, hq, hblank⟩ := h
      rcases List.mem_cons.mp hq with rfl | hq
      · exact absurd (blank_iff_trim.mp hblank) hp
      · rw [ih ⟨q, hq, hblank⟩]
        rfl

/-- What trimming takes from the start is the white space that leads. -/
theorem Piece.byteLen_lead (p : Piece) :
    byteLen p.chars - byteLen (Cute.trimStart p.chars) = byteLen p.lead := by
  rw [p.trimStart, Piece.chars]
  simp only [byteLen_append]
  omega

/-- The span of a piece is that of its text. -/
theorem partSpans_piece (off : ℕ) (p : Piece) (ps : List (List Char)) :
    partSpans off (p.chars :: ps) = (partSpans (off + byteLen p.chars + 1) ps).map
      (⟨off + byteLen p.lead, off + byteLen p.lead + byteLen p.text⟩ :: ·) := by
  rw [partSpans, if_neg (by rw [p.trim]; exact p.text_ne), p.byteLen_lead, p.trimEnd,
    byteLen_append,
    ← Nat.add_assoc off]

/-- The spans of pieces. -/
theorem partSpans_pieces (off : ℕ) (pieces : List Piece) :
    partSpans off (pieces.map Piece.chars) = some (spansFrom off pieces) := by
  induction pieces generalizing off with
  | nil => rfl
  | cons p pieces ih =>
    rw [List.map_cons, partSpans_piece, ih]
    rfl

/-- White space around the first part does not count. -/
theorem partSpans_append {off : ℕ} {a x b : List Char} (ha : Blank a) (hb : Blank b) (hx : ¬Blank x)
    (ps : List (List Char)) :
    partSpans off ((a ++ x ++ b) :: ps) = (partSpans (off + byteLen (a ++ x ++ b) + 1) ps).map
      (⟨off + byteLen a + (byteLen x - byteLen (Cute.trimStart x)),
        off + byteLen a + byteLen (trimEnd x)⟩ :: ·) := by
  obtain ⟨p, rfl⟩ := exists_piece hx
  let q : Piece := ⟨a ++ p.lead, p.text, p.trail ++ b, ha.append p.lead_blank,
    p.trail_blank.append hb,
    p.text_ne, p.head, p.last⟩
  have hq : a ++ p.chars ++ b = q.chars := by simp [q, Piece.chars]
  have hqlead : byteLen q.lead = byteLen a + byteLen p.lead := byteLen_append
  have hqtext : byteLen q.text = byteLen p.text := rfl
  have hspan : off + byteLen a + byteLen p.lead = off + byteLen q.lead := by omega
  have hend : off + byteLen a + byteLen (p.lead ++ p.text) =
      off + byteLen q.lead + byteLen q.text := by
    rw [byteLen_append]
    omega
  rw [hq, partSpans_piece, p.byteLen_lead, p.trimEnd, hspan, hend]

section Pass

variable {source pre read rest a b : List Char} {base off : ℕ} {st : List Char}
  {operands : List Span}

/-- A slice at byte offsets. -/
theorem sliceText_part (hsource : source = pre ++ (read ++ rest)) :
    sliceText source (byteLen pre) (byteLen pre + byteLen read) = read := by
  rw [hsource, sliceText_append]

/-- The trimmed span of a part that is not blank. -/
theorem trimSpan_part (hsource : source = pre ++ (read ++ rest)) (h : ¬Blank read) :
    trimSpan source ⟨byteLen pre, byteLen pre + byteLen read⟩ =
      ⟨byteLen pre + (byteLen read - byteLen (Cute.trimStart read)),
        byteLen pre + byteLen (trimEnd read)⟩ := by
  unfold trimSpan
  simp only [sliceText_part hsource]
  rw [if_neg fun hnil => h (blank_iff_trim.mpr hnil)]

/-- The trimmed span of a blank part is empty. -/
theorem trimSpan_blank (hsource : source = pre ++ (read ++ rest)) (h : Blank read) :
    trimSpan source ⟨byteLen pre, byteLen pre + byteLen read⟩ =
      ⟨byteLen pre + byteLen read, byteLen pre + byteLen read⟩ := by
  unfold trimSpan
  simp only [sliceText_part hsource]
  rw [if_pos (blank_iff_trim.mp h)]

/-- The range of an operand is not empty. -/
theorem part_span_lt (h : ¬Blank read) :
    byteLen read - byteLen (Cute.trimStart read) < byteLen (trimEnd read) := by
  obtain ⟨p, rfl⟩ := exists_piece h
  have hpos := byteLen_pos p.text_ne
  rw [p.trimStart, p.trimEnd, Piece.chars]
  simp only [byteLen_append]
  omega

/-- An item that is no separator outside of all delimiters. -/
theorem splitLoop_cons {c : Char} {index start : ℕ} (h : ¬(st = [] ∧ c = ',')) :
    splitLoop source base (c :: rest) index st start operands =
      (step delimiter st c).bind fun st' =>
        splitLoop source base rest (index + c.utf8Size) st' start operands := by
  have hstep : ∀ close, delimiter c = .opens close → step delimiter st c = some (close :: st) :=
    fun close hc => step_opens hc
  rw [splitLoop]
  simp only
  split_ifs with h₁ h₂ h₃ h₄ h₅ h₆
  · rw [hstep _ (by rw [delimiter, if_pos h₁]), Option.bind_some]
  · rw [hstep _ (by rw [delimiter, if_neg h₁, if_pos h₂]), Option.bind_some]
  · rw [hstep _ (by rw [delimiter, if_neg h₁, if_neg h₂, if_pos h₃]), Option.bind_some]
  · have hkind : delimiter c = .closes := by
      rw [delimiter, if_neg h₁, if_neg h₂, if_neg h₃, if_pos h₄]
    rw [step, hkind]
    simp only
    rw [if_pos h₅, Option.bind_some]
  · have hkind : delimiter c = .closes := by
      rw [delimiter, if_neg h₁, if_neg h₂, if_neg h₃, if_pos h₄]
    rw [step, hkind]
    simp only
    rw [if_neg h₅, Option.bind_none]
  · exact absurd ⟨h₆.2, h₆.1⟩ h
  · exact absurd ⟨h₆.2, h₆.1⟩ h
  · rw [step_other (by rw [delimiter, if_neg h₁, if_neg h₂, if_neg h₃, if_neg h₄]),
      Option.bind_some]

/-- **The pass cuts the text into its parts.**  What is read began at `off`, white space `a`
included; `b` is the white space behind the text. -/
theorem splitLoop_eq (hb : Blank b) (ha : Blank a) (hoff : base + byteLen pre = off + byteLen a)
    (hsource : source = pre ++ (read ++ rest)) :
    splitLoop source base rest (byteLen pre + byteLen read) st (byteLen pre) operands =
      (splitFrom delimiter ',' (rest ++ b) (a ++ read) st).bind fun ps =>
        (partSpans off ps).map (operands ++ ·) := by
  induction rest generalizing pre read a st off operands with
  | nil =>
    have hother : ∀ c ∈ b, delimiter c = .other ∧ c ≠ ',' := fun c hc => delimiter_blank (hb c hc)
    have hlen : byteLen source = byteLen pre + byteLen read := by
      rw [hsource, byteLen_append, byteLen_append, byteLen_nil, Nat.add_zero]
    have hparts : splitFrom delimiter ',' ([] ++ b) (a ++ read) st =
        if st = [] then some [a ++ read ++ b] else none := by
      rw [List.nil_append, ← List.append_nil b, splitFrom_append_other hother, List.append_nil]
      rfl
    rw [hparts, splitLoop]
    by_cases hst : st = []
    · rw [if_neg (not_not_intro hst), if_pos hst, Option.bind_some, hlen]
      simp only
      by_cases hread : Blank read
      · rw [trimSpan_blank hsource hread, if_neg (lt_irrefl _),
          partSpans_none ⟨_, List.mem_singleton_self _, (ha.append hread).append hb⟩]
        rfl
      · have hlt := part_span_lt hread
        rw [trimSpan_part hsource hread, if_pos (by simpa using hlt), partSpans_append ha hb hread]
        simp only [partSpans, Option.map_some, ← Nat.add_assoc, hoff]
    · rw [if_pos hst, if_neg hst]
      rfl
  | cons c rest ih =>
    by_cases hsep : st = [] ∧ c = ','
    · obtain ⟨rfl, rfl⟩ := hsep
      rw [List.cons_append, splitFrom_cons, if_pos ⟨rfl, rfl⟩, splitLoop, if_neg (by decide),
        if_neg (by decide), if_neg (by decide), if_neg (by decide), if_pos ⟨rfl, rfl⟩]
      simp only
      by_cases hread : Blank read
      · rw [trimSpan_blank hsource hread, if_neg (lt_irrefl _)]
        symm
        rw [Option.bind_eq_none_iff]
        intro ps hps
        obtain ⟨qs, -, rfl⟩ := Option.map_eq_some_iff.mp hps
        rw [partSpans_none ⟨_, List.mem_cons_self, ha.append hread⟩]
        rfl
      · have hlt := part_span_lt hread
        have hnil : Blank [] := fun c hc => absurd hc List.not_mem_nil
        -- the next operand begins behind the comma
        have hrest : source = (pre ++ read ++ [',']) ++ ([] ++ rest) := by rw [hsource]; simp
        have hpre : byteLen (pre ++ read ++ [',']) = byteLen pre + byteLen read + 1 := by
          rw [byteLen_append, byteLen_append]
          rfl
        have hnext : base + byteLen (pre ++ read ++ [',']) =
            off + byteLen (a ++ read ++ []) + 1 + byteLen [] := by
          rw [hpre, List.append_nil, byteLen_append, byteLen_nil]
          omega
        have hih : splitLoop source base rest _ [] _ (operands ++
          [⟨base + (byteLen pre + (byteLen read - byteLen (Cute.trimStart read))),
            base + (byteLen pre + byteLen (trimEnd read))⟩]) = _ := ih hnil hnext hrest
        rw [hpre] at hih
        rw [trimSpan_part hsource hread, if_pos (by simpa using hlt)]
        refine hih.trans ?_
        rw [Option.bind_map]
        congr 1
        funext ps
        have happend := @partSpans_append off _ _ _ ha hnil hread ps
        rw [List.append_nil] at happend ⊢
        rw [Function.comp_apply, happend, Option.map_map]
        congr 1
        funext spans
        simp only [Function.comp_apply, List.append_assoc,
          List.singleton_append, ← Nat.add_assoc, hoff]
    · rw [splitLoop_cons hsep, List.cons_append, splitFrom_cons, if_neg hsep, Option.bind_assoc]
      congr 1
      funext st'
      have hread : source = pre ++ ((read ++ [c]) ++ rest) := by rw [hsource]; simp
      have hlen : byteLen (read ++ [c]) = byteLen read + c.utf8Size := byteLen_append
      have hih : splitLoop source base rest _ st' _ operands = _ := ih ha hoff hread
      rw [hlen, ← Nat.add_assoc] at hih
      rw [hih, List.append_assoc]

/-- A text that is not blank, with the white space the function trims away. -/
theorem splitTopLevelSpans_of_not_blank (h : ¬Blank source) :
    splitTopLevelSpans source base = (split delimiter ',' source).bind (partSpans base) := by
  obtain ⟨p, rfl⟩ := exists_piece h
  have hother : ∀ c ∈ p.lead, delimiter c = .other ∧ c ≠ ',' :=
    fun c hc => delimiter_blank (p.lead_blank c hc)
  have hloop : splitLoop p.text (base + byteLen p.lead) p.text (byteLen [] + byteLen []) []
    (byteLen []) [] =
      (splitFrom delimiter ',' (p.text ++ p.trail) (p.lead ++ []) []).bind fun ps =>
        (partSpans base ps).map ([] ++ ·) :=
    splitLoop_eq p.trail_blank p.lead_blank rfl rfl
  unfold splitTopLevelSpans
  simp only
  rw [p.trim, if_neg p.text_ne, p.byteLen_lead]
  refine hloop.trans ?_
  rw [split, Piece.chars, List.append_assoc, splitFrom_append_other hother, List.append_nil,
    List.nil_append]
  congr 1
  funext ps
  simp only [List.nil_append, Option.map_id']

end Pass

/-! ### The operands -/

section Found

variable {source : List Char} {base : ℕ} {spans : List Span} {pieces : List Piece}

/-- The ranges follow each other, with a comma between them. -/
theorem spansFrom_sorted (off : ℕ) (pieces : List Piece) :
    (spansFrom off pieces).Pairwise (fun a b => a.stop < b.start) ∧
      ∀ span ∈ spansFrom off pieces, off ≤ span.start := by
  induction pieces generalizing off with
  | nil => exact ⟨.nil, by simp [spansFrom]⟩
  | cons p pieces ih =>
    obtain ⟨hsorted, hle⟩ := ih (off + byteLen p.chars + 1)
    have hlen : byteLen p.chars = byteLen p.lead + byteLen p.text + byteLen p.trail := by
      rw [Piece.chars, byteLen_append, byteLen_append]
    rw [spansFrom]
    refine ⟨List.pairwise_cons.mpr ⟨fun span hspan => ?_, hsorted⟩,
      List.forall_mem_cons.mpr ⟨Nat.le_add_right _ _, fun span hspan => ?_⟩⟩
    · have hspan := hle span hspan
      simp only
      omega
    · have hspan := hle span hspan
      omega

/-- What stands in the ranges. -/
theorem sliceText_spansFrom {pre : List Char} (base : ℕ) (hne : pieces ≠ [])
    (hsource : source = pre ++ [','].intercalate (pieces.map Piece.chars)) :
    List.Forall₂ (fun span p => sliceText source (span.start - base) (span.stop - base) = p.text)
      (spansFrom (base + byteLen pre) pieces) pieces := by
  induction pieces generalizing pre with
  | nil => exact absurd rfl hne
  | cons p pieces ih =>
    have hslice : ∀ rest, source = pre ++ (p.chars ++ rest) →
        sliceText source (base + byteLen pre + byteLen p.lead - base)
          (base + byteLen pre + byteLen p.lead + byteLen p.text - base) = p.text := by
      intro rest hrest
      have hstart : base + byteLen pre + byteLen p.lead - base = byteLen (pre ++ p.lead) := by
        rw [byteLen_append]
        omega
      have hstop : base + byteLen pre + byteLen p.lead + byteLen p.text - base =
          byteLen (pre ++ p.lead) + byteLen p.text := by
        rw [byteLen_append]
        omega
      have hparts : source = (pre ++ p.lead) ++ (p.text ++ (p.trail ++ rest)) := by
        rw [hrest, Piece.chars]
        simp
      rw [hstart, hstop, hparts, sliceText_append]
    rw [spansFrom]
    cases pieces with
    | nil => exact .cons (hslice [] (by simpa using hsource)) .nil
    | cons q pieces =>
      have hcons : source = pre ++ (p.chars ++ ',' :: [','].intercalate
          ((q :: pieces).map Piece.chars)) := by
        rw [hsource, List.map_cons, List.map_cons, List.intercalate_cons_cons]
        simp
      have hnext : source = (pre ++ p.chars ++ [',']) ++
          [','].intercalate ((q :: pieces).map Piece.chars) := by
        rw [hcons]
        simp
      have hoff : base + byteLen pre + byteLen p.chars + 1 =
          base + byteLen (pre ++ p.chars ++ [',']) := by
        rw [byteLen_append, byteLen_append, ← Nat.add_assoc, ← Nat.add_assoc]
        rfl
      rw [hoff]
      exact .cons (hslice _ hcons) (ih (List.cons_ne_nil _ _) hnext)

/-- An operand is nested without the white space around it. -/
theorem Piece.nested_text (p : Piece) (h : Nested delimiter (· = ',') p.chars) :
    Nested delimiter (· = ',') p.text := by
  have hblank : ∀ {b st}, Blank b → run delimiter (· = ',') b st = some st := fun hb =>
    run_other fun c hc => ⟨(delimiter_blank (hb c hc)).1,
      decide_eq_false (delimiter_blank (hb c hc)).2⟩
  have hrun := run_nested (fun c close => delimiter_closes) h
  rw [Piece.chars, run_append, run_append, hblank p.lead_blank, Option.bind_some] at hrun
  obtain ⟨st, htext, htrail⟩ := Option.bind_eq_some_iff.mp hrun
  rw [hblank p.trail_blank] at htrail
  rw [← run_eq_nil_iff fun c close => delimiter_closes, htext, htrail]

/-- Parts that are not blank are pieces. -/
theorem exists_pieces {parts : List (List Char)} (h : ∀ p ∈ parts, ¬Blank p) :
    ∃ pieces : List Piece, pieces.map Piece.chars = parts := by
  induction parts with
  | nil => exact ⟨[], rfl⟩
  | cons p parts ih =>
    obtain ⟨hp, hparts⟩ := List.forall_mem_cons.mp h
    obtain ⟨piece, rfl⟩ := exists_piece hp
    obtain ⟨pieces, rfl⟩ := ih hparts
    exact ⟨piece :: pieces, rfl⟩

/-- The top-level pieces are the parts of the split. -/
theorem topLevelPieces_iff_split {parts : List (List Char)} (h : ¬Blank source) :
    TopLevelPieces source parts ↔ split delimiter ',' source = some parts := by
  rw [split_eq_some_iff fun c close => delimiter_closes]
  constructor
  · rintro (⟨hblank, -⟩ | ⟨-, hparts⟩)
    · exact absurd hblank h
    · exact hparts
  · exact fun hparts => .inr ⟨h, hparts⟩

/-- A blank text is balanced. -/
theorem Blank.balanced (h : Blank source) : Balanced delimiter source := by
  induction source with
  | nil => exact .nil
  | cons c source ih =>
    obtain ⟨hc, hsource⟩ := List.forall_mem_cons.mp h
    exact .other (delimiter_blank hc).1 (ih hsource)

/-- A blank text has no spans. -/
theorem splitTopLevelSpans_of_blank (h : Blank source) :
    splitTopLevelSpans source base = some [] := by
  unfold splitTopLevelSpans
  simp only
  rw [if_pos (blank_iff_trim.mp h)]

/-- **When the operands are found.** -/
theorem splitTopLevelSpans_isSome_iff : (splitTopLevelSpans source base).isSome = true ↔
    Balanced delimiter source ∧ ∀ parts, TopLevelPieces source parts → ∀ p ∈ parts, ¬Blank p := by
  by_cases hblank : Blank source
  · rw [splitTopLevelSpans_of_blank hblank]
    refine iff_of_true rfl ⟨hblank.balanced, ?_⟩
    rintro parts (⟨-, rfl⟩ | ⟨hnot, -⟩) p hp
    · cases hp
    · exact absurd hblank hnot
  · rw [splitTopLevelSpans_of_not_blank hblank,
      ← exists_split_iff (fun c close => delimiter_closes) (by decide : delimiter ',' = .other)]
    constructor
    · intro h
      obtain ⟨spans, hspans⟩ := Option.isSome_iff_exists.mp h
      obtain ⟨parts, hsplit, hparts⟩ := Option.bind_eq_some_iff.mp hspans
      refine ⟨⟨parts, hsplit⟩, fun parts' hparts' p hp hpblank => ?_⟩
      rw [topLevelPieces_iff_split hblank, hsplit] at hparts'
      obtain rfl := Option.some.inj hparts'
      rw [partSpans_none ⟨p, hp, hpblank⟩] at hparts
      cases hparts
    · rintro ⟨⟨parts, hsplit⟩, hall⟩
      obtain ⟨pieces, rfl⟩ :=
        exists_pieces (hall parts ((topLevelPieces_iff_split hblank).mpr hsplit))
      rw [hsplit, Option.bind_some, partSpans_pieces]
      rfl

/-- **What is found.**  The operands stand in the order of the text, each without the white space
around it; with that white space and the commas they are the text. -/
theorem pieces_of_splitTopLevelSpans (h : splitTopLevelSpans source base = some spans) :
    ∃ pieces : List Piece, TopLevelPieces source (pieces.map Piece.chars) ∧
      spans = spansFrom base pieces ∧
      List.Forall₂ (fun span p => sliceText source (span.start - base) (span.stop - base) = p.text)
        spans pieces := by
  by_cases hblank : Blank source
  · rw [splitTopLevelSpans_of_blank hblank] at h
    obtain rfl := Option.some.inj h
    exact ⟨[], .inl ⟨hblank, rfl⟩, rfl, .nil⟩
  · have hsome : (splitTopLevelSpans source base).isSome = true := by rw [h]; rfl
    have hall := splitTopLevelSpans_isSome_iff.mp hsome
    rw [splitTopLevelSpans_of_not_blank hblank] at h
    obtain ⟨parts, hsplit, hparts⟩ := Option.bind_eq_some_iff.mp h
    have htop := (topLevelPieces_iff_split hblank).mpr hsplit
    obtain ⟨pieces, rfl⟩ := exists_pieces (hall.2 parts htop)
    rw [partSpans_pieces] at hparts
    obtain rfl := Option.some.inj hparts
    obtain ⟨hne, hsource, -⟩ := (split_eq_some_iff fun c close => delimiter_closes).mp hsplit
    exact ⟨pieces, htop, rfl,
      sliceText_spansFrom base (fun hnil => hne (by rw [hnil]; rfl))
        (show source = [] ++ [','].intercalate (pieces.map Piece.chars) from hsource)⟩

/-- **Splitting at the top level.**  The operands are found if and only if the delimiters are
balanced and no piece is blank.  They are the pieces without the white space around them, one behind
the other, and have no comma outside of delimiters. -/
theorem splitTopLevelSpans_spec (source : List Char) (base : ℕ) :
    ((splitTopLevelSpans source base).isSome = true ↔
      Balanced delimiter source ∧ ∀ parts, TopLevelPieces source parts → ∀ p ∈ parts, ¬Blank p) ∧
    ∀ spans, splitTopLevelSpans source base = some spans →
      ∃ pieces : List Piece, TopLevelPieces source (pieces.map Piece.chars) ∧
        spans = spansFrom base pieces ∧
        List.Forall₂ (fun span p => sliceText source (span.start - base)
          (span.stop - base) = p.text)
          spans pieces ∧
        spans.Pairwise (fun a b => a.stop < b.start) ∧
        ∀ p ∈ pieces, Nested delimiter (· = ',') p.text := by
  refine ⟨splitTopLevelSpans_isSome_iff, fun spans h => ?_⟩
  obtain ⟨pieces, htop, hspans, htexts⟩ := pieces_of_splitTopLevelSpans h
  refine ⟨pieces, htop, hspans, htexts, hspans ▸ (spansFrom_sorted base pieces).1, fun p hp => ?_⟩
  rcases htop with ⟨-, hnil⟩ | ⟨-, -, -, hnested⟩
  · obtain rfl := List.map_eq_nil_iff.mp hnil
    cases hp
  · exact p.nested_text (hnested p.chars (List.mem_map_of_mem hp))

example : splitTopLevelSpans " a, [b, c] ".toList 0 = some [⟨1, 2⟩, ⟨4, 10⟩] := by decide
example : splitTopLevelSpans "a, [b, c)".toList 0 = none := by decide
example : splitTopLevelSpans "a,".toList 0 = none := by decide

end Found

end CudaOxide.Ptx.Operands
