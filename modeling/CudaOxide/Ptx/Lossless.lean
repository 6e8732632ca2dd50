import CudaOxide.Ptx.Lexer

/-!
# Lexing loses nothing

* `lex_safe` — the lexer never panics on a text: no slice, index, conversion or assertion fails.
* `Cuts` — the tokens are nonempty and contiguous, are cut between characters, and read off one
  after the other they are the text.
* `lex_lossless` — the two together, for every string.
-/

namespace CudaOxide.Ptx

open Lib Lib.Bytes Lib.Text Lib.Run

variable {ε : Type} {source : Bytes} {cursor : ℕ}

/-! ### Reading a character on a boundary -/

/-- The next character can be taken. -/
theorem nextChar_returns (hsource : Encoded source) (hlt : cursor < source.length)
    (hb : isCharBoundary source cursor = true) :
    (nextChar source cursor : Run ε _).Returns fun next => Lands source next.1 := by
  obtain ⟨next, hnext, hle, hboundary⟩ := hsource.nextChar_eq_ok (ε := ε) hlt hb
  exact ⟨next, hnext, hle, hboundary⟩

/-- Looking for the end of a comment does not panic. -/
theorem blockCommentEnd_safe (hsource : Encoded source) (hb : isCharBoundary source cursor = true) :
    (blockCommentEnd source cursor : Run ε ℕ).Safe := by
  fun_induction blockCommentEnd source cursor with
  | case1 cursor hmore ih =>
    refine (nextChar_returns hsource hmore.1 hb).safe_bind ?_
    intro next hlands
    exact ih next hlands.boundary
  | case2 cursor => exact .ok cursor

/-- Looking for the end of a string does not panic. -/
theorem quotedStringEnd_safe (hsource : Encoded source) (hb : isCharBoundary source cursor = true) :
    (quotedStringEnd source cursor : Run ε (Option ℕ)).Safe := by
  fun_induction quotedStringEnd source cursor with
  | case1 cursor hlt hescape ih =>
    -- a backslash is a character of its own
    have hbackslash : source[cursor]? = some 92 := by rw [List.getElem?_eq_getElem hlt, hescape.1]
    have hb₁ := hsource.boundary_of_ascii hbackslash hb (by decide)
    refine (nextChar_returns hsource hescape.2 hb₁).safe_bind ?_
    intro next hlands
    exact ih next hlands.boundary
  | case2 cursor => exact .ok _
  | case3 cursor => exact .ok _
  | case4 cursor hlt _ _ _ ih =>
    refine (nextChar_returns hsource hlt hb).safe_bind ?_
    intro next hlands
    exact ih next hlands.boundary
  | case5 cursor => exact .ok _

/-! ### The line of a preprocessor token -/

/-- The byte that was found is there. -/
theorem rfind_eq_some {b : UInt8} {text : Bytes} {k : ℕ} (h : rfind b text = some k) :
    text[k]? = some b := by
  obtain ⟨j, hj, rfl⟩ := Option.map_eq_some_iff.mp h
  obtain ⟨hlt, hbyte, -⟩ := List.findIdx?_eq_some_iff_getElem.mp hj
  rw [List.length_reverse] at hlt
  rw [List.getElem_reverse] at hbyte
  rw [List.getElem?_eq_getElem (by omega), eq_of_beq hbyte]

/-- The line an offset is on starts at a boundary before it. -/
theorem isPreprocessorStart_safe (hsource : Encoded source) (hle : cursor ≤ source.length)
    (hb : isCharBoundary source cursor = true) :
    (isPreprocessorStart source cursor : Run ε Bool).Safe := by
  have hbefore : (sliceStr source 0 cursor : Run ε Bytes) = .ok (source.take cursor) :=
    sliceStr_eq_ok.mpr ⟨⟨Nat.zero_le _, hle, rfl, hb⟩, rfl⟩
  unfold isPreprocessorStart
  rw [hbefore]
  have hstart : (rfind 10 (source.take cursor)).elim 0 (· + 1) ≤ cursor ∧
      isCharBoundary source ((rfind 10 (source.take cursor)).elim 0 (· + 1)) = true := by
    cases hfind : rfind 10 (source.take cursor) with
    | none => exact ⟨Nat.zero_le _, rfl⟩
    | some k =>
      have hget := rfind_eq_some hfind
      have hlt : k < cursor := by
        have := (List.getElem?_eq_some_iff.mp hget).1
        rw [List.length_take] at this
        omega
      rw [List.getElem?_take_of_lt hlt] at hget
      have hnewline := isCharBoundary_of_lead hget (by decide)
      exact ⟨hlt, hsource.boundary_of_ascii hget hnewline (by decide)⟩
  refine Safe.bind (.ok _) ?_
  rintro before hok
  obtain rfl := Except.ok.inj hok
  refine Safe.bind ?_ fun blanks _ => .ok _
  rw [sliceStr_eq_ok.mpr ⟨⟨hstart.1, hle, hstart.2, hb⟩, rfl⟩]
  exact .ok _

/-! ### The lexer -/

/-- **No token makes the lexer panic.** -/
theorem lexToken_safe (hsource : Encoded source) (hlt : cursor < source.length)
    (hb : isCharBoundary source cursor = true) : (lexToken source cursor hlt).Safe := by
  unfold lexToken
  refine .ite (fun _ => .ok _) fun _ => ?_
  refine .ite (fun _ => .ok _) fun _ => ?_
  refine .ite (fun hcomment => ?_) fun _ => ?_
  · obtain ⟨-, hb₂⟩ := boundary_of_startsWithAt hsource hb hcomment (by decide) (by decide)
    refine (blockCommentEnd_safe hsource hb₂).bind fun stop _ => ?_
    exact (Safe.reject _ _).bind fun _ _ => .ok _
  refine .ite (fun hquote => ?_) fun _ => ?_
  · have hget : source[cursor]? = some 34 := by rw [List.getElem?_eq_getElem hlt, hquote]
    have hb₁ := hsource.boundary_of_ascii hget hb (by decide)
    refine (quotedStringEnd_safe hsource hb₁).bind fun closed _ => ?_
    exact (Safe.okOr _ _).bind fun _ _ => .ok _
  refine Safe.bind (.ite (fun _ => isPreprocessorStart_safe hsource hlt.le hb) fun _ => .ok _) ?_
  intro preprocessor _
  refine .ite (fun _ => ?_) fun _ => ?_
  · exact (preprocessorEnd_returns hlt).safe_bind fun _ _ => .ok _
  refine .ite (fun _ => .ok _) fun _ => ?_
  refine .ite (fun _ => .ok _) fun _ => ?_
  refine .ite (fun _ => .ok _) fun _ => ?_
  exact (nextChar_returns hsource hlt hb).safe_bind fun _ _ => .ok _

/-- The offsets of a short enough text fit a token. -/
theorem Token.new_safe {kind : TokenKind} {start stop : ℕ} (hstart : start ≤ u32Max)
    (hstop : stop ≤ u32Max) : (Token.new kind start stop : Run ε Token).Safe := by
  refine (Returns.assert hstart).safe_bind fun _ _ => ?_
  exact (Returns.assert hstop).safe_bind fun _ _ => .ok _

/-- Lexing does not panic. -/
theorem lexFrom_safe (hsource : Encoded source) (hsize : source.length ≤ u32Max)
    (hb : isCharBoundary source cursor = true) : (lexFrom source cursor).Safe := by
  fun_induction lexFrom source cursor with
  | case1 cursor hlt e he =>
    intro p hp
    cases hp
    exact lexToken_safe hsource hlt hb p he
  | case2 cursor hlt kind stop hstep ih =>
    have hlands := (lexToken_spec hstep).2 hsource hb
    refine (Token.new_safe (hlt.le.trans hsize) (hlands.le_length.trans hsize)).bind fun _ _ => ?_
    exact (ih hlands.boundary).bind fun _ _ => .ok _
  | case3 cursor => exact .ok _

/-! ### What the tokens of a text are -/

/-- The first token starts at the cursor. -/
theorem Tiles.head {tokens : List Token} (h : Tiles source cursor tokens) :
    tokens.head?.elim source.length Token.start = cursor := by
  cases h with
  | nil => rfl
  | cons => rfl

/-- The last token ends with the source. -/
theorem Tiles.getLast {tokens : List Token} (h : Tiles source cursor tokens) :
    tokens.getLast?.elim cursor Token.stop = source.length := by
  induction h with
  | nil => rfl
  | @cons token rest _ _ _ ih =>
    rw [List.getLast?_cons]
    cases hlast : rest.getLast? with
    | none =>
      rw [hlast] at ih
      exact ih
    | some last =>
      rw [hlast] at ih
      exact ih

/-- Each token starts where the one before ends. -/
theorem Tiles.contiguous {tokens : List Token} (h : Tiles source cursor tokens) :
    tokens.IsChain fun token next => token.stop = next.start := by
  induction h with
  | nil => exact .nil
  | @cons token rest _ _ hrest ih =>
    refine List.isChain_cons.mpr ⟨?_, ih⟩
    intro next hnext
    have hhead := hrest.head
    rw [hnext] at hhead
    exact hhead.symm

/-- What `windows(2)` compares. -/
theorem all_windows {tokens : List Token}
    (h : tokens.IsChain fun token next => token.stop = next.start) :
    (tokens.zip tokens.tail).all (fun pair => pair.1.stop == pair.2.start) = true := by
  induction h with
  | nil => rfl
  | singleton => rfl
  | @cons_cons token next rest hhead _ ih =>
    show ((token.stop == next.start) && _) = true
    rw [hhead, beq_self_eq_true, Bool.true_and]
    exact ih

/-- The lexer splits `source` into `tokens`. -/
structure Cuts (source : Bytes) (tokens : List Token) : Prop where
  nonempty : ∀ token ∈ tokens, token.start < token.stop
  contiguous : tokens.IsChain fun token next => token.stop = next.start
  boundaries : ∀ token ∈ tokens, Lands source token.start ∧ Lands source token.stop
  /-- The texts of the tokens, one after the other, are the source. -/
  texts : ∃ pieces, (tokens.mapM (Token.text · source) : Run Empty (List Bytes)) = .ok pieces ∧
    pieces.flatten = source

/-- The tokens from an offset on read back what stands there. -/
theorem Tiles.texts {tokens : List Token} (h : Tiles source cursor tokens)
    (hcursor : Lands source cursor) :
    ∃ pieces, (tokens.mapM (Token.text · source) : Run Empty (List Bytes)) = .ok pieces ∧
      pieces.flatten = source.drop cursor := by
  induction h with
  | nil => exact ⟨[], rfl, (List.drop_length).symm⟩
  | @cons token rest hlt hlands _ ih =>
    obtain ⟨pieces, hpieces, hflat⟩ := ih hlands
    have htext : (Token.text token source : Run Empty Bytes) =
        .ok (slice source token.start (token.stop - token.start)) :=
      sliceStr_eq_ok.mpr ⟨⟨hlt.le, hlands.le_length, hcursor.boundary, hlands.boundary⟩, rfl⟩
    refine ⟨slice source token.start (token.stop - token.start) :: pieces, ?_, ?_⟩
    · rw [List.mapM_cons, htext, hpieces]
      rfl
    · rw [List.flatten_cons, hflat, slice]
      calc (source.drop token.start).take (token.stop - token.start) ++ source.drop token.stop
          = (source.drop token.start).take (token.stop - token.start) ++
              (source.drop token.start).drop (token.stop - token.start) := by
            rw [List.drop_drop, Nat.add_sub_cancel' hlt.le]
        _ = source.drop token.start := List.take_append_drop _ _

/-- No token is empty. -/
theorem Tiles.nonempty {tokens : List Token} (h : Tiles source cursor tokens) :
    ∀ token ∈ tokens, token.start < token.stop := by
  induction h with
  | nil => exact fun _ h => absurd h List.not_mem_nil
  | cons hlt _ _ ih => exact List.forall_mem_cons.mpr ⟨hlt, ih⟩

/-- Tokens start and end at boundaries. -/
theorem Tiles.boundaries {tokens : List Token} (h : Tiles source cursor tokens)
    (hcursor : Lands source cursor) :
    ∀ token ∈ tokens, Lands source token.start ∧ Lands source token.stop := by
  induction h with
  | nil => exact fun _ h => absurd h List.not_mem_nil
  | cons _ hlands _ ih => exact List.forall_mem_cons.mpr ⟨⟨hcursor, hlands⟩, ih hlands⟩

/-- The tokens cut the source. -/
theorem Lexed.cuts {tokens : List Token} (h : Lexed source tokens) : Cuts source tokens := by
  have hstart : Lands source 0 := ⟨Nat.zero_le _, rfl⟩
  exact ⟨h.tiles.nonempty, h.tiles.contiguous, h.tiles.boundaries hstart, h.tiles.texts hstart⟩

/-! ### The whole lexer -/

/-- The closing assertions hold of tokens that tile the source. -/
theorem lex_safe (hsource : Encoded source) : (lex source).Safe := by
  refine Safe.bind (Safe.reject _ _) fun _ hreject => ?_
  have hsize := not_lt.mp (reject_eq_ok.mp hreject)
  refine (lexFrom_safe hsource hsize rfl).bind fun tokens htokens => ?_
  have htiles := lexFrom_tiles hsource (Nat.zero_le _) rfl htokens
  have hfirst : tokens.head?.elim 0 Token.start = 0 := by
    have hhead := htiles.head
    cases hfirst : tokens.head? with
    | none => rfl
    | some token =>
      rw [hfirst] at hhead
      exact hhead
  have hlast : tokens.getLast?.elim 0 Token.stop = source.length := htiles.getLast
  have hwindows := all_windows htiles.contiguous
  refine (Returns.assert hfirst).safe_bind fun _ _ => ?_
  refine (Returns.assert hlast).safe_bind fun _ _ => ?_
  exact (Returns.assert hwindows).safe_bind fun _ _ => .ok _

/-- **Lexing a string ends without a panic, and its tokens are the string cut at characters.** -/
theorem lex_lossless (source : String) :
    (lex (bytes source)).Safe ∧ ∀ tokens, lex (bytes source) = .ok tokens →
      Cuts (bytes source) tokens :=
  ⟨lex_safe (encoded_bytes source), fun _ h => (lex_lexed (encoded_bytes source) h).cuts⟩

end CudaOxide.Ptx
