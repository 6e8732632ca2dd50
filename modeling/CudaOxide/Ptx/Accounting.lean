import CudaOxide.Lib.Nesting
import CudaOxide.Ptx.Syntax

/-!
# Every token of a PTX text is accounted for

The structural parser never panics on the tokens of a source text, and what it builds owns every
significant token exactly once.

* `scanItem_returns`, `classify_returns` — the helpers return, and an item ends among the tokens.
* `Parsing` — the invariant of the parser's loop at a token.
* `Accounting` — what the parse of a source text is: the owners of the tokens, the order of the
  statements, the bytes, and the nesting of the scopes.
* `parse_accounts` — every parse is one.
-/

namespace CudaOxide.Ptx

open Lib Lib.Bytes Lib.Text Lib.Run

variable {ε : Type} {source : Bytes} {tokens : List Token}

/-! ### The tokens of a source text -/

/-- A token of a tiling is not empty and has boundaries. -/
theorem Tiles.mem {cursor : ℕ} (h : Tiles source cursor tokens)
    (hb : isCharBoundary source cursor = true) :
    ∀ token ∈ tokens, cursor ≤ token.start ∧ token.start < token.stop ∧
      isCharBoundary source token.start = true ∧ Lands source token.stop := by
  induction h with
  | nil =>
    intro token hmem
    cases hmem
  | @cons token rest hlt hlands hrest ih =>
    intro token' hmem
    rcases List.mem_cons.mp hmem with rfl | hmem
    · exact ⟨le_refl _, hlt, hb, hlands⟩
    · obtain ⟨hle, hrest⟩ := ih hlands.boundary token' hmem
      exact ⟨hlt.le.trans hle, hrest⟩

/-- The tokens of a tiling follow each other. -/
theorem Tiles.pairwise {cursor : ℕ} (h : Tiles source cursor tokens)
    (hb : isCharBoundary source cursor = true) :
    tokens.Pairwise fun s t => s.stop ≤ t.start := by
  induction h with
  | nil => exact List.Pairwise.nil
  | @cons token rest hlt hlands hrest ih =>
    refine List.pairwise_cons.mpr ⟨?_, ih hlands.boundary⟩
    intro token' hmem
    exact (hrest.mem hlands.boundary token' hmem).1

/-- The lengths of the tokens add up to the rest of the source. -/
theorem Tiles.sum {cursor : ℕ} (h : Tiles source cursor tokens) :
    cursor + (tokens.map tokenLength).sum = source.length := by
  induction h with
  | nil => rfl
  | @cons token rest hlt hlands hrest ih =>
    rw [List.map_cons, List.sum_cons, tokenLength, Token.span]
    dsimp only
    omega

namespace Lexed

variable (h : Lexed source tokens)
include h

/-- A lexed token is not empty and has boundaries. -/
theorem token {i : ℕ} {token : Token} (hi : tokens[i]? = some token) :
    token.start < token.stop ∧ token.stop ≤ source.length ∧
      isCharBoundary source token.start = true ∧ isCharBoundary source token.stop = true := by
  obtain ⟨-, hlt, hb, hlands⟩ := h.tiles.mem rfl token (List.mem_of_getElem? hi)
  exact ⟨hlt, hlands.le_length, hb, hlands.boundary⟩

/-- Lexed tokens are in order. -/
theorem token_lt {i j : ℕ} {s t : Token} (hij : i < j) (hi : tokens[i]? = some s)
    (hj : tokens[j]? = some t) : s.stop ≤ t.start := by
  obtain ⟨hlt, rfl⟩ := List.getElem?_eq_some_iff.mp hi
  obtain ⟨hlt', rfl⟩ := List.getElem?_eq_some_iff.mp hj
  exact List.pairwise_iff_getElem.mp (h.tiles.pairwise rfl) i j hlt hlt' hij

/-- A span belongs to one token. -/
theorem token_inj {i j : ℕ} {s t : Token} (hi : tokens[i]? = some s) (hj : tokens[j]? = some t)
    (hspan : s.span = t.span) : i = j := by
  have hstart : s.start = t.start := congrArg Span.start hspan
  rcases Nat.lt_trichotomy i j with hlt | heq | hgt
  · have := h.token_lt hlt hi hj
    have := (h.token hi).1
    omega
  · exact heq
  · have := h.token_lt hgt hj hi
    have := (h.token hj).1
    omega

/-- The text of a token can be taken. -/
theorem text {i : ℕ} {token : Token} (hi : tokens[i]? = some token) :
    (token.text source : Run ε Bytes).Returns fun _ => True := by
  obtain ⟨hlt, hle, hstart, hstop⟩ := h.token hi
  exact ⟨_, sliceStr_eq_ok.mpr ⟨⟨hlt.le, hle, hstart, hstop⟩, rfl⟩, trivial⟩

end Lexed

/-! ### The helpers return -/

section Helpers

variable (h : Lexed source tokens)

/-- A token in range can be taken. -/
theorem index_returns {i : ℕ} (hi : i < tokens.length) :
    (Run.index tokens i : Run ε Token).Returns fun token => tokens[i]? = some token :=
  (Returns.index hi).mono fun token htoken => by rw [htoken, List.getElem?_eq_getElem hi]

/-- The significant indices are in range. -/
theorem significantIndices_returns {range : Span} (hrange : range.stop ≤ tokens.length) :
    (significantIndices tokens range : Run ε _).Returns fun is => ∀ i ∈ is, i < tokens.length := by
  refine (Returns.filterM fun i hi => ?_).mono fun is his i hi => ?_
  · have := List.mem_range'_1.mp hi
    exact (index_returns (by omega)).bind fun token _ => .ok trivial
  · have := List.mem_range'_1.mp (his i hi)
    omega

include h

/-- The comparison of a token in range returns. -/
theorem tokenIs_returns {i : ℕ} (hi : i < tokens.length) (expected : Bytes) :
    (tokenIs source tokens i expected : Run ε Bool).Returns fun _ => True :=
  (index_returns hi).bind fun _ htoken => (h.text htoken).bind fun _ _ => .ok trivial

/-- The search for a keyword returns. -/
theorem containsKeyword_returns (words : List Bytes) {range : Span}
    (hrange : range.stop ≤ tokens.length) :
    (containsKeyword source tokens words range : Run ε Bool).Returns fun _ => True := by
  refine (significantIndices_returns hrange).bind fun is his => Returns.anyM fun i hi => ?_
  refine (index_returns (his i hi)).bind fun token htoken => ?_
  exact .ite (fun _ => (h.text htoken).bind fun text _ => .ok trivial) fun _ => .ok trivial

/-- The test for a callable header returns. -/
theorem startsCallableHeader_returns {rest : List Token} (hrest : ∀ token ∈ rest, token ∈ tokens) :
    (startsCallableHeader source rest : Run ε Bool).Returns fun _ => True := by
  induction rest with
  | nil => exact .ok trivial
  | cons token rest ih =>
    have htext : (token.text source : Run ε Bytes).Returns fun _ => True := by
      obtain ⟨i, hi⟩ := List.mem_iff_getElem?.mp (hrest token List.mem_cons_self)
      exact h.text hi
    have ih := ih fun t ht => hrest t (List.mem_cons_of_mem _ ht)
    refine .ite (fun _ => ?_) fun _ => .ite (fun _ => .ok trivial) fun _ => ?_
    · exact htext.bind fun text _ => .ite (fun _ => .ok trivial) fun _ => ih
    · refine htext.bind fun text _ => .ite (fun _ => .ok trivial) fun _ => ?_
      exact .ite (fun _ => ih) fun _ => .ok trivial

/-- The test for a label returns. -/
theorem isLabelAt_returns {i j : ℕ} {rest : List ℕ} (hi : i < tokens.length)
    (hj : j < tokens.length) (hrest : ∀ k ∈ rest, k < tokens.length) :
    (isLabelAt source tokens i j rest : Run ε Bool).Returns fun _ => True := by
  refine (index_returns hi).bind fun token _ => .ite (fun _ => ?_) fun _ => .ok trivial
  refine (tokenIs_returns h hj _).bind fun colon _ => .ite (fun _ => ?_) fun _ => .ok trivial
  cases rest with
  | nil => exact .ok trivial
  | cons k rest =>
    exact (tokenIs_returns h (hrest k List.mem_cons_self) _).bind fun second _ => .ok trivial

/-- The position behind the labels lies in the list or at its end. -/
theorem skipLabels_returns {is : List ℕ} {cursor : ℕ} (his : ∀ i ∈ is, i < tokens.length) :
    (skipLabels source tokens is cursor : Run ε _).Returns fun o =>
      ∀ c, o = some c → c ≤ cursor + is.length := by
  have hstop : ∀ (i : ℕ) (is : List ℕ) (cursor : ℕ), i < tokens.length →
      (do
        let colon ← tokenIs source tokens i (bytes ":")
        (.ok (if colon then none else some cursor) : Run ε _)).Returns fun o =>
          ∀ c, o = some c → c ≤ cursor + is.length := by
    intro i is cursor hi
    refine (tokenIs_returns h hi _).bind fun colon _ => .ok ?_
    intro c hc
    cases colon with
    | false =>
      cases hc
      exact Nat.le_add_right _ _
    | true => cases hc
  induction is, cursor using skipLabels.induct with
  | case1 cursor =>
    refine .ok fun c hc => ?_
    cases hc
    exact le_refl _
  | case2 i cursor => exact hstop i [i] cursor (his i List.mem_cons_self)
  | case3 i j rest cursor ih =>
    rw [skipLabels]
    have hrest : ∀ k ∈ rest, k < tokens.length := fun k hk =>
      his k (List.mem_cons_of_mem _ (List.mem_cons_of_mem _ hk))
    refine (isLabelAt_returns h (his i List.mem_cons_self)
      (his j (List.mem_cons_of_mem _ List.mem_cons_self)) hrest).bind fun label _ => ?_
    refine .ite (fun _ => (ih hrest).mono fun o ho c hc => ?_) fun _ => ?_
    · have := ho c hc
      rw [List.length_cons, List.length_cons]
      omega
    · exact hstop i (i :: j :: rest) cursor (his i List.mem_cons_self)

/-- The test for the end of a line returns. -/
theorem shouldEndAtLine_returns {range : Span} (hrange : range.stop ≤ tokens.length) :
    (shouldEndAtLine source tokens range : Run ε Bool).Returns fun _ => True := by
  refine (significantIndices_returns hrange).bind fun is his =>
    .ite (fun _ => .ok trivial) fun _ => ?_
  refine (skipLabels_returns h his).bind fun labels _ => .ite (fun _ => .ok trivial) fun _ => ?_
  refine (containsKeyword_returns h _ hrange).bind fun header _ => .ite (fun _ => .ok trivial)
    fun _ => ?_
  have hwords : ∀ i ∈ is, (do
      let token ← Run.index tokens i
      .ok (decide (token.kind = .word)) : Run ε Bool).Returns fun _ => True := fun i hi =>
    (index_returns (his i hi)).bind fun _ _ => .ok trivial
  refine (Returns.filterM hwords).bind fun wordIndices hsub => ?_
  have htexts : ∀ i ∈ wordIndices, (do
      let token ← Run.index tokens i
      token.text source : Run ε Bytes).Returns fun _ => True := fun i hi =>
    (index_returns (his i (hsub i hi))).bind fun _ htoken => h.text htoken
  refine (Returns.mapM htexts).bind fun words _ => ?_
  cases words with
  | nil => exact .ok trivial
  | cons first rest =>
    exact .ite (fun _ => .ok trivial) fun _ => .ite (fun _ => .ok trivial) fun _ => .ok trivial

/-! ### An item ends among the tokens -/

/-- What one token does to the scan: the item ends between its start and the end of the tokens, or
the last significant token is one of the tokens. -/
def ScanStep.Within (tokens : List Token) (start : ℕ) : ScanStep → Prop
  | .done outcome => start ≤ outcome.stop ∧ outcome.stop ≤ tokens.length
  | .more last _ => start ≤ last ∧ last < tokens.length

/-- Trivia keep the scan in range. -/
theorem scanTrivia_returns {start cursor last : ℕ} {delimiters : List Bytes} {token : Token}
    (hcursor : tokens[cursor]? = some token) (hlast : start ≤ last ∧ last < tokens.length) :
    (scanTrivia source tokens start cursor last delimiters token : Run ε _).Returns
      (ScanStep.Within tokens start) := by
  have hlt := (List.getElem?_eq_some_iff.mp hcursor).1
  have hstop : start ≤ last + 1 ∧ last + 1 ≤ tokens.length := by omega
  refine (h.text hcursor).bind fun text _ => .ite (fun _ => ?_) fun _ => .ok hlast
  have hline : (if delimiters.isEmpty then shouldEndAtLine source tokens ⟨start, cursor⟩
      else .ok false : Run ε Bool).Returns fun _ => True :=
    .ite (fun _ => shouldEndAtLine_returns h hlt.le) fun _ => .ok trivial
  refine hline.bind fun ended _ => .ite (fun _ => .ok hstop) fun _ => ?_
  refine Returns.bind (P := fun _ => True) (.ite (fun _ => .ok trivial) fun _ => ?_)
    fun recovered _ => .ite (fun _ => .ok hstop) fun _ => .ok hlast
  cases nextSignificant tokens (cursor + 1) with
  | none => exact .ok trivial
  | some next => exact startsCallableHeader_returns h fun t ht => List.mem_of_mem_drop ht

/-- Punctuation keeps the scan in range. -/
theorem scanPunctuation_returns {start cursor : ℕ} {delimiters : List Bytes} {token : Token}
    (hcursor : tokens[cursor]? = some token) (hstart : start ≤ cursor) :
    (scanPunctuation source tokens start cursor delimiters token : Run ε _).Returns
      (ScanStep.Within tokens start) := by
  have hlt := (List.getElem?_eq_some_iff.mp hcursor).1
  have hbehind : start ≤ cursor + 1 ∧ cursor + 1 ≤ tokens.length := by omega
  have hbefore : start ≤ cursor ∧ cursor ≤ tokens.length := by omega
  have hmore : start ≤ cursor ∧ cursor < tokens.length := ⟨hstart, hlt⟩
  refine (h.text hcursor).bind fun text _ => .ite (fun _ => .ok hbehind) fun _ => ?_
  refine .ite (fun _ => ?_) fun _ => ?_
  · have hheader : (if delimiters.isEmpty then isBracedHeader source tokens ⟨start, cursor⟩
        else .ok false : Run ε Bool).Returns fun _ => True :=
      .ite (fun _ => containsKeyword_returns h _ hlt.le) fun _ => .ok trivial
    exact hheader.bind fun header _ => .ite (fun _ => .ok hbefore) fun _ => .ok hmore
  refine .ite (fun _ => .ok hmore) fun _ => .ite (fun _ => .ok hmore) fun _ => ?_
  refine .ite (fun _ => ?_) fun _ => .ok hmore
  refine .ite (fun _ => .ok hmore) fun _ => ?_
  exact .ite (fun _ => .ok hbefore) fun _ => .ok hbehind

/-- A token keeps the scan in range. -/
theorem scanToken_returns {start cursor last : ℕ} {delimiters : List Bytes} {token : Token}
    (hcursor : tokens[cursor]? = some token) (hstart : start ≤ cursor)
    (hlast : start ≤ last ∧ last < tokens.length) :
    (scanToken source tokens start cursor last delimiters token : Run ε _).Returns
      (ScanStep.Within tokens start) := by
  have hlt := (List.getElem?_eq_some_iff.mp hcursor).1
  refine .ite (fun _ => scanTrivia_returns h hcursor hlast) fun _ => ?_
  refine .ite (fun _ => .ok ⟨hstart, hlt.le⟩) fun _ => ?_
  refine .ite (fun _ => .ok ⟨Nat.le_succ_of_le hstart, hlt⟩) fun _ => ?_
  exact .ite (fun _ => scanPunctuation_returns h hcursor hstart) fun _ => .ok ⟨hstart, hlt⟩

/-- The scan of an item ends behind its start and in range. -/
theorem scanFrom_returns {start cursor last : ℕ} {rest : List Token} {delimiters : List Bytes}
    (hrest : rest = tokens.drop cursor) (hstart : start ≤ cursor)
    (hlast : start ≤ last ∧ last < tokens.length) :
    (scanFrom source tokens start rest cursor last delimiters : Run ε _).Returns fun outcome =>
      start ≤ outcome.stop ∧ outcome.stop ≤ tokens.length := by
  induction rest generalizing cursor last delimiters with
  | nil => exact .ok ⟨by show start ≤ last + 1; omega, hlast.2⟩
  | cons token rest ih =>
    have hcursor : tokens[cursor]? = some token := by
      rw [← Nat.add_zero cursor, ← List.getElem?_drop, ← hrest]
      rfl
    refine (scanToken_returns h hcursor hstart hlast).bind fun step hstep => ?_
    cases step with
    | done outcome => exact .ok hstep
    | more last delimiters =>
      apply ih
      · rw [← List.drop_drop, ← hrest]
        rfl
      · omega
      · exact hstep

/-- **An item ends behind its start, among the tokens.** -/
theorem scanItem_returns {start : ℕ} (hstart : start < tokens.length) :
    (scanItem source tokens start : Run ε _).Returns fun outcome =>
      start ≤ outcome.stop ∧ outcome.stop ≤ tokens.length :=
  scanFrom_returns h rfl (le_refl _) ⟨le_refl _, hstart⟩

/-- The classification returns. -/
theorem classify_returns {range : Span} {terminator : Terminator}
    (hrange : range.stop ≤ tokens.length) :
    (classify source tokens range terminator : Run ε _).Returns fun _ => True := by
  refine (significantIndices_returns hrange).bind fun is his => ?_
  have hget : ∀ {c j : ℕ}, is[c]? = some j → j < tokens.length := fun hj =>
    his _ (List.mem_of_getElem? hj)
  refine (skipLabels_returns h his).bind fun labels hlabels => ?_
  cases labels with
  | none => exact .ok trivial
  | some cursor =>
    have hcursor := hlabels cursor rfl
    refine .ite (fun _ => .ok trivial) fun hmore => ?_
    refine (Returns.index (by omega)).bind fun i hi => ?_
    have hi : is[cursor]? = some i := by rw [hi, List.getElem?_eq_getElem]
    refine (tokenIs_returns h (hget hi) _).bind fun guarded _ => ?_
    refine Returns.bind (P := fun _ => True) (.ite (fun _ => ?_) fun _ => .ok trivial)
      fun head _ => ?_
    · -- the predicate
      refine Returns.bind (P := fun _ => True) ?_ fun negated _ => ?_
      · cases hj : is[cursor + 1]? with
        | none => exact .ok trivial
        | some j => exact tokenIs_returns h (hget hj) _
      dsimp only
      cases hj : is[if negated = true then cursor + 2 else cursor + 1]? with
      | none => exact .ok trivial
      | some j => exact (index_returns (hget hj)).bind fun _ _ => .ok trivial
    · cases hj : head.bind fun cursor => is[cursor]? with
      | none => exact .ok trivial
      | some j =>
        obtain ⟨c, -, hc⟩ := Option.bind_eq_some_iff.mp hj
        refine (index_returns (hget hc)).bind fun token htoken =>
          .ite (fun _ => .ok trivial) fun _ => ?_
        refine (h.text htoken).bind fun text _ => .ite (fun _ => ?_) fun _ => .ok trivial
        exact (containsKeyword_returns h _ hrange).bind fun _ _ => .ok trivial

end Helpers

/-! ### The owner of a token -/

/-- What can own a token: a statement, or a brace of a scope. -/
inductive Part where
  | statement (id : ℕ)
  | opening (id : ℕ)
  | closing (id : ℕ)
  deriving DecidableEq, Repr

/-- The statement covers token `i`. -/
def Statement.Holds (statement : Statement) (i : ℕ) : Prop :=
  statement.tokenRange.start ≤ i ∧ i < statement.tokenRange.stop

/-- The part accounts for token `i`. -/
def Part.Holds (tokens : List Token) (statements : List Statement) (scopes : List Scope) (i : ℕ) :
    Part → Prop
  | .statement id => ∃ statement, statements[id]? = some statement ∧ statement.Holds i
  | .opening id => ∃ scope token, scopes[id]? = some scope ∧ tokens[i]? = some token ∧
      scope.openSpan = some token.span
  | .closing id => ∃ scope token, scopes[id]? = some scope ∧ tokens[i]? = some token ∧
      scope.closeSpan = some token.span

/-- The tokens before `cursor` have one owner each, the others none. -/
structure OwnedUpTo (tokens : List Token) (cursor : ℕ) (holds : Part → ℕ → Prop) : Prop where
  lt : ∀ part i, holds part i → i < cursor
  once : ∀ i token, i < cursor → tokens[i]? = some token → token.kind.isTrivia = false →
    ∃! part, holds part i

/-- A new part takes the tokens of a range behind the owned ones. -/
theorem OwnedUpTo.step {holds holds' : Part → ℕ → Prop} {cursor start stop : ℕ} {new : Part}
    (h : OwnedUpTo tokens cursor holds) (hle : cursor ≤ start) (hlt : start < stop)
    (hgap : ∀ i token, cursor ≤ i → i < start → tokens[i]? = some token →
      token.kind.isTrivia = true)
    (hstep : ∀ part i, holds' part i ↔ holds part i ∨ part = new ∧ start ≤ i ∧ i < stop) :
    OwnedUpTo tokens stop holds' where
  lt part i hpart := by
    rcases (hstep part i).mp hpart with hold | ⟨-, -, hi⟩
    · have := h.lt part i hold
      omega
    · exact hi
  once i token hi htoken hsignificant := by
    by_cases hcursor : i < cursor
    · obtain ⟨part, hpart, hunique⟩ := h.once i token hcursor htoken hsignificant
      refine ⟨part, (hstep part i).mpr (.inl hpart), fun part' hpart' => ?_⟩
      rcases (hstep part' i).mp hpart' with hold | ⟨-, hstart, -⟩
      · exact hunique part' hold
      · omega
    · have hstart : start ≤ i := by
        by_contra hbefore
        rw [hgap i token (not_lt.mp hcursor) (not_le.mp hbefore) htoken] at hsignificant
        cases hsignificant
      refine ⟨new, (hstep new i).mpr (.inr ⟨rfl, hstart, hi⟩), fun part' hpart' => ?_⟩
      rcases (hstep part' i).mp hpart' with hold | ⟨hnew, -⟩
      · exact absurd (h.lt part' i hold) hcursor
      · exact hnew

/-- What the parser remembers of the owners: it marks the tokens of unknown statements. -/
structure Marked (tokens : List Token) (cursor : ℕ) (statements : List Statement)
    (ownership : List Ownership) : Prop where
  length : ownership.length = tokens.length
  unowned : ∀ i, cursor ≤ i → i < tokens.length → ownership[i]? = some .unowned
  owner : ∀ i token, i < cursor → tokens[i]? = some token → token.kind.isTrivia = false →
    ∃ owner, ownership[i]? = some owner ∧ owner ≠ .unowned ∧
      (owner = .unknown ↔ ∃ s ∈ statements, s.kind = .unknown ∧ s.Holds i)

/-- A statement is written by the tokens of its range. -/
def Statement.WrittenBy (tokens : List Token) (statement : Statement) : Prop :=
  statement.tokenRange.start < statement.tokenRange.stop ∧
    ∃ first last, tokens[statement.tokenRange.start]? = some first ∧
      tokens[statement.tokenRange.stop - 1]? = some last ∧
      statement.span = ⟨first.start, last.stop⟩

/-- The region of a scope. -/
def Scope.region (scope : Scope) : Region := ⟨scope.span, scope.bodySpan, scope.parent⟩

/-- The nest of the scopes and statements so far. -/
def ParseState.nest (st : ParseState) : Nest :=
  ⟨st.scopes.map Scope.region, st.scopeStack, st.statements.map fun s => (s.scope, s.span)⟩

/-- The invariant of the parser before the token `cursor`. -/
structure Parsing (source : Bytes) (tokens : List Token) (cursor : ℕ) (st : ParseState) : Prop where
  nested : ∃ front, (∀ i token, cursor ≤ i → tokens[i]? = some token → front ≤ token.start) ∧
    Nest.Nested source.length front st.nest
  owned : OwnedUpTo tokens cursor fun part i => part.Holds tokens st.statements st.scopes i
  marked : Marked tokens cursor st.statements st.ownership
  written : ∀ statement ∈ st.statements, statement.WrittenBy tokens
  ordered : st.statements.Pairwise fun s t => s.tokenRange.stop ≤ t.tokenRange.start
  statement_id : ∀ (k : ℕ) (s : Statement), st.statements[k]? = some s → s.id = k
  scope_id : ∀ (k : ℕ) (scope : Scope), st.scopes[k]? = some scope → scope.id = k
  braced : ∀ (k : ℕ) (scope : Scope), k ≠ 0 → st.scopes[k]? = some scope →
    ∃ opened, scope.openSpan = some opened
  unclosed : ∀ (k : ℕ) (scope : Scope), k ∈ st.scopeStack → st.scopes[k]? = some scope →
    scope.closeSpan = none

/-! ### Claiming tokens -/

/-- Claiming tokens that are free succeeds. -/
theorem claimTokens_returns {owner : Ownership} {ownership : List Ownership} {start k : ℕ}
    (hlength : ownership.length = tokens.length) (hle : start + k ≤ tokens.length)
    (hfree : ∀ i, start ≤ i → i < start + k → ownership[i]? = some .unowned) :
    ((List.range' start k).foldlM (claimToken tokens owner) ownership : Run ε _).Returns fun os =>
      os.length = tokens.length ∧ ∀ i token, tokens[i]? = some token →
        os[i]? = if start ≤ i ∧ i < start + k ∧ token.kind.isTrivia = false then some owner
          else ownership[i]? := by
  induction k generalizing start ownership with
  | zero =>
    refine .pure ⟨hlength, fun i token _ => ?_⟩
    rw [if_neg (by omega)]
  | succ k ih =>
    rw [List.range'_succ, List.foldlM_cons]
    have hhead := hfree start (le_refl _) (by omega)
    have hclaim : (claimToken tokens owner ownership start : Run ε _).Returns fun os =>
        os.length = tokens.length ∧ ∀ i token, tokens[i]? = some token →
          os[i]? = if i = start ∧ token.kind.isTrivia = false then some owner
            else ownership[i]? := by
      -- trivia stays as it is, a significant token is claimed
      refine (index_returns (by omega)).bind fun head hget => .ite (fun htrivia => ?_)
        fun htrivia => ?_
      · refine .ok ⟨hlength, fun i token htoken => ?_⟩
        rw [if_neg]
        rintro ⟨rfl, hsignificant⟩
        rw [Option.some.inj (hget.symm.trans htoken), hsignificant] at htrivia
        cases htrivia
      · refine .bind_ok (Run.index_eq_ok.mpr hhead) ?_
        refine (Returns.assert rfl).bind fun _ _ => .ok ⟨?_, fun i token htoken => ?_⟩
        · rw [List.length_set, hlength]
        · rw [List.getElem?_set]
          by_cases hi : start = i
          · subst hi
            obtain rfl := Option.some.inj (hget.symm.trans htoken)
            rw [if_pos rfl, if_pos (by omega), if_pos ⟨rfl, by simpa using htrivia⟩]
          · rw [if_neg hi, if_neg fun h => hi h.1.symm]
    refine hclaim.bind fun os hos => ?_
    refine (ih hos.1 (by omega) fun i hi hlt => ?_).mono fun os' hos' => ⟨hos'.1, ?_⟩
    -- the tokens behind the first one are still free
    · have hget := List.getElem?_eq_getElem (l := tokens) (i := i) (by omega)
      rw [hos.2 i _ hget, if_neg (by omega)]
      exact hfree i (by omega) (by omega)
    · intro i token htoken
      rw [hos'.2 i token htoken, hos.2 i token htoken]
      -- a token is claimed when it is the first one or one of the others
      by_cases hi : i = start
      · rw [if_neg (by omega)]
        simp [hi]
      · rw [if_neg (c := i = start ∧ _) fun h => hi h.1]
        congr 1
        apply propext
        constructor
        · rintro ⟨h₁, h₂, h₃⟩
          exact ⟨by omega, by omega, h₃⟩
        · rintro ⟨h₁, h₂, h₃⟩
          exact ⟨by omega, by omega, h₃⟩

/-! ### The parser's operations keep the invariant -/

section Operations

variable {cursor start : ℕ} {st : ParseState}

/-- Diagnostics and the pending header do not matter. -/
theorem Parsing.update (hp : Parsing source tokens cursor st) (diagnostics : List Diagnostic)
    (header : Option ℕ) :
    Parsing source tokens cursor
      { st with diagnostics := diagnostics, nextScopeHeader := header } where
  nested := hp.nested
  owned := hp.owned
  marked := hp.marked
  written := hp.written
  ordered := hp.ordered
  statement_id := hp.statement_id
  scope_id := hp.scope_id
  braced := hp.braced
  unclosed := hp.unclosed

/-- There is a current scope. -/
theorem Parsing.currentScope_returns (hp : Parsing source tokens cursor st) :
    (currentScope st : Run ε ℕ).Returns fun scope => st.scopeStack.head? = some scope := by
  obtain ⟨front, -, hnest⟩ := hp.nested
  obtain ⟨scope, rest, hstack⟩ := List.exists_cons_of_ne_nil hnest.stack_ne_nil
  have hstack : st.scopeStack = scope :: rest := hstack
  rw [currentScope, hstack]
  exact .ok rfl

/-- Every statement ends before the cursor. -/
theorem Parsing.stop_le (hp : Parsing source tokens cursor st) {s : Statement}
    (hs : s ∈ st.statements) : s.tokenRange.stop ≤ cursor := by
  obtain ⟨id, hid⟩ := List.mem_iff_getElem?.mp hs
  have hlt := (hp.written s hs).1
  have := hp.owned.lt (.statement id) (s.tokenRange.stop - 1) ⟨s, hid, by omega, by omega⟩
  omega

/-- No part owns a token behind the cursor. -/
theorem Parsing.not_holds (hp : Parsing source tokens cursor st) {s : Statement}
    (hs : s ∈ st.statements) {i : ℕ} (hi : cursor ≤ i) : ¬s.Holds i := by
  have := hp.stop_le hs
  rintro ⟨-, hlt⟩
  omega

/-- One statement more accounts for its own tokens. -/
theorem holds_concat {statements : List Statement} {scopes : List Scope} {new : Statement}
    (part : Part) (i : ℕ) :
    part.Holds tokens (statements ++ [new]) scopes i ↔ part.Holds tokens statements scopes i ∨
      part = .statement statements.length ∧ new.tokenRange.start ≤ i ∧ i < new.tokenRange.stop := by
  cases part with
  | statement id =>
    constructor
    · rintro ⟨s, hs, hi⟩
      rcases Nest.getElem?_concat hs with ⟨-, hold⟩ | ⟨rfl, rfl⟩
      · exact .inl ⟨s, hold, hi⟩
      · exact .inr ⟨rfl, hi⟩
    · rintro (⟨s, hs, hi⟩ | ⟨hid, hi⟩)
      · exact ⟨s, (List.getElem?_append_left (List.getElem?_eq_some_iff.mp hs).1).trans hs, hi⟩
      · cases hid
        exact ⟨new, List.getElem?_concat_length, hi⟩
  | opening id => simp [Part.Holds]
  | closing id => simp [Part.Holds]

/-- The owners that a statement of the class `kind` leaves behind. -/
theorem Marked.push {statements : List Statement} {ownership os : List Ownership}
    (hm : Marked tokens cursor statements ownership) (new : Statement)
      (hle : cursor ≤ new.tokenRange.start)
    (hold : ∀ s ∈ statements, ∀ i, cursor ≤ i → ¬s.Holds i)
    (hgap : ∀ i token, cursor ≤ i → i < new.tokenRange.start → tokens[i]? = some token →
      token.kind.isTrivia = true)
    (hlength : os.length = tokens.length)
    (hos : ∀ i token, tokens[i]? = some token →
      os[i]? = if new.tokenRange.start ≤ i ∧ i < new.tokenRange.stop ∧ token.kind.isTrivia = false
        then some (ownerOf new.kind) else ownership[i]?)
    (hlt : new.tokenRange.start < new.tokenRange.stop) :
    Marked tokens new.tokenRange.stop (statements ++ [new]) os where
  length := hlength
  unowned i hi hlen := by
    rw [hos i _ (List.getElem?_eq_getElem hlen), if_neg (by omega)]
    exact hm.unowned i (by omega) hlen
  owner i token hi htoken hsignificant := by
    rw [hos i token htoken]
    -- a token before the cursor keeps its owner, one of the new range gets this one
    by_cases hcursor : i < cursor
    · rw [if_neg (by omega)]
      obtain ⟨owner, hget, hne, hiff⟩ := hm.owner i token hcursor htoken hsignificant
      refine ⟨owner, hget, hne, hiff.trans ?_⟩
      simp only [List.mem_append, List.mem_singleton, or_and_right, exists_or, exists_eq_left]
      constructor
      · exact .inl
      · rintro (h | ⟨-, h, -⟩)
        · exact h
        · omega
    · have hstart : new.tokenRange.start ≤ i := by
        by_contra hbefore
        rw [hgap i token (not_lt.mp hcursor) (not_le.mp hbefore) htoken] at hsignificant
        cases hsignificant
      rw [if_pos ⟨hstart, hi, hsignificant⟩]
      refine ⟨_, rfl, by unfold ownerOf; split <;> decide, ?_⟩
      constructor
      · intro howner
        refine ⟨new, by simp, ?_, hstart, hi⟩
        by_contra hkind
        rw [ownerOf, if_neg hkind] at howner
        cases howner
      · rintro ⟨s, hs, hkind, hholds⟩
        rcases List.mem_append.mp hs with hmem | hmem
        · exact absurd hholds (hold s hmem i (not_lt.mp hcursor))
        · rw [List.mem_singleton.mp hmem] at hkind
          rw [ownerOf, if_pos hkind]

/-- A brace takes one token. -/
theorem Marked.recognize {statements : List Statement} {ownership : List Ownership}
    (hm : Marked tokens cursor statements ownership) (hle : cursor ≤ start)
    (hlt : start < tokens.length) (hold : ∀ s ∈ statements, ∀ i, cursor ≤ i → ¬s.Holds i)
    (hgap : ∀ i token, cursor ≤ i → i < start → tokens[i]? = some token →
      token.kind.isTrivia = true) :
    Marked tokens (start + 1) statements (ownership.set start .recognized) where
  length := by rw [List.length_set, hm.length]
  unowned i hi hlen := by
    rw [List.getElem?_set_ne (by omega)]
    exact hm.unowned i (by omega) hlen
  owner i token hi htoken hsignificant := by
    by_cases hcursor : i < cursor
    · rw [List.getElem?_set_ne (by omega)]
      exact hm.owner i token hcursor htoken hsignificant
    · have hstart : ¬i < start := by
        intro hbefore
        rw [hgap i token (not_lt.mp hcursor) hbefore htoken] at hsignificant
        cases hsignificant
      obtain rfl : i = start := by omega
      refine ⟨.recognized, List.getElem?_set_self (by rw [hm.length]; exact hlt), by decide, ?_⟩
      constructor
      · intro hne
        cases hne
      · rintro ⟨s, hs, -, hholds⟩
        exact absurd hholds (hold s hs i hle)

/-- Recognizing a token marks it. -/
theorem recognize_returns (hm : Marked tokens cursor st.statements st.ownership)
    (hlt : start < tokens.length) :
    (recognize st start : Run ε ParseState).Returns fun st' =>
      st' = { st with ownership := st.ownership.set start .recognized } :=
  (Returns.index (by rw [hm.length]; exact hlt)).bind fun _ _ => .ok rfl

/-- One scope more accounts for its opening token. -/
theorem holds_opening (h : Lexed source tokens) {statements : List Statement} {scopes : List Scope}
    {new : Scope} {token : Token} (htoken : tokens[start]? = some token)
    (hopen : new.openSpan = some token.span) (hclose : new.closeSpan = none) (part : Part) (i : ℕ) :
    part.Holds tokens statements (scopes ++ [new]) i ↔ part.Holds tokens statements scopes i ∨
      part = .opening scopes.length ∧ start ≤ i ∧ i < start + 1 := by
  have hkeep : ∀ {id : ℕ} {scope : Scope}, scopes[id]? = some scope →
      (scopes ++ [new])[id]? = some scope := fun hs =>
    (List.getElem?_append_left (List.getElem?_eq_some_iff.mp hs).1).trans hs
  cases part with
  | statement id => simp [Part.Holds]
  | opening id =>
    constructor
    · rintro ⟨scope, t, hs, ht, hspan⟩
      rcases Nest.getElem?_concat hs with ⟨-, hold⟩ | ⟨rfl, rfl⟩
      · exact .inl ⟨scope, t, hold, ht, hspan⟩
      · have := h.token_inj ht htoken (Option.some.inj (hspan.symm.trans hopen))
        exact .inr ⟨rfl, by omega, by omega⟩
    · rintro (⟨scope, t, hs, ht, hspan⟩ | ⟨hid, hi, hi'⟩)
      · exact ⟨scope, t, hkeep hs, ht, hspan⟩
      · cases hid
        obtain rfl : i = start := by omega
        exact ⟨new, token, List.getElem?_concat_length, htoken, hopen⟩
  | closing id =>
    constructor
    · rintro ⟨scope, t, hs, ht, hspan⟩
      rcases Nest.getElem?_concat hs with ⟨-, hold⟩ | ⟨rfl, rfl⟩
      · exact .inl ⟨scope, t, hold, ht, hspan⟩
      · rw [hclose] at hspan
        cases hspan
    · rintro (⟨scope, t, hs, ht, hspan⟩ | ⟨hid, -⟩)
      · exact ⟨scope, t, hkeep hs, ht, hspan⟩
      · cases hid

/-- Closing a scope accounts for its closing token. -/
theorem holds_closing (h : Lexed source tokens) {statements : List Statement} {scopes : List Scope}
    {t : ℕ} {old new : Scope} {token : Token} (hold : scopes[t]? = some old)
    (htoken : tokens[start]? = some token) (hopen : new.openSpan = old.openSpan)
    (hclose : old.closeSpan = none) (hclosed : new.closeSpan = some token.span)
      (part : Part) (i : ℕ) :
    part.Holds tokens statements (scopes.set t new) i ↔ part.Holds tokens statements scopes i ∨
      part = .closing t ∧ start ≤ i ∧ i < start + 1 := by
  have hnew : (scopes.set t new)[t]? = some new :=
    List.getElem?_set_self (List.getElem?_eq_some_iff.mp hold).1
  have hkeep : ∀ {id : ℕ} {scope : Scope}, id ≠ t → scopes[id]? = some scope →
      (scopes.set t new)[id]? = some scope := fun hne hs =>
    (List.getElem?_set_ne hne.symm).trans hs
  -- only the closing brace of scope `t` is new
  cases part with
  | statement id => simp [Part.Holds]
  | opening id =>
    constructor
    · rintro ⟨scope, tok, hs, ht, hspan⟩
      rcases Nest.getElem?_set hs with ⟨rfl, rfl⟩ | ⟨-, hs⟩
      · exact .inl ⟨old, tok, hold, ht, hopen.symm.trans hspan⟩
      · exact .inl ⟨scope, tok, hs, ht, hspan⟩
    · rintro (⟨scope, tok, hs, ht, hspan⟩ | ⟨hid, -⟩)
      · by_cases hid : id = t
        · subst hid
          obtain rfl := Option.some.inj (hs.symm.trans hold)
          exact ⟨new, tok, hnew, ht, hopen.trans hspan⟩
        · exact ⟨scope, tok, hkeep hid hs, ht, hspan⟩
      · cases hid
  | closing id =>
    constructor
    · rintro ⟨scope, tok, hs, ht, hspan⟩
      rcases Nest.getElem?_set hs with ⟨rfl, rfl⟩ | ⟨-, hs⟩
      -- a token is at one place only
      · have := h.token_inj ht htoken (Option.some.inj (hspan.symm.trans hclosed))
        exact .inr ⟨rfl, by omega, by omega⟩
      · exact .inl ⟨scope, tok, hs, ht, hspan⟩
    · rintro (⟨scope, tok, hs, ht, hspan⟩ | ⟨hid, hi, hi'⟩)
      · by_cases hid : id = t
        · subst hid
          rw [hold] at hs
          rw [← Option.some.inj hs, hclose] at hspan
          cases hspan
        · exact ⟨scope, tok, hkeep hid hs, ht, hspan⟩
      · cases hid
        obtain rfl : i = start := by omega
        exact ⟨new, token, hnew, htoken, hclosed⟩

variable (h : Lexed source tokens) (hp : Parsing source tokens cursor st) (hle : cursor ≤ start)
  (hgap : ∀ i token, cursor ≤ i → i < start → tokens[i]? = some token → token.kind.isTrivia = true)
include h hp hle hgap

/-- **A statement behind the cursor takes the tokens of its range.** -/
theorem pushStatement_returns {kind : StatementKind} {scope stop : ℕ}
    (hscope : st.scopeStack.head? = some scope) (hlt : start < stop)
      (hstop : stop ≤ tokens.length) :
    (pushStatement source tokens st kind scope ⟨start, stop⟩ : Run ε _).Returns fun r =>
      Parsing source tokens stop r.1 ∧ r.1.scopeStack = st.scopeStack ∧
        r.2 < r.1.statements.length := by
  have hm := hp.marked
  have hfree : ∀ i, start ≤ i → i < start + (stop - start) → st.ownership[i]? = some .unowned :=
    fun i hi hlt => hm.unowned i (by omega) (by omega)
  -- the tokens of the range have no owner yet, so none is claimed twice
  refine (claimTokens_returns hm.length (show start + (stop - start) ≤ _ by omega) hfree).bind
    fun os hos => ?_
  refine (index_returns (show start < _ by omega)).bind fun first hfirst => ?_
  refine (Returns.assert (show 1 ≤ stop by omega)).bind fun _ _ => ?_
  refine (index_returns (show stop - 1 < _ by omega)).bind fun last hlast => ?_
  obtain ⟨hfirst_lt, -, hb, -⟩ := h.token hfirst
  obtain ⟨hlast_lt, hlast_le, -, hb'⟩ := h.token hlast
  refine (Returns.assert ⟨hb, hb'⟩).bind fun _ _ => .ok ⟨?_, rfl, by simp⟩
  -- the range is not empty, so it ends behind its first token
  have hspan : first.start < last.stop := by
    by_cases hsame : start = stop - 1
    · rw [hsame] at hfirst
      obtain rfl := Option.some.inj (hfirst.symm.trans hlast)
      exact hfirst_lt
    · have := h.token_lt (show start < stop - 1 by omega) hfirst hlast
      omega
  -- a new statement is a leaf of the innermost scope, and nothing else changes
  constructor
  case nested =>
    obtain ⟨front, hahead, hnest⟩ := hp.nested
    refine ⟨last.stop, fun i token hi htoken => h.token_lt (by omega) hlast htoken, ?_⟩
    have hleaf := hnest.leaf (x := ⟨first.start, last.stop⟩) hscope
      (hahead start first hle hfirst) hspan hlast_le
    have heq : ParseState.nest { st with
        statements := st.statements ++
          [⟨st.statements.length, kind, scope, ⟨first.start, last.stop⟩, ⟨start, stop⟩⟩]
        ownership := os } = st.nest.leaf scope ⟨first.start, last.stop⟩ := by
      simp [ParseState.nest, Nest.leaf]
    exact heq ▸ hleaf
  case owned => exact hp.owned.step hle hlt hgap fun part i => holds_concat part i
  case marked =>
    refine hm.push ⟨_, kind, scope, _, ⟨start, stop⟩⟩ hle
      (fun s hs i hi => hp.not_holds hs hi) hgap hos.1 ?_ hlt
    intro i token htoken
    rw [hos.2 i token htoken, Nat.add_sub_cancel' hlt.le]
  case written =>
    intro s hs
    rcases List.mem_append.mp hs with hmem | hmem
    · exact hp.written s hmem
    · rw [List.mem_singleton.mp hmem]
      exact ⟨hlt, first, last, hfirst, hlast, rfl⟩
  case ordered =>
    refine List.pairwise_append.mpr ⟨hp.ordered, List.pairwise_singleton _ _, ?_⟩
    intro s hs t ht
    rw [List.mem_singleton.mp ht]
    exact le_trans (hp.stop_le hs) hle
  case statement_id =>
    intro k s hs
    rcases Nest.getElem?_concat hs with ⟨-, hold⟩ | ⟨rfl, rfl⟩
    · exact hp.statement_id k s hold
    · rfl
  case scope_id => exact hp.scope_id
  case braced => exact hp.braced
  case unclosed => exact hp.unclosed

/-- Opening a scope goes on with the next token. -/
theorem openScope_returns {token : Token} (htoken : tokens[start]? = some token) :
    (openScope source st start token : Run ε _).Returns (Parsing source tokens (start + 1)) := by
  have hlt := (List.getElem?_eq_some_iff.mp htoken).1
  obtain ⟨htoken_lt, htoken_le, -⟩ := h.token htoken
  obtain ⟨front, hahead, hnest⟩ := hp.nested
  refine (recognize_returns hp.marked hlt).bind fun st' hst => ?_
  subst hst
  refine .ok ?_
  -- a new scope is nested in the innermost one, and its brace is its own token
  constructor
  case nested =>
    refine ⟨token.stop, fun i t hi ht => h.token_lt (by omega) htoken ht, ?_⟩
    have hopen :=
      hnest.opening (o := token.span) (hahead start token hle htoken) htoken_lt htoken_le
    have heq : ParseState.nest { st with
        scopes := st.scopes ++ [{
          id := st.scopes.length
          parent := st.scopeStack.head?
          header := st.nextScopeHeader
          span := ⟨token.span.start, source.length⟩
          openSpan := some token.span
          closeSpan := none }]
        scopeStack := st.scopes.length :: st.scopeStack } =
        st.nest.opening source.length token.span := by
      simp [ParseState.nest, Nest.opening, Scope.region, Scope.bodySpan]
    exact heq ▸ hopen
  case owned =>
    exact hp.owned.step hle (Nat.lt_succ_self _) hgap fun part i =>
      holds_opening h htoken rfl rfl part i
  case marked => exact hp.marked.recognize hle hlt (fun s hs i hi => hp.not_holds hs hi) hgap
  case written => exact hp.written
  case ordered => exact hp.ordered
  case statement_id => exact hp.statement_id
  case scope_id =>
    intro k scope hs
    rcases Nest.getElem?_concat hs with ⟨-, hold⟩ | ⟨rfl, rfl⟩
    · exact hp.scope_id k scope hold
    · rfl
  case braced =>
    intro k scope hk hs
    rcases Nest.getElem?_concat hs with ⟨-, hold⟩ | ⟨-, rfl⟩
    · exact hp.braced k scope hk hold
    · exact ⟨_, rfl⟩
  case unclosed =>
    intro k scope hk hs
    rcases Nest.getElem?_concat hs with ⟨hlen, hold⟩ | ⟨-, rfl⟩
    · rcases List.mem_cons.mp hk with rfl | hmem
      · exact absurd hlen (lt_irrefl _)
      · exact hp.unclosed k scope hmem hold
    · rfl

/-- A statement of one token goes on with the next one. -/
theorem parseSingle_returns {kind : StatementKind} {scope : ℕ}
    (hscope : st.scopeStack.head? = some scope) (hlt : start < tokens.length) :
    (parseSingle source tokens st start kind scope : Run ε _).Returns
      (Parsing source tokens (start + 1)) := by
  have hp' := hp.update st.diagnostics none
  refine (pushStatement_returns h hp' hle hgap hscope (Nat.lt_succ_self start) hlt).bind ?_
  rintro r ⟨hr, -⟩
  exact .ok hr

/-- Closing a scope goes on with the next token. -/
theorem closeScope_returns {token : Token} (htoken : tokens[start]? = some token) :
    (closeScope source tokens st start token : Run ε _).Returns
      (Parsing source tokens (start + 1)) := by
  have hlt := (List.getElem?_eq_some_iff.mp htoken).1
  obtain ⟨htoken_lt, htoken_le, -⟩ := h.token htoken
  obtain ⟨front, hahead, hnest⟩ := hp.nested
  have hp' := hp.update st.diagnostics none
  refine .ite (fun hone => ?_) fun hmore => ?_
  · -- only the root is open: the brace is a statement of its own
    have hroot : st.scopeStack.head? = some rootId := by
      obtain ⟨k, hk⟩ := List.length_eq_one_iff.mp hone
      have hlast : st.scopeStack.getLast? = some 0 := hnest.stack_root
      rw [hk] at hlast ⊢
      exact hlast
    refine (parseSingle_returns h hp' hle hgap hroot hlt).bind fun st' hst => ?_
    exact .ok (hst.update _ st'.nextScopeHeader)
  -- the innermost scope is closed by this brace
  · refine (recognize_returns hp'.marked hlt).bind fun st' hst => ?_
    subst hst
    refine (hp'.currentScope_returns).bind fun t ht => ?_
    have hmem : t ∈ st.scopeStack := List.mem_of_mem_head? ht
    have htl : t < st.scopes.length := by
      have := hnest.stack_lt t hmem
      simpa [ParseState.nest] using this
    refine (Returns.index htl).bind fun scope hscope => .ok ?_
    have hold : st.scopes[t]? = some scope := by rw [hscope, List.getElem?_eq_getElem]
    obtain ⟨opened, hopened⟩ := hp.braced t scope (hnest.head_pos ht hmore).ne' hold
    have hclose := hp.unclosed t scope hmem hold
    -- the one part that is new is the closing brace
    have hholds : ∀ (part : Part) (i : ℕ), part.Holds tokens st.statements
        (st.scopes.set t { scope with
          span := ⟨scope.span.start, token.span.stop⟩
          closeSpan := some token.span }) i ↔ part.Holds tokens st.statements st.scopes i ∨
          part = .closing t ∧ start ≤ i ∧ i < start + 1 := by
      intro part i
      apply holds_closing h hold htoken
      all_goals first | rfl | exact hclose
    -- closing keeps every other scope
    constructor
    case nested =>
      refine ⟨token.stop, fun i t hi ht => h.token_lt (by omega) htoken ht, ?_⟩
      have hregion : st.nest.regions[t]? = some scope.region := by
        simp [ParseState.nest, hold]
      have hclosing := hnest.closing (c := token.span) ht hmore hregion
        (hahead start token hle htoken) htoken_lt htoken_le
      have heq : ParseState.nest { st with
          scopes := st.scopes.set t { scope with
            span := ⟨scope.span.start, token.span.stop⟩
            closeSpan := some token.span }
          scopeStack := st.scopeStack.tail } = st.nest.closing t scope.region token.span := by
        simp [ParseState.nest, Nest.closing, Scope.region, Scope.bodySpan, Region.close, hopened,
          List.map_set]
      exact heq ▸ hclosing
    case owned => exact hp.owned.step hle (Nat.lt_succ_self _) hgap hholds
    case marked => exact hp.marked.recognize hle hlt (fun s hs i hi => hp.not_holds hs hi) hgap
    case written => exact hp.written
    case ordered => exact hp.ordered
    case statement_id => exact hp.statement_id
    case scope_id =>
      intro k s hs
      rcases Nest.getElem?_set hs with ⟨rfl, rfl⟩ | ⟨-, hs⟩
      · exact hp.scope_id k scope hold
      · exact hp.scope_id k s hs
    case braced =>
      intro k s hk hs
      rcases Nest.getElem?_set hs with ⟨rfl, rfl⟩ | ⟨-, hs⟩
      · exact ⟨opened, hopened⟩
      · exact hp.braced k s hk hs
    case unclosed =>
      intro k s hk hs
      rcases Nest.getElem?_set hs with ⟨rfl, -⟩ | ⟨-, hs⟩
      · exact absurd hk (hnest.notMem_tail ht)
      · exact hp.unclosed k s (List.mem_of_mem_tail hk) hs

/-- A statement goes on behind its tokens. -/
theorem parseStatement_returns (hlt : start < tokens.length) :
    (parseStatement source tokens st start : Run ε _).Returns fun r =>
      Parsing source tokens (max r.2 (start + 1)) r.1 := by
  refine (scanItem_returns h hlt).bind fun outcome houtcome => ?_
  have hrange : (if outcome.stop = start then (⟨start, start + 1⟩ : Span)
    else ⟨start, outcome.stop⟩) =
      ⟨start, max outcome.stop (start + 1)⟩ := by
    by_cases hsame : outcome.stop = start
    · rw [if_pos hsame, hsame, max_eq_right (Nat.le_succ start)]
    · rw [if_neg hsame, max_eq_left (by omega)]
  have hstop : max outcome.stop (start + 1) ≤ tokens.length := max_le houtcome.2 hlt
  dsimp only
  rw [hrange]
  have hkind : (if outcome.stop = start then .ok .unknown
      else classify source tokens ⟨start, max outcome.stop (start + 1)⟩ outcome.terminator :
      Run ε StatementKind).Returns fun _ => True :=
    .ite (fun _ => .ok trivial) fun _ => classify_returns h hstop
  refine hkind.bind fun kind _ => hp.currentScope_returns.bind fun scope hscope => ?_
  refine (pushStatement_returns h hp hle hgap hscope (lt_max_of_lt_right (Nat.lt_succ_self _))
    hstop).bind ?_
  rintro ⟨st', id⟩ ⟨hp', -, hid⟩
  refine (Returns.index hid).bind fun statement _ => .ok ?_
  dsimp only
  split
  · exact hp'.update _ _
  · cases outcome.diagnostic with
    | none => exact hp'.update _ _
    | some kind => exact hp'.update _ _

/-- **An item keeps the invariant and takes at least its first token.** -/
theorem parseItem_returns (hlt : start < tokens.length) :
    (parseItem source tokens st start : Run ε _).Returns fun r =>
      Parsing source tokens (max r.2 (start + 1)) r.1 := by
  refine (index_returns hlt).bind fun token htoken => ?_
  refine .ite (fun _ => ?_) fun _ => .ite (fun _ => ?_) fun _ => .ite (fun _ => ?_) fun _ => ?_
  · refine hp.currentScope_returns.bind fun scope hscope => ?_
    refine (parseSingle_returns h hp hle hgap hscope hlt).bind fun st' hst => .ok ?_
    rwa [max_self]
  · refine hp.currentScope_returns.bind fun scope hscope => ?_
    refine (parseSingle_returns h hp hle hgap hscope hlt).bind fun st' hst => .ok ?_
    rw [max_self]
    exact hst.update _ st'.nextScopeHeader
  · refine (h.text htoken).bind fun text _ => .ite (fun _ => ?_) fun _ =>
      .ite (fun _ => ?_) fun _ => ?_
    · refine (openScope_returns h hp hle hgap htoken).bind fun st' hst => .ok ?_
      rwa [max_self]
    · refine (closeScope_returns h hp hle hgap htoken).bind fun st' hst => .ok ?_
      rwa [max_self]
    · exact parseStatement_returns h hp hle hgap hlt
  · exact parseStatement_returns h hp hle hgap hlt

end Operations

/-! ### The parser's loop -/

/-- **The loop ends, with an owner for every significant token.** -/
theorem parseFrom_returns (h : Lexed source tokens) {cursor : ℕ} {st : ParseState}
    (hp : Parsing source tokens cursor st) :
    (parseFrom source tokens st cursor : Run ε _).Returns fun st' => ∃ stop,
      Parsing source tokens stop st' ∧
        ∀ i token, stop ≤ i → tokens[i]? = some token → token.kind.isTrivia = true := by
  induction hn : tokens.length - cursor using Nat.strong_induction_on generalizing cursor st with
  | _ n ih =>
    rw [parseFrom]
    split
    · rename_i hnone
      exact .ok ⟨cursor, hp, fun i token hi htoken => nextSignificant_none hnone hi htoken⟩
    · rename_i start hsome
      obtain ⟨hle, ⟨token, htoken, -⟩, hgap⟩ := nextSignificant_spec hsome
      have hlt := (List.getElem?_eq_some_iff.mp htoken).1
      refine (parseItem_returns h hp hle hgap hlt).bind ?_
      rintro ⟨st', stop⟩ hst
      exact ih _ (by omega) hst rfl

/-- The parse starts with nothing accounted for. -/
theorem initialState_parsing :
    Parsing source tokens 0 (initialState source tokens) where
  nested := ⟨0, fun i token _ _ => Nat.zero_le _, Nest.Nested.initial source.length⟩
  owned := by
    constructor
    case lt =>
      intro part i hpart
      -- nothing is accounted for: there is no statement, and the root has no braces
      cases part with
      | statement id =>
        obtain ⟨s, hs, -⟩ := hpart
        cases hs
      | opening id =>
        obtain ⟨scope, token, hs, -, hspan⟩ := hpart
        obtain ⟨-, rfl⟩ := Nest.getElem?_single hs
        cases hspan
      | closing id =>
        obtain ⟨scope, token, hs, -, hspan⟩ := hpart
        obtain ⟨-, rfl⟩ := Nest.getElem?_single hs
        cases hspan
    case once =>
      intro i token hi
      exact absurd hi (Nat.not_lt_zero _)
  marked := by
    constructor
    case length => exact List.length_replicate
    case unowned =>
      intro i _ hi
      exact List.getElem?_replicate_of_lt hi
    case owner =>
      intro i token hi
      exact absurd hi (Nat.not_lt_zero _)
  written s hs := by cases hs
  ordered := List.Pairwise.nil
  statement_id k s hs := by cases hs
  scope_id k scope hs := by
    obtain ⟨rfl, rfl⟩ := Nest.getElem?_single hs
    rfl
  braced k scope hk hs := by
    exact absurd (Nest.getElem?_single hs).1 hk
  unclosed k scope _ hs := by
    obtain ⟨-, rfl⟩ := Nest.getElem?_single hs
    rfl

/-! ### Counting bytes -/

/-- The statements leave the token to no class. -/
def InUnknown (statements : List Statement) (i : ℕ) : Prop :=
  ∃ s ∈ statements, s.kind = .unknown ∧ s.Holds i

instance (statement : Statement) (i : ℕ) : Decidable (statement.Holds i) :=
  inferInstanceAs (Decidable (_ ∧ _))

instance (statements : List Statement) (i : ℕ) : Decidable (InUnknown statements i) :=
  inferInstanceAs (Decidable (∃ s ∈ statements, _))

/-- The bytes of the significant tokens in unknown statements. -/
def unknownLength (tokens : List Token) (statements : List Statement) : ℕ :=
  ((tokens.zipIdx.filter fun pair =>
    !pair.1.kind.isTrivia && decide (InUnknown statements pair.2)).map fun pair =>
      tokenLength pair.1).sum

/-- The bytes of the significant tokens. -/
def significantLength (tokens : List Token) : ℕ :=
  ((tokens.filter fun token => !token.kind.isTrivia).map tokenLength).sum

/-- The significant bytes are at most all bytes. -/
theorem significantLength_le : significantLength tokens ≤ (tokens.map tokenLength).sum := by
  induction tokens with
  | nil => exact le_refl _
  | cons token rest ih =>
    rw [significantLength, List.filter_cons, List.map_cons, List.sum_cons]
    split
    · rw [List.map_cons, List.sum_cons]
      exact Nat.add_le_add_left ih _
    · exact ih.trans (Nat.le_add_left _ _)

/-- What is marked as recognized and what is in unknown statements make up the significant
tokens. -/
theorem recognized_add_unknown {statements : List Statement} {ownership : List Ownership} {k : ℕ}
    (hlength : ownership.length = tokens.length)
    (howner : ∀ i token, tokens[i]? = some token → token.kind.isTrivia = false →
      ∃ owner, ownership[i]? = some owner ∧ (owner = .recognized ↔ ¬InUnknown statements (k + i))) :
    (((tokens.zip ownership).filter fun pair =>
        !pair.1.kind.isTrivia && pair.2 == .recognized).map fun pair => tokenLength pair.1).sum +
      (((tokens.zipIdx k).filter fun pair =>
        !pair.1.kind.isTrivia && decide (InUnknown statements pair.2)).map fun pair =>
          tokenLength pair.1).sum = significantLength tokens := by
  induction tokens generalizing ownership k with
  | nil => rfl
  | cons token rest ih =>
    cases ownership with
    | nil => cases hlength
    | cons owner owners =>
      have ih := ih (k := k + 1) (Nat.succ.inj hlength) fun i t ht hsignificant => by
        rw [Nat.add_assoc, Nat.add_comm 1 i]
        exact howner (i + 1) t ht hsignificant
      rw [significantLength] at ih ⊢
      rw [List.zip_cons_cons, List.zipIdx_cons, List.filter_cons, List.filter_cons,
        List.filter_cons]
      cases htrivia : token.kind.isTrivia with
      | true => simpa [htrivia] using ih
      | false =>
        obtain ⟨owner', hget, hiff⟩ := howner 0 token rfl htrivia
        obtain rfl : owner = owner' := Option.some.inj hget
        by_cases hunknown : InUnknown statements k
        · have hne : owner ≠ .recognized := fun h => hiff.mp h hunknown
          simp only [hunknown, beq_eq_false_iff_ne.mpr hne, Bool.not_false,
            Bool.and_false, Bool.and_true, decide_true, if_true, List.map_cons,
              List.sum_cons] at ih ⊢
          simp only [Bool.false_eq_true, if_false]
          omega
        · have heq : owner = .recognized := hiff.mpr hunknown
          simp only [hunknown, heq, beq_self_eq_true, Bool.not_false, Bool.and_false,
            Bool.and_true, decide_false, if_true, List.map_cons, List.sum_cons] at ih ⊢
          simp only [Bool.false_eq_true, if_false]
          omega

/-- A sum in range is computed. -/
theorem sumUsize_eq_ok {xs : List ℕ} (h : xs.sum < 2 ^ 64) :
    (sumUsize xs : Run ε ℕ) = .ok xs.sum := by
  have hgen : ∀ (xs : List ℕ) (s : ℕ), s + xs.sum < 2 ^ 64 →
      (xs.foldlM Usize.add s : Run ε ℕ) = .ok (s + xs.sum) := by
    intro xs
    induction xs with
    | nil => exact fun s _ => rfl
    | cons x xs ih =>
      intro s hs
      rw [List.sum_cons] at hs
      rw [List.foldlM_cons, Usize.add_eq_ok.mpr ⟨by omega, rfl⟩, List.sum_cons, ← Nat.add_assoc]
      exact ih (s + x) (by omega)
  rw [sumUsize, hgen xs 0 (by omega), Nat.zero_add]

/-! ### The parse of a source text -/

/-- What is owned, counted and nested how in a parse. -/
structure Accounting (source : Bytes) (tokens : List Token) (p : ParsedSyntax) : Prop where
  once : ∀ i token, tokens[i]? = some token → token.kind.isTrivia = false →
    ∃! part : Part, part.Holds tokens p.statements p.scopes i
  written : ∀ statement ∈ p.statements, statement.WrittenBy tokens
  ordered : p.statements.Pairwise fun s t =>
    s.tokenRange.stop ≤ t.tokenRange.start ∧ s.span.stop ≤ t.span.start
  statement_id : ∀ (k : ℕ) (s : Statement), p.statements[k]? = some s → s.id = k
  scope_id : ∀ (k : ℕ) (scope : Scope), p.scopes[k]? = some scope → scope.id = k
  lossless : p.coverage.sourceBytes = source.length ∧ p.coverage.tokenBytes = source.length
  recognized : p.coverage.recognizedBytes + p.coverage.unknownBytes = p.coverage.nonTriviaBytes
  nonTrivia : p.coverage.nonTriviaBytes = significantLength tokens
  unknown : p.coverage.unknownBytes = unknownLength tokens p.statements
  nestedOrApart : (p.scopes.map Scope.region).Pairwise Region.NestedOrApart
  scope_of_statement : ∀ s ∈ p.statements, Innermost (p.scopes.map Scope.region) s.scope s.span
  parent_of_scope : ∀ (k : ℕ) (scope : Scope), p.scopes[k]? = some scope →
    (k = 0 ∧ scope.parent = none) ∨ ∃ parent < k, scope.parent = some parent ∧
      Innermost (p.scopes.map Scope.region) parent scope.span

/-- Ranges of tokens in order are written in order. -/
theorem WrittenBy.span_le (h : Lexed source tokens) {s t : Statement} (hs : s.WrittenBy tokens)
    (ht : t.WrittenBy tokens) (hle : s.tokenRange.stop ≤ t.tokenRange.start) :
    s.span.stop ≤ t.span.start := by
  obtain ⟨hlt, _, last, _, hlast, hspan⟩ := hs
  obtain ⟨_, first, _, hfirst, _, hspan'⟩ := ht
  rw [hspan, hspan']
  exact h.token_lt (by omega) hlast hfirst

/-- The report of open scopes returns. -/
theorem unclosed_returns {cursor : ℕ} {st : ParseState} (hp : Parsing source tokens cursor st) :
    ((st.scopeStack.reverse.drop 1).mapM (unclosed source st.scopes) : Run ε _).Returns
      fun _ => True := by
  refine Returns.mapM fun k hk => ?_
  obtain ⟨front, -, hnest⟩ := hp.nested
  obtain ⟨hmem, hpos⟩ := hnest.pos_of_mem_drop hk
  have hlt : k < st.scopes.length := by
    have := hnest.stack_lt k hmem
    simpa [ParseState.nest] using this
  refine (Returns.index hlt).bind fun scope hscope => ?_
  obtain ⟨opened, hopened⟩ := hp.braced k scope hpos.ne' (by rw [hscope, List.getElem?_eq_getElem])
  rw [hopened]
  exact .ok trivial

/-- The parse accounts for every token. -/
theorem parse_returns (h : Lexed source tokens) :
    (parse source tokens : Run ε ParsedSyntax).Returns (Accounting source tokens) := by
  refine (parseFrom_returns h initialState_parsing).bind ?_
  rintro st ⟨stop, hp, hrest⟩
  refine (unclosed_returns hp).bind fun unterminated _ => ?_
  -- the tokens tile the source, so their lengths add up to it
  have hsum : (tokens.map tokenLength).sum = source.length := by
    have := h.tiles.sum
    omega
  have hsize : source.length < 2 ^ 64 := lt_of_le_of_lt h.length_le (by decide)
  have hmark : ∀ i token, tokens[i]? = some token → token.kind.isTrivia = false →
      ∃ owner, st.ownership[i]? = some owner ∧ owner ≠ .unowned ∧
        (owner = .recognized ↔ ¬InUnknown st.statements (0 + i)) := by
    intro i token htoken hsignificant
    -- every significant token lies before the stop
    have hi : i < stop := by
      by_contra hbehind
      rw [hrest i token (not_lt.mp hbehind) htoken] at hsignificant
      cases hsignificant
    obtain ⟨owner, hget, hne, hiff⟩ := hp.marked.owner i token hi htoken hsignificant
    refine ⟨owner, hget, hne, ?_⟩
    rw [Nat.zero_add, InUnknown, ← hiff]
    cases owner <;> simp_all
  -- the bytes of recognized and unknown tokens are the significant bytes
  have hbytes := recognized_add_unknown (k := 0) hp.marked.length
      fun i token htoken hsignificant => by
    obtain ⟨owner, hget, -, hiff⟩ := hmark i token htoken hsignificant
    exact ⟨owner, hget, hiff⟩
  have hle : significantLength tokens ≤ source.length := hsum ▸ significantLength_le
  refine .bind_ok (sumUsize_eq_ok (by omega)) <| .bind_ok (sumUsize_eq_ok ?_) <|
    .bind_ok (sumUsize_eq_ok ?_) ?_
  · exact lt_of_le_of_lt hle hsize
  · omega
  refine (Returns.assert ?_).bind fun _ _ => (Returns.assert ?_).bind fun _ _ => .ok ?_
  · exact Nat.le.intro hbytes
  -- the last assertion of the code: no significant token is left without an owner
  · rw [List.all_eq_true]
    rintro ⟨token, owner⟩ hmem
    obtain ⟨i, hi⟩ := List.mem_iff_getElem?.mp hmem
    obtain ⟨htoken, howner⟩ := List.getElem?_zip_eq_some.mp hi
    cases htrivia : token.kind.isTrivia with
    | true => rfl
    | false =>
      obtain ⟨owner', hget, hne, -⟩ := hmark i token htoken htrivia
      obtain rfl : owner = owner' := Option.some.inj (howner.symm.trans hget)
      simpa using hne
  obtain ⟨front, -, hnest⟩ := hp.nested
  -- what is returned is what the invariant says at the end
  constructor
  case once =>
    intro i token htoken hsignificant
    have hi : i < stop := by
      by_contra hbehind
      rw [hrest i token (not_lt.mp hbehind) htoken] at hsignificant
      cases hsignificant
    exact hp.owned.once i token hi htoken hsignificant
  case written => exact hp.written
  case ordered =>
    refine hp.ordered.imp_of_mem ?_
    intro s t hs ht hle
    exact ⟨hle, WrittenBy.span_le h (hp.written s hs) (hp.written t ht) hle⟩
  case statement_id => exact hp.statement_id
  case scope_id => exact hp.scope_id
  case lossless => exact ⟨rfl, hsum⟩
  case recognized => exact Nat.add_sub_cancel' (Nat.le.intro hbytes)
  case nonTrivia => rfl
  case unknown =>
    show significantLength tokens - _ = _
    rw [← hbytes, Nat.add_sub_cancel_left]
    rfl
  case nestedOrApart => exact hnest.pairwise
  case scope_of_statement =>
    intro s hs
    exact hnest.innermost_of_leaf (List.mem_map_of_mem hs)
  case parent_of_scope =>
    intro k scope hscope
    have hregion : st.nest.regions[k]? = some scope.region := by
      show (st.scopes.map Scope.region)[k]? = _
      rw [List.getElem?_map, hscope]
      rfl
    exact hnest.innermost_of_parent hregion

/-- **Every significant token of a source text has one owner.**  On the tokens of any text the
parser returns. -/
theorem parse_accounts (s : String) {tokens : List Token} (h : lex (bytes s) = .ok tokens) :
    ∃ p, (parse (bytes s) tokens : Run ε ParsedSyntax) = .ok p ∧ Accounting (bytes s) tokens p :=
  parse_returns (lex_lexed (encoded_bytes s) h)

/-- A scope with one statement, and a brace too many. -/
theorem parse_accounts_scope : ∃ p : ParsedSyntax,
    parse (bytes "\x7bret;\x7d\x7d") [⟨.punctuation, 0, 1⟩, ⟨.word, 1, 4⟩, ⟨.punctuation, 4, 5⟩,
      ⟨.punctuation, 5, 6⟩, ⟨.punctuation, 6, 7⟩] = (.ok p : Run ParseError _) ∧
    Accounting (bytes "\x7bret;\x7d\x7d") [⟨.punctuation, 0, 1⟩, ⟨.word, 1, 4⟩,
      ⟨.punctuation, 4, 5⟩,
      ⟨.punctuation, 5, 6⟩, ⟨.punctuation, 6, 7⟩] p :=
  parse_accounts "\x7bret;\x7d\x7d" (by decide +kernel)

end CudaOxide.Ptx
