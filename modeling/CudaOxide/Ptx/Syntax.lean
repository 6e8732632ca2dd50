import CudaOxide.Lib.Splice
import CudaOxide.Ptx.Lexer

/-!
# PTX statements and scopes

The structural parser splits a token list into statements and scope braces (`syntax.rs`).

* `scanItem` — where the item that starts at a token ends, and what ended it.
* `classify` — the class of a statement.
* `parseItem`, `parse` — one pass of the parser's loop, and the whole of it.
-/

namespace CudaOxide.Ptx

open Lib Lib.Bytes Lib.Text Lib.Run

/-! ### What the parser builds -/

/-- `StatementKind`. -/
inductive StatementKind where
  | directive
  | instruction
  | callableHeader
  | label
  | preprocessor
  | unknown
  deriving DecidableEq, Repr

/-- `Statement`. -/
structure Statement where
  id : ℕ
  kind : StatementKind
  scope : ℕ
  span : Span
  tokenRange : Span
  deriving DecidableEq, Repr

/-- A scope between braces; the root has none, an unclosed scope no closing one. -/
structure Scope where
  id : ℕ
  parent : Option ℕ
  header : Option ℕ
  span : Span
  openSpan : Option Span
  closeSpan : Option Span
  deriving DecidableEq, Repr

/-- The byte range of a token. -/
def Token.span (token : Token) : Span := ⟨token.start, token.stop⟩

/-- `ScopeId::ROOT` -/
def rootId : ℕ := 0

/-- The range between the braces of a scope. -/
def Scope.bodySpan (scope : Scope) : Span :=
  scope.openSpan.elim scope.span fun opened =>
    ⟨opened.stop, scope.closeSpan.elim scope.span.stop Span.start⟩

/-- `DiagnosticKind`. -/
inductive DiagnosticKind where
  | unknownToken
  | unrecognizedSyntax
  | unmatchedClosingDelimiter
  | unterminatedDelimiter
  | unterminatedStatement
  | malformedDirective
  | malformedCallable
  | malformedInstruction
  deriving DecidableEq, Repr

/-- `Diagnostic`. -/
structure Diagnostic where
  kind : DiagnosticKind
  span : Span
  deriving DecidableEq, Repr

/-- `Coverage`: the byte counts of a parse. -/
structure Coverage where
  sourceBytes : ℕ
  tokenBytes : ℕ
  nonTriviaBytes : ℕ
  recognizedBytes : ℕ
  unknownBytes : ℕ
  diagnosticCount : ℕ
  deriving DecidableEq, Repr

/-- `ParsedSyntax`. -/
structure ParsedSyntax where
  statements : List Statement
  scopes : List Scope
  diagnostics : List Diagnostic
  coverage : Coverage
  deriving DecidableEq, Repr

/-- Who owns a token. -/
inductive Ownership where
  | unowned
  | recognized
  | unknown
  deriving DecidableEq, Repr

/-- How an item ends. -/
inductive Terminator where
  | semicolon
  | line
  | brace
  | scopeClose
  | endOfFile
  | recovery
  deriving DecidableEq, Repr

/-- Where an item ends, how, and what there is to report. -/
structure ScanOutcome where
  stop : ℕ
  terminator : Terminator
  diagnostic : Option DiagnosticKind
  deriving DecidableEq, Repr

variable {ε : Type} (source : Bytes) (tokens : List Token)

/-! ### Looking at tokens -/

/-- `next_significant`: the next token that is not trivia. -/
def nextSignificant (cursor : ℕ) : Option ℕ :=
  ((tokens.drop cursor).findIdx? fun token => !token.kind.isTrivia).map (cursor + ·)

/-- `significant_indices`. -/
def significantIndices (range : Span) : Run ε (List ℕ) :=
  (List.range' range.start (range.stop - range.start)).filterM fun i => do
    let token ← Run.index tokens i
    .ok (!token.kind.isTrivia)

/-- `token_is`. -/
def tokenIs (i : ℕ) (expected : Bytes) : Run ε Bool := do
  let token ← Run.index tokens i
  let text ← token.text source
  .ok (text == expected)

/-- A significant word among `words` stands in the range. -/
def containsKeyword (words : List Bytes) (range : Span) : Run ε Bool := do
  let significant ← significantIndices tokens range
  significant.anyM fun i => do
    let token ← Run.index tokens i
    if token.kind = .word then do
      let text ← token.text source
      .ok (words.contains text)
    else .ok false

/-- `contains_scope_header_keyword`. -/
def containsScopeHeaderKeyword (range : Span) : Run ε Bool :=
  containsKeyword source tokens [bytes ".entry", bytes ".func", bytes ".section"] range

/-- `contains_callable_keyword`. -/
def containsCallableKeyword (range : Span) : Run ε Bool :=
  containsKeyword source tokens [bytes ".entry", bytes ".func"] range

/-- `is_braced_header`. -/
def isBracedHeader (range : Span) : Run ε Bool := containsScopeHeaderKeyword source tokens range

/-- `is_linkage_word`. -/
def isLinkageWord (word : Bytes) : Bool :=
  [bytes ".visible", bytes ".extern", bytes ".weak", bytes ".common"].contains word

/-- `requires_semicolon`. -/
def requiresSemicolon (word : Bytes) : Bool :=
  [bytes ".reg", bytes ".sreg", bytes ".const", bytes ".global", bytes ".local", bytes ".param",
    bytes ".shared", bytes ".tex", bytes ".surf", bytes ".branchtargets", bytes ".calltargets",
    bytes ".callprototype", bytes ".pragma"].contains word

/-- `is_instruction_head`: a letter or an underscore. -/
def isInstructionHead (head : Bytes) : Bool :=
  head.head?.any fun b => isAsciiAlphabetic b || b == 95

/-- Linkage words on one line, then `.entry` or `.func`. -/
def startsCallableHeader : List Token → Run ε Bool
  | [] => .ok false
  | token :: rest =>
    if token.kind.isTrivia then do
      let text ← token.text source
      if text.contains 10 then .ok false else startsCallableHeader rest
    else if token.kind ≠ .word then .ok false
    else do
      let text ← token.text source
      if text = bytes ".entry" ∨ text = bytes ".func" then .ok true
      else if isLinkageWord text then startsCallableHeader rest
      else .ok false

/-- A word and a colon that no second colon follows. -/
def isLabelAt (i j : ℕ) (rest : List ℕ) : Run ε Bool := do
  let token ← Run.index tokens i
  if token.kind = .word then do
    let colon ← tokenIs source tokens j (bytes ":")
    if colon then
      match rest with
      | [] => .ok true
      | k :: _ => do
        let second ← tokenIs source tokens k (bytes ":")
        .ok (!second)
    else .ok false
  else .ok false

/-- The position in the list of significant tokens behind the labels.  The list is walked by its
suffix behind `cursor`. -/
def skipLabels : List ℕ → ℕ → Run ε (Option ℕ)
  | [], cursor => .ok (some cursor)
  | [i], cursor => do
    let colon ← tokenIs source tokens i (bytes ":")
    .ok (if colon then none else some cursor)
  | i :: j :: rest, cursor => do
    let label ← isLabelAt source tokens i j rest
    if label then skipLabels rest (cursor + 2)
    else do
      let colon ← tokenIs source tokens i (bytes ":")
      .ok (if colon then none else some cursor)

/-! ### Where a statement ends -/

/-- `should_end_at_line`. -/
def shouldEndAtLine (range : Span) : Run ε Bool := do
  let significant ← significantIndices tokens range
  if significant.isEmpty then .ok false
  else do
    let labels ← skipLabels source tokens significant 0
    if labels = some significant.length then .ok true
    else do
      let header ← containsScopeHeaderKeyword source tokens range
      if header then .ok false
      else do
        let wordIndices ← significant.filterM fun i => do
          let token ← Run.index tokens i
          .ok (decide (token.kind = .word))
        let words ← wordIndices.mapM fun i => do
          let token ← Run.index tokens i
          token.text source
        match words with
        | [] => .ok false
        | first :: _ =>
          if first.head? ≠ some 46 then .ok false
          else if words.all isLinkageWord then .ok false
          else .ok (!words.any requiresSemicolon)

/-- What one token does to the scan: it ends the item, or goes on with the last significant token
and the open delimiters, innermost first. -/
inductive ScanStep where
  | done (outcome : ScanOutcome)
  | more (lastSignificant : ℕ) (delimiters : List Bytes)

/-- A newline ends a line-oriented item, and an unclosed delimiter before a new callable. -/
def scanTrivia (start cursor lastSignificant : ℕ) (delimiters : List Bytes) (token : Token) :
    Run ε ScanStep := do
  let text ← token.text source
  if text.contains 10 then do
    let ended ← (if delimiters.isEmpty then shouldEndAtLine source tokens ⟨start, cursor⟩
      else .ok false)
    if ended then .ok (.done ⟨lastSignificant + 1, .line, none⟩)
    else do
      let recovered ← (if delimiters.isEmpty then .ok false
        else match nextSignificant tokens (cursor + 1) with
          | some next => startsCallableHeader source (tokens.drop next)
          | none => .ok false)
      if recovered then .ok (.done ⟨lastSignificant + 1, .recovery, some .unterminatedDelimiter⟩)
      else .ok (.more lastSignificant delimiters)
  else .ok (.more lastSignificant delimiters)

/-- `scan_item`, at a punctuation token. -/
def scanPunctuation (start cursor : ℕ) (delimiters : List Bytes) (token : Token) :
    Run ε ScanStep := do
  let text ← token.text source
  if text = bytes ";" then
    .ok (.done ⟨cursor + 1, .semicolon,
      if delimiters.isEmpty then none else some .unterminatedDelimiter⟩)
  else if text = bytes "\x7b" then do
    let header ← (if delimiters.isEmpty then isBracedHeader source tokens ⟨start, cursor⟩
      else .ok false)
    if header then .ok (.done ⟨cursor, .brace, none⟩)
    else .ok (.more cursor (bytes "\x7d" :: delimiters))
  else if text = bytes "[" then .ok (.more cursor (bytes "]" :: delimiters))
  else if text = bytes "(" then .ok (.more cursor (bytes ")" :: delimiters))
  else if text = bytes "\x7d" ∨ text = bytes "]" ∨ text = bytes ")" then
    if delimiters.head? = some text then .ok (.more cursor delimiters.tail)
    else if delimiters.isEmpty ∧ text = bytes "\x7d" then .ok (.done ⟨cursor, .scopeClose, none⟩)
    else .ok (.done ⟨cursor + 1, .recovery, some .unmatchedClosingDelimiter⟩)
  else .ok (.more cursor delimiters)

/-- `scan_item`, at any token. -/
def scanToken (start cursor lastSignificant : ℕ) (delimiters : List Bytes) (token : Token) :
    Run ε ScanStep :=
  if token.kind.isTrivia then scanTrivia source tokens start cursor lastSignificant delimiters token
  else if token.kind = .preprocessor ∧ cursor ≠ start then
    .ok (.done ⟨cursor, .recovery, some .unterminatedStatement⟩)
  else if token.kind = .unknown then .ok (.done ⟨cursor + 1, .recovery, some .unknownToken⟩)
  else if token.kind = .punctuation then scanPunctuation source tokens start cursor delimiters token
  else .ok (.more cursor delimiters)

/-- The loop of `scan_item` over the tokens from `cursor` on. -/
def scanFrom (start : ℕ) : List Token → ℕ → ℕ → List Bytes → Run ε ScanOutcome
  | [], _, lastSignificant, delimiters =>
    .ok ⟨lastSignificant + 1, .endOfFile,
      if delimiters.isEmpty then none else some .unterminatedDelimiter⟩
  | token :: rest, cursor, lastSignificant, delimiters => do
    let step ← scanToken source tokens start cursor lastSignificant delimiters token
    match step with
    | .done outcome => .ok outcome
    | .more lastSignificant delimiters =>
      scanFrom start rest (cursor + 1) lastSignificant delimiters

/-- `scan_item`: the end of the item that starts at `start`. -/
def scanItem (start : ℕ) : Run ε ScanOutcome :=
  scanFrom source tokens start (tokens.drop start) start start []

/-! ### What a statement is -/

/-- `classify`, behind the labels of the item. -/
def classify (range : Span) (terminator : Terminator) : Run ε StatementKind := do
  let significant ← significantIndices tokens range
  let labels ← skipLabels source tokens significant 0
  match labels with
  | none => .ok .unknown
  | some cursor =>
    if cursor = significant.length then
      .ok (if terminator = .line ∨ terminator = .scopeClose then .label else .unknown)
    else do
      let i ← Run.index significant cursor
      let guarded ← tokenIs source tokens i (bytes "@")
      -- the head behind the predicate, if the predicate is complete
      let head ← (if guarded then do
          let negated ← (match significant[cursor + 1]? with
            | some j => tokenIs source tokens j (bytes "!")
            | none => .ok false)
          let cursor := if negated then cursor + 2 else cursor + 1
          match significant[cursor]? with
          | none => .ok none
          | some j => do
            let predicate ← Run.index tokens j
            .ok (if predicate.kind = .word then some (cursor + 1) else none)
        else .ok (some cursor))
      match head.bind fun cursor => significant[cursor]? with
      | none => .ok .unknown
      | some j => do
        let head ← Run.index tokens j
        if head.kind ≠ .word then .ok .unknown
        else do
          let text ← head.text source
          if text.head? = some 46 then do
            let callable ← containsCallableKeyword source tokens range
            .ok (if callable then .callableHeader else .directive)
          else .ok (if terminator = .semicolon ∧ isInstructionHead text then .instruction
            else .unknown)

/-! ### The parser -/

/-- The state of the parser. -/
structure ParseState where
  statements : List Statement
  scopes : List Scope
  /-- The open scopes, innermost first. -/
  scopeStack : List ℕ
  diagnostics : List Diagnostic
  ownership : List Ownership
  nextScopeHeader : Option ℕ
  deriving DecidableEq, Repr

/-- The owner of the tokens of a statement. -/
def ownerOf (kind : StatementKind) : Ownership :=
  if kind = .unknown then .unknown else .recognized

/-- Claim a token for a statement. -/
def claimToken (owner : Ownership) (ownership : List Ownership) (i : ℕ) :
    Run ε (List Ownership) := do
  let token ← Run.index tokens i
  if token.kind.isTrivia then .ok ownership
  else do
    let current ← Run.index ownership i
    Run.assert (current = .unowned)
    .ok (ownership.set i owner)

/-- `push_statement`: the statement claims its tokens. -/
def pushStatement (st : ParseState) (kind : StatementKind) (scope : ℕ) (tokenRange : Span) :
    Run ε (ParseState × ℕ) := do
  let id := st.statements.length
  let ownership ← (List.range' tokenRange.start (tokenRange.stop - tokenRange.start)).foldlM
    (claimToken tokens (ownerOf kind)) st.ownership
  let first ← Run.index tokens tokenRange.start
  Run.assert (1 ≤ tokenRange.stop)
  let last ← Run.index tokens (tokenRange.stop - 1)
  let span : Span := ⟨first.start, last.stop⟩
  Run.assert (isCharBoundary source span.start ∧ isCharBoundary source span.stop)
  .ok ({ st with
    statements := st.statements ++ [⟨id, kind, scope, span, tokenRange⟩]
    ownership := ownership }, id)

/-- `diagnose`. -/
def diagnose (st : ParseState) (kind : DiagnosticKind) (span : Span) : ParseState :=
  { st with diagnostics := st.diagnostics ++ [⟨kind, span⟩] }

/-- `*scope_stack.last().expect(..)` -/
def currentScope (st : ParseState) : Run ε ℕ :=
  match st.scopeStack with
  | [] => Run.panic .assertion
  | scope :: _ => .ok scope

/-- A statement of one token. -/
def parseSingle (st : ParseState) (start : ℕ) (kind : StatementKind) (scope : ℕ) :
    Run ε ParseState := do
  let (st, _) ← pushStatement source tokens { st with nextScopeHeader := none } kind scope
    ⟨start, start + 1⟩
  .ok st

/-- `ownership[i] = Ownership::Recognized` -/
def recognize (st : ParseState) (i : ℕ) : Run ε ParseState := do
  let _ ← Run.index st.ownership i
  .ok { st with ownership := st.ownership.set i .recognized }

/-- `open_scope`. -/
def openScope (st : ParseState) (start : ℕ) (token : Token) : Run ε ParseState := do
  let st ← recognize st start
  let id := st.scopes.length
  let opened := token.span
  .ok { st with
    scopes := st.scopes ++ [{
      id := id
      parent := st.scopeStack.head?
      header := st.nextScopeHeader
      span := ⟨opened.start, source.length⟩
      openSpan := some opened
      closeSpan := none }]
    scopeStack := id :: st.scopeStack
    nextScopeHeader := none }

/-- `close_scope`: with no scope open the brace is reported. -/
def closeScope (st : ParseState) (start : ℕ) (token : Token) : Run ε ParseState := do
  let st := { st with nextScopeHeader := none }
  let closed := token.span
  if st.scopeStack.length = 1 then do
    let st ← parseSingle source tokens st start .unknown rootId
    .ok (diagnose st .unmatchedClosingDelimiter closed)
  else do
    let st ← recognize st start
    let id ← currentScope st
    let scope ← Run.index st.scopes id
    .ok { st with
      scopes := st.scopes.set id { scope with
        span := ⟨scope.span.start, closed.stop⟩
        closeSpan := some closed }
      scopeStack := st.scopeStack.tail }

/-- A statement, and the token behind it. -/
def parseStatement (st : ParseState) (start : ℕ) : Run ε (ParseState × ℕ) := do
  let outcome ← scanItem source tokens start
  let tokenRange : Span := if outcome.stop = start then ⟨start, start + 1⟩
    else ⟨start, outcome.stop⟩
  let kind ← (if outcome.stop = start then .ok .unknown
    else classify source tokens tokenRange outcome.terminator)
  let scope ← currentScope st
  let (st, id) ← pushStatement source tokens st kind scope tokenRange
  let statement ← Run.index st.statements id
  let st := if kind = .unknown then
      diagnose st (outcome.diagnostic.getD .unrecognizedSyntax) statement.span
    else outcome.diagnostic.elim st fun kind => diagnose st kind statement.span
  .ok ({ st with nextScopeHeader := if outcome.terminator = .brace then some id else none },
    outcome.stop)

/-- One pass of the loop: the item that starts at a significant token. -/
def parseItem (st : ParseState) (start : ℕ) : Run ε (ParseState × ℕ) := do
  let token ← Run.index tokens start
  if token.kind = .preprocessor then do
    let scope ← currentScope st
    let st ← parseSingle source tokens st start .preprocessor scope
    .ok (st, start + 1)
  else if token.kind = .unknown then do
    let scope ← currentScope st
    let st ← parseSingle source tokens st start .unknown scope
    .ok (diagnose st .unknownToken token.span, start + 1)
  else if token.kind = .punctuation then do
    let text ← token.text source
    if text = bytes "\x7b" then do
      let st ← openScope source st start token
      .ok (st, start + 1)
    else if text = bytes "\x7d" then do
      let st ← closeScope source tokens st start token
      .ok (st, start + 1)
    else parseStatement source tokens st start
  else parseStatement source tokens st start

/-- The next significant token: everything before it is trivia. -/
theorem nextSignificant_spec {tokens : List Token} {cursor start : ℕ}
    (h : nextSignificant tokens cursor = some start) :
    cursor ≤ start ∧ (∃ token, tokens[start]? = some token ∧ token.kind.isTrivia = false) ∧
      ∀ i token, cursor ≤ i → i < start → tokens[i]? = some token → token.kind.isTrivia = true := by
  obtain ⟨k, hk, rfl⟩ := Option.map_eq_some_iff.mp h
  obtain ⟨hlt, hfound, hbefore⟩ := List.findIdx?_eq_some_iff_getElem.mp hk
  refine ⟨Nat.le_add_right _ _, ⟨(tokens.drop cursor)[k], ?_, by simpa using hfound⟩, ?_⟩
  · rw [← List.getElem?_drop]
    exact List.getElem?_eq_getElem hlt
  · intro i token hci hi htoken
    have hget : (tokens.drop cursor)[i - cursor]? = some token := by
      rw [List.getElem?_drop, Nat.add_sub_cancel' hci, htoken]
    obtain ⟨hdrop, hat⟩ := List.getElem?_eq_some_iff.mp hget
    have := hbefore (i - cursor) (by omega)
    simpa [hat] using this

/-- Behind the last significant token there is trivia only. -/
theorem nextSignificant_none {tokens : List Token} {cursor : ℕ}
    (h : nextSignificant tokens cursor = none) {i : ℕ} {token : Token} (hi : cursor ≤ i)
    (htoken : tokens[i]? = some token) : token.kind.isTrivia = true := by
  rw [nextSignificant, Option.map_eq_none_iff, List.findIdx?_eq_none_iff] at h
  have hmem : token ∈ tokens.drop cursor := by
    apply List.mem_of_getElem? (i := i - cursor)
    rw [List.getElem?_drop, Nat.add_sub_cancel' hi, htoken]
  simpa using h token hmem

/-- The loop of the parser. -/
def parseFrom (st : ParseState) (cursor : ℕ) : Run ε ParseState :=
  match _h : nextSignificant tokens cursor with
  | none => .ok st
  | some start => do
    let (st, stop) ← parseItem source tokens st start
    parseFrom st (max stop (start + 1))
termination_by tokens.length - cursor
decreasing_by
  obtain ⟨hle, ⟨token, htoken, -⟩, -⟩ := nextSignificant_spec _h
  have := (List.getElem?_eq_some_iff.mp htoken).1
  omega

/-- The root scope is open and no token is owned. -/
def initialState : ParseState :=
  { statements := []
    scopes := [{
      id := rootId
      parent := none
      header := none
      span := ⟨0, source.length⟩
      openSpan := none
      closeSpan := none }]
    scopeStack := [rootId]
    diagnostics := []
    ownership := List.replicate tokens.length .unowned
    nextScopeHeader := none }

/-- The diagnostic of a scope that is still open at the end. -/
def unclosed (scopes : List Scope) (id : ℕ) : Run ε Diagnostic := do
  let scope ← Run.index scopes id
  match scope.openSpan with
  | none => Run.panic .assertion
  | some opened => .ok ⟨.unterminatedDelimiter, ⟨opened.start, source.length⟩⟩

/-- The bytes of a token. -/
def tokenLength (token : Token) : ℕ := token.span.stop - token.span.start

/-- `iter().sum()` -/
def sumUsize (xs : List ℕ) : Run ε ℕ := xs.foldlM Usize.add 0

/-- `parse`: the scopes that are open at the end are reported. -/
def parse : Run ε ParsedSyntax := do
  let st ← parseFrom source tokens (initialState source tokens) 0
  let unterminated ← (st.scopeStack.reverse.drop 1).mapM (unclosed source st.scopes)
  let diagnostics := st.diagnostics ++ unterminated
  let tokenBytes ← sumUsize (tokens.map tokenLength)
  let nonTriviaBytes ← sumUsize ((tokens.filter fun token => !token.kind.isTrivia).map tokenLength)
  let recognizedBytes ← sumUsize (((tokens.zip st.ownership).filter fun pair =>
    !pair.1.kind.isTrivia && pair.2 == .recognized).map fun pair => tokenLength pair.1)
  Run.assert (recognizedBytes ≤ nonTriviaBytes)
  let unknownBytes := nonTriviaBytes - recognizedBytes
  Run.assert ((tokens.zip st.ownership).all (fun pair =>
    pair.1.kind.isTrivia || pair.2 != .unowned) = true)
  .ok ⟨st.statements, st.scopes, diagnostics,
    ⟨source.length, tokenBytes, nonTriviaBytes, recognizedBytes, unknownBytes,
      diagnostics.length⟩⟩

end CudaOxide.Ptx
