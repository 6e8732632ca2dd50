import CudaOxide.Cute.Layout

namespace CudaOxide.Cute

open Lib

/-!
# The text form

`parse.rs` writes integer tuples and layouts as `shape:stride` and reads them back. A text is the
list of its characters; `ParseLayoutError` has one value, so a failed parse is `none`.

* `Reads`, `ReadsItems` — the value that a text starts with and the text behind it.
* `reads_display` — the parser reads a displayed tuple and stops behind it.
* `wellFormed_of_reads` — what is read has no empty group and no integer outside `i64`.
* `text_roundTrip` — both directions, for tuples and layouts.
-/

/-! ### Printing -/

/-- `write!(f, "{v}")` -/
def displayI64 (v : ℤ) : List Char :=
  if v < 0 then '-' :: Nat.toDigits 10 v.natAbs else Nat.toDigits 10 v.natAbs

mutual

/-- The text of a tree, with parentheses around each tuple. -/
def IntTuple.display : IntTuple → List Char
  | .leaf v => displayI64 v
  | .tuple ts => '(' :: (IntTuple.displayItems true ts ++ [')'])

/-- The items of a group, with a comma before each but the first. -/
def IntTuple.displayItems : Bool → List IntTuple → List Char
  | _, [] => []
  | first, t :: ts => (if first then [] else [',']) ++ t.display ++ IntTuple.displayItems false ts

end

/-- The text of a layout. -/
def Layout.display (l : Layout) : List Char := l.shape.display ++ ':' :: l.stride.display

/-! ### Reading -/

/-- `char::is_whitespace` -/
def isWhitespace (c : Char) : Bool :=
  (9 ≤ c.toNat && c.toNat ≤ 13) || (0x2000 ≤ c.toNat && c.toNat ≤ 0x200A) ||
    [0x20, 0x85, 0xA0, 0x1680, 0x2028, 0x2029, 0x202F, 0x205F, 0x3000].contains c.toNat

/-- `trim_start` -/
def trimStart (s : List Char) : List Char := s.dropWhile isWhitespace

/-- `is_ascii_digit` or a minus sign: the characters an integer is cut out by. -/
def isNumeral (c : Char) : Bool := c.isDigit || c == '-'

/-- `i64::from_str`: an optional sign, then at least one digit and nothing else. -/
def parseI64 (s : List Char) : Option ℤ :=
  let digits := if s.head? = some '-' ∨ s.head? = some '+' then s.tail else s
  let magnitude : ℤ := Nat.ofDigitChars 10 digits 0
  let value := if s.head? = some '-' then -magnitude else magnitude
  if digits ≠ [] ∧ digits.all Char.isDigit ∧ I64.Fits value then some value else none

/-- A text that is shorter than `s`. -/
abbrev Shorter (s : List Char) := {r : List Char // r.length < s.length}

/-- Trimming shortens a text. -/
theorem length_trimStart_le (s : List Char) : (trimStart s).length ≤ s.length :=
  List.length_dropWhile_le _ _

/-- Reading a character behind blanks shortens it further. -/
theorem length_tail_lt {s : List Char} {c : Char} (h : (trimStart s).head? = some c) :
    (trimStart s).tail.length < s.length := by
  have hle := length_trimStart_le s
  rw [List.eq_cons_of_mem_head? h, List.length_cons] at hle
  omega

/-- No numeral at all is no number. -/
@[simp] theorem parseI64_nil : parseI64 [] = none := by
  rw [parseI64, if_neg]
  simp

/-- Reading a number shortens the text. -/
theorem length_lt_of_parseI64 {s : List Char} {v : ℤ}
    (h : parseI64 ((trimStart s).takeWhile isNumeral) = some v) :
    ((trimStart s).dropWhile isNumeral).length < s.length := by
  have hle := length_trimStart_le s
  have hsplit := congrArg List.length
    (List.takeWhile_append_dropWhile (p := isNumeral) (l := trimStart s))
  rw [List.length_append] at hsplit
  have hne : (trimStart s).takeWhile isNumeral ≠ [] := by
    intro hnil
    rw [hnil, parseI64_nil] at h
    cases h
  have hpos := List.length_pos_iff.mpr hne
  omega

mutual

/-- Read one integer or one group, and return the text behind it. -/
def parseIntTuple (s : List Char) : Option (IntTuple × Shorter s) :=
  if hparen : (trimStart s).head? = some '(' then do
    let items ← parseItems (trimStart s).tail
    some (.tuple items.1, ⟨items.2.1, lt_trans items.2.2 (length_tail_lt hparen)⟩)
  else
    match hvalue : parseI64 ((trimStart s).takeWhile isNumeral) with
    | some value => some (.leaf value, ⟨_, length_lt_of_parseI64 hvalue⟩)
    | none => none
termination_by (s.length, 0)
decreasing_by exact Prod.Lex.left _ _ (length_tail_lt hparen)

/-- The items of a group behind its opening parenthesis. -/
def parseItems (s : List Char) : Option (List IntTuple × Shorter s) := do
  let item ← parseIntTuple s
  if hcomma : (trimStart item.2.1).head? = some ',' then
    let items ← parseItems (trimStart item.2.1).tail
    some (item.1 :: items.1,
      ⟨items.2.1, lt_trans items.2.2 (lt_trans (length_tail_lt hcomma) item.2.2)⟩)
  else if hparen : (trimStart item.2.1).head? = some ')' then
    some ([item.1], ⟨(trimStart item.2.1).tail, lt_trans (length_tail_lt hparen) item.2.2⟩)
  else none
termination_by (s.length, 1)
decreasing_by
  · exact Prod.Lex.right _ Nat.zero_lt_one
  · exact Prod.Lex.left _ _ (lt_trans (length_tail_lt hcomma) item.2.2)

end

/-- `IntTuple::from_str`: the whole text is read. -/
def IntTuple.fromStr (s : List Char) : Option IntTuple := do
  let t ← parseIntTuple s
  if trimStart t.2.1 = [] then some t.1 else none

/-- `Layout::from_str`: shape and stride must be alike. -/
def Layout.fromStr (s : List Char) : Option Layout := do
  let shape ← parseIntTuple s
  if (trimStart shape.2.1).head? = some ':' then
    let stride ← parseIntTuple (trimStart shape.2.1).tail
    if trimStart stride.2.1 = [] ∧ shape.1.isCongruent stride.1 then
      some ⟨shape.1, stride.1⟩
    else none
  else none

/-! ### What a parser reads -/

/-- The text starts with the tuple `t`, and `rest` is what follows. -/
def Reads (s : List Char) (t : IntTuple) (rest : List Char) : Prop :=
  ∃ h, parseIntTuple s = some (t, ⟨rest, h⟩)

/-- The text starts with the items `ts` and a closing parenthesis. -/
def ReadsItems (s : List Char) (ts : List IntTuple) (rest : List Char) : Prop :=
  ∃ h, parseItems s = some (ts, ⟨rest, h⟩)

variable {s rest : List Char} {t : IntTuple} {ts : List IntTuple} {v : ℤ}

/-- A tree is read as a tuple behind a parenthesis, and as a number elsewhere. -/
theorem reads_iff : Reads s t rest ↔
    ((trimStart s).head? = some '(' ∧ ∃ ts, ReadsItems (trimStart s).tail ts rest ∧
      t = .tuple ts) ∨
    ((trimStart s).head? ≠ some '(' ∧ (trimStart s).dropWhile isNumeral = rest ∧
      ∃ v, parseI64 ((trimStart s).takeWhile isNumeral) = some v ∧ t = .leaf v) := by
  unfold Reads
  rw [parseIntTuple]
  split
  · rename_i hparen
    constructor
    · rintro ⟨h, hrun⟩
      obtain ⟨items, hitems, hrun⟩ := Option.bind_eq_some_iff.mp hrun
      cases hrun
      exact Or.inl ⟨hparen, items.1, ⟨items.2.2, hitems⟩, rfl⟩
    · rintro (⟨-, us, ⟨h, hitems⟩, rfl⟩ | ⟨hno, -⟩)
      · refine ⟨lt_trans h (length_tail_lt hparen), ?_⟩
        rw [hitems]
        rfl
      · exact absurd hparen hno
  · rename_i hparen
    constructor
    · rintro ⟨h, hrun⟩
      split at hrun
      · rename_i value hvalue
        cases hrun
        exact Or.inr ⟨hparen, rfl, value, hvalue, rfl⟩
      · cases hrun
    · rintro (⟨hyes, -⟩ | ⟨-, rfl, v, hv, rfl⟩)
      · exact absurd hyes hparen
      · refine ⟨length_lt_of_parseI64 hv, ?_⟩
        split
        · rename_i value hvalue
          rw [hv] at hvalue
          cases hvalue
          rfl
        · rename_i hnone
          rw [hv] at hnone
          cases hnone

/-- The items of a tuple are read up to the closing parenthesis. -/
theorem readsItems_iff : ReadsItems s ts rest ↔ ∃ t mid, Reads s t mid ∧
    (((trimStart mid).head? = some ',' ∧ ∃ us, ReadsItems (trimStart mid).tail us rest ∧
      ts = t :: us) ∨
    ((trimStart mid).head? = some ')' ∧ (trimStart mid).tail = rest ∧ ts = [t])) := by
  unfold ReadsItems
  rw [parseItems]
  constructor
  · rintro ⟨h, hrun⟩
    obtain ⟨item, hitem, hrun⟩ := Option.bind_eq_some_iff.mp hrun
    refine ⟨item.1, item.2.1, ⟨item.2.2, hitem⟩, ?_⟩
    split at hrun
    · rename_i hcomma
      obtain ⟨items, hitems, hrun⟩ := Option.bind_eq_some_iff.mp hrun
      cases hrun
      exact Or.inl ⟨hcomma, items.1, ⟨items.2.2, hitems⟩, rfl⟩
    · split at hrun
      · rename_i hparen
        cases hrun
        exact Or.inr ⟨hparen, rfl, rfl⟩
      · cases hrun
  · rintro ⟨t, mid, ⟨hmid, hread⟩, ⟨hcomma, us, ⟨h, hitems⟩, rfl⟩ | ⟨hparen, rfl, rfl⟩⟩
    · refine ⟨lt_trans h (lt_trans (length_tail_lt hcomma) hmid), ?_⟩
      rw [hread]
      show (if hcomma : _ then _ else _) = _
      rw [dif_pos hcomma, hitems]
      rfl
    · refine ⟨lt_trans (length_tail_lt hparen) hmid, ?_⟩
      have hcomma : (trimStart mid).head? ≠ some ',' := by
        rw [hparen]
        decide
      rw [hread]
      show (if hcomma : _ then _ else _) = _
      rw [dif_neg hcomma, dif_pos hparen]

/-- A text that is accepted as a tree is read to its end. -/
theorem intTuple_fromStr_eq_some :
    IntTuple.fromStr s = some t ↔ ∃ rest, Reads s t rest ∧ trimStart rest = [] := by
  unfold IntTuple.fromStr Reads
  constructor
  · intro hrun
    obtain ⟨read, hread, hrun⟩ := Option.bind_eq_some_iff.mp hrun
    split at hrun
    · rename_i hend
      cases hrun
      exact ⟨read.2.1, ⟨read.2.2, hread⟩, hend⟩
    · cases hrun
  · rintro ⟨rest, ⟨h, hread⟩, hend⟩
    rw [hread]
    exact if_pos hend

/-- A text that is accepted as a layout is two trees with a colon between them. -/
theorem layout_fromStr_eq_some {l : Layout} :
    Layout.fromStr s = some l ↔ ∃ mid rest, Reads s l.shape mid ∧
      (trimStart mid).head? = some ':' ∧ Reads (trimStart mid).tail l.stride rest ∧
      trimStart rest = [] ∧ l.shape.isCongruent l.stride = true := by
  unfold Layout.fromStr Reads
  constructor
  · intro hrun
    obtain ⟨shape, hshape, hrun⟩ := Option.bind_eq_some_iff.mp hrun
    split at hrun
    · rename_i hcolon
      obtain ⟨stride, hstride, hrun⟩ := Option.bind_eq_some_iff.mp hrun
      split at hrun
      · rename_i hend
        cases hrun
        exact ⟨shape.2.1, stride.2.1, ⟨shape.2.2, hshape⟩, hcolon, ⟨stride.2.2, hstride⟩, hend⟩
      · cases hrun
    · cases hrun
  · rintro ⟨mid, rest, ⟨hmid, hshape⟩, hcolon, ⟨hrest, hstride⟩, hend⟩
    rw [hshape]
    show (if _ then _ else _) = _
    rw [if_pos hcolon, hstride]
    exact if_pos hend

/-! ### Reading what was printed -/

mutual

/-- No group is empty, and the leaves are `i64`. -/
def IntTuple.WellFormed : IntTuple → Prop
  | .leaf v => I64.Fits v
  | .tuple ts => ts ≠ [] ∧ IntTuple.AllWellFormed ts

/-- The trees of a list are well formed. -/
def IntTuple.AllWellFormed : List IntTuple → Prop
  | [] => True
  | t :: ts => t.WellFormed ∧ IntTuple.AllWellFormed ts

end

/-- A leaf is well formed if it is an `i64`. -/
theorem wellFormed_leaf : (IntTuple.leaf v).WellFormed ↔ I64.Fits v := Iff.rfl

/-- An integer ends where the text `rest` starts. -/
def Delimits (rest : List Char) : Prop := ∀ c ∈ rest.head?, isNumeral c = false

/-- The characters of a printed number are numerals. -/
theorem isNumeral_of_mem_displayI64 {c : Char} (h : c ∈ displayI64 v) : isNumeral c = true := by
  have hdigits : ∀ {n : ℕ}, c ∈ Nat.toDigits 10 n → isNumeral c = true := by
    intro n hmem
    rw [isNumeral, Nat.isDigit_of_mem_toDigits (by decide) (by decide) hmem, Bool.true_or]
  unfold displayI64 at h
  split at h
  · rcases List.mem_cons.mp h with rfl | hmem
    · rfl
    · exact hdigits hmem
  · exact hdigits h

/-- A printed number is not empty. -/
theorem displayI64_ne_nil (v : ℤ) : displayI64 v ≠ [] := by
  unfold displayI64
  split
  · exact List.cons_ne_nil _ _
  · exact Nat.toDigits_ne_nil

/-- The digits of a number do not start with a sign. -/
theorem head_toDigits_ne {n : ℕ} {c : Char} (hc : c.isDigit = false) :
    (Nat.toDigits 10 n).head? ≠ some c := by
  intro hhead
  have hmem := List.mem_of_mem_head? hhead
  rw [Nat.isDigit_of_mem_toDigits (by decide) (by decide) hmem] at hc
  cases hc

/-- **Every integer is read back**, the smallest one included. -/
theorem parseI64_displayI64 (hv : I64.Fits v) : parseI64 (displayI64 v) = some v := by
  have hall : (Nat.toDigits 10 v.natAbs).all Char.isDigit = true :=
    List.all_eq_true.mpr fun c hc => Nat.isDigit_of_mem_toDigits (by decide) (by decide) hc
  unfold displayI64 parseI64
  split
  · rename_i hneg
    have hvalue : -((v.natAbs : ℕ) : ℤ) = v := by omega
    simp only [List.head?_cons, true_or, if_true, List.tail_cons, Nat.ofDigitChars_ten_toDigits,
      hvalue]
    rw [if_pos ⟨Nat.toDigits_ne_nil, hall, hv⟩]
  · rename_i hneg
    have hvalue : ((v.natAbs : ℕ) : ℤ) = v := by omega
    have hminus : (Nat.toDigits 10 v.natAbs).head? ≠ some '-' := head_toDigits_ne rfl
    have hplus : (Nat.toDigits 10 v.natAbs).head? ≠ some '+' := head_toDigits_ne rfl
    simp only [hminus, hplus, or_false, if_false, Nat.ofDigitChars_ten_toDigits, hvalue]
    rw [if_pos ⟨Nat.toDigits_ne_nil, hall, hv⟩]

/-- Numerals are no blanks. -/
theorem isWhitespace_of_isNumeral {c : Char} (h : isNumeral c = true) : isWhitespace c = false := by
  have hrange : 45 ≤ c.toNat ∧ c.toNat ≤ 57 := by
    unfold isNumeral at h
    rcases Bool.or_eq_true_iff.mp h with hdigit | hminus
    · have hdigit : 48 ≤ c.toNat ∧ c.toNat ≤ 57 := Char.isDigit_iff_toNat.mp hdigit
      omega
    · rw [beq_iff_eq.mp hminus]
      decide
  unfold isWhitespace
  simp only [Bool.or_eq_false_iff, Bool.and_eq_false_iff, decide_eq_false_iff_not,
    List.contains_eq_mem, List.mem_cons, List.not_mem_nil, or_false]
  omega

/-- A text that starts with no blank is trimmed already. -/
theorem trimStart_cons {c : Char} (h : isWhitespace c = false) (s : List Char) :
    trimStart (c :: s) = c :: s := List.dropWhile_cons_of_neg (by rw [h]; decide)

/-- A printed number is read back. -/
theorem reads_displayI64 (hv : I64.Fits v) (hrest : Delimits rest) :
    Reads (displayI64 v ++ rest) (.leaf v) rest := by
  obtain ⟨c, cs, hcs⟩ := List.exists_cons_of_ne_nil (displayI64_ne_nil v)
  have hc : isNumeral c = true := isNumeral_of_mem_displayI64 (hcs ▸ List.mem_cons_self)
  have htrim : trimStart (displayI64 v ++ rest) = displayI64 v ++ rest := by
    rw [hcs]
    exact trimStart_cons (isWhitespace_of_isNumeral hc) _
  have hall : ∀ c ∈ displayI64 v, isNumeral c = true := fun c hc => isNumeral_of_mem_displayI64 hc
  have hstop : rest.takeWhile isNumeral = [] ∧ rest.dropWhile isNumeral = rest := by
    cases rest with
    | nil => exact ⟨rfl, rfl⟩
    | cons d ds =>
      have hd : ¬isNumeral d = true := by
        rw [hrest d rfl]
        decide
      exact ⟨List.takeWhile_cons_of_neg hd, List.dropWhile_cons_of_neg hd⟩
  refine reads_iff.mpr (Or.inr ⟨?_, ?_, v, ?_, rfl⟩)
  · rw [htrim, hcs]
    intro hparen
    rw [Option.some.inj hparen] at hc
    exact absurd hc (by decide)
  · rw [htrim, List.dropWhile_append_of_pos hall, hstop.2]
  · rw [htrim, List.takeWhile_append_of_pos hall, hstop.1, List.append_nil]
    exact parseI64_displayI64 hv

/-- The first of several items, and the comma behind it. -/
theorem displayItems_cons (t u : IntTuple) (us : List IntTuple) :
    IntTuple.displayItems true (t :: u :: us) =
      t.display ++ ',' :: IntTuple.displayItems true (u :: us) := by
  simp only [IntTuple.displayItems, Bool.false_eq_true, if_false, if_true, List.cons_append,
    List.nil_append]

mutual

/-- **A displayed tuple is read back**, and the text behind it is left. -/
theorem reads_display : ∀ (t : IntTuple) (rest : List Char), t.WellFormed → Delimits rest →
    Reads (t.display ++ rest) t rest
  | .leaf _, _, hwf, hrest => reads_displayI64 hwf hrest
  | .tuple ts, rest, hwf, _ => by
    have hitems := readsItems_display ts rest hwf.1 hwf.2
    have htext : (trimStart ((IntTuple.tuple ts).display ++ rest)).tail =
        IntTuple.displayItems true ts ++ ')' :: rest := by
      show (IntTuple.displayItems true ts ++ [')']) ++ rest = _
      rw [List.append_assoc]
      rfl
    rw [← htext] at hitems
    exact reads_iff.mpr (Or.inl ⟨rfl, ts, hitems, rfl⟩)

/-- Printed items are read back: by induction on them. -/
theorem readsItems_display : ∀ (ts : List IntTuple) (rest : List Char), ts ≠ [] →
    IntTuple.AllWellFormed ts →
    ReadsItems (IntTuple.displayItems true ts ++ ')' :: rest) ts rest
  | [], _, hne, _ => absurd rfl hne
  | [t], rest, _, hwf => by
    have hread := reads_display t (')' :: rest) hwf.1 (by rintro c ⟨rfl⟩; rfl)
    have htext : IntTuple.displayItems true [t] ++ ')' :: rest = t.display ++ ')' :: rest := by
      simp only [IntTuple.displayItems, if_true, List.nil_append, List.append_nil]
    rw [htext]
    exact readsItems_iff.mpr ⟨t, _, hread, Or.inr ⟨rfl, rfl, rfl⟩⟩
  | t :: u :: us, rest, _, hwf => by
    have hread := reads_display t (',' :: (IntTuple.displayItems true (u :: us) ++ ')' :: rest))
      hwf.1 (by rintro c ⟨rfl⟩; rfl)
    have hitems := readsItems_display (u :: us) rest (List.cons_ne_nil _ _) hwf.2
    rw [displayItems_cons, List.append_assoc]
    exact readsItems_iff.mpr ⟨t, _, hread, Or.inl ⟨rfl, u :: us, hitems, rfl⟩⟩

end

/-! ### What can be read -/

/-- A number that is read is an `i64`. -/
theorem fits_of_parseI64 (h : parseI64 s = some v) : I64.Fits v := by
  obtain ⟨hok, hvalue⟩ := Option.ite_none_right_eq_some.mp h
  exact Option.some.inj hvalue ▸ hok.2.2

/-- What a text of at most `n` characters starts with can be displayed. -/
theorem wellFormed_of_reads_le : ∀ (n : ℕ) (s : List Char), s.length ≤ n →
    (∀ t rest, Reads s t rest → t.WellFormed) ∧
    (∀ ts rest, ReadsItems s ts rest → ts ≠ [] ∧ IntTuple.AllWellFormed ts) := by
  intro n
  induction n with
  | zero =>
    intro s hs
    have hrest : ∀ {rest : List Char}, ¬rest.length < s.length := fun h => by omega
    exact ⟨fun t rest h => absurd h.choose hrest, fun ts rest h => absurd h.choose hrest⟩
  | succ n ih =>
    intro s hs
    -- a tuple: its items are read from a shorter text
    have htuple : ∀ t rest, Reads s t rest → t.WellFormed := by
      intro t rest hread
      rcases reads_iff.mp hread with ⟨hparen, ts, hitems, rfl⟩ | ⟨-, -, v, hv, rfl⟩
      · have hlt := length_tail_lt hparen
        exact (ih _ (by omega)).2 ts rest hitems
      · exact fits_of_parseI64 hv
    refine ⟨htuple, ?_⟩
    intro ts rest hread
    obtain ⟨t, mid, ht, hrest⟩ := readsItems_iff.mp hread
    have hwf := htuple t mid ht
    rcases hrest with ⟨hcomma, us, hitems, rfl⟩ | ⟨-, -, rfl⟩
    · have hlt := length_tail_lt hcomma
      have hmid : mid.length < s.length := ht.choose
      exact ⟨List.cons_ne_nil _ _, hwf, ((ih _ (by omega)).2 us rest hitems).2⟩
    · exact ⟨List.cons_ne_nil _ _, hwf, trivial⟩

/-- What is read is well formed. -/
theorem wellFormed_of_reads (h : Reads s t rest) : t.WellFormed :=
  (wellFormed_of_reads_le s.length s le_rfl).1 t rest h

/-! ### Round trips -/

/-- **Printed trees are read back.** -/
theorem fromStr_display (hwf : t.WellFormed) : IntTuple.fromStr t.display = some t := by
  have hread := reads_display t [] hwf (by rintro c ⟨⟩)
  rw [List.append_nil] at hread
  exact intTuple_fromStr_eq_some.mpr ⟨[], hread, rfl⟩

/-- A displayed layout is read back exactly when shape and stride nest alike. -/
theorem layout_fromStr_display {l : Layout} (hshape : l.shape.WellFormed)
    (hstride : l.stride.WellFormed) :
    Layout.fromStr l.display = some l ↔ l.shape.isCongruent l.stride = true := by
  constructor
  · intro h
    obtain ⟨_, _, _, _, _, _, hcongruent⟩ := layout_fromStr_eq_some.mp h
    exact hcongruent
  · intro hcongruent
    have hmid := reads_display l.shape (':' :: l.stride.display) hshape (by rintro c ⟨rfl⟩; rfl)
    have hrest := reads_display l.stride [] hstride (by rintro c ⟨⟩)
    rw [List.append_nil] at hrest
    exact layout_fromStr_eq_some.mpr ⟨_, [], hmid, rfl, hrest, rfl, hcongruent⟩

/-- **Texts and values.** A well-formed value is read back from its text (a layout, if shape and
stride nest alike), and what was read from any text is read back from its own. -/
theorem text_roundTrip :
    (∀ t : IntTuple, t.WellFormed → IntTuple.fromStr t.display = some t) ∧
    (∀ l : Layout, l.shape.WellFormed → l.stride.WellFormed →
      (Layout.fromStr l.display = some l ↔ l.shape.isCongruent l.stride = true)) ∧
    (∀ text t, IntTuple.fromStr text = some t → IntTuple.fromStr t.display = some t) ∧
    (∀ text l, Layout.fromStr text = some l → Layout.fromStr l.display = some l) := by
  refine ⟨fun t hwf => fromStr_display hwf, fun l hs hd => layout_fromStr_display hs hd, ?_, ?_⟩
  · intro text t h
    obtain ⟨rest, hread, -⟩ := intTuple_fromStr_eq_some.mp h
    exact fromStr_display (wellFormed_of_reads hread)
  · intro text l h
    obtain ⟨_, _, hshape, _, hstride, _, hcongruent⟩ := layout_fromStr_eq_some.mp h
    exact (layout_fromStr_display (wellFormed_of_reads hshape)
      (wellFormed_of_reads hstride)).mpr hcongruent

/-- A nested layout with the smallest integer. -/
theorem text_roundTrip_smallest :
    let shape := IntTuple.tuple [.leaf 2, .tuple [.leaf (-9223372036854775808)]]
    let stride := IntTuple.tuple [.leaf 1, .tuple [.leaf 0]]
    IntTuple.fromStr shape.display = some shape ∧
      Layout.fromStr (Layout.display ⟨shape, stride⟩) = some ⟨shape, stride⟩ := by
  intro shape stride
  have hshape : shape.WellFormed :=
    ⟨List.cons_ne_nil _ _, wellFormed_leaf.mpr (by decide),
      ⟨List.cons_ne_nil _ _, wellFormed_leaf.mpr (by decide), trivial⟩, trivial⟩
  have hstride : stride.WellFormed :=
    ⟨List.cons_ne_nil _ _, wellFormed_leaf.mpr (by decide),
      ⟨List.cons_ne_nil _ _, wellFormed_leaf.mpr (by decide), trivial⟩, trivial⟩
  have hlayout := (text_roundTrip.2.1 ⟨shape, stride⟩ hshape hstride).mpr rfl
  exact ⟨text_roundTrip.2.2.1 _ shape (text_roundTrip.1 shape hshape),
    text_roundTrip.2.2.2 _ _ hlayout⟩

/-- The fields of a layout are public: `1:(1)` can be built and displayed, but not parsed. -/
theorem not_layout_fromStr_display :
    ¬∀ l : Layout, l.shape.WellFormed → l.stride.WellFormed →
      Layout.fromStr l.display = some l := by
  intro h
  have hstride : (IntTuple.tuple [.leaf 1]).WellFormed :=
    ⟨List.cons_ne_nil _ _, wellFormed_leaf.mpr (by decide), trivial⟩
  have hshape : (IntTuple.leaf 1).WellFormed := wellFormed_leaf.mpr (by decide)
  have hread := h ⟨.leaf 1, .tuple [.leaf 1]⟩ hshape hstride
  have hcongruent := (layout_fromStr_display hshape hstride).mp hread
  cases hcongruent

end CudaOxide.Cute
