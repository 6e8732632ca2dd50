import Mathlib.Data.List.Basic
import Mathlib.Data.List.DropRight
import Mathlib.Data.List.Infix
import Mathlib.Data.Nat.Find

/-!
# Searching in text

Parsers that look for a piece of text anywhere, instead of reading from left to right.

* `find` — the text on both sides of the first occurrence; `find_append` finds a piece that has an
  item which is not found before it.
* `infix_append_of_last`, `infix_append_of_head` — a piece does not reach across an item it does not
  have.
* `removeAll` — every occurrence is cut out.
* `splitOn_intercalate` — items that were joined are split apart again, except that none becomes
  one.
* `untilClose` — the text up to the matching bracket.
-/

namespace CudaOxide.Lib.Search

variable {α : Type} [DecidableEq α] {pat s a b rest : List α} {m : α}

/-! ### The first occurrence -/

/-- What stands before the first occurrence and what stands behind it (`str::find`). -/
def find (pat s : List α) : Option (List α × List α) := s.dropInfix? pat

/-- The first place where the pattern stands. -/
theorem find_eq_some_iff : find pat s = some (a, b) ↔
    s = a ++ pat ++ b ∧ ∀ a' b', s = a' ++ pat ++ b' → a.length ≤ a'.length := by
  unfold find
  rw [List.dropInfix?_eq_some_iff]
  simp only [beq_iff_eq]
  constructor
  · rintro ⟨⟨pat', h, rfl⟩, hmin⟩
    exact ⟨h, fun a' b' h' => hmin a' pat' b' h' rfl⟩
  · rintro ⟨h, hmin⟩
    refine ⟨⟨pat, h, rfl⟩, ?_⟩
    rintro a' pat' b' h' rfl
    exact hmin a' b' h'

/-- The text around what was found. -/
theorem eq_of_find (h : find pat s = some (a, b)) : s = a ++ pat ++ b := (find_eq_some_iff.mp h).1

/-- There is an occurrence to be found. -/
theorem find_isSome : (find pat s).isSome = true ↔ pat <:+: s := by
  constructor
  · intro h
    obtain ⟨p, hp⟩ := Option.isSome_iff_exists.mp h
    exact ⟨p.1, p.2, (eq_of_find hp).symm⟩
  · rintro ⟨a, b, h⟩
    classical
    -- the shortest text before an occurrence
    have hex : ∃ n, ∃ a b, s = a ++ pat ++ b ∧ a.length = n := ⟨_, a, b, h.symm, rfl⟩
    obtain ⟨a₀, b₀, h₀, hlen⟩ := Nat.find_spec hex
    have hfind : find pat s = some (a₀, b₀) := by
      refine find_eq_some_iff.mpr ⟨h₀, fun a' b' h' => ?_⟩
      rw [hlen]
      exact Nat.find_min' hex ⟨a', b', h', rfl⟩
    rw [hfind]
    rfl

/-- Nothing is found where the pattern does not stand. -/
theorem find_eq_none_iff : find pat s = none ↔ ¬pat <:+: s := by
  rw [← find_isSome, Option.not_isSome_iff_eq_none]

/-- **The first occurrence**: an item of the piece does not stand before it. -/
theorem find_append (hm : m ∈ pat) (ha : m ∉ a) : find pat (a ++ pat ++ b) = some (a, b) := by
  refine find_eq_some_iff.mpr ⟨rfl, fun a' b' h => ?_⟩
  by_contra hlt
  -- where the item would stand in an earlier occurrence
  obtain ⟨u, v, rfl, hu⟩ := List.eq_append_cons_of_mem hm
  have hitem : (a' ++ (u ++ m :: v) ++ b')[a'.length + u.length]? = some m := by
    simp
  rw [← h] at hitem
  have hbefore : m ∈ a ++ u := by
    have hlen : a'.length + u.length < (a ++ u).length := by
      rw [List.length_append]
      omega
    have hget : (a ++ u)[a'.length + u.length]? = some m := by
      rw [← hitem, List.append_assoc, List.append_assoc, ← List.append_assoc a u,
        List.getElem?_append_left hlen]
    exact List.mem_of_getElem? hget
  rcases List.mem_append.mp hbefore with h | h
  · exact ha h
  · exact hu h

/-! ### Text without an occurrence -/

omit [DecidableEq α] in

/-- A pattern with a character that the text does not have. -/
theorem not_infix_of_notMem (hm : m ∈ pat) (hs : m ∉ s) : ¬pat <:+: s :=
  fun h => hs (h.subset hm)

omit [DecidableEq α] in
/-- A piece does not reach across the last item of `a`, where it could only end with it. -/
theorem infix_append_of_last (h : ∀ c ∈ a.getLast?, c ∉ pat.dropLast) :
    pat <:+: a ++ b ↔ pat <:+: a ∨ pat <:+: b := by
  rw [List.infix_append_iff_ne_nil]
  refine or_congr_right (or_iff_left ?_)
  rintro ⟨u, v, hu, hv, rfl, ⟨x, rfl⟩, -⟩
  rw [List.dropLast_append_of_ne_nil hv] at h
  refine h (u.getLast hu) ?_ (List.mem_append_left _ (List.getLast_mem hu))
  rw [List.getLast?_append_of_ne_nil _ hu, List.getLast?_eq_some_getLast hu]
  rfl

omit [DecidableEq α] in
/-- A piece does not reach across the first item of `b`, where it could only start with it. -/
theorem infix_append_of_head (h : ∀ c ∈ b.head?, c ∉ pat.tail) :
    pat <:+: a ++ b ↔ pat <:+: a ∨ pat <:+: b := by
  rw [List.infix_append_iff_ne_nil]
  refine or_congr_right (or_iff_left ?_)
  rintro ⟨u, v, hu, hv, rfl, -, ⟨y, rfl⟩⟩
  rw [List.tail_append_of_ne_nil hu] at h
  refine h (v.head hv) ?_ (List.mem_append_right _ (List.head_mem hv))
  rw [List.head?_append_of_ne_nil _ hv, List.head?_eq_some_head hv]
  rfl

/-- The search goes on behind a text that the piece is not in and does not reach out of. -/
theorem find_skip (ha : ¬pat <:+: a) (hlast : ∀ c ∈ a.getLast?, c ∉ pat.dropLast) :
    find pat (a ++ s) = (find pat s).map fun p => (a ++ p.1, p.2) := by
  cases hfind : find pat s with
  | none =>
    refine find_eq_none_iff.mpr ?_
    rw [infix_append_of_last hlast]
    exact not_or.mpr ⟨ha, find_eq_none_iff.mp hfind⟩
  | some p =>
    obtain ⟨hs, hmin⟩ := find_eq_some_iff.mp hfind
    refine find_eq_some_iff.mpr ⟨by rw [hs]; simp, fun a' b' h => ?_⟩
    rw [List.append_assoc] at h
    rcases List.append_eq_append_iff.mp h with ⟨z, rfl, hz⟩ | ⟨z, rfl, hz⟩
    · rw [List.length_append, List.length_append]
      exact Nat.add_le_add_left (hmin z b' (by rw [hz, List.append_assoc])) _
    · -- the occurrence starts in `a`
      by_cases hzn : z = []
      · subst hzn
        have hle := hmin [] b' (by rw [List.nil_append]; exact hz.symm)
        rw [List.append_nil, List.length_append]
        exact Nat.add_le_add_left hle _
      · exfalso
        rcases List.append_eq_append_iff.mp hz with ⟨w, hw, hw'⟩ | ⟨w, hw, hw'⟩
        · exact ha ⟨a', w, by rw [hw, ← List.append_assoc]⟩
        · by_cases hwn : w = []
          · subst hwn
            exact ha ⟨a', [], by rw [hw]; simp⟩
          refine hlast (z.getLast hzn) ?_ ?_
          · rw [List.getLast?_append_of_ne_nil _ hzn, List.getLast?_eq_some_getLast hzn]
            rfl
          · rw [hw, List.dropLast_append_of_ne_nil hwn]
            exact List.mem_append_left _ (List.getLast_mem hzn)

/-! ### Cutting out -/

/-- What remains behind a find is shorter. -/
theorem length_lt_of_find (hpat : pat ≠ []) (h : find pat s = some (a, b)) :
    b.length < s.length := by
  have hpos := List.length_pos_iff.mpr hpat
  rw [eq_of_find h, List.length_append, List.length_append]
  omega

/-- Every occurrence is cut out, from left to right (`replace(pat, "")`). -/
def removeAll (pat s : List α) : List α :=
  if _hpat : pat = [] then s
  else
    match _h : find pat s with
    | none => s
    | some p => p.1 ++ removeAll pat p.2
termination_by s.length
decreasing_by exact length_lt_of_find _hpat _h

/-- Nothing to remove. -/
theorem removeAll_of_absent (h : ¬pat <:+: s) : removeAll pat s = s := by
  rw [removeAll]
  split_ifs
  · rfl
  · rw [find_eq_none_iff.mpr h]

/-- The first one is removed, and then the others. -/
theorem removeAll_of_find (hpat : pat ≠ []) (h : find pat s = some (a, b)) :
    removeAll pat s = a ++ removeAll pat b := by
  rw [removeAll, dif_neg hpat, h]

/-- Removing does not make a text longer. -/
theorem length_removeAll_le (pat s : List α) : (removeAll pat s).length ≤ s.length := by
  fun_induction removeAll pat s with
  | case1 s => exact le_rfl
  | case2 s hpat h => exact le_rfl
  | case3 s hpat p h ih =>
    rw [eq_of_find h, List.length_append, List.length_append, List.length_append]
    omega

/-- Something is cut out. -/
theorem length_removeAll_lt (hpat : pat ≠ []) (h : pat <:+: s) :
    (removeAll pat s).length < s.length := by
  obtain ⟨p, hp⟩ := Option.isSome_iff_exists.mp (find_isSome.mpr h)
  have hle := length_removeAll_le pat p.2
  have hpos := List.length_pos_iff.mpr hpat
  rw [removeAll_of_find hpat hp]
  conv_rhs => rw [eq_of_find hp]
  rw [List.length_append, List.length_append, List.length_append]
  omega

/-! ### Items with a separator -/

omit [DecidableEq α] in

/-- A character of a joined text is the separator or in a part. -/
theorem mem_intercalate {x c : α} {ls : List (List α)} (h : c ∈ [x].intercalate ls) :
    c = x ∨ ∃ l ∈ ls, c ∈ l := by
  induction ls with
  | nil => cases h
  | cons l ls ih =>
    by_cases hls : ls = []
    · subst hls
      rw [List.intercalate_singleton] at h
      exact .inr ⟨l, List.mem_cons_self, h⟩
    · rw [List.intercalate_cons_of_ne_nil hls, List.append_assoc] at h
      rcases List.mem_append.mp h with h | h
      · exact .inr ⟨l, List.mem_cons_self, h⟩
      · rcases List.mem_append.mp h with h | h
        · exact .inl (List.mem_singleton.mp h)
        · rcases ih h with h | ⟨l', hl', h⟩
          · exact .inl h
          · exact .inr ⟨l', List.mem_cons_of_mem _ hl', h⟩

omit [DecidableEq α] in
/-- Joined items end as the last item does. -/
theorem ne_of_getLast?_intercalate {x : α} {ls : List (List α)} (hne : ∀ l ∈ ls, l ≠ [])
    (hx : ∀ l ∈ ls, x ∉ l) : ∀ c ∈ ([x].intercalate ls).getLast?, c ≠ x := by
  induction ls with
  | nil => exact fun c hc => absurd hc (Option.not_mem_none c)
  | cons l ls ih =>
    rintro c hc rfl
    by_cases hls : ls = []
    · subst hls
      rw [List.intercalate_singleton] at hc
      exact hx l List.mem_cons_self (List.mem_of_getLast? hc)
    · have hrest : [c].intercalate ls ≠ [] := by
        obtain ⟨l', ls', rfl⟩ := List.exists_cons_of_ne_nil hls
        have hl' := hne l' (List.mem_cons_of_mem _ List.mem_cons_self)
        by_cases hls' : ls' = []
        · rwa [hls', List.intercalate_singleton]
        · rw [List.intercalate_cons_of_ne_nil hls', List.append_assoc]
          exact List.append_ne_nil_of_left_ne_nil hl' _
      rw [List.intercalate_cons_of_ne_nil hls, List.getLast?_append_of_ne_nil _ hrest] at hc
      exact ih (fun l' hl' => hne l' (List.mem_cons_of_mem _ hl'))
        (fun l' hl' => hx l' (List.mem_cons_of_mem _ hl')) c hc rfl

/-- The items are split apart again; no item at all comes back as an empty one. -/
theorem splitOn_intercalate {x : α} {ls : List (List α)} (hx : ∀ l ∈ ls, x ∉ l) :
    ([x].intercalate ls).splitOn x = if ls = [] then [[]] else ls := by
  split_ifs with hls
  · subst hls
    rfl
  · exact List.splitOn_intercalate x hx hls

/-! ### Brackets -/

/-- The text before the bracket that closes the `d` open ones, and the text behind it. -/
def untilClose (left right : α) : ℕ → List α → Option (List α × List α)
  | _, [] => none
  | d, c :: cs =>
    if c = left then (untilClose left right (d + 1) cs).map fun p => (c :: p.1, p.2)
    else if c = right then
      if d = 1 then some ([], cs)
      else (untilClose left right (d - 1) cs).map fun p => (c :: p.1, p.2)
    else (untilClose left right d cs).map fun p => (c :: p.1, p.2)

variable {left right : α} {d : ℕ}

/-- Characters that are no brackets are skipped. -/
theorem untilClose_skip (hl : left ∉ a) (hr : right ∉ a) :
    untilClose left right d (a ++ s) = (untilClose left right d s).map fun p =>
      (a ++ p.1, p.2) := by
  induction a with
  | nil => simp
  | cons c cs ih =>
    rw [List.mem_cons, not_or] at hl hr
    rw [List.cons_append, untilClose, if_neg (Ne.symm hl.1), if_neg (Ne.symm hr.1), ih hl.2 hr.2,
      Option.map_map]
    rfl

/-- The bracket that closes the outermost level. -/
theorem untilClose_close (h : right ≠ left) :
    untilClose left right 1 (right :: s) = some ([], s) := by
  rw [untilClose, if_neg h, if_pos rfl, if_pos rfl]

/-- The text up to the bracket, where no other brackets are in it. -/
theorem untilClose_append (h : right ≠ left) (hl : left ∉ a) (hr : right ∉ a) :
    untilClose left right 1 (a ++ right :: s) = some (a, s) := by
  rw [untilClose_skip hl hr, untilClose_close h, Option.map_some, List.append_nil]

/-- The text up to the bracket, where one pair of brackets is in it. -/
theorem untilClose_nested (h : right ≠ left) {x y z : List α} (hx : left ∉ x) (hx' : right ∉ x)
    (hy : left ∉ y) (hy' : right ∉ y) (hz : left ∉ z) (hz' : right ∉ z) :
    untilClose left right 1 (x ++ left :: (y ++ right :: (z ++ right :: s))) =
      some (x ++ left :: (y ++ right :: z), s) := by
  rw [untilClose_skip hx hx', untilClose, if_pos rfl, untilClose_skip hy hy', untilClose, if_neg h,
    if_pos rfl, if_neg (by omega), Nat.add_sub_cancel, untilClose_append h hz hz']
  simp

end CudaOxide.Lib.Search
