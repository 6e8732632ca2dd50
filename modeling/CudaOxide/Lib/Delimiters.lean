import Mathlib.Data.List.Basic

/-!
# Nested delimiters

Texts in which every delimiter that opens is closed by its own one.  `stop` singles out what may not
stand outside of all delimiters, such as a separator.

* `run` — one pass with a stack of the delimiters that are to come.
* `Balanced`, `Nested` — the texts, by their structure.
* `run_eq_nil_iff` — the pass ends with an empty stack on these texts and on no others.
* `split` — the text is cut at what separates its nested parts.
-/

namespace CudaOxide.Lib.Delimiters

/-- What an item does to the stack. -/
inductive Delimiter (α : Type) where
  | opens (close : α)
  | closes
  | other
  deriving DecidableEq

/-- A text whose delimiters are nested. -/
inductive Balanced {α : Type} (kind : α → Delimiter α) : List α → Prop
  | nil : Balanced kind []
  | other {c : α} {cs : List α} : kind c = .other → Balanced kind cs → Balanced kind (c :: cs)
  | group {c close : α} {inner cs : List α} : kind c = .opens close → Balanced kind inner →
      Balanced kind cs → Balanced kind (c :: (inner ++ close :: cs))

/-- A text whose delimiters are nested, with nothing outside of them that stops. -/
inductive Nested {α : Type} (kind : α → Delimiter α) (stop : α → Bool) : List α → Prop
  | nil : Nested kind stop []
  | other {c : α} {cs : List α} : kind c = .other → stop c = false → Nested kind stop cs →
      Nested kind stop (c :: cs)
  | group {c close : α} {inner cs : List α} : kind c = .opens close → stop c = false →
      Balanced kind inner → Nested kind stop cs → Nested kind stop (c :: (inner ++ close :: cs))

variable {α : Type} [DecidableEq α]

/-- The stack holds the closing items that are to come. -/
def step (kind : α → Delimiter α) (st : List α) (c : α) : Option (List α) :=
  match kind c with
  | .opens close => some (close :: st)
  | .closes => if st.head? = some c then some st.tail else none
  | .other => some st

/-- The stack behind a text.  The pass fails at an item that does not close what it should, and
outside of all delimiters at one that stops. -/
def run (kind : α → Delimiter α) (stop : α → Bool) : List α → List α → Option (List α)
  | [], st => some st
  | c :: cs, st =>
    if st = [] ∧ stop c = true then none else (step kind st c).bind (run kind stop cs)

variable {kind : α → Delimiter α} {stop : α → Bool} {s r st st' : List α} {c close : α}

/-- One character of a run. -/
theorem run_cons : run kind stop (c :: s) st =
    if st = [] ∧ stop c = true then none else (step kind st c).bind (run kind stop s) := rfl

/-- A run over an append is two runs. -/
theorem run_append : run kind stop (s ++ r) st = (run kind stop s st).bind (run kind stop r) := by
  induction s generalizing st with
  | nil => rfl
  | cons c s ih =>
    rw [List.cons_append, run_cons, run_cons]
    split_ifs
    · rfl
    · rw [Option.bind_assoc]
      exact congrArg _ (funext fun st' => ih)

/-- A character that opens pushes its closing one. -/
theorem step_opens (h : kind c = .opens close) : step kind st c = some (close :: st) := by
  rw [step, h]

/-- A character that closes pops it. -/
theorem step_closes (h : kind c = .closes) : step kind (c :: st) c = some st := by
  rw [step, h]
  exact if_pos rfl

/-- Other characters change nothing. -/
theorem step_other (h : kind c = .other) : step kind st c = some st := by
  rw [step, h]

/-- What neither delimits nor stops leaves the stack. -/
theorem run_other (h : ∀ c ∈ s, kind c = .other ∧ stop c = false) :
    run kind stop s st = some st := by
  induction s with
  | nil => rfl
  | cons c s ih =>
    obtain ⟨⟨hc, hstop⟩, hs⟩ := List.forall_mem_cons.mp h
    rw [run_cons, if_neg (by simp [hstop]), step_other hc, Option.bind_some, ih hs]

/-- Inside of delimiters a balanced text leaves the stack. -/
theorem run_balanced (hclose : ∀ c close, kind c = .opens close → kind close = .closes)
    (h : Balanced kind s) (hst : st ≠ []) : run kind stop s st = some st := by
  induction h generalizing st with
  | nil => rfl
  | other hc _ ih =>
    rw [run_cons, if_neg fun h => hst h.1, step_other hc, Option.bind_some]
    exact ih hst
  | group hc _ _ ihinner ih =>
    rw [run_cons, if_neg fun h => hst h.1, step_opens hc, Option.bind_some, run_append,
      ihinner (List.cons_ne_nil _ _), Option.bind_some, run_cons,
      if_neg fun h => List.cons_ne_nil _ _ h.1, step_closes (hclose _ _ hc), Option.bind_some]
    exact ih hst

/-- A nested text is run through. -/
theorem run_nested (hclose : ∀ c close, kind c = .opens close → kind close = .closes)
    (h : Nested kind stop s) : run kind stop s [] = some [] := by
  induction h with
  | nil => rfl
  | other hc hstop _ ih =>
    rw [run_cons, if_neg (by simp [hstop]), step_other hc, Option.bind_some]
    exact ih
  | group hc hstop hinner _ ih =>
    rw [run_cons, if_neg (by simp [hstop]), step_opens hc, Option.bind_some, run_append,
      run_balanced hclose hinner (List.cons_ne_nil _ _), Option.bind_some, run_cons,
      if_neg fun h => List.cons_ne_nil _ _ h.1, step_closes (hclose _ _ hc), Option.bind_some]
    exact ih

/-- A text that closes all items of the stack, one after the other. -/
def Closing (kind : α → Delimiter α) (stop : α → Bool) : List α → List α → Prop
  | [], s => Nested kind stop s
  | d :: st, s => ∃ b s', s = b ++ d :: s' ∧ Balanced kind b ∧ Closing kind stop st s'

/-- **What a pass with an empty stack behind it has read.** -/
theorem closing_of_run (h : run kind stop s st = some []) : Closing kind stop st s := by
  induction s generalizing st with
  | nil =>
    obtain rfl := Option.some.inj h
    exact .nil
  | cons c s ih =>
    rw [run_cons] at h
    split_ifs at h with hstop
    obtain ⟨st', hstep, hrest⟩ := Option.bind_eq_some_iff.mp h
    have hclosing := ih hrest
    unfold step at hstep
    split at hstep
    · rename_i close hc
      obtain rfl := Option.some.inj hstep
      obtain ⟨b, s', rfl, hb, hs'⟩ := hclosing
      cases st with
      | nil => exact .group hc (by simpa using hstop) hb hs'
      | cons d st =>
        obtain ⟨b', s'', rfl, hb', hs''⟩ := hs'
        exact ⟨c :: (b ++ close :: b'), s'', by simp, .group hc hb hb', hs''⟩
    · split_ifs at hstep with hhead
      obtain rfl := Option.some.inj hstep
      obtain ⟨st, rfl⟩ := List.head?_eq_some_iff.mp hhead
      exact ⟨[], s, rfl, .nil, hclosing⟩
    · rename_i hc
      obtain rfl := Option.some.inj hstep
      cases st with
      | nil => exact .other hc (by simpa using hstop) hclosing
      | cons d st =>
        obtain ⟨b, s', rfl, hb, hs'⟩ := hclosing
        exact ⟨c :: b, s', rfl, .other hc hb, hs'⟩

/-- **The pass recognises nested delimiters.** -/
theorem run_eq_nil_iff (hclose : ∀ c close, kind c = .opens close → kind close = .closes) :
    run kind stop s [] = some [] ↔ Nested kind stop s :=
  ⟨closing_of_run, run_nested hclose⟩

omit [DecidableEq α] in

/-- Balanced texts can be appended. -/
theorem Balanced.append (hs : Balanced kind s) (hr : Balanced kind r) : Balanced kind (s ++ r) := by
  induction hs with
  | nil => exact hr
  | other hc _ ih => exact .other hc ih
  | group hc hinner _ _ ih =>
    rw [List.cons_append, List.append_assoc, List.cons_append]
    exact .group hc hinner ih

omit [DecidableEq α] in

/-- Nested texts are balanced. -/
theorem Nested.balanced (h : Nested kind stop s) : Balanced kind s := by
  induction h with
  | nil => exact .nil
  | other hc _ _ ih => exact .other hc ih
  | group hc _ hinner _ ih => exact .group hc hinner ih

omit [DecidableEq α] in
/-- A balanced text stops somewhere outside of all delimiters, or nowhere. -/
theorem Balanced.split (hstop : ∀ c, stop c = true → kind c = .other) (h : Balanced kind s) :
    Nested kind stop s ∨ ∃ a c b, s = a ++ c :: b ∧ Nested kind stop a ∧ stop c = true ∧
      Balanced kind b := by
  induction h with
  | nil => exact .inl .nil
  | @other c cs hc hcs ih =>
    cases hs : stop c with
    | true => exact .inr ⟨[], c, cs, rfl, .nil, hs, hcs⟩
    | false =>
      rcases ih with h | ⟨a, d, b, rfl, ha, hd, hb⟩
      · exact .inl (.other hc hs h)
      · exact .inr ⟨c :: a, d, b, rfl, .other hc hs ha, hd, hb⟩
  | @group c close inner cs hc hinner hcs _ ih =>
    have hs : stop c = false := by
      by_contra hs
      rw [hstop c (Bool.not_eq_false _ ▸ hs)] at hc
      cases hc
    rcases ih with h | ⟨a, d, b, rfl, ha, hd, hb⟩
    · exact .inl (.group hc hs hinner h)
    · exact .inr ⟨c :: (inner ++ close :: a), d, b, by simp, .group hc hs hinner ha, hd, hb⟩

/-! ### Splitting at a separator -/

/-- The parts of a text, the first of which begins with what has been read. -/
def splitFrom (kind : α → Delimiter α) (sep : α) : List α → List α → List α → Option (List (List α))
  | [], read, st => if st = [] then some [read] else none
  | c :: cs, read, st =>
    if st = [] ∧ c = sep then (splitFrom kind sep cs [] []).map (read :: ·)
    else (step kind st c).bind (splitFrom kind sep cs (read ++ [c]))

/-- The parts between the separators that stand outside of all delimiters. -/
def split (kind : α → Delimiter α) (sep : α) (s : List α) : Option (List (List α)) :=
  splitFrom kind sep s [] []

section Split

variable {sep : α} {read x : List α} {ps qs : List (List α)}

omit [DecidableEq α] in

/-- Texts that are joined by a separator. -/
theorem intercalate_cons : [sep].intercalate (x :: qs) = x ++ qs.flatMap (sep :: ·) := by
  induction qs generalizing x with
  | nil => simp
  | cons q qs ih => rw [List.intercalate_cons_cons, ih, List.flatMap_cons, List.append_assoc]; rfl

/-- One character of a split. -/
theorem splitFrom_cons : splitFrom kind sep (c :: s) read st =
    if st = [] ∧ c = sep then (splitFrom kind sep s [] []).map (read :: ·)
    else (step kind st c).bind (splitFrom kind sep s (read ++ [c])) := rfl

/-- The separators are where the pass would stop. -/
theorem splitFrom_eq_some_iff : splitFrom kind sep s read st = some ps ↔
    ∃ x qs, ps = (read ++ x) :: qs ∧ s = x ++ qs.flatMap (sep :: ·) ∧
      run kind (· = sep) x st = some [] ∧ ∀ q ∈ qs, run kind (· = sep) q [] = some [] := by
  induction s generalizing read st ps with
  | nil =>
    constructor
    · intro h
      unfold splitFrom at h
      split_ifs at h with hst
      obtain rfl := Option.some.inj h
      exact ⟨[], [], by simp, rfl, by rw [hst]; rfl, by simp⟩
    · rintro ⟨x, qs, rfl, hs, hrun, -⟩
      obtain ⟨rfl, hqs⟩ := List.append_eq_nil_iff.mp hs.symm
      obtain rfl : st = [] := Option.some.inj hrun
      cases qs with
      | nil => simp [splitFrom]
      | cons q qs => simp at hqs
  | cons c s ih =>
    rw [splitFrom_cons]
    split_ifs with hsep
    · obtain ⟨rfl, rfl⟩ := hsep
      rw [Option.map_eq_some_iff]
      constructor
      · rintro ⟨ps', hps', rfl⟩
        obtain ⟨x, qs, rfl, rfl, hx, hqs⟩ := ih.mp hps'
        exact ⟨[], x :: qs, by simp, by simp, rfl, List.forall_mem_cons.mpr ⟨hx, hqs⟩⟩
      · rintro ⟨x, qs, rfl, hs, hx, hqs⟩
        cases x with
        | nil =>
          -- the first part ends here
          cases qs with
          | nil => simp at hs
          | cons q qs =>
            rw [List.nil_append, List.flatMap_cons, List.cons_append] at hs
            obtain ⟨hq, hqs⟩ := List.forall_mem_cons.mp hqs
            exact ⟨q :: qs, ih.mpr ⟨q, qs, rfl, (List.cons.inj hs).2, hq, hqs⟩, by simp⟩
        | cons d x =>
          obtain ⟨rfl, -⟩ := List.cons.inj hs
          rw [run_cons, if_pos ⟨rfl, by simp⟩] at hx
          cases hx
    · rw [Option.bind_eq_some_iff]
      constructor
      · rintro ⟨st', hstep, hrest⟩
        obtain ⟨x, qs, rfl, rfl, hx, hqs⟩ := ih.mp hrest
        refine ⟨c :: x, qs, by simp, by simp, ?_, hqs⟩
        rw [run_cons, if_neg (by simpa using hsep), hstep]
        exact hx
      · rintro ⟨x, qs, rfl, hs, hx, hqs⟩
        cases x with
        | nil =>
          obtain rfl : st = [] := Option.some.inj hx
          cases qs with
          | nil => simp at hs
          | cons q qs =>
            rw [List.nil_append, List.flatMap_cons, List.cons_append] at hs
            exact absurd ⟨rfl, (List.cons.inj hs).1⟩ hsep
        | cons d x =>
          rw [List.cons_append] at hs
          obtain ⟨rfl, rfl⟩ := List.cons.inj hs
          rw [run_cons, if_neg (by simpa using hsep)] at hx
          obtain ⟨st', hstep, hrest⟩ := Option.bind_eq_some_iff.mp hx
          exact ⟨st', hstep, ih.mpr ⟨x, qs, by simp, rfl, hrest, hqs⟩⟩

/-- **The parts are nested, and the separators stand between them.** -/
theorem split_eq_some_iff (hclose : ∀ c close, kind c = .opens close → kind close = .closes) :
    split kind sep s = some ps ↔
      ps ≠ [] ∧ s = [sep].intercalate ps ∧ ∀ p ∈ ps, Nested kind (· = sep) p := by
  unfold split
  rw [splitFrom_eq_some_iff]
  constructor
  · rintro ⟨x, qs, rfl, hs, hx, hqs⟩
    refine ⟨List.cons_ne_nil _ _, ?_, List.forall_mem_cons.mpr ⟨?_, fun q hq => ?_⟩⟩
    · rw [intercalate_cons]
      exact hs
    · exact (run_eq_nil_iff hclose).mp hx
    · exact (run_eq_nil_iff hclose).mp (hqs q hq)
  · rintro ⟨hne, hs, hps⟩
    obtain ⟨x, qs, rfl⟩ := List.exists_cons_of_ne_nil hne
    obtain ⟨hx, hqs⟩ := List.forall_mem_cons.mp hps
    refine ⟨x, qs, rfl, ?_, (run_eq_nil_iff hclose).mpr hx, fun q hq => ?_⟩
    · rw [hs, intercalate_cons]
    · exact (run_eq_nil_iff hclose).mpr (hqs q hq)

omit [DecidableEq α] in

/-- Balanced texts joined by a separator are balanced. -/
theorem balanced_intercalate (hsep : kind sep = .other) (h : ∀ p ∈ ps, Balanced kind p) :
    Balanced kind ([sep].intercalate ps) := by
  cases ps with
  | nil => exact .nil
  | cons p ps =>
    obtain ⟨hp, hps⟩ := List.forall_mem_cons.mp h
    rw [intercalate_cons]
    apply hp.append
    clear hp h
    induction ps with
    | nil => exact .nil
    | cons q ps ih =>
      obtain ⟨hq, hps⟩ := List.forall_mem_cons.mp hps
      exact .other hsep (hq.append (ih hps))

/-- **A text has parts if and only if its delimiters are balanced.** -/
theorem exists_split_iff (hclose : ∀ c close, kind c = .opens close → kind close = .closes)
    (hsep : kind sep = .other) : (∃ ps, split kind sep s = some ps) ↔ Balanced kind s := by
  constructor
  · rintro ⟨ps, hps⟩
    obtain ⟨-, rfl, hnested⟩ := (split_eq_some_iff hclose).mp hps
    exact balanced_intercalate hsep fun p hp => (hnested p hp).balanced
  · -- by induction on the length: the rest behind the first separator is shorter
    generalize hn : s.length = n
    induction n using Nat.strongRecOn generalizing s with
    | ind n ih =>
      intro hs
      have hother : ∀ c, decide (c = sep) = true → kind c = .other := by
        intro c hc
        rwa [of_decide_eq_true hc]
      rcases hs.split hother with hs | ⟨a, c, b, rfl, ha, hc, hb⟩
      · exact ⟨[s], (split_eq_some_iff hclose).mpr ⟨by simp, by simp, by simpa using hs⟩⟩
      · obtain rfl := of_decide_eq_true hc
        obtain ⟨ps, hps⟩ := ih b.length (by simp at hn; omega) rfl hb
        obtain ⟨hne, rfl, hnested⟩ := (split_eq_some_iff hclose).mp hps
        obtain ⟨q, qs, rfl⟩ := List.exists_cons_of_ne_nil hne
        refine ⟨a :: q :: qs, (split_eq_some_iff hclose).mpr ⟨by simp, ?_, ?_⟩⟩
        · rw [List.intercalate_cons_cons, List.append_assoc]
          rfl
        · exact List.forall_mem_cons.mpr ⟨ha, hnested⟩

/-- What neither delimits nor separates goes to the part that is being read. -/
theorem splitFrom_append_other (h : ∀ c ∈ x, kind c = .other ∧ c ≠ sep) :
    splitFrom kind sep (x ++ s) read st = splitFrom kind sep s (read ++ x) st := by
  induction x generalizing read with
  | nil => simp
  | cons c x ih =>
    obtain ⟨hc, hx⟩ := List.forall_mem_cons.mp h
    rw [List.cons_append, splitFrom_cons, if_neg fun h => hc.2 h.2, step_other hc.1,
      Option.bind_some,
      ih hx, List.append_assoc]
    rfl

end Split

end CudaOxide.Lib.Delimiters
