import CudaOxide.Ptx.Edit

/-!
# What an edit map keeps

`mapOffset` searches the edits; `mapOffset_eq_through` reads it as the offset map of the edits as
splices, in both directions.  The edits of a script are splices that advance in step
(`applyWithMap_spec`), so that the general facts about such maps apply.

* `EditMap.Faithful` — monotone, unedited bytes come back to themselves, ranges are covered.
* `editMap_faithful_iff` — the map of a script is faithful exactly when no deletion starts where
  another edit ends.
-/

namespace CudaOxide.Ptx

open Lib Lib.Bytes Lib.Text Lib.Run Lib.Splice

/-! ### The search as a map -/

/-- An edit as a splice. -/
def MappedEdit.splice (direction : Direction) (edit : MappedEdit) : Splice :=
  ⟨sourceRange edit direction, destinationRange edit direction⟩

/-- What the last edit before an offset shifts it by. -/
def lastDelta (direction : Direction) (edits : List MappedEdit) : ℤ :=
  edits.getLast?.elim 0 fun edit =>
    (destinationRange edit direction).stop - (sourceRange edit direction).stop

section Search

variable {direction : Direction} {bias : MapBias} {before edits : List MappedEdit} {x x₀ y₀ : ℕ}

/-- The search passes over the edits that end before the offset. -/
theorem partitionPoint_append (p : MappedEdit → Bool) (hbefore : ∀ e ∈ before, p e = true)
    (hhead : ∀ e ∈ edits.head?, p e = false) :
    partitionPoint (before ++ edits) p = before.length := by
  have hnone : edits.takeWhile p = [] := by
    cases edits with
    | nil => rfl
    | cons e edits => exact List.takeWhile_cons_of_neg (by simp [hhead e rfl])
  rw [partitionPoint, List.takeWhile_append_of_pos hbefore, hnone, List.append_nil]

/-- The shift at an offset is the last delta before it. -/
theorem shiftOffset_append
    (hbefore : ∀ e ∈ before, (sourceRange e direction).stop ≤ x)
    (hhead : ∀ e ∈ edits.head?, x < (sourceRange e direction).stop) :
    shiftOffset x (before ++ edits) direction = (x + lastDelta direction before).toNat := by
  have hpoint := partitionPoint_append (fun e => decide ((sourceRange e direction).stop ≤ x))
    (fun e he => decide_eq_true (hbefore e he))
    (fun e he => decide_eq_false (not_le.mpr (hhead e he)))
  simp only [shiftOffset, hpoint]
  unfold lastDelta
  by_cases hnil : before = []
  · rw [hnil]
    rfl
  · have hpos := List.length_pos_iff.mpr hnil
    rw [if_neg hpos.ne', List.getElem?_append_left (by omega), List.getLast?_eq_getElem?]

/-- The search, once it is known how many edits end before the offset. -/
theorem mapOffset_of_before (hbefore : ∀ e ∈ before, (sourceRange e direction).stop < x)
    (hhead : ∀ e ∈ edits.head?, x ≤ (sourceRange e direction).stop ∧
      (sourceRange e direction).start ≤ (sourceRange e direction).stop) :
    mapOffset x bias (before ++ edits) direction =
      edits.head?.elim (x + lastDelta direction before).toNat fun e =>
        if x < (sourceRange e direction).start then (x + lastDelta direction before).toNat
        else (e.splice direction).edge bias x := by
  have hpoint := partitionPoint_append (fun e => decide ((sourceRange e direction).stop < x))
    (fun e he => decide_eq_true (hbefore e he))
    (fun e he => decide_eq_false (not_lt.mpr (hhead e he).1))
  have hbefore' : ∀ e ∈ before, (sourceRange e direction).stop ≤ x := fun e he => (hbefore e he).le
  simp only [mapOffset, hpoint]
  cases edits with
  | nil =>
    rw [List.getElem?_eq_none (by simp), shiftOffset_append hbefore' (by simp)]
    rfl
  | cons e edits =>
    obtain ⟨hle, hord⟩ := hhead e rfl
    rw [List.getElem?_append_right le_rfl, Nat.sub_self, List.getElem?_cons_zero]
    show _ = if _ then _ else _
    by_cases hlt : x < (sourceRange e direction).start
    · simp only
      rw [if_neg (by omega), if_pos hlt, shiftOffset_append hbefore']
      intro e' he'
      cases he'
      omega
    · simp only
      rw [if_pos ⟨not_lt.mp hlt, hle⟩, if_neg hlt]
      unfold edge MappedEdit.splice
      simp only
      split_ifs <;> first | rfl | omega

/-- The last delta is that of the last edit. -/
theorem lastDelta_concat (e : MappedEdit) :
    lastDelta direction (before ++ [e]) =
      ((e.splice direction).dst.stop : ℤ) - (e.splice direction).src.stop := by
  rw [lastDelta, List.getLast?_concat]
  rfl

/-- **The search is the offset map.**  Induction along the edits; those already passed are
`before`. -/
theorem mapOffset_append (h : Aligned x₀ y₀ (edits.map (MappedEdit.splice direction)))
    (hbefore : ∀ e ∈ before, (sourceRange e direction).stop < x) (hx : x₀ ≤ x)
    (hlast : lastDelta direction before = (y₀ : ℤ) - x₀) :
    mapOffset x bias (before ++ edits) direction =
      through bias x₀ y₀ (edits.map (MappedEdit.splice direction)) x := by
  induction edits generalizing before x₀ y₀ with
  | nil =>
    rw [mapOffset_of_before hbefore (by simp), hlast]
    show (x + ((y₀ : ℤ) - x₀)).toNat = y₀ + (x - x₀)
    omega
  | cons e edits ih =>
    obtain ⟨hx', hy', hstep, hsrc, hdst, hrest⟩ := h
    rw [List.map_cons, through_cons]
    by_cases hpast : (e.splice direction).src.stop < x
    · rw [if_neg (by omega), if_neg (by omega)]
      rw [show before ++ e :: edits = before ++ [e] ++ edits by simp]
      refine ih hrest ?_ hpast.le (lastDelta_concat e)
      intro e' he'
      rcases List.mem_append.mp he' with he' | he'
      · exact hbefore e' he'
      · rw [List.mem_singleton.mp he']
        exact hpast
    · rw [if_pos (not_lt.mp hpast), mapOffset_of_before hbefore, hlast]
      · show (if x < (e.splice direction).src.start then _ else _) = _
        split_ifs
        · omega
        · rfl
      · intro e' he'
        cases he'
        exact ⟨not_lt.mp hpast, hsrc⟩

/-- On aligned edits `mapOffset` is the map through their splices. -/
theorem mapOffset_eq_through (h : Aligned 0 0 (edits.map (MappedEdit.splice direction))) :
    mapOffset x bias edits direction =
      through bias 0 0 (edits.map (MappedEdit.splice direction)) x := by
  show mapOffset x bias ([] ++ edits) direction = _
  exact mapOffset_append h (by simp) (Nat.zero_le x) rfl

end Search

/-- The splices of the way back are swapped. -/
theorem map_splice_reverse (edits : List MappedEdit) :
    edits.map (MappedEdit.splice .reverse) = (edits.map (MappedEdit.splice .forward)).map swap := by
  rw [List.map_map]
  rfl

/-! ### The edits of a script -/

/-- `e'` comes after `e`; where they touch, neither is an insertion. -/
def Follows (e e' : Edit) : Prop :=
  e.range.stop ≤ e'.range.start ∧
    (e.range.stop = e'.range.start →
      e.range.start < e.range.stop ∧ e'.range.start < e'.range.stop)

/-- Edits in order that do not conflict follow each other. -/
theorem follows_of_rangeLe {e e' : Edit} (hle : rangeLe e e')
    (he : e.range.start ≤ e.range.stop) (hconflict : rangesConflict e.range e'.range = false) :
      Follows e e' := by
  unfold rangeLe at hle
  unfold rangesConflict at hconflict
  unfold Follows
  by_cases h : e.range.start < e.range.stop
  · by_cases h' : e'.range.start < e'.range.stop
    · simp [h, h'] at hle hconflict
      omega
    · simp [h, h'] at hle hconflict
      omega
  · by_cases h' : e'.range.start < e'.range.stop
    · simp [h, h'] at hle hconflict
      omega
    · simp [h, h'] at hle hconflict
      omega

/-- Conflicts are symmetric. -/
theorem rangesConflict_comm (r r' : Span) : rangesConflict r r' = rangesConflict r' r := by
  unfold rangesConflict
  by_cases h : r.start < r.stop
  · by_cases h' : r'.start < r'.stop
    · simp [h, h', Bool.and_comm]
    · simp [h, h']
  · by_cases h' : r'.start < r'.stop
    · simp [h, h']
    · simp [h, h', eq_comm]

section Sorted

variable (script : EditScript)

/-- Sorting keeps the edits. -/
theorem EditScript.mem_sorted {e : Edit} : e ∈ script.sorted ↔ e ∈ script.edits :=
  (List.mergeSort_perm _ _).mem_iff

/-- Sorted edits follow each other. -/
theorem EditScript.sorted_follows : script.sorted.Pairwise Follows := by
  have hsorted : script.sorted.Pairwise fun e e' => rangeLe e e' = true := by
    apply List.pairwise_mergeSort
    · intro a b c hab hbc
      simp only [rangeLe, Bool.or_eq_true, Bool.and_eq_true, decide_eq_true_eq, beq_iff_eq]
        at hab hbc ⊢
      omega
    · intro a b
      simp only [rangeLe, Bool.or_eq_true, Bool.and_eq_true, decide_eq_true_eq, beq_iff_eq]
      omega
  have hcompatible :
      script.sorted.Pairwise fun e e' => rangesConflict e.range e'.range = false := by
    refine ((List.mergeSort_perm _ _).pairwise_iff ?_).mpr script.compatible
    intro e e' h
    rwa [rangesConflict_comm]
  refine (hsorted.and hcompatible).imp_of_mem ?_
  rintro e e' he - ⟨hle, hconflict⟩
  exact follows_of_rangeLe hle (script.ordered e ((mem_sorted script).mp he)) hconflict

end Sorted

/-! ### The text and its map -/

/-- The range an edit replaces, and how much stands there after. -/
def Edit.shape (e : Edit) : Span × ℕ := (e.range, e.replacement.length)

/-- The range and the new length of a mapped edit. -/
def MappedEdit.shape (m : MappedEdit) : Span × ℕ := (m.original, m.output.stop - m.output.start)

/-- A mapped edit comes from an edit. -/
theorem exists_edit {es : List Edit} {new : List MappedEdit} {m : MappedEdit}
    (hshapes : new.map MappedEdit.shape = es.map Edit.shape) (hm : m ∈ new) :
    ∃ e ∈ es, e.range = m.original ∧ e.replacement.length = m.output.stop - m.output.start := by
  have hmem : m.shape ∈ es.map Edit.shape := hshapes ▸ List.mem_map_of_mem hm
  obtain ⟨e, he, hshape⟩ := List.mem_map.mp hmem
  exact ⟨e, he, congrArg Prod.fst hshape, congrArg Prod.snd hshape⟩

/-- An edit is mapped. -/
theorem exists_mapped {es : List Edit} {new : List MappedEdit} {e : Edit}
    (hshapes : new.map MappedEdit.shape = es.map Edit.shape) (he : e ∈ es) :
    ∃ m ∈ new, m.original = e.range ∧ m.output.stop - m.output.start = e.replacement.length := by
  have hmem : e.shape ∈ new.map MappedEdit.shape := hshapes ▸ List.mem_map_of_mem he
  obtain ⟨m, hm, hshape⟩ := List.mem_map.mp hmem
  exact ⟨m, hm, congrArg Prod.fst hshape, congrArg Prod.snd hshape⟩

/-- What the loop over `es` has done between `st` and `st'`: `new` are the edits it recorded. -/
structure Applied (source : Bytes) (es : List Edit) (st st' : Applying) (new : List MappedEdit) :
    Prop where
  mapped : st'.mappedEdits = st.mappedEdits ++ new
  shapes : new.map MappedEdit.shape = es.map Edit.shape
  aligned : Aligned st.cursor st.output.length (new.map (MappedEdit.splice .forward))
  ends : endpoint st.cursor st.output.length (new.map (MappedEdit.splice .forward)) =
    (st'.cursor, st'.output.length)
  output : st.output <+: st'.output
  text : ∀ x, st.cursor ≤ x → x < source.length →
    Outside (new.map (MappedEdit.splice .forward)) x →
      (st'.output ++ source.drop st'.cursor)[through .right st.cursor st.output.length
        (new.map (MappedEdit.splice .forward)) x]? = source[x]?

/-- An offset outside the edits that follow `e`, right behind `e`, is before them all. -/
theorem starts_after {e : Edit} {es : List Edit} {new : List MappedEdit}
    (hshapes : new.map MappedEdit.shape = es.map Edit.shape)
    (hfollows : ∀ e' ∈ es, Follows e e')
    (hout : Outside (new.map (MappedEdit.splice .forward)) e.range.stop) :
    ∀ s ∈ new.map (MappedEdit.splice .forward), e.range.stop < s.src.start := by
  intro s hs
  have hside := hout s hs
  obtain ⟨m, hm, rfl⟩ := List.mem_map.mp hs
  obtain ⟨e', he', hrange, -⟩ := exists_edit hshapes hm
  obtain ⟨hle, htouch⟩ := hfollows e' he'
  show e.range.stop < m.original.start
  change e.range.stop < m.original.start ∨ m.original.stop ≤ e.range.stop at hside
  rw [← hrange] at hside ⊢
  by_contra hne
  have := (htouch (by omega)).2
  omega

/-- What the loop over the edits computes. -/
theorem applyEdits_spec {source : Bytes} {es : List Edit} {st st' : Applying}
    (hord : ∀ e ∈ es, e.range.start ≤ e.range.stop) (hfollows : es.Pairwise Follows)
    (h : es.foldlM (applyEdit source) st = .ok st') : ∃ new, Applied source es st st' new := by
  induction es generalizing st with
  | nil =>
    cases h
    refine ⟨[], (List.append_nil _).symm, rfl, trivial, rfl, ⟨[], List.append_nil _⟩, ?_⟩
    intro x hx _ _
    show (st'.output ++ source.drop st'.cursor)[st'.output.length + (x - st'.cursor)]? = _
    rw [List.getElem?_append_right (by omega), Nat.add_sub_cancel_left, List.getElem?_drop,
      Nat.add_sub_cancel' hx]
  | cons e es ih =>
    rw [List.foldlM_cons] at h
    obtain ⟨st₁, hstep, hrest⟩ := bind_eq_ok.mp h
    simp only [applyEdit, bind_eq_ok, sliceStr_eq_ok] at hstep
    obtain ⟨kept, ⟨⟨hcursor, hlen, -, -⟩, hkept⟩, hst₁⟩ := hstep
    obtain ⟨hhead, htail⟩ := List.pairwise_cons.mp hfollows
    obtain ⟨new, hmapped, hshapes, haligned, hends, houtput, htext⟩ :=
      ih (fun e' he' => hord e' (List.mem_cons_of_mem _ he')) htail hrest
    have hle := hord e List.mem_cons_self
    have hkeptLen : kept.length = e.range.start - st.cursor := by
      rw [← hkept, slice, List.length_take, List.length_drop]
      omega
    -- the edit starts behind what is kept, and the rest starts behind the edit
    obtain ⟨start, hstart⟩ : ∃ n, n = (st.output ++ kept).length := ⟨_, rfl⟩
    obtain ⟨stop, hstop⟩ : ∃ n, n = (st.output ++ kept ++ e.replacement).length := ⟨_, rfl⟩
    rw [← hstart, ← hstop] at hst₁
    cases hst₁
    simp only [← hstop] at haligned hends htext
    simp only [List.length_append] at hstart hstop
    refine ⟨⟨e.range, ⟨start, stop⟩⟩ :: new, ?_, ?_, ?_, hends, ?_, ?_⟩
    · rw [hmapped, List.append_assoc]
      rfl
    · rw [List.map_cons, List.map_cons, hshapes]
      congr 1
      show (e.range, stop - start) = (e.range, e.replacement.length)
      rw [show stop - start = e.replacement.length by omega]
    · refine ⟨hcursor, ?_, ?_, hle, ?_, haligned⟩
      · show st.output.length ≤ start
        omega
      · show e.range.start + st.output.length = start + st.cursor
        omega
      · show start ≤ stop
        omega
    · refine .trans ⟨kept ++ e.replacement, ?_⟩ houtput
      rw [← List.append_assoc]
    · intro x hx hxlen hout
      have houtEdit := hout _ List.mem_cons_self
      have houtRest : Outside (new.map (MappedEdit.splice .forward)) x :=
        fun s hs => hout s (List.mem_cons_of_mem _ hs)
      rw [List.map_cons]
      by_cases hbefore : x < e.range.start
      · -- in what is kept before the edit
        rw [through_cons.trans (if_pos hbefore)]
        obtain ⟨more, hmore⟩ := houtput
        rw [← hmore, ← hkept]
        simp only [List.append_assoc]
        rw [List.getElem?_append_right (by omega), Nat.add_sub_cancel_left,
          List.getElem?_append_left (by rw [hkept]; omega), slice,
          List.getElem?_take_of_lt (by omega), List.getElem?_drop, Nat.add_sub_cancel' hx]
      have hpast : e.range.stop ≤ x := houtEdit.resolve_left hbefore
      have hih := htext x hpast hxlen houtRest
      by_cases hend : x ≤ e.range.stop
      · -- right behind the edit: what follows does not start here
        obtain rfl : x = e.range.stop := by omega
        have hedge : (MappedEdit.splice .forward ⟨e.range, ⟨start, stop⟩⟩).edge .right
            e.range.stop = stop := by
          unfold edge MappedEdit.splice
          simp only [sourceRange, destinationRange, Side.pick]
          split_ifs <;> omega
        rw [(through_cons.trans (if_neg hbefore)).trans (if_pos hend), hedge, ← hih, through_before]
        · rw [Nat.sub_self, Nat.add_zero]
        · exact starts_after hshapes hhead houtRest
      · rw [(through_cons.trans (if_neg hbefore)).trans (if_neg hend)]
        exact hih

/-- The edits recorded in a map, as the script has them. -/
theorem applyWithMap_spec {script : EditScript} {source : Bytes} {applied : AppliedEdits}
    (h : script.applyWithMap source = .ok applied) :
    ∃ st, Applied source script.sorted ⟨[], 0, []⟩ st applied.map.edits ∧
      st.cursor ≤ source.length ∧ applied.map.originalLen = source.length ∧
      applied.map.outputLen = st.output.length + (source.length - st.cursor) ∧
      applied.text = st.output ++ source.drop st.cursor := by
  simp only [EditScript.applyWithMap, bind_eq_ok, sliceStr_eq_ok] at h
  obtain ⟨_, -, _, -, st, hloop, rest, ⟨⟨hcursor, -⟩, hrest⟩, happlied⟩ := h
  obtain ⟨new, hnew⟩ := applyEdits_spec
    (fun e he => script.ordered e (script.mem_sorted.mp he)) script.sorted_follows hloop
  have hdrop : rest = source.drop st.cursor := by
    rw [← hrest, slice, List.take_of_length_le (by rw [List.length_drop])]
  have hmapped : st.mappedEdits = new := hnew.mapped
  cases happlied
  refine ⟨st, hmapped ▸ hnew, hcursor, rfl, ?_, by rw [hdrop]⟩
  show (st.output ++ rest).length = _
  rw [hdrop, List.length_append, List.length_drop]

/-- A relation of shapes carries over to the mapped edits. -/
theorem pairwise_of_shapes {P : Span × ℕ → Span × ℕ → Prop} {es : List Edit}
    {new : List MappedEdit} (hshapes : new.map MappedEdit.shape = es.map Edit.shape)
    (h : es.Pairwise fun e e' => P e.shape e'.shape) :
    new.Pairwise fun m m' => P m.shape m'.shape := by
  rw [← List.pairwise_map (R := P), hshapes, List.pairwise_map]
  exact h

/-! ### Faithful maps -/

/-- No deletion starts where another edit ends. -/
def EditScript.DeletionsApart (script : EditScript) : Prop :=
  ∀ e ∈ script.edits, ∀ e' ∈ script.edits, e.range.stop = e'.range.start →
    e'.range.start < e'.range.stop → e'.replacement ≠ []

/-- What a map between `source` and its edited text has to keep. -/
structure EditMap.Faithful (map : EditMap) (script : EditScript) (source text : Bytes) : Prop where
  forward_mono : ∀ bias x y u v, map.originalToOutput x bias = some u →
    map.originalToOutput y bias = some v → x ≤ y → u ≤ v
  reverse_mono : ∀ bias x y u v, map.outputToOriginal x bias = some u →
    map.outputToOriginal y bias = some v → x ≤ y → u ≤ v
  forward_sides : ∀ x u v, map.originalToOutput x .left = some u →
    map.originalToOutput x .right = some v → u ≤ v
  reverse_sides : ∀ x u v, map.outputToOriginal x .left = some u →
    map.outputToOriginal x .right = some v → u ≤ v
  /-- An unedited byte keeps its value, and comes back from where it went.  The way back is to the
  right: an offset of the output stands before its byte, and what was deleted there lies to the
  left. -/
  bytes : ∀ x < source.length, (∀ e ∈ script.edits, x < e.range.start ∨ e.range.stop ≤ x) →
    (∃ y, map.originalToOutput x .right = some y ∧ text[y]? = source[x]?) ∧
    ∀ bias, ∃ y, map.originalToOutput x bias = some y ∧ map.outputToOriginal y .right = some x
  forward_covers : ∀ r : Span, r.start ≤ r.stop → r.stop ≤ source.length →
    ∃ o r' : Span, map.originalRangeToOutput r = some o ∧ map.outputRangeToOriginal o = some r' ∧
      r'.start ≤ r.start ∧ r.stop ≤ r'.stop
  reverse_covers : ∀ o : Span, o.start ≤ o.stop → o.stop ≤ text.length →
    ∃ r o' : Span, map.outputRangeToOriginal o = some r ∧ map.originalRangeToOutput r = some o' ∧
      o'.start ≤ o.start ∧ o.stop ≤ o'.stop

/-! ### The map as two offset maps -/

/-- The splices of a map. -/
def EditMap.splices (map : EditMap) : List Splice := map.edits.map (MappedEdit.splice .forward)

/-- A map whose edits are splices that advance in step from the start to both ends. -/
structure EditMap.Spliced (map : EditMap) : Prop where
  aligned : Aligned 0 0 map.splices
  separated : Separated map.splices
  ends : ∃ rest, (endpoint 0 0 map.splices).1 + rest = map.originalLen ∧
    (endpoint 0 0 map.splices).2 + rest = map.outputLen

namespace EditMap.Spliced

variable {map : EditMap} {bias : MapBias} {x : ℕ}

/-- An offset in range is mapped through the splices. -/
theorem originalToOutput_eq (h : map.Spliced) (hx : x ≤ map.originalLen) :
    map.originalToOutput x bias = some (through bias 0 0 map.splices x) := by
  rw [EditMap.originalToOutput, if_pos hx, mapOffset_eq_through h.aligned]
  rfl

/-- An offset in range is mapped back through the swapped splices. -/
theorem outputToOriginal_eq (h : map.Spliced) (hx : x ≤ map.outputLen) :
    map.outputToOriginal x bias = some (through bias 0 0 (map.splices.map swap) x) := by
  rw [EditMap.outputToOriginal, if_pos hx, mapOffset_eq_through, map_splice_reverse]
  · rfl
  · rw [map_splice_reverse]
    exact h.aligned.swap

/-- When an offset is mapped, and where. -/
theorem originalToOutput_eq_some (h : map.Spliced) {y : ℕ} :
    map.originalToOutput x bias = some y ↔
      x ≤ map.originalLen ∧ through bias 0 0 map.splices x = y := by
  by_cases hx : x ≤ map.originalLen
  · rw [h.originalToOutput_eq hx, Option.some_inj]
    exact ⟨fun hy => ⟨hx, hy⟩, And.right⟩
  · rw [EditMap.originalToOutput, if_neg hx]
    constructor
    · intro hy
      cases hy
    · intro hy
      exact absurd hy.1 hx

/-- When an offset is mapped back, and where. -/
theorem outputToOriginal_eq_some (h : map.Spliced) {y : ℕ} :
    map.outputToOriginal x bias = some y ↔
      x ≤ map.outputLen ∧ through bias 0 0 (map.splices.map swap) x = y := by
  by_cases hx : x ≤ map.outputLen
  · rw [h.outputToOriginal_eq hx, Option.some_inj]
    exact ⟨fun hy => ⟨hx, hy⟩, And.right⟩
  · rw [EditMap.outputToOriginal, if_neg hx]
    constructor
    · intro hy
      cases hy
    · intro hy
      exact absurd hy.1 hx

/-- Mapping stays in the output. -/
theorem forward_le (h : map.Spliced) (hx : x ≤ map.originalLen) :
    through bias 0 0 map.splices x ≤ map.outputLen := by
  obtain ⟨rest, hsrc, hdst⟩ := h.ends
  calc through bias 0 0 map.splices x
      ≤ through bias 0 0 map.splices map.originalLen := through_mono h.aligned (Nat.zero_le x) hx
    _ ≤ (endpoint 0 0 map.splices).2 + (map.originalLen - (endpoint 0 0 map.splices).1) :=
        through_le_endpoint h.aligned (by omega)
    _ = map.outputLen := by omega

/-- Mapping back stays in the source. -/
theorem reverse_le (h : map.Spliced) (hx : x ≤ map.outputLen) :
    through bias 0 0 (map.splices.map swap) x ≤ map.originalLen := by
  obtain ⟨rest, hsrc, hdst⟩ := h.ends
  have hend : endpoint 0 0 (map.splices.map swap) = (endpoint 0 0 map.splices).swap :=
    endpoint_swap
  calc through bias 0 0 (map.splices.map swap) x
      ≤ through bias 0 0 (map.splices.map swap) map.outputLen :=
        through_mono h.aligned.swap (Nat.zero_le x) hx
    _ ≤ (endpoint 0 0 (map.splices.map swap)).2 +
          (map.outputLen - (endpoint 0 0 (map.splices.map swap)).1) :=
        through_le_endpoint h.aligned.swap (by rw [hend, Prod.fst_swap]; omega)
    _ = map.originalLen := by
        rw [hend, Prod.fst_swap, Prod.snd_swap]
        omega

/-- A range in order is mapped end by end. -/
theorem originalRangeToOutput_eq (h : map.Spliced) {r : Span} (hr : r.start ≤ r.stop)
    (hlen : r.stop ≤ map.originalLen) :
    map.originalRangeToOutput r = some ⟨through .left 0 0 map.splices r.start,
      through .right 0 0 map.splices r.stop⟩ := by
  rw [EditMap.originalRangeToOutput, if_pos ⟨hr, hlen⟩, h.originalToOutput_eq (hr.trans hlen),
    h.originalToOutput_eq hlen]
  rfl

/-- A range in order is mapped back end by end. -/
theorem outputRangeToOriginal_eq (h : map.Spliced) {o : Span} (ho : o.start ≤ o.stop)
    (hlen : o.stop ≤ map.outputLen) :
    map.outputRangeToOriginal o = some ⟨through .left 0 0 (map.splices.map swap) o.start,
      through .right 0 0 (map.splices.map swap) o.stop⟩ := by
  rw [EditMap.outputRangeToOriginal, if_pos ⟨ho, hlen⟩, h.outputToOriginal_eq (ho.trans hlen),
    h.outputToOriginal_eq hlen]
  rfl

end EditMap.Spliced

/-- The map of a script, and the text that stands behind it. -/
theorem spliced_of_apply {script : EditScript} {source : Bytes} {applied : AppliedEdits}
    (h : script.applyWithMap source = .ok applied) :
    applied.map.Spliced ∧ applied.map.originalLen = source.length ∧
      applied.map.outputLen = applied.text.length ∧
      applied.map.edits.map MappedEdit.shape = script.sorted.map Edit.shape ∧
      ∀ x < source.length, Outside applied.map.splices x →
        applied.text[through .right 0 0 applied.map.splices x]? = source[x]? := by
  obtain ⟨st, happlied, hcursor, horiginal, houtput, htext⟩ := applyWithMap_spec h
  have hends : endpoint 0 0 applied.map.splices = (st.cursor, st.output.length) := happlied.ends
  refine ⟨⟨happlied.aligned, ?_, source.length - st.cursor, ?_, ?_⟩, horiginal, ?_,
    happlied.shapes, ?_⟩
  · refine List.pairwise_map.mpr (pairwise_of_shapes (P := fun a b => a.1.stop ≤ b.1.start ∧
      (a.1.stop = b.1.start → a.1.start < a.1.stop ∧ b.1.start < b.1.stop)) happlied.shapes ?_)
    exact script.sorted_follows
  · rw [horiginal, hends]
    exact Nat.add_sub_cancel' hcursor
  · rw [houtput, hends]
  · rw [houtput, htext, List.length_append, List.length_drop]
  · intro x hx hout
    rw [htext]
    exact happlied.text x (Nat.zero_le x) hx hout

section Faithful

variable {script : EditScript} {source : Bytes} {applied : AppliedEdits}

/-- Deletions that stand apart are shown by the map. -/
theorem shown_of_apart (hshapes : applied.map.edits.map MappedEdit.shape =
      script.sorted.map Edit.shape)
    (hapart : script.DeletionsApart) : Shown applied.map.splices := by
  have hpairs : script.sorted.Pairwise fun e e' => e.shape.1.stop = e'.shape.1.start →
      e'.shape.2 ≠ 0 := by
    refine script.sorted_follows.imp_of_mem ?_
    intro e e' he he' hfollows htouch
    have hne := hapart e (script.mem_sorted.mp he) e' (script.mem_sorted.mp he') htouch
      (hfollows.2 htouch).2
    exact fun hzero => hne (List.eq_nil_of_length_eq_zero hzero)
  have hshown := pairwise_of_shapes
    (P := fun a b => a.1.stop = b.1.start → b.2 ≠ 0) hshapes hpairs
  refine List.Pairwise.isChain (List.pairwise_map.mpr (hshown.imp ?_))
  intro m m' hne htouch
  have := hne htouch
  change m'.output.stop - m'.output.start ≠ 0 at this
  show m'.output.start < m'.output.stop
  omega

/-- Deletions apart, the map is faithful. -/
theorem faithful_of_apart (h : script.applyWithMap source = .ok applied)
    (hapart : script.DeletionsApart) :
    applied.map.Faithful script source applied.text := by
  obtain ⟨hmap, horiginal, houtput, hshapes, htext⟩ := spliced_of_apply h
  have hshown := shown_of_apart hshapes hapart
  have hshown' : Shown (applied.map.splices.map swap) :=
    hmap.separated.shown_swap hmap.aligned
  have hswap : (applied.map.splices.map swap).map swap = applied.map.splices := by
    rw [List.map_map]
    exact List.map_id _
  constructor
  -- monotone there and back, by the maps of aligned splices
  · intro bias x y u v hu hv hxy
    rw [hmap.originalToOutput_eq_some] at hu hv
    rw [← hu.2, ← hv.2]
    exact through_mono hmap.aligned (Nat.zero_le x) hxy
  · intro bias x y u v hu hv hxy
    rw [hmap.outputToOriginal_eq_some] at hu hv
    rw [← hu.2, ← hv.2]
    exact through_mono hmap.aligned.swap (Nat.zero_le x) hxy
  · intro x u v hu hv
    rw [hmap.originalToOutput_eq_some] at hu hv
    rw [← hu.2, ← hv.2]
    exact through_left_le_right hmap.aligned
  · intro x u v hu hv
    rw [hmap.outputToOriginal_eq_some] at hu hv
    rw [← hu.2, ← hv.2]
    exact through_left_le_right hmap.aligned.swap
  -- a byte outside all edits is kept
  · intro x hx hedits
    have hout : Outside applied.map.splices x := by
      intro s hs
      obtain ⟨m, hm, rfl⟩ := List.mem_map.mp hs
      obtain ⟨e, he, hrange, -⟩ := exists_edit hshapes hm
      show x < m.original.start ∨ m.original.stop ≤ x
      rw [← hrange]
      exact hedits e (script.mem_sorted.mp he)
    have hlen : x ≤ applied.map.originalLen := horiginal ▸ hx.le
    refine ⟨⟨_, hmap.originalToOutput_eq hlen, htext x hx hout⟩, ?_⟩
    intro bias
    refine ⟨_, hmap.originalToOutput_eq hlen, ?_⟩
    rw [hmap.outputToOriginal_eq (hmap.forward_le hlen)]
    exact congrArg some (through_swap_outside hmap.aligned hshown (Nat.zero_le x) hout)
  -- a range of the source comes back when deletions stand apart
  · intro r hr hlen
    rw [← horiginal] at hlen
    have hle := (through_left_le_right (x := r.start) hmap.aligned).trans
      (through_mono hmap.aligned (Nat.zero_le _) hr)
    refine ⟨_, _, hmap.originalRangeToOutput_eq hr hlen,
      hmap.outputRangeToOriginal_eq hle (hmap.forward_le hlen), ?_, ?_⟩
    · exact through_swap_left hmap.aligned (Nat.zero_le _)
    · exact through_swap_right hmap.aligned hshown (Nat.zero_le _)
  -- a range of the output comes back with the edits that touch it
  · intro o ho hlen
    rw [← houtput] at hlen
    have hle := (through_left_le_right (x := o.start) hmap.aligned.swap).trans
      (through_mono hmap.aligned.swap (Nat.zero_le _) ho)
    have hleft := through_swap_left (x := o.start) hmap.aligned.swap (Nat.zero_le _)
    have hright := through_swap_right (x := o.stop) hmap.aligned.swap hshown' (Nat.zero_le _)
    rw [hswap] at hleft hright
    exact ⟨_, _, hmap.outputRangeToOriginal_eq ho hlen,
      hmap.originalRangeToOutput_eq hle (hmap.reverse_le hlen), hleft, hright⟩

/-- A deletion behind another edit is lost on the way back. -/
theorem apart_of_faithful (h : script.applyWithMap source = .ok applied)
    (hfaithful : applied.map.Faithful script source applied.text) : script.DeletionsApart := by
  obtain ⟨hmap, horiginal, houtput, hshapes, -⟩ := spliced_of_apply h
  intro e he e' he' htouch hpos hnil
  obtain ⟨m, hm, hrange, -⟩ := exists_mapped hshapes (script.mem_sorted.mpr he)
  obtain ⟨m', hm', hrange', hsize⟩ := exists_mapped hshapes (script.mem_sorted.mpr he')
  rw [hnil, List.length_nil] at hsize
  have hs : m.splice .forward ∈ applied.map.splices := List.mem_map_of_mem hm
  have ht : m'.splice .forward ∈ applied.map.splices := List.mem_map_of_mem hm'
  obtain ⟨hord, -, -⟩ := hmap.aligned.of_mem hs
  obtain ⟨-, hdst, hend⟩ := hmap.aligned.of_mem ht
  have hsrc : (m'.splice .forward).src = e'.range := hrange'
  have hsrc' : (m.splice .forward).src = e.range := hrange
  have hdst' : (m'.splice .forward).dst.stop - (m'.splice .forward).dst.start = 0 := hsize
  have hmeet := hmap.separated.dst_touch hmap.aligned hs ht (by rw [hsrc, hsrc', htouch])
    (by rw [hsrc]; exact hpos) hord
  have hlt := through_swap_hidden hmap.aligned hs ht (Nat.zero_le _) (by omega)
    (by rw [hsrc, hsrc', htouch]; exact hpos)
  -- the range of the deletion is not covered
  obtain ⟨rest, hrest, -⟩ := hmap.ends
  rw [hsrc] at hend hlt
  have hlen : e'.range.stop ≤ applied.map.originalLen := by omega
  obtain ⟨o, r', ho, hr', -, hstop⟩ :=
    hfaithful.forward_covers e'.range hpos.le (horiginal ▸ hlen)
  rw [hmap.originalRangeToOutput_eq hpos.le hlen] at ho
  cases ho
  rw [hmap.outputRangeToOriginal_eq ((through_left_le_right hmap.aligned).trans
    (through_mono hmap.aligned (Nat.zero_le _) hpos.le)) (hmap.forward_le hlen)] at hr'
  cases hr'
  exact absurd hstop (not_le.mpr hlt)

/-- **When an edit map is faithful.** -/
theorem editMap_faithful_iff (h : script.applyWithMap source = .ok applied) :
    applied.map.Faithful script source applied.text ↔ script.DeletionsApart :=
  ⟨apart_of_faithful h, faithful_of_apart h⟩

end Faithful

/-- `abcdefgh` -/
def letters : Bytes := [97, 98, 99, 100, 101, 102, 103, 104]

/-- A replacement that touches a deletion. -/
def touchingScript : EditScript where
  edits := [⟨⟨2, 4⟩, [88]⟩, ⟨⟨4, 6⟩, []⟩]
  ordered := by decide
  compatible := by decide

/-- What it gives on eight letters. -/
def touchingApplied : AppliedEdits where
  text := [97, 98, 88, 103, 104]
  map := ⟨8, 5, [⟨⟨2, 4⟩, ⟨2, 3⟩⟩, ⟨⟨4, 6⟩, ⟨3, 3⟩⟩]⟩

/-- The deleted range does not come back. -/
theorem touching_unfaithful :
    ((EditScript.new.replace ⟨2, 4⟩ [88]).bind fun script => script.delete ⟨4, 6⟩) =
        .ok touchingScript ∧
      touchingScript.applyWithMap letters = .ok touchingApplied ∧
      touchingApplied.map.originalRangeToOutput ⟨4, 6⟩ = some ⟨3, 3⟩ ∧
      touchingApplied.map.outputRangeToOriginal ⟨3, 3⟩ = some ⟨4, 4⟩ ∧
      ¬touchingApplied.map.Faithful touchingScript letters touchingApplied.text := by
  have hout : touchingApplied.map.originalRangeToOutput ⟨4, 6⟩ = some ⟨3, 3⟩ := by decide
  have hback : touchingApplied.map.outputRangeToOriginal ⟨3, 3⟩ = some ⟨4, 4⟩ := by decide
  refine ⟨by rfl, ?_, hout, hback, ?_⟩
  · rw [EditScript.applyWithMap, EditScript.sorted, List.mergeSort_of_pairwise (by decide)]
    rfl
  intro hfaithful
  obtain ⟨o, r, ho, hr, -, hstop⟩ := hfaithful.forward_covers ⟨4, 6⟩ (by decide) (by decide)
  rw [hout] at ho
  cases ho
  rw [hback] at hr
  cases hr
  exact absurd hstop (by decide)

/-- An insertion, a replacement and a deletion, apart from each other. -/
def apartScript : EditScript where
  edits := [⟨⟨0, 0⟩, [112, 114, 101, 45]⟩, ⟨⟨2, 4⟩, [88]⟩, ⟨⟨6, 8⟩, []⟩]
  ordered := by decide
  compatible := by decide

/-- What three edits that stand apart give on eight letters. -/
def apartApplied : AppliedEdits where
  text := [112, 114, 101, 45, 97, 98, 88, 101, 102]
  map := ⟨8, 9, [⟨⟨0, 0⟩, ⟨0, 4⟩⟩, ⟨⟨2, 4⟩, ⟨6, 7⟩⟩, ⟨⟨6, 8⟩, ⟨9, 9⟩⟩]⟩

/-- They are applied. -/
theorem applyWithMap_apartScript : apartScript.applyWithMap letters = .ok apartApplied := by
  rw [EditScript.applyWithMap, EditScript.sorted, List.mergeSort_of_pairwise (by decide)]
  rfl

/-- Their map is faithful. -/
theorem editMap_faithful_apart :
    apartApplied.map.Faithful apartScript letters apartApplied.text :=
  (editMap_faithful_iff applyWithMap_apartScript).mpr (by
    unfold EditScript.DeletionsApart
    decide)

end CudaOxide.Ptx
