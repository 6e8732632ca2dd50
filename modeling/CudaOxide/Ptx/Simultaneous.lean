import CudaOxide.Ptx.EditMap
import CudaOxide.Ptx.Lexer

/-!
# An edit script replaces its ranges all at once

* `simultaneous` — the text that a set of edits makes of a source, said byte by byte.
* `EditScript.replaceInPlace`, `EditScript.addAll` — the calls that fill a script.
* `applyWithMap_safe`, `text_eq_simultaneous`, `applyWithMap_perm` — applying never panics, is the
  replacement, and does not see the order of the calls.
* `editScript_simultaneous` — all of it.
-/

namespace CudaOxide.Ptx

open Lib Lib.Bytes Lib.Text Lib.Run

variable {source : Bytes} {edits : List Edit} {script : EditScript}

/-! ### Filling a script -/

/-- `replace(&mut self, ..)`: the script after the call, and what the call returns.  The call
compares offsets and computes nothing from them. -/
def EditScript.replaceInPlace (script : EditScript) (edit : Edit) :
    EditScript × Except EditError Unit :=
  match script.replace edit.range edit.replacement with
  | .error e => (script, .error e)
  | .ok script' => (script', .ok ())

/-- The script after one call for each edit, and what the calls return. -/
def EditScript.addAll (script : EditScript) :
    List Edit → EditScript × List (Except EditError Unit)
  | [] => (script, [])
  | edit :: edits =>
    let first := script.replaceInPlace edit
    let rest := first.1.addAll edits
    (rest.1, first.2 :: rest.2)

/-! ### The text, byte by byte -/

/-- The edit removes byte `x`. -/
def Edit.removes (edit : Edit) (x : ℕ) : Bool := edit.range.start ≤ x && x < edit.range.stop

/-- What comes out at an offset: what is put there, then the byte itself unless it is removed. -/
def emitAt (edits : List Edit) (source : Bytes) (x : ℕ) : Bytes :=
  (edits.filter fun edit => edit.range.start == x).flatMap Edit.replacement ++
    if edits.any (Edit.removes · x) then [] else source[x]?.toList

/-- All edits at once; the last offset is behind the text. -/
def simultaneous (edits : List Edit) (source : Bytes) : Bytes :=
  (List.range (source.length + 1)).flatMap (emitAt edits source)

/-! ### The bytes an edit does not touch -/

/-- An edit behind `x` emits nothing at `x`. -/
theorem emitAt_cons_of_lt {e : Edit} {x : ℕ} (h : x < e.range.start) :
    emitAt (e :: edits) source x = emitAt edits source x := by
  have hstart : (e.range.start == x) = false := beq_eq_false_iff_ne.mpr (by omega)
  have hremoves : e.removes x = false := by
    rw [Edit.removes, Bool.and_eq_false_iff, decide_eq_false_iff_not]
    exact .inl (by omega)
  simp [emitAt, hstart, hremoves]

/-- An edit before `x` emits nothing at `x`. -/
theorem emitAt_cons_of_gt {e : Edit} {x : ℕ} (hstart : e.range.start < x)
    (hstop : e.range.stop ≤ x) :
    emitAt (e :: edits) source x = emitAt edits source x := by
  have hne : (e.range.start == x) = false := beq_eq_false_iff_ne.mpr (by omega)
  have hremoves : e.removes x = false := by
    rw [Edit.removes, Bool.and_eq_false_iff, decide_eq_false_iff_not, decide_eq_false_iff_not]
    exact .inr (by omega)
  simp [emitAt, hne, hremoves]

/-- Before the edits, the source comes out. -/
theorem emitAt_before {x : ℕ} (h : ∀ e ∈ edits, x < e.range.start) :
    emitAt edits source x = source[x]?.toList := by
  induction edits with
  | nil => rfl
  | cons e edits ih =>
    rw [emitAt_cons_of_lt (h e List.mem_cons_self)]
    exact ih fun e' he' => h e' (List.mem_cons_of_mem _ he')

/-- Bytes in a row. -/
theorem flatMap_getElem? (start n : ℕ) :
    (List.range' start n).flatMap (fun x => source[x]?.toList) = (source.drop start).take n := by
  induction n generalizing start with
  | zero => rfl
  | succ n ih =>
    rw [List.range'_succ, List.flatMap_cons, ih]
    by_cases hlt : start < source.length
    · rw [List.getElem?_eq_getElem hlt, List.drop_eq_getElem_cons hlt]
      rfl
    · rw [List.getElem?_eq_none (by omega), List.drop_eq_nil_of_le
        (by omega : source.length ≤ start),
        List.drop_eq_nil_of_le (by omega)]
      simp

/-! ### One edit -/

/-- Inside a replaced range, only the replacement comes out. -/
theorem emitAt_inside {e : Edit} {x : ℕ} (hstart : e.range.start ≤ x) (hstop : x < e.range.stop)
    (hafter : ∀ e' ∈ edits, x < e'.range.start) :
    emitAt (e :: edits) source x = if e.range.start = x then e.replacement else [] := by
  have hremoves : e.removes x = true := by
    rw [Edit.removes, Bool.and_eq_true, decide_eq_true_eq, decide_eq_true_eq]
    exact ⟨hstart, hstop⟩
  have hnone : (edits.filter fun e' => e'.range.start == x) = [] := by
    refine List.filter_eq_nil_iff.mpr fun e' he' heq => ?_
    have hlt := hafter e' he'
    rw [eq_of_beq heq] at hlt
    exact lt_irrefl x hlt
  by_cases heq : e.range.start = x
  · simp [emitAt, heq, hremoves, hnone]
  · simp [emitAt, beq_eq_false_iff_ne.mpr heq, heq, hremoves, hnone]

/-- The bytes at the range of an edit are its replacement. -/
theorem emitAt_range {e : Edit} (h : e.range.start < e.range.stop)
    (hafter : ∀ e' ∈ edits, e.range.stop ≤ e'.range.start) :
    (List.range' e.range.start (e.range.stop - e.range.start)).flatMap
      (emitAt (e :: edits) source) = e.replacement := by
  obtain ⟨n, hn⟩ :=
    Nat.exists_eq_succ_of_ne_zero (by omega : e.range.stop - e.range.start ≠ 0)
  have hhead : emitAt (e :: edits) source e.range.start = e.replacement := by
    rw [emitAt_inside le_rfl h fun e' he' => h.trans_le (hafter e' he'), if_pos rfl]
  have htail : (List.range' (e.range.start + 1) n).flatMap (emitAt (e :: edits) source) = [] := by
    refine List.flatMap_eq_nil_iff.mpr fun x hx => ?_
    obtain ⟨hge, hlt⟩ := List.mem_range'_1.mp hx
    rw [emitAt_inside (by omega) (by omega) fun e' he' => ?_, if_neg (by omega)]
    have := hafter e' he'
    omega
  rw [hn, List.range'_succ, List.flatMap_cons, hhead, htail, List.append_nil]

/-- An insertion comes out before the byte it stands at. -/
theorem emitAt_insertion {e : Edit} (h : e.range.start = e.range.stop) :
    emitAt (e :: edits) source e.range.start =
      e.replacement ++ emitAt edits source e.range.start := by
  have hremoves : e.removes e.range.start = false := by
    rw [Edit.removes, Bool.and_eq_false_iff, decide_eq_false_iff_not, decide_eq_false_iff_not]
    exact .inr (by omega)
  simp [emitAt, hremoves]

/-- From an edit on: its replacement, then what the other edits make of the rest. -/
theorem flatMap_emitAt_cons {e : Edit} (hle : e.range.start ≤ e.range.stop)
    (hlen : e.range.stop ≤ source.length) (hafter : ∀ e' ∈ edits, e.range.stop ≤ e'.range.start) :
    (List.range' e.range.start (source.length + 1 - e.range.start)).flatMap
        (emitAt (e :: edits) source) =
      e.replacement ++ (List.range' e.range.stop (source.length + 1 - e.range.stop)).flatMap
        (emitAt edits source) := by
  rcases hle.lt_or_eq with hlt | heq
  · rw [show source.length + 1 - e.range.start =
      (e.range.stop - e.range.start) + (source.length + 1 - e.range.stop) by omega,
      ← List.range'_append_1, List.flatMap_append, emitAt_range hlt hafter,
      Nat.add_sub_cancel' hle]
    congr 1
    refine List.flatMap_congr fun x hx => ?_
    obtain ⟨hge, -⟩ := List.mem_range'_1.mp hx
    exact emitAt_cons_of_gt (by omega) hge
  · obtain ⟨n, hn⟩ :=
      Nat.exists_eq_succ_of_ne_zero (by omega : source.length + 1 - e.range.stop ≠ 0)
    rw [← heq] at hn ⊢
    rw [hn, List.range'_succ, List.flatMap_cons, List.flatMap_cons, emitAt_insertion heq,
      List.append_assoc]
    congr 2
    refine List.flatMap_congr fun x hx => ?_
    obtain ⟨hge, -⟩ := List.mem_range'_1.mp hx
    exact emitAt_cons_of_gt (by omega) (by omega)

/-- The loop over the edits writes what comes out from its cursor on. -/
theorem applyEdits_text {st st' : Applying} (hord : ∀ e ∈ edits, e.range.start ≤ e.range.stop)
    (hfollows : edits.Pairwise Follows) (hcursor : ∀ e ∈ edits, st.cursor ≤ e.range.start)
    (hlen : ∀ e ∈ edits, e.range.stop ≤ source.length)
    (h : edits.foldlM (applyEdit source) st = .ok st') :
    st'.output ++ source.drop st'.cursor = st.output ++
      (List.range' st.cursor (source.length + 1 - st.cursor)).flatMap (emitAt edits source) := by
  induction edits generalizing st with
  | nil =>
    cases h
    congr 1
    show _ = (List.range' _ _).flatMap fun x => source[x]?.toList
    rw [flatMap_getElem?, List.take_of_length_le]
    rw [List.length_drop]
    omega
  | cons e edits ih =>
    rw [List.foldlM_cons] at h
    obtain ⟨st₁, hstep, hrest⟩ := bind_eq_ok.mp h
    simp only [applyEdit, bind_eq_ok, sliceStr_eq_ok] at hstep
    obtain ⟨kept, ⟨-, hkept⟩, hst₁⟩ := hstep
    obtain ⟨hhead, htail⟩ := List.pairwise_cons.mp hfollows
    have hle := hord e List.mem_cons_self
    have hbound := hlen e List.mem_cons_self
    have hstart := hcursor e List.mem_cons_self
    have hafter : ∀ e' ∈ edits, e.range.stop ≤ e'.range.start := fun e' he' => (hhead e' he').1
    cases hst₁
    have hbefore : (List.range' st.cursor (e.range.start - st.cursor)).flatMap
        (emitAt (e :: edits) source) = kept := by
      rw [← hkept, slice, ← flatMap_getElem?]
      refine List.flatMap_congr fun x hx => ?_
      obtain ⟨-, hlt⟩ := List.mem_range'_1.mp hx
      refine emitAt_before (List.forall_mem_cons.mpr ⟨by omega, fun e' he' => ?_⟩)
      have := hafter e' he'
      omega
    rw [ih (fun e' he' => hord e' (List.mem_cons_of_mem _ he')) htail hafter
      (fun e' he' => hlen e' (List.mem_cons_of_mem _ he')) hrest]
    rw [show source.length + 1 - st.cursor =
      (e.range.start - st.cursor) + (source.length + 1 - e.range.start) by omega,
      ← List.range'_append_1, List.flatMap_append, hbefore, Nat.add_sub_cancel' hstart,
      flatMap_emitAt_cons hle hbound hafter]
    simp only [List.append_assoc]

/-! ### The order of the edits -/

/-- Two edits of a script do not start at the same offset. -/
theorem rangesConflict_of_start {r r' : Span} (h : r.start = r'.start) :
    rangesConflict r r' = true := by
  unfold rangesConflict
  by_cases hpos : r.start < r.stop
  · by_cases hpos' : r'.start < r'.stop
    · simp [hpos, hpos']
      omega
    · simp [hpos, hpos']
      omega
  · by_cases hpos' : r'.start < r'.stop
    · simp [hpos, hpos']
      omega
    · rw [decide_eq_false hpos, decide_eq_false hpos']
      exact beq_iff_eq.mpr h

/-- No two edits start at one offset. -/
theorem EditScript.starts_ne (script : EditScript) :
    script.edits.Pairwise fun e e' => e.range.start ≠ e'.range.start := by
  refine script.compatible.imp ?_
  intro e e' hconflict hstart
  rw [rangesConflict_of_start hstart] at hconflict
  cases hconflict

/-- The order of the calls is lost when the edits are sorted. -/
theorem EditScript.sorted_of_perm {script script' : EditScript}
    (h : script.edits.Perm script'.edits) : script.sorted = script'.sorted := by
  have hperm : script.sorted.Perm script'.sorted :=
    ((List.mergeSort_perm _ _).trans h).trans (List.mergeSort_perm _ _).symm
  refine hperm.eq_of_pairwise ?_ script.sorted_follows script'.sorted_follows
  intro e e' he he' hfollows hfollows'
  -- each follows the other, so they start together
  by_contra hne
  have hord := script.ordered e (script.mem_sorted.mp he)
  have hord' := script'.ordered e' (script'.mem_sorted.mp he')
  have := hfollows.1
  have := hfollows'.1
  have hpos := hfollows.2 (by omega)
  omega

/-- At most one edit starts at an offset, so its place in the list does not matter. -/
theorem emitAt_perm {edits' : List Edit} (h : edits.Perm edits')
    (hstarts : edits.Pairwise fun e e' => e.range.start ≠ e'.range.start) (x : ℕ) :
    emitAt edits source x = emitAt edits' source x := by
  have hfilter : (edits.filter fun e => e.range.start == x) =
      edits'.filter fun e => e.range.start == x := by
    refine @List.Perm.eq_of_pairwise _ (fun e e' => e.range.start ≠ e'.range.start) _ _ ?_
      (hstarts.filter _) ((h.pairwise_iff fun h => h.symm).mp hstarts |>.filter _) (h.filter _)
    intro e e' he he' hne
    have hx := eq_of_beq (List.mem_filter.mp he).2
    have hx' := eq_of_beq (List.mem_filter.mp he').2
    exact absurd (hx.trans hx'.symm) hne
  rw [emitAt, emitAt, hfilter, h.any_eq]

/-! ### Applying a script -/

/-- What the checks before the loop ask of an edit. -/
theorem checkEdit_eq_ok {e : Edit} : checkEdit source e = .ok () ↔
    e.range.stop ≤ source.length ∧ isCharBoundary source e.range.start = true ∧
      isCharBoundary source e.range.stop = true := by
  rw [checkEdit, bind_eq_ok]
  constructor
  · rintro ⟨_, hbound, hoffsets⟩
    rw [forM_eq_ok, List.forall_mem_cons, List.forall_mem_singleton, reject_eq_ok,
      reject_eq_ok, Bool.not_eq_false, Bool.not_eq_false] at hoffsets
    exact ⟨not_lt.mp (reject_eq_ok.mp hbound), hoffsets⟩
  · rintro ⟨hbound, hoffsets⟩
    refine ⟨(), reject_eq_ok.mpr (not_lt.mpr hbound), ?_⟩
    rw [forM_eq_ok, List.forall_mem_cons, List.forall_mem_singleton, reject_eq_ok,
      reject_eq_ok, Bool.not_eq_false, Bool.not_eq_false]
    exact hoffsets

/-- The replaced ranges do not overlap, so that they fit into the source together. -/
theorem removedBytes_le {start : ℕ} (hord : ∀ e ∈ edits, e.range.start ≤ e.range.stop)
    (hfollows : edits.Pairwise Follows) (hstart : ∀ e ∈ edits, start ≤ e.range.start)
    (hlen : ∀ e ∈ edits, e.range.stop ≤ source.length) (hle : start ≤ source.length) :
    start + (edits.map fun e => e.range.stop - e.range.start).sum ≤ source.length := by
  induction edits generalizing start with
  | nil => simpa using hle
  | cons e edits ih =>
    obtain ⟨hhead, htail⟩ := List.pairwise_cons.mp hfollows
    have hrest := ih (fun e' he' => hord e' (List.mem_cons_of_mem _ he')) htail
      (fun e' he' => (hhead e' he').1) (fun e' he' => hlen e' (List.mem_cons_of_mem _ he'))
      (hlen e List.mem_cons_self)
    have := hord e List.mem_cons_self
    have := hstart e List.mem_cons_self
    rw [List.map_cons, List.sum_cons]
    omega

/-- The slices of the loop end between characters, in order. -/
theorem applyEdits_returns {st : Applying} (hord : ∀ e ∈ edits, e.range.start ≤ e.range.stop)
    (hfollows : edits.Pairwise Follows) (hchecks : ∀ e ∈ edits, checkEdit source e = .ok ())
    (hstart : ∀ e ∈ edits, st.cursor ≤ e.range.start) (hcursor : Lands source st.cursor) :
    (edits.foldlM (applyEdit source) st).Returns fun st' => Lands source st'.cursor := by
  induction edits generalizing st with
  | nil => exact .pure hcursor
  | cons e edits ih =>
    obtain ⟨hhead, htail⟩ := List.pairwise_cons.mp hfollows
    obtain ⟨hbound, hb, hb'⟩ := checkEdit_eq_ok.mp (hchecks e List.mem_cons_self)
    have hle := hord e List.mem_cons_self
    rw [List.foldlM_cons]
    have hslice := sliceStr_eq_ok (ε := EditError).mpr
      ⟨⟨hstart e List.mem_cons_self, hle.trans hbound, hcursor.boundary, hb⟩, rfl⟩
    refine .bind_ok (show applyEdit source st e = .ok _ by rw [applyEdit, hslice]; rfl) ?_
    exact ih (fun e' he' => hord e' (List.mem_cons_of_mem _ he')) htail
      (fun e' he' => hchecks e' (List.mem_cons_of_mem _ he')) (fun e' he' => (hhead e' he').1)
      ⟨hbound, hb'⟩

/-- The check of an edit does not panic. -/
theorem checkEdit_safe (e : Edit) : (checkEdit source e).Safe := by
  refine (Safe.reject _ _).bind fun _ _ => ?_
  exact Safe.forM fun _ _ => Safe.reject _ _

/-- What is left once the checks have passed. -/
theorem applyWithMap_returns (hchecks : ∀ e ∈ script.edits, checkEdit source e = .ok ()) :
    (script.applyWithMap source).Returns fun _ => True := by
  have hsorted : ∀ e ∈ script.sorted, checkEdit source e = .ok () :=
    fun e he => hchecks e (script.mem_sorted.mp he)
  have hord : ∀ e ∈ script.sorted, e.range.start ≤ e.range.stop :=
    fun e he => script.ordered e (script.mem_sorted.mp he)
  have hremoved := removedBytes_le hord script.sorted_follows (fun _ _ => Nat.zero_le _)
    (fun e he => (checkEdit_eq_ok.mp (hsorted e he)).1) (Nat.zero_le _)
  refine .bind_ok (forM_eq_ok.mpr hsorted) ?_
  refine .bind_ok (Usize.sub_eq_ok.mpr ⟨by omega, rfl⟩) ?_
  refine (applyEdits_returns hord script.sorted_follows hsorted (fun _ _ => Nat.zero_le _)
    ⟨Nat.zero_le _, rfl⟩).bind fun st hlands => ?_
  refine .bind_ok (sliceStr_eq_ok.mpr
    ⟨⟨hlands.le_length, le_rfl, hlands.boundary, isCharBoundary_length source⟩, rfl⟩) ?_
  exact .ok trivial

/-- **No script makes `apply` panic.** -/
theorem applyWithMap_safe (script : EditScript) (source : Bytes) :
    (script.applyWithMap source).Safe := by
  by_cases hchecks : ∀ e ∈ script.edits, checkEdit source e = .ok ()
  · exact (applyWithMap_returns hchecks).safe
  · -- some check fails, and nothing after the checks runs
    refine (Safe.forM fun e _ => checkEdit_safe e).bind fun _ hforM => ?_
    have hall := forM_eq_ok.mp hforM
    exact absurd (fun e he => hall e (script.mem_sorted.mpr he)) hchecks

/-- **The text is the replacement of all ranges at once.** -/
theorem text_eq_simultaneous {applied : AppliedEdits}
    (h : script.applyWithMap source = .ok applied) :
    applied.text = simultaneous script.edits source := by
  simp only [EditScript.applyWithMap, bind_eq_ok, sliceStr_eq_ok] at h
  obtain ⟨_, hchecks, _, -, st, hloop, rest, ⟨-, hrest⟩, happlied⟩ := h
  have hsorted := forM_eq_ok.mp hchecks
  have htext := applyEdits_text (fun e he => script.ordered e (script.mem_sorted.mp he))
    script.sorted_follows (fun _ _ => Nat.zero_le _)
    (fun e he => (checkEdit_eq_ok.mp (hsorted e he)).1) hloop
  have hdrop : rest = source.drop st.cursor := by
    rw [← hrest, slice, List.take_of_length_le (by rw [List.length_drop])]
  cases happlied
  show st.output ++ rest = _
  rw [hdrop, htext, List.nil_append, simultaneous, List.range_eq_range']
  refine List.flatMap_congr fun x _ => ?_
  exact (emitAt_perm (List.mergeSort_perm _ _).symm script.starts_ne x).symm

/-- The order in which the edits were added does not matter. -/
theorem applyWithMap_perm {script' : EditScript} (h : script.edits.Perm script'.edits)
    (source : Bytes) : script.applyWithMap source = script'.applyWithMap source := by
  rw [EditScript.applyWithMap, EditScript.applyWithMap, EditScript.sorted_of_perm h]

/-! ### The calls that fill a script -/

/-- An edit that is refused leaves the script. -/
theorem replaceInPlace_of_error {edit : Edit} {err : EditError}
    (h : (script.replaceInPlace edit).2 = .error err) : (script.replaceInPlace edit).1 =
      script := by
  unfold EditScript.replaceInPlace at h ⊢
  cases hreplace : script.replace edit.range edit.replacement with
  | error e => rfl
  | ok script' =>
    rw [hreplace] at h
    cases h

/-- An edit that is accepted is added. -/
theorem replace_edits {script' : EditScript} {range : Span} {replacement : Bytes}
    (h : script.replace range replacement = .ok script') :
    script'.edits = script.edits ++ [⟨range, replacement⟩] := by
  unfold EditScript.replace at h
  split at h
  · cases h
  split at h
  · cases h
  · cases h
    rfl

/-- What a call checks. -/
structure EditScript.Admits (script : EditScript) (edit : Edit) : Prop where
  ordered : edit.range.start ≤ edit.range.stop
  apart : ∀ e ∈ script.edits, rangesConflict e.range edit.range = false

/-- An edit that conflicts with nothing is accepted. -/
theorem replace_of_admits {edit : Edit} (h : script.Admits edit) :
    ∃ script', script.replace edit.range edit.replacement = .ok script' := by
  unfold EditScript.replace
  rw [dif_neg (not_lt.mpr h.ordered)]
  split
  · rename_i existing hfind
    have hconflict := List.find?_some hfind
    rw [h.apart existing (List.mem_of_find?_eq_some hfind)] at hconflict
    cases hconflict
  · exact ⟨_, rfl⟩

/-- An accepted edit comes last, and it is one the script admits. -/
theorem replaceInPlace_eq_ok {edit : Edit} :
    (script.replaceInPlace edit).2 = .ok () ↔ script.Admits edit := by
  unfold EditScript.replaceInPlace
  constructor
  · intro h
    cases hreplace : script.replace edit.range edit.replacement with
    | error e =>
      rw [hreplace] at h
      cases h
    | ok script' =>
      -- the facts that the new script carries are what was checked
      have hedits := replace_edits hreplace
      have hord := script'.ordered edit (by rw [hedits]; simp)
      have hcompatible := script'.compatible
      rw [hedits] at hcompatible
      refine ⟨hord, fun e he => ?_⟩
      exact (List.pairwise_append.mp hcompatible).2.2 e he edit (List.mem_singleton_self edit)
  · intro h
    obtain ⟨script', hok⟩ := replace_of_admits h
    rw [hok]

/-- An edit that is accepted in place is added. -/
theorem replaceInPlace_edits {edit : Edit} (h : (script.replaceInPlace edit).2 = .ok ()) :
    (script.replaceInPlace edit).1.edits = script.edits ++ [edit] := by
  obtain ⟨script', hok⟩ := replace_of_admits (replaceInPlace_eq_ok.mp h)
  unfold EditScript.replaceInPlace
  rw [hok]
  exact replace_edits hok

/-- Every call accepts its edit. -/
def EditScript.AcceptsAll (script : EditScript) (edits : List Edit) : Prop :=
  ∀ result ∈ (script.addAll edits).2, result = .ok ()

/-- Edits that are all accepted are all added. -/
theorem EditScript.addAll_edits (h : script.AcceptsAll edits) :
    (script.addAll edits).1.edits = script.edits ++ edits := by
  induction edits generalizing script with
  | nil => exact (List.append_nil _).symm
  | cons edit edits ih =>
    obtain ⟨hfirst, hrest⟩ := List.forall_mem_cons.mp h
    show ((script.replaceInPlace edit).1.addAll edits).1.edits = _
    rw [ih hrest, replaceInPlace_edits hfirst, List.append_assoc]
    rfl

/-- All edits are accepted when they fit together. -/
theorem EditScript.acceptsAll_of_fit {target : EditScript}
    (h : target.edits = script.edits ++ edits) : script.AcceptsAll edits := by
  induction edits generalizing script with
  | nil => exact fun _ h => absurd h List.not_mem_nil
  | cons edit edits ih =>
    have hcompatible := target.compatible
    rw [h] at hcompatible
    have hadmits : script.Admits edit := by
      refine ⟨target.ordered edit (by rw [h]; simp), fun e he => ?_⟩
      exact (List.pairwise_append.mp hcompatible).2.2 e he edit List.mem_cons_self
    have hfirst := replaceInPlace_eq_ok.mpr hadmits
    refine List.forall_mem_cons.mpr ⟨hfirst, ih ?_⟩
    rw [h, replaceInPlace_edits hfirst, List.append_assoc]
    rfl

/-- The same edits in another order make a script too. -/
theorem EditScript.exists_of_perm (h : script.edits.Perm edits) :
    ∃ script' : EditScript, script'.edits = edits := by
  refine ⟨⟨edits, fun e he => script.ordered e (h.mem_iff.mpr he), ?_⟩, rfl⟩
  refine (h.pairwise_iff fun hconflict => ?_).mp script.compatible
  rwa [rangesConflict_comm]

/-- Whether all edits are accepted does not depend on their order. -/
theorem EditScript.acceptsAll_perm {edits' : List Edit} (h : edits.Perm edits')
    (haccepts : EditScript.new.AcceptsAll edits) : EditScript.new.AcceptsAll edits' := by
  have hedits := addAll_edits haccepts
  have hperm : (EditScript.new.addAll edits).1.edits.Perm edits' := by rwa [hedits]
  obtain ⟨target, htarget⟩ := exists_of_perm hperm
  exact acceptsAll_of_fit htarget

/-- No two ranges of a script share a byte, and no insertion stands inside or at another's range. -/
def EditScript.Disjoint (script : EditScript) : Prop :=
  script.edits.Pairwise fun e e' => Follows e e' ∨ Follows e' e

/-- The edits of a script are disjoint. -/
theorem EditScript.disjoint (script : EditScript) : script.Disjoint := by
  have hsorted : script.sorted.Pairwise fun e e' => Follows e e' ∨ Follows e' e :=
    script.sorted_follows.imp fun h => .inl h
  exact ((List.mergeSort_perm _ _).pairwise_iff fun h => h.symm).mp hsorted

/-- A script applies to a source that has its offsets, between characters. -/
theorem applyWithMap_isOk_iff : (∃ applied, script.applyWithMap source = .ok applied) ↔
    ∀ e ∈ script.edits, Lands source e.range.start ∧ Lands source e.range.stop := by
  constructor
  · rintro ⟨applied, h⟩ e he
    obtain ⟨_, hchecks, -⟩ := bind_eq_ok.mp h
    obtain ⟨hlen, hb, hb'⟩ :=
      checkEdit_eq_ok.mp (forM_eq_ok.mp hchecks e (script.mem_sorted.mpr he))
    exact ⟨⟨(script.ordered e he).trans hlen, hb⟩, hlen, hb'⟩
  · intro h
    have hchecks : ∀ e ∈ script.edits, checkEdit source e = .ok () := fun e he =>
      checkEdit_eq_ok.mpr ⟨(h e he).2.le_length, (h e he).1.boundary, (h e he).2.boundary⟩
    obtain ⟨applied, hok, -⟩ := applyWithMap_returns hchecks
    exact ⟨applied, hok⟩

/-- **A script is the replacement of disjoint ranges all at once.**  Nothing panics, whatever the
offsets; the order of the calls is not seen; a rejected call changes nothing. -/
theorem editScript_simultaneous :
    (∀ (script : EditScript) (source : Bytes), (script.applyWithMap source).Safe) ∧
    (∀ (script : EditScript) (source : Bytes),
      (∃ applied, script.applyWithMap source = .ok applied) ↔
        ∀ e ∈ script.edits, Lands source e.range.start ∧ Lands source e.range.stop) ∧
    (∀ (script : EditScript) (source : Bytes) (applied : AppliedEdits),
      script.applyWithMap source = .ok applied →
        script.Disjoint ∧ applied.text = simultaneous script.edits source) ∧
    (∀ edits edits' : List Edit, edits.Perm edits' → EditScript.new.AcceptsAll edits →
      EditScript.new.AcceptsAll edits' ∧ (EditScript.new.addAll edits').1.edits = edits' ∧
        ∀ source, (EditScript.new.addAll edits).1.applyWithMap source =
          (EditScript.new.addAll edits').1.applyWithMap source) ∧
    (∀ (script : EditScript) (edit : Edit) (err : EditError),
      (script.replaceInPlace edit).2 = .error err → (script.replaceInPlace edit).1 = script) := by
  refine ⟨applyWithMap_safe, fun _ _ => applyWithMap_isOk_iff, ?_, ?_,
    fun _ _ _ => replaceInPlace_of_error⟩
  · intro script source applied h
    exact ⟨script.disjoint, text_eq_simultaneous h⟩
  · intro edits edits' hperm haccepts
    have haccepts' := EditScript.acceptsAll_perm hperm haccepts
    have hedits := EditScript.addAll_edits haccepts
    have hedits' := EditScript.addAll_edits haccepts'
    refine ⟨haccepts', hedits', fun source => applyWithMap_perm ?_ source⟩
    rw [hedits, hedits']
    exact hperm

end CudaOxide.Ptx
