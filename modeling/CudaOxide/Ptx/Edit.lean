import CudaOxide.Lib.Safe
import CudaOxide.Lib.Splice
import CudaOxide.Lib.Text

/-!
# Edit scripts over PTX text

A script collects replacements of byte ranges that do not conflict, and applies them all at once.

* `EditScript` — a script carries the facts that `replace` checks.
* `EditScript.applyWithMap` — the text and the map between the two byte coordinate spaces.
* `EditMap.originalToOutput`, `EditMap.outputToOriginal` and their versions for ranges.
-/

namespace CudaOxide.Ptx

open Lib Lib.Bytes Lib.Text Lib.Run

/-! ### Scripts -/

/-- `Edit`: the range that is replaced, and its replacement. -/
structure Edit where
  range : Span
  replacement : Bytes
  deriving DecidableEq

/-- `EditError`. -/
inductive EditError where
  | invalidRange (range : Span)
  | overlap (first second : Span)
  | outOfBounds (range : Span) (sourceLen : ℕ)
  | nonCharacterBoundary (offset : ℕ)
  deriving DecidableEq, Repr

/-- Empty ranges are ambiguous where they touch anything. -/
def rangesConflict (first second : Span) : Bool :=
  match decide (first.start < first.stop), decide (second.start < second.stop) with
  | true, true => first.start < second.stop && second.start < first.stop
  | false, false => first.start == second.start
  | false, true => first.start ≥ second.start && first.start ≤ second.stop
  | true, false => second.start ≥ first.start && second.start ≤ first.stop

/-- `EditScript`: ranges in order, no two in conflict. -/
structure EditScript where
  edits : List Edit
  ordered : ∀ e ∈ edits, e.range.start ≤ e.range.stop
  compatible : edits.Pairwise fun e e' => rangesConflict e.range e'.range = false

namespace EditScript

/-- `EditScript::new`. -/
def new : EditScript := ⟨[], by simp, .nil⟩

/-- `EditScript::replace`: refused for an invalid range or at the first conflict. -/
def replace (script : EditScript) (range : Span) (replacement : Bytes) :
    Except EditError EditScript :=
  if h : range.start > range.stop then .error (.invalidRange range)
  else
    match hfind : script.edits.find? fun edit => rangesConflict edit.range range with
    | some existing => .error (.overlap existing.range range)
    | none => .ok
      { edits := script.edits ++ [⟨range, replacement⟩]
        ordered := by
          intro e he
          rcases List.mem_append.mp he with he | he
          · exact script.ordered e he
          · rw [List.mem_singleton.mp he]
            exact not_lt.mp h
        compatible := by
          refine List.pairwise_append.mpr ⟨script.compatible, List.pairwise_singleton _ _, ?_⟩
          intro e he e' he'
          rw [List.mem_singleton.mp he']
          simpa using List.find?_eq_none.mp hfind e he }

/-- `EditScript::insert`: a replacement of the empty range. -/
def insert (script : EditScript) (offset : ℕ) (text : Bytes) : Except EditError EditScript :=
  script.replace ⟨offset, offset⟩ text

/-- `EditScript::delete`: a replacement by nothing. -/
def delete (script : EditScript) (range : Span) : Except EditError EditScript :=
  script.replace range []

end EditScript

/-! ### Maps -/

/-- `MapBias`: the side on which an ambiguous offset lands. -/
abbrev MapBias := Side

/-- `MappedEdit`: one edit in the source and in the output. -/
structure MappedEdit where
  original : Span
  output : Span
  deriving DecidableEq, Repr

/-- `EditMap`: the edits that were applied, in order. -/
structure EditMap where
  originalLen : ℕ
  outputLen : ℕ
  edits : List MappedEdit
  deriving DecidableEq, Repr

/-- `Direction`. -/
inductive Direction where
  | forward
  | reverse
  deriving DecidableEq, Repr

/-- `source_range`. -/
def sourceRange (edit : MappedEdit) : Direction → Span
  | .forward => edit.original
  | .reverse => edit.output

/-- `destination_range`. -/
def destinationRange (edit : MappedEdit) : Direction → Span
  | .forward => edit.output
  | .reverse => edit.original

/-- `partition_point`, on a list that `p` partitions. -/
def partitionPoint {α : Type} (xs : List α) (p : α → Bool) : ℕ := (xs.takeWhile p).length

/-- The offset behind the edits that end before it. -/
def shiftOffset (offset : ℕ) (edits : List MappedEdit) (direction : Direction) : ℕ :=
  let completed :=
    partitionPoint edits fun edit => (sourceRange edit direction).stop ≤ offset
  -- `completed.wrapping_sub(1)` is no index when `completed` is zero
  let delta := (if completed = 0 then none else edits[completed - 1]?).elim (0 : ℤ) fun edit =>
    (destinationRange edit direction).stop - (sourceRange edit direction).stop
  -- `saturating_add_signed`
  (offset + delta).toNat

/-- `map_offset`: by the first edit that ends at or behind the offset. -/
def mapOffset (offset : ℕ) (bias : MapBias) (edits : List MappedEdit) (direction : Direction) : ℕ :=
  let index := partitionPoint edits fun edit => (sourceRange edit direction).stop < offset
  match edits[index]? with
  | none => shiftOffset offset edits direction
  | some edit =>
    let source := sourceRange edit direction
    let destination := destinationRange edit direction
    if offset ≥ source.start ∧ offset ≤ source.stop then
      if source.start ≥ source.stop ∧ offset = source.start then bias.pick destination
      else if offset = source.start then destination.start
      else if offset = source.stop then destination.stop
      else bias.pick destination
    else shiftOffset offset edits direction

namespace EditMap

/-- `original_to_output`. -/
def originalToOutput (map : EditMap) (offset : ℕ) (bias : MapBias) : Option ℕ :=
  if offset ≤ map.originalLen then some (mapOffset offset bias map.edits .forward) else none

/-- `output_to_original`. -/
def outputToOriginal (map : EditMap) (offset : ℕ) (bias : MapBias) : Option ℕ :=
  if offset ≤ map.outputLen then some (mapOffset offset bias map.edits .reverse) else none

/-- `original_range_to_output`: widened to the outer sides. -/
def originalRangeToOutput (map : EditMap) (original : Span) : Option Span :=
  if original.start ≤ original.stop ∧ original.stop ≤ map.originalLen then do
    let start ← map.originalToOutput original.start .left
    let stop ← map.originalToOutput original.stop .right
    return ⟨start, stop⟩
  else none

/-- `output_range_to_original`: widened to the outer sides. -/
def outputRangeToOriginal (map : EditMap) (output : Span) : Option Span :=
  if output.start ≤ output.stop ∧ output.stop ≤ map.outputLen then do
    let start ← map.outputToOriginal output.start .left
    let stop ← map.outputToOriginal output.stop .right
    return ⟨start, stop⟩
  else none

end EditMap

/-! ### Applying a script -/

/-- The order of `sort_by_key(|edit| (edit.range.start, edit.range.end))` -/
def rangeLe (e e' : Edit) : Bool :=
  e.range.start < e'.range.start || e.range.start == e'.range.start && e.range.stop ≤ e'.range.stop

/-- The edits in the order of their ranges. -/
def EditScript.sorted (script : EditScript) : List Edit := script.edits.mergeSort rangeLe

/-- `AppliedEdits`: the text and the map. -/
structure AppliedEdits where
  text : Bytes
  map : EditMap
  deriving DecidableEq

/-- What one edit needs of the source. -/
def checkEdit (source : Bytes) (edit : Edit) : Run EditError Unit := do
  reject (edit.range.stop > source.length) (.outOfBounds edit.range source.length)
  [edit.range.start, edit.range.stop].forM fun offset =>
    reject (isCharBoundary source offset = false) (.nonCharacterBoundary offset)

/-- The capacity of the output.  The texts are in memory, so that their lengths add up. -/
def capacity (edits : List Edit) (source : Bytes) : Run EditError ℕ :=
  let replacementBytes := (edits.map fun edit => edit.replacement.length).sum
  let removedBytes := (edits.map fun edit => edit.range.stop - edit.range.start).sum
  Usize.sub (source.length + replacementBytes) removedBytes

/-- The state of the loop that applies the edits. -/
structure Applying where
  output : Bytes
  cursor : ℕ
  mappedEdits : List MappedEdit

/-- Copy up to the edit, then its replacement. -/
def applyEdit (source : Bytes) (st : Applying) (edit : Edit) : Run EditError Applying := do
  let kept ← sliceStr source st.cursor edit.range.start
  let output := st.output ++ kept
  let outputStart := output.length
  let output := output ++ edit.replacement
  let outputEnd := output.length
  .ok ⟨output, edit.range.stop, st.mappedEdits ++ [⟨edit.range, ⟨outputStart, outputEnd⟩⟩]⟩

/-- `apply_with_map`: the checks of all edits come first. -/
def EditScript.applyWithMap (script : EditScript) (source : Bytes) :
    Run EditError AppliedEdits := do
  let edits := script.sorted
  edits.forM (checkEdit source)
  let _capacity ← capacity edits source
  let st ← edits.foldlM (applyEdit source) ⟨[], 0, []⟩
  let rest ← sliceStr source st.cursor source.length
  let output := st.output ++ rest
  .ok ⟨output, ⟨source.length, output.length, st.mappedEdits⟩⟩

/-- `apply`: the text alone. -/
def EditScript.apply (script : EditScript) (source : Bytes) : Run EditError Bytes := do
  .ok (← script.applyWithMap source).text

end CudaOxide.Ptx
