import CudaOxide.Async.Predicate
import CudaOxide.Tile.ValueFacts

/-!
# Where a bounds check is placed

An access to a partition that no proof decides is checked on the device (`checks/placement.rs`).
The check is emitted before the loops around the access, where its operands are known and the access
is executed in every iteration; there it tests the extreme values of the index.

* `LoopFrame`, `AxisGoals` — the enclosing loops and the access.
* `classifyHoist` — the loop before which the check can stand, and how the index is instantiated.
* `Code`, `placeResidualCheck` — the generated comparison.
* `hoistedLoops` — the loops that the check leaves.
-/

namespace CudaOxide.Tile

open Lib I64 Mir Async

/-! ### Loops and goals -/

/-- A value of the module, by its index. -/
abbrev Value := ℕ

/-- A loop around the check. -/
structure LoopFrame where
  preheaderBlock : ℕ
  bodyBlock : ℕ
  /-- the number of values before the body was built -/
  valueWatermark : ℕ
  inductionValues : List Value
  lower : Value
  upper : Value
  unitStep : Bool
  knownNonEmpty : Bool
  inductionRange : Option Bounds
  hasEarlyExit : Bool
  deriving DecidableEq, Repr

/-- What a check reads of the index. -/
structure Index where
  value : Option Value
  bounds : Option Bounds
  term : Option Term

/-- The access `0 <= index` and `index < ceil(extent / tile)` along one axis. -/
structure AxisGoals where
  axis : ℕ
  tile : ℤ
  one_le_tile : 1 ≤ tile
  tile_le : tile ≤ 2147483647
  staticExtent : Option ℤ
  index : Index

/-- Which optimizations of the checks a compilation applies (`check_optimizations.rs`). -/
structure CheckOptimizations where
  hoistToPreheaders : Bool
  relocateToLaunch : Bool
  dischargeProofs : Bool
  deriving DecidableEq, Repr

namespace CheckOptimizations

/-- The checks of a release build. -/
def release : CheckOptimizations := ⟨true, true, true⟩

/-- The checks of a device debug build. -/
def deviceDebug : CheckOptimizations := ⟨false, true, true⟩

/-- No hoisting. -/
def disabled : CheckOptimizations := ⟨false, false, false⟩

/-- The switches of the process: `CUTILE_FORCE_DEVICE_CHECKS` and
`CUTILE_DISABLE_CHECK_HOISTING`. -/
def fromEnv (forceDeviceChecks disableCheckHoisting : Bool) : CheckOptimizations :=
  if forceDeviceChecks then disabled
  else { release with hoistToPreheaders := !disableCheckHoisting }

end CheckOptimizations

/-! ### Ranges -/

/-- The range lies in `i32`. -/
def fitsI32 (b : Bounds) : Bool := -2147483648 ≤ b.start && b.stop ≤ 2147483647

local instance atomOrder : Std.TransCmp (compare : Atom → Atom → Ordering) := inferInstance

/-- `Term::as_single_affine` -/
def asSingleAffine (t : Term) : Option (Atom × ℤ × ℤ) :=
  match t.coeffs.toList with
  | [e] => some (e.1, e.2, t.constantPart)
  | _ => none

/-- One round of the loop of `term_range`. -/
def termRangeEntry (atomRange : Atom → Option Bounds) (acc : Bounds) (e : Atom × ℤ) :
    Option Bounds := do
  let r ← atomRange e.1
  let a ← checkedMul e.2 r.start
  let b ← checkedMul e.2 r.stop
  let lo ← checkedAdd acc.start (if a ≤ b then a else b)
  let hi ← checkedAdd acc.stop (if a ≤ b then b else a)
  some ⟨lo, hi⟩

/-- `term_range` of `value_facts.rs` -/
def termRange (t : Term) (atomRange : Atom → Option Bounds) : Option Bounds :=
  t.coeffs.toList.foldlM (termRangeEntry atomRange) ⟨t.constantPart, t.constantPart⟩

/-! ### The classification -/

/-- How the index is instantiated in the check. -/
inductive HoistIndex where
  | const (min max : ℤ)
  | invariant
  | inductionAffine (scale offset : ℤ) (lower upper : Value)
  deriving DecidableEq, Repr

/-- Why a check stays in place. -/
inductive NoHoist where
  | disabled
  | conditionalBlock
  | earlyExit
  | shapeWithoutValue
  | indexWithoutValue
  | nonUnitStep
  | degenerateAffine
  | instanceOverflow
  | insideBody
  deriving DecidableEq, Repr

/-- The text of a reason. -/
def NoHoist.message : NoHoist → String
  | disabled => "preheader hoisting disabled by the check policy"
  | conditionalBlock => "check sits inside a conditional block"
  | earlyExit => "the loop body has an early exit (`continue`)"
  | shapeWithoutValue => "dynamic shape operand has no direct value"
  | indexWithoutValue => "index has no direct value"
  | nonUnitStep => "index depends on a non-unit-step induction variable"
  | degenerateAffine => "degenerate affine index"
  | instanceOverflow => "non-identity affine instance could overflow i32"
  | insideBody => "index is computed inside the loop body"

/-- The index as `scale * induction + offset`. -/
def inductionForm (innermost : LoopFrame) (index : Index) (value : Value) :
    Option (Value × ℤ × ℤ) :=
  if value ∈ innermost.inductionValues then some (value, 1, 0)
  else
    match index.term.bind asSingleAffine with
    | some (.iv id, scale, offset) =>
      if id ∈ innermost.inductionValues then some (id, scale, offset) else none
    | _ => none

/-- The range of an affine index, from the range of the induction variable. -/
def affineRange (innermost : LoopFrame) (ivId : Value) (scale offset : ℤ) : Option Bounds := do
  let ivRange ← innermost.inductionRange
  termRange (.affine (.iv ivId) scale offset) fun atom =>
    if atom = .iv ivId then some ivRange else none

/-- The instance of the index, and the values that it reads. -/
def classifyIndex (innermost : LoopFrame) (index : Index) :
    Except NoHoist (HoistIndex × List Value) :=
  match index.bounds.filter fitsI32 with
  | some b => .ok (.const b.start b.stop, [])
  | none =>
    match index.value with
    | none => .error .indexWithoutValue
    | some value =>
      match inductionForm innermost index value with
      | some (ivId, scale, offset) =>
        if !innermost.unitStep then .error .nonUnitStep
        else if scale = 0 then .error .degenerateAffine
        else
          match (affineRange innermost ivId scale offset).filter fitsI32 with
          | some range => .ok (.const range.start range.stop, [])
          | none =>
            if ¬(scale = 1 ∧ offset = 0) then .error .instanceOverflow
            else .ok (.inductionAffine scale offset innermost.lower innermost.upper,
              [innermost.upper, innermost.lower])
      | none =>
        if value < innermost.valueWatermark then .ok (.invariant, [value]) else .error .insideBody

/-- The condition under which the check leaves the loop around it too: `inner` stands directly in
the body of `outer` and is executed in every iteration, and the values that the check reads are
known before `outer`. -/
def Crosses (deps : List Value) (inner outer : LoopFrame) : Prop :=
  inner.preheaderBlock = outer.bodyBlock ∧ inner.knownNonEmpty = true ∧ outer.hasEarlyExit = false ∧
    ∀ v ∈ deps, v < outer.valueWatermark

instance (deps : List Value) (inner outer : LoopFrame) : Decidable (Crosses deps inner outer) :=
  inferInstanceAs (Decidable (_ ∧ _))

/-- How many loops the check leaves beyond `inner`. -/
def walkOutward (deps : List Value) : LoopFrame → List LoopFrame → ℕ
  | _, [] => 0
  | inner, outer :: rest =>
    if Crosses deps inner outer then walkOutward deps outer rest + 1 else 0

/-- The values of the extent; `none` where a dynamic extent is no value. -/
def extentDeps : Option (Option Value) → Option (List Value)
  | none => some []
  | some none => none
  | some (some extent) => some [extent]

/-- `classify_hoist`.  The loops are given from the innermost outwards; the result is the place of
the target among them.  The error is `none` where there is no loop. -/
def classifyHoist (opts : CheckOptimizations) (goals : AxisGoals)
    (dynamicExtent : Option (Option Value)) (block : ℕ) (frames : List LoopFrame) :
    Except (Option NoHoist) (ℕ × HoistIndex) :=
  if !opts.hoistToPreheaders then .error (some .disabled)
  else
    match frames with
    | [] => .error none
    | innermost :: outers =>
      if block ≠ innermost.bodyBlock then .error (some .conditionalBlock)
      else if innermost.hasEarlyExit then .error (some .earlyExit)
      else
        match extentDeps dynamicExtent with
        | none => .error (some .shapeWithoutValue)
        | some operands =>
          match classifyIndex innermost goals.index with
          | .error why => .error (some why)
          | .ok (kind, deps) => .ok (walkOutward (operands ++ deps) innermost outers, kind)

/-! ### The generated comparison -/

/-- The operations of a check, on operands of the type. -/
inductive Code where
  | const (c : ℤ)
  | value (v : Value)
  | bin (t : MachineType) (o : TileBinaryOp) (a b : Code)
  deriving DecidableEq, Repr

/-- The values at a point of the program; none before a value is computed. -/
abbrev Env := Value → Option ℤ

/-- The value of a code, when its values are known. -/
def Code.eval (ρ : Env) : Code → Option ℤ
  | const c => some c
  | value v => ρ v
  | bin t o a b => do
    let x ← a.eval ρ
    let y ← b.eval ρ
    machineOp t.ty o x y

/-- `scale as i32` and `offset as i32` -/
def narrowToI32 (x : ℤ) : ℤ := MachineType.i32.ty.wrap x

/-- `affine_extreme_instance`: the strongest instance of an index with a positive scale is that of
the last iteration. -/
def affineExtremeInstance (lower upper : Value) (scale offset : ℤ) (strongest : Bool) : Code :=
  let atLastIteration := decide (0 < scale) == strongest
  let extreme := if atLastIteration then .bin .i32 .sub (.value upper) (.const 1) else .value lower
  let scaled := if scale ≠ 1 then .bin .i32 .mul extreme (.const (narrowToI32 scale)) else extreme
  if offset ≠ 0 then .bin .i32 .add scaled (.const (narrowToI32 offset)) else scaled

/-- `ceil(shape / tile)` as the quotient and the clamped remainder. -/
def tileCountCode (shape : Code) (tile : ℤ) : Code :=
  .bin .i32 .add (.bin .i32 .div shape (.const tile))
    (.bin .i32 .min (.bin .i32 .rem shape (.const tile)) (.const 1))

/-- The errors of placing a check. -/
inductive PlaceError where
  /-- "block index can be {min} (0 <= index is required)" -/
  | negativeIndex (axis : ℕ) (min : ℤ)
  | denied (axis : ℕ) (why : Option NoHoist)
  /-- an operand is no value -/
  | noOperand
  deriving DecidableEq, Repr

/-- A value as an operand. -/
def operand : Option Value → Except PlaceError Code
  | some v => .ok (.value v)
  | none => .error .noOperand

/-- The extent that the check reads. -/
def extentCode (goals : AxisGoals) : Option (Option Value) → Except PlaceError Code
  | some shape => operand shape
  | none =>
    match goals.staticExtent with
    | some extent => .ok (.const extent)
    | none => .error .noOperand

/-- The operand of the upper comparison. -/
def upperInstance (goals : AxisGoals) : Option HoistIndex → Except PlaceError Code
  | some (.inductionAffine scale offset lower upper) =>
    .ok (affineExtremeInstance lower upper scale offset true)
  | some (.const _ max) => .ok (.const max)
  | some .invariant | none => operand goals.index.value

/-- The operand of the lower comparison. -/
def lowerInstance (goals : AxisGoals) : Option HoistIndex → Except PlaceError Code
  | some (.inductionAffine scale offset lower upper) =>
    .ok (affineExtremeInstance lower upper scale offset false)
  | _ => operand goals.index.value

/-- The least value of the index, where it is known. -/
def lowerStatic (opts : CheckOptimizations) (index : Index) (kind : Option HoistIndex) : Option ℤ :=
  if !opts.dischargeProofs then none
  else
    match index.bounds.filter fitsI32 with
    | some b => some b.start
    | none =>
      match kind with
      | some (.const min _) => some min
      | _ => none

/-- The lower comparison, where the lower goal is not known. -/
def withLowerGuard (goals : AxisGoals) (kind : Option HoistIndex) (needsLowerGuard : Bool)
    (upper : Code) : Except PlaceError Code :=
  if needsLowerGuard then do
    let weakest ← lowerInstance goals kind
    .ok (.bin .bool .bitAnd (.bin .i32 .ge weakest (.const 0)) upper)
  else .ok upper

/-- `upper <= lower || in_bounds`, for the bounds of a loop that may be empty. -/
def withVacuousGuard (guardBounds : Option (Value × Value)) (inBounds : Code) : Code :=
  match guardBounds with
  | some (lower, upper) =>
    .bin .bool .bitOr (.bin .i32 .le (.value upper) (.value lower)) inBounds
  | none => inBounds

/-- The condition of a check: guard, lower and upper bound. -/
def checkCode (goals : AxisGoals) (extent : Code) (kind : Option HoistIndex)
    (needsLowerGuard : Bool)
    (guardBounds : Option (Value × Value)) : Except PlaceError Code := do
  let index ← upperInstance goals kind
  let upper := Code.bin .i32 .lt index (tileCountCode extent goals.tile)
  let inBounds ← withLowerGuard goals kind needsLowerGuard upper
  .ok (withVacuousGuard guardBounds inBounds)

/-- A negative index is rejected. -/
def rejectNegative (axis : ℕ) : Option ℤ → Except PlaceError Unit
  | some min => if min < 0 then .error (.negativeIndex axis min) else .ok ()
  | none => .ok ()

/-- A check inside the kernel may be denied. -/
def denyResidualCheck (denyInKernelChecks : Bool) (axis : ℕ) (why : Option NoHoist) :
    Except PlaceError Unit :=
  if denyInKernelChecks then .error (.denied axis why) else .ok ()

/-- The message of the assertion. -/
def checkMessage (goals : AxisGoals) (needsLowerGuard : Bool) : String :=
  let axis := goals.axis
  let tile := goals.tile
  let shape := match goals.staticExtent with
    | some extent => toString extent
    | none => "?"
  let suffix := if needsLowerGuard then " or index < 0" else ""
  s!"partition access out of bounds: dim {axis}, block index >= ceil({shape}/{tile}){suffix}"

/-- The assertion that is emitted. -/
structure Assertion where
  block : ℕ
  condition : Code
  message : String
  deriving DecidableEq, Repr

/-- Why a check is not hoisted. -/
def noHoistWhy : Except (Option NoHoist) (ℕ × HoistIndex) → Option NoHoist
  | .ok _ => none
  | .error why => why

/-- The bounds of the guard; none for a loop that is known not to be empty. -/
def guardBounds (frame : LoopFrame) : Option (Value × Value) :=
  if frame.knownNonEmpty then none else some (frame.lower, frame.upper)

/-- `place_residual_check` -/
def placeResidualCheck (opts : CheckOptimizations) (denyInKernelChecks : Bool) (goals : AxisGoals)
    (dynamicExtent : Option (Option Value)) (block : ℕ) (frames : List LoopFrame) :
    Except PlaceError Assertion := do
  let hoist := classifyHoist opts goals dynamicExtent block frames
  let kind := hoist.toOption.map Prod.snd
  let target := hoist.toOption.bind fun h => frames[h.1]?
  let known := lowerStatic opts goals.index kind
  rejectNegative goals.axis known
  denyResidualCheck denyInKernelChecks goals.axis (noHoistWhy hoist)
  let extent ← extentCode goals dynamicExtent
  let condition ← checkCode goals extent kind known.isNone (target.bind guardBounds)
  .ok ⟨(target.map (·.preheaderBlock)).getD block, condition, checkMessage goals known.isNone⟩

/-- The loops that the check leaves, from the target inwards. -/
def hoistedLoops (opts : CheckOptimizations) (goals : AxisGoals)
    (dynamicExtent : Option (Option Value)) (block : ℕ) (frames : List LoopFrame) :
      List LoopFrame :=
  match classifyHoist opts goals dynamicExtent block frames with
  | .ok (n, _) => (frames.take (n + 1)).reverse
  | .error _ => []

end CudaOxide.Tile
