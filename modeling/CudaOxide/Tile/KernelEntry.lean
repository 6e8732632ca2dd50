import CudaOxide.Lib.Results
import CudaOxide.Tile.Specialization

namespace CudaOxide.Tile

open Lib.Results

/-!
# Tensor parameters of a kernel entry

The generated entry point takes a tensor apart into a pointer, extents and strides and states what
the compiler may assume of them (`kernel_entry_generator.rs`); the launcher checks an argument
against the parameter and pushes the values (`kernel_launcher_generator.rs`, `tensor.rs`).  The
model is of one tensor parameter; the statements and the checks of several stand one after another.

* `TensorInput.generateStatements`, `TensorInput.generateArgs` — the statements and the parameters.
* `TensorArg.pushKernelArgs`, `launch` — the values, and the checks of the launcher.
* `AssumptionsMet` — what the values must satisfy: hints are read by position among the dynamic
  axes.
* `assumptions_hold_iff` — exactly then each assumption holds of the value of its variable.
-/

/-! ### The entry point -/

/-- The parameters `x_ptr`, `x_dim_i`, `x_stride_i` and so on that a tensor `x` becomes. -/
inductive EntryVar where
  | ptr
  | dim (i : ℕ)
  | stride (i : ℕ)
  | partitionDim (i : ℕ)
  | partitionStride (i : ℕ)
  deriving DecidableEq, Repr

/-- The statements of a kernel entry. -/
inductive EntryStmt where
  /-- `assume_bounds_lower::<_, 0>` -/
  | assumeNonNegative (v : EntryVar)
  /-- `assume_div_by::<_, d>` -/
  | assumeDivBy (v : EntryVar) (d : Int32)
  | dims (vars : List EntryVar)
  | dimsShape (shapeParam : String)
  | strides (vars : List EntryVar)
  | stridesArray (staticStrides : List String)
  | token
  | tensorView (elementType shapeParam : String)
  | partitionShape (shapeParam : String)
  | mappedPartitionView (elementType shapeParam mapShape : String)
  deriving DecidableEq, Repr

/-- The kinds of a tensor parameter. -/
inductive TensorParamKind where
  | tensor
  | mappedPartitionMut (mapShape : String)
  deriving DecidableEq, Repr

/-- A tensor parameter of the kernel, its generics instantiated: the texts of its extents, and the
text of the generic argument that they come from. -/
structure TensorParam where
  elementType : String
  kind : TensorParamKind
  mutability : Bool
  shape : List String
  shapeParam : String
  deriving DecidableEq, Repr

/-- The errors of `validate`. -/
inductive JitError where
  | mappedRank
  | mutableRank
  | strideRank (expected given : ℕ)
  deriving DecidableEq, Repr

/-- A tensor parameter with all that its entry is generated from. -/
structure TensorInput where
  param : TensorParam
  staticStrides : List String
  mutable : Bool
  maxDivisibility : Option Int32
  spec : Option SpecializationBits

namespace TensorInput

/-- The rank of the parameter. -/
def rank (e : TensorInput) : ℕ := e.param.shape.length

/-- `validate`: the ranks and the number of strides. -/
def validate (e : TensorInput) : Except JitError Unit :=
  if e.param.kind ≠ .tensor ∧ (e.rank < 1 ∨ 3 < e.rank) then .error .mappedRank
  else if e.mutable ∧ 3 < e.rank then .error .mutableRank
  else if e.staticStrides.length ≠ e.rank then
    .error (.strideRank e.rank e.staticStrides.length)
  else .ok ()

/-- `TensorInput::new` with the entries of the stride and specialization maps for this parameter. -/
def new (param : TensorParam) (strideArgs : List Int32) (spec : Option SpecializationBits)
    (optHints : OptimizationHints) : Except JitError TensorInput :=
  let e : TensorInput :=
    { param
      staticStrides := strideArgs.map toString
      mutable := param.mutability || param.kind ≠ .tensor
      maxDivisibility := optHints.maxDivisibility
      spec }
  (e.validate).map fun _ => e

/-- `generate_args`: pointer, extents, strides and the partition's. -/
def generateArgs (e : TensorInput) : List EntryVar :=
  let axes := List.range e.rank
  .ptr :: axes.map .dim ++ axes.map .stride ++
    if e.mutable then axes.map .partitionDim ++ axes.map .partitionStride else []

end TensorInput

/-- The axes whose text is that of a dynamic extent. -/
def dynamicAxes (staticElements : List String) : List ℕ :=
  (staticElements.zipIdx.filter fun p => p.1 == "- 1" || p.1 == "-1").map Prod.snd

namespace TensorInput

/-- The arguments of the dynamic axes. -/
def getDynamicElements (staticElements : List String) (arg : ℕ → EntryVar) : List EntryVar :=
  (dynamicAxes staticElements).map arg

/-- The inferred divisor, under the cap of the hints if there is one. -/
def effectiveDiv (e : TensorInput) (inferred : Option Int32) : Int32 :=
  match inferred, e.maxDivisibility with
  | some autoVal, some maxDiv => min autoVal maxDiv
  | some autoVal, none => autoVal
  | none, some fallback => fallback
  | none, none => 1

/-- The assumption of a divisor, which is stated from two on. -/
def assumeDiv (e : TensorInput) (v : EntryVar) (inferred : Option Int32) : List EntryStmt :=
  if 1 < e.effectiveDiv inferred then [.assumeDivBy v (e.effectiveDiv inferred)] else []

/-- The assumptions of the dynamic extents or strides.  The hint is that of the position of the
variable in the list of dynamic ones. -/
def assumeDynamic (e : TensorInput) (hints : SpecializationBits → List DivHint)
    (vars : List EntryVar) : List EntryStmt :=
  vars.zipIdx.flatMap fun p => .assumeNonNegative p.1 ::
    e.assumeDiv p.1 ((e.spec.bind fun s => (hints s)[p.2]?).map DivHint.divisor)

/-- The extents of the view: a mutable tensor is viewed whole, with all of them dynamic. -/
def tensorViewShape (e : TensorInput) : List String :=
  if e.mutable then List.replicate e.rank "-1" else e.param.shape

/-- `generate_statements`: the assumptions come before the view. -/
def generateStatements (e : TensorInput) : List EntryStmt :=
  let dynamicDims := getDynamicElements e.tensorViewShape .dim
  let dynamicStrides := getDynamicElements e.staticStrides .stride
  let viewParam :=
    if e.mutable then "\x7b[" ++ ",".intercalate (List.replicate e.rank "-1") ++ "]\x7d"
    else e.param.shapeParam
  e.assumeDynamic SpecializationBits.shapeDiv dynamicDims ++
    [.dims dynamicDims, .dimsShape viewParam] ++
    e.assumeDynamic SpecializationBits.strideDiv dynamicStrides ++
    [.strides dynamicStrides, .stridesArray e.staticStrides, .token] ++
    e.assumeDiv .ptr (e.spec.map fun s => s.basePtrDiv.divisor) ++
    .tensorView e.param.elementType e.param.shapeParam ::
      match e.param.kind with
      | .tensor => []
      | .mappedPartitionMut mapShape =>
        [.partitionShape e.param.shapeParam,
          .mappedPartitionView e.param.elementType e.param.shapeParam mapShape]

end TensorInput

/-! ### The launcher -/

/-- A tensor or a view of one: its device pointer with the offset applied, and its metadata. -/
structure Tensor where
  dtype : String
  ptr : UInt64
  shape : List Int32
  strides : List Int32
  rank_eq : strides.length = shape.length

/-- The specialization bits are recomputed for every tensor and view. -/
def Tensor.spec (t : Tensor) : SpecializationBits := computeSpec t.ptr t.shape t.strides

/-- `Partition`, with the numbers as `usize`s. -/
structure Partition where
  object : Tensor
  partitionShape : List UInt64
  partitionStrides : List UInt64

/-- An argument: an input, a partitioned output, or one with a map and a number of tile blocks. -/
inductive TensorArg where
  | input (t : Tensor)
  | output (p : Partition)
  | mapped (p : Partition) (mapShape : List UInt64) (numTileBlocks : ℕ)

/-- The errors of a launch. -/
inductive LaunchError where
  | nonPositiveDim
  | partitionRank (expected given : ℕ)
  | zeroPartitionDim
  | partitionDimTooLarge (dim : UInt64)
  | rankTooLarge
  | mapRank
  | noStreamedAxis
  | emptyGrid
  | mapGridRank
  | gridTooLarge
  | noTileBlocks
  | tooManyTileBlocks
  | compile (e : JitError)
  /-- an extent of the parameter that `parse` panics on -/
  | badDim (text : String)
  | dtypeMismatch (expected given : String)
  | rankMismatch (expected given : ℕ)
  | shapeMismatch
  /-- an input for an output parameter or the other way round, which do not type check -/
  | argKind
  deriving DecidableEq, Repr

/-- A launch grid. -/
abbrev Grid := ℕ × ℕ × ℕ

/-- The blocks along one axis: the ceiling of the extent over the partition's. -/
def gridAxis (extent : Int32) (tile : UInt64) : Except LaunchError ℕ :=
  if tile.toNat < 2 ^ 32 then .ok ((extent.toInt.toNat + tile.toNat - 1) / tile.toNat)
  else .error (.partitionDimTooLarge tile)

/-- `partition_launch_grid`: one block for each part. -/
def partitionLaunchGrid (shape : List Int32) (partitionShape : List UInt64) :
    Except LaunchError Grid :=
  if shape.any fun d => d ≤ 0 then .error .nonPositiveDim
  else if partitionShape.length ≠ shape.length then
    .error (.partitionRank shape.length partitionShape.length)
  else if partitionShape.contains 0 then .error .zeroPartitionDim
  else
    match shape, partitionShape with
    | [a], [p] => do .ok (← gridAxis a p, 1, 1)
    | [a, b], [p, q] => do .ok (← gridAxis a p, ← gridAxis b q, 1)
    | [a, b, c], [p, q, r] => do .ok (← gridAxis a p, ← gridAxis b q, ← gridAxis c r)
    | _, _ => .error .rankTooLarge

/-- `checked_mul` along the streamed axes. -/
def streamedTiles (axes : List ℕ) (mapShape : List UInt64) : Option ℕ :=
  ((axes.zip mapShape).filter fun a => a.2 ≠ 0).foldlM
    (fun total a => if total * a.1 < 2 ^ 32 then some (total * a.1) else none) 1

/-- `MappedLaunchPartition::validate` -/
def validateMap (mapShape : List UInt64) (grid : Grid) (numTileBlocks : ℕ) :
    Except LaunchError Grid :=
  let axes := [grid.1, grid.2.1, grid.2.2]
  if mapShape.length = 0 ∨ 3 < mapShape.length then .error .mapRank
  else if mapShape.all (· == 0) then .error .noStreamedAxis
  else if (axes.take mapShape.length).any (· == 0) then .error .emptyGrid
  else if (axes.drop mapShape.length).any (· != 1) then .error .mapGridRank
  else
    match streamedTiles axes mapShape with
    | none => .error .gridTooLarge
    | some tiles =>
      if numTileBlocks = 0 then .error .noTileBlocks
      else if tiles < numTileBlocks then .error .tooManyTileBlocks
      else .ok (numTileBlocks, 1, 1)

/-- A kernel argument. -/
inductive KernelArg where
  | ptr (p : UInt64)
  | i32 (v : Int32)
  deriving DecidableEq, Repr

/-- `usize as i32` -/
def asI32 (x : UInt64) : Int32 := x.toUInt32.toInt32

/-- What the pointer, the extents and the strides of a tensor are pushed as. -/
def Tensor.pushKernelArgs (t : Tensor) : List KernelArg :=
  .ptr t.ptr :: t.shape.map .i32 ++ t.strides.map .i32

/-- `push_kernel_args` of a partition: its tensor's, then its own. -/
def Partition.pushKernelArgs (p : Partition) : List KernelArg :=
  p.object.pushKernelArgs ++
    (p.partitionShape.map (.i32 ∘ asI32) ++ p.partitionStrides.map (.i32 ∘ asI32))

namespace TensorArg

/-- The tensor behind an argument. -/
def object : TensorArg → Tensor
  | input t => t
  | output p | mapped p _ _ => p.object

/-- The argument is written by the kernel. -/
def isOutput : TensorArg → Bool
  | input _ => false
  | output _ | mapped _ _ _ => true

/-- `push_kernel_args`. -/
def pushKernelArgs : TensorArg → List KernelArg
  | input t => t.pushKernelArgs
  | output p | mapped p _ _ => p.pushKernelArgs

/-- `strides_hint`, and what the launcher computes of an input in its place. -/
def stridesHint (a : TensorArg) : List Int32 :=
  a.object.spec.strideOne.map fun isOne => if isOne then 1 else -1

/-- `grid`; an input has none. -/
def grid : TensorArg → Except LaunchError (Option Grid)
  | input _ => .ok none
  | output p => (partitionLaunchGrid p.object.shape p.partitionShape).map some
  | mapped p mapShape numTileBlocks => do
    let grid ← partitionLaunchGrid p.object.shape p.partitionShape
    (validateMap mapShape grid numTileBlocks).map some

end TensorArg

/-- `str::parse::<i32>` -/
def parseI32 (s : String) : Option Int32 :=
  let digits (cs : List Char) : Option ℕ :=
    if cs ≠ [] ∧ cs.all Char.isDigit then
      some (cs.foldl (fun n c => 10 * n + (c.toNat - '0'.toNat)) 0)
    else none
  match s.toList with
  | '-' :: cs =>
    (digits cs).bind fun n => if n ≤ 2 ^ 31 then some (Int32.ofInt (-n)) else none
  | '+' :: cs => (digits cs).bind fun n => if n < 2 ^ 31 then some (Int32.ofNat n) else none
  | cs => (digits cs).bind fun n => if n < 2 ^ 31 then some (Int32.ofNat n) else none

/-- The extents that the validator keeps of a parameter. -/
def validShape (shape : List String) : Except LaunchError (List Int32) :=
  shape.mapM fun s =>
    if s = "- 1" then .ok (-1)
    else
      match parseI32 s with
      | some v => .ok v
      | none => .error (.badDim s)

/-- The checks of an argument against its parameter. -/
def checkArg (param : TensorParam) (valid : List Int32) (arg : TensorArg) :
    Except LaunchError Unit :=
  if param.elementType ≠ arg.object.dtype then
    .error (.dtypeMismatch param.elementType arg.object.dtype)
  else
    match arg with
    | .input t =>
      if valid.length ≠ t.shape.length then .error (.rankMismatch valid.length t.shape.length)
      else if (valid.zip t.shape).all fun d => d.1 == -1 || d.1 == d.2 then .ok ()
      else .error .shapeMismatch
    | .output p | .mapped p _ _ =>
      if valid.length ≠ p.partitionShape.length then
        .error (.rankMismatch valid.length p.partitionShape.length)
      else if (valid.zip p.partitionShape).all fun d => d.1.toInt64 == d.2.toInt64 then .ok ()
      else .error .shapeMismatch

/-- A launch that went through: the entry that was compiled, and the values that were pushed. -/
structure Launched where
  entry : TensorInput
  args : List KernelArg

/-- One parameter and its argument: the entry is compiled for the argument's specialization bits,
the argument is checked, the grid of an output is computed, and the values are pushed. -/
def launch (param : TensorParam) (optHints : OptimizationHints) (arg : TensorArg) :
    Except LaunchError Launched := do
  if arg.isOutput ≠ (param.mutability || param.kind ≠ .tensor) then throw .argKind
  let entry ← (TensorInput.new param arg.stridesHint (some arg.object.spec) optHints).mapError
    .compile
  let valid ← validShape param.shape
  checkArg param valid arg
  let _ ← arg.grid
  return ⟨entry, arg.pushKernelArgs⟩

/-! ### What the assumptions say -/

/-- The value that is pushed for a parameter: the one at its position. -/
def Launched.env (l : Launched) (v : EntryVar) : Option KernelArg :=
  (l.entry.generateArgs.zip l.args).lookup v

/-- The number that an argument carries. -/
def KernelArg.toInt : KernelArg → ℤ
  | ptr p => p.toNat
  | i32 v => v.toInt

/-- What a statement assumes of the arguments. -/
def EntryStmt.HoldsIn (env : EntryVar → Option KernelArg) : EntryStmt → Prop
  | assumeNonNegative v => ∃ x, env v = some x ∧ 0 ≤ x.toInt
  | assumeDivBy v d => ∃ x, env v = some x ∧ d.toInt ∣ x.toInt
  | _ => True

/-- What divides the hinted value, sixteen at most and under a cap, divides the value as well.  A
cap below two states nothing. -/
def HintDivides (cap : Option Int32) (hinted value : ℤ) : Prop :=
  match cap with
  | none => (Int.gcd hinted 16 : ℤ) ∣ value
  | some m => m.toInt ≤ 1 ∨ min (Int.gcd hinted 16 : ℤ) m.toInt ∣ value

/-- No value on the axes is negative, and the value on the `p`-th of the axes is divisible by what
is hinted of the value on axis `p`. -/
def AxesMet (cap : Option Int32) (axes : List ℕ) (values : List Int32) : Prop :=
  ∀ (p a : ℕ) (x hinted : Int32), axes[p]? = some a → values[a]? = some x →
    values[p]? = some hinted → 0 ≤ x.toInt ∧ HintDivides cap hinted.toInt x.toInt

/-- The dynamic extents of the view: all of an output's. -/
def TensorArg.viewAxes (param : TensorParam) : TensorArg → List ℕ
  | input _ => dynamicAxes param.shape
  | output p | mapped p _ _ => List.range p.object.shape.length

/-- The axes whose stride is not one. -/
def stridedAxes (strides : List Int32) : List ℕ :=
  (strides.zipIdx.filter fun p => p.1 ≠ 1).map Prod.snd

/-- The values of an argument are as the hints say, by position. -/
def AssumptionsMet (cap : Option Int32) (param : TensorParam) (arg : TensorArg) : Prop :=
  AxesMet cap (arg.viewAxes param) arg.object.shape ∧
    AxesMet cap (stridedAxes arg.object.strides) arg.object.strides ∧
    HintDivides cap arg.object.ptr.toNat arg.object.ptr.toNat

/-! ### What a launch pushes -/

section Env

variable {e : TensorInput} {t : Tensor} {rest : List KernelArg} {a : ℕ}

/-- Looking up an argument of a mapped list. -/
private theorem lookup_zip_map {β : Type} (f : ℕ → EntryVar) (hf : Function.Injective f)
    (xs : List β) (start a : ℕ) :
    ((((List.range' start xs.length).map f).zip xs).lookup (f (start + a))) = xs[a]? := by
  induction xs generalizing start a with
  | nil => rfl
  | cons x xs ih =>
    rw [List.length_cons, List.range'_succ, List.map_cons, List.zip_cons_cons, List.lookup_cons]
    cases a with
    | zero => simp
    | succ a =>
      have hne : (f (start + (a + 1)) == f start) = false := by
        rw [beq_eq_false_iff_ne]
        intro h
        have := hf h
        omega
      have hshift : start + (a + 1) = start + 1 + a := by omega
      rw [hne, List.getElem?_cons_succ, ← ih (start + 1) a, hshift]

/-- Looking up an argument of another list. -/
private theorem lookup_zip_other {β : Type} (f : ℕ → EntryVar) (v : EntryVar)
    (hv : ∀ i, f i ≠ v) (is : List ℕ) (xs : List β) : ((is.map f).zip xs).lookup v = none := by
  rw [List.lookup_eq_none_iff]
  intro p hp
  obtain ⟨i, -, hi⟩ := List.mem_map.mp (List.of_mem_zip hp).1
  rw [bne_iff_ne, ← hi]
  exact (hv i).symm

/-- The first argument is the pointer. -/
private theorem lookup_ptr (l : Launched) (hargs : l.args = t.pushKernelArgs ++ rest) :
    l.env .ptr = some (.ptr t.ptr) := by
  unfold Launched.env
  rw [hargs]
  rfl

/-- The first two blocks of parameters, after the pointer, are those of the extents and the
strides. -/
private theorem lookup_axes (l : Launched) (hrank : l.entry.rank = t.shape.length)
    (hargs : l.args = t.pushKernelArgs ++ rest) (v : EntryVar) (hv : v ≠ .ptr) :
    l.env v =
      ((((List.range' 0 t.shape.length).map EntryVar.dim).zip (t.shape.map KernelArg.i32)).lookup v
        ).or (((((List.range' 0 t.strides.length).map EntryVar.stride).zip
          (t.strides.map KernelArg.i32)).lookup v).or
            (((if l.entry.mutable then (List.range l.entry.rank).map EntryVar.partitionDim ++
              (List.range l.entry.rank).map EntryVar.partitionStride
                else []).zip rest).lookup v)) := by
  unfold Launched.env TensorInput.generateArgs Tensor.pushKernelArgs at *
  rw [hargs]
  have hne : (v == EntryVar.ptr) = false := beq_eq_false_iff_ne.mpr hv
  simp only [List.cons_append, List.append_assoc, List.zip_cons_cons, List.lookup_cons, hne]
  rw [List.zip_append (by simp [hrank]), List.lookup_append,
    List.zip_append (by simp [hrank, t.rank_eq]),
    List.lookup_append, hrank, t.rank_eq, List.range_eq_range']

/-- The argument of an extent. -/
theorem env_dim (l : Launched) (hrank : l.entry.rank = t.shape.length)
    (hargs : l.args = t.pushKernelArgs ++ rest) {x : Int32} (hx : t.shape[a]? = some x) :
    l.env (.dim a) = some (.i32 x) := by
  rw [lookup_axes l hrank hargs _ (by simp)]
  have hdim := lookup_zip_map EntryVar.dim (fun _ _ h => EntryVar.dim.inj h)
    (t.shape.map KernelArg.i32) 0 a
  rw [List.length_map, Nat.zero_add, List.getElem?_map, hx] at hdim
  rw [hdim]
  rfl

/-- The argument of a stride. -/
theorem env_stride (l : Launched) (hrank : l.entry.rank = t.shape.length)
    (hargs : l.args = t.pushKernelArgs ++ rest) {x : Int32} (hx : t.strides[a]? = some x) :
    l.env (.stride a) = some (.i32 x) := by
  rw [lookup_axes l hrank hargs _ (by simp), lookup_zip_other EntryVar.dim _ (by simp)]
  have hstride := lookup_zip_map EntryVar.stride (fun _ _ h => EntryVar.stride.inj h)
    (t.strides.map KernelArg.i32) 0 a
  rw [List.length_map, Nat.zero_add, List.getElem?_map, hx] at hstride
  rw [hstride]
  rfl

end Env

/-! ### What an entry assumes -/

section Assumptions

variable {e : TensorInput} {env : EntryVar → Option KernelArg}

/-- Comparing with 1 as an integer. -/
private theorem one_lt_iff (d : Int32) : 1 < d ↔ 1 < d.toInt := Int32.lt_iff_toInt_lt

/-- A hint is at least 1. -/
private theorem one_le_gcd (x : ℤ) : (1 : ℤ) ≤ Int.gcd x 16 := by
  have := Int.gcd_pos_of_ne_zero_right x (show (16 : ℤ) ≠ 0 by decide)
  omega

/-- A divisor below two is not stated, and would hold. -/
private theorem hintDivides_iff {d : Int32} {hinted value : ℤ} (hd : d.toInt = Int.gcd hinted 16) :
    HintDivides e.maxDivisibility hinted value ↔
      (1 < e.effectiveDiv (some d) → (e.effectiveDiv (some d)).toInt ∣ value) := by
  have hone := one_le_gcd hinted
  unfold HintDivides TensorInput.effectiveDiv
  cases e.maxDivisibility with
  | none =>
    simp only [one_lt_iff, hd]
    constructor
    · intro h _
      exact h
    · intro h
      obtain heq | hlt := eq_or_lt_of_le hone
      · rw [← heq]
        exact one_dvd _
      · exact h hlt
  | some m =>
    simp only [one_lt_iff, toInt_min, hd]
    constructor
    · rintro (hm | hdvd) hlt
      · omega
      · exact hdvd
    · intro h
      by_cases hm : m.toInt ≤ 1
      · exact .inl hm
      obtain heq | hlt := eq_or_lt_of_le (le_min hone (show 1 ≤ m.toInt by omega))
      · right
        rw [← heq]
        exact one_dvd _
      · exact .inr (h hlt)

/-- The assumption of a divisor holds when the hinted one, under the cap, divides the value. -/
private theorem assumeDiv_holds {v : EntryVar} {x : KernelArg} {d : Int32} {hinted : ℤ}
    (hv : env v = some x) (hd : d.toInt = Int.gcd hinted 16) :
    (∀ s ∈ e.assumeDiv v (some d), s.HoldsIn env) ↔
      HintDivides e.maxDivisibility hinted x.toInt := by
  rw [hintDivides_iff hd]
  unfold TensorInput.assumeDiv
  split
  · simp_all [EntryStmt.HoldsIn]
  · simp_all

/-- An axis stands at or behind its position among the dynamic ones. -/
private theorem le_of_sublist_range {axes : List ℕ} {n p a : ℕ}
    (hsub : List.Sublist axes (List.range n)) (ha : axes[p]? = some a) : p ≤ a ∧ a < n := by
  obtain ⟨f, hf⟩ := List.sublist_iff_exists_orderEmbedding_getElem?_eq.mp hsub
  rw [hf p, List.getElem?_eq_some_iff] at ha
  obtain ⟨hlt, ha⟩ := ha
  rw [List.getElem_range] at ha
  rw [List.length_range] at hlt
  have : p ≤ f p := f.strictMono.le_apply
  omega

/-- The assumptions of the dynamic axes, with hints by position. -/
private theorem assumeDynamic_holds {s : SpecializationBits} (hspec : e.spec = some s)
    (hints : SpecializationBits → List DivHint) (arg : ℕ → EntryVar) (values : List Int32)
    (axes : List ℕ) (hhints : hints s = values.map DivHint.fromValue)
    (henv : ∀ (a : ℕ) (x : Int32), values[a]? = some x → env (arg a) = some (.i32 x))
    (haxes : List.Sublist axes (List.range values.length)) :
    (∀ st ∈ e.assumeDynamic hints (axes.map arg), st.HoldsIn env) ↔
      AxesMet e.maxDivisibility axes values := by
  -- the divisor of an axis is that of the hint at its position
  have hdiv : ∀ (p a : ℕ) (x hinted : Int32), values[a]? = some x → values[p]? = some hinted →
      ((∀ st ∈ e.assumeDiv (arg a) ((e.spec.bind fun s => (hints s)[p]?).map DivHint.divisor),
        st.HoldsIn env) ↔ HintDivides e.maxDivisibility hinted.toInt x.toInt) := by
    intro p a x hinted hx hp
    have hhint : ((e.spec.bind fun s => (hints s)[p]?).map DivHint.divisor) =
        some (DivHint.fromValue hinted).divisor := by
      rw [hspec, Option.bind_some, hhints, List.getElem?_map, hp]
      rfl
    rw [hhint]
    exact assumeDiv_holds (henv a x hx) (fromValue_divisor hinted)
  unfold TensorInput.assumeDynamic
  constructor
  -- every statement about an axis is among those that are generated
  · intro h p a x hinted hp hx hhint
    have hmem : (arg a, p) ∈ (axes.map arg).zipIdx := by
      rw [List.mem_zipIdx_iff_getElem?, List.getElem?_map, hp]
      rfl
    have hall : ∀ st ∈ EntryStmt.assumeNonNegative (arg a) ::
        e.assumeDiv (arg a) ((e.spec.bind fun s => (hints s)[p]?).map DivHint.divisor),
        st.HoldsIn env := fun st hst => h st (List.mem_flatMap.mpr ⟨_, hmem, hst⟩)
    rw [List.forall_mem_cons] at hall
    obtain ⟨⟨y, hy, hnonneg⟩, hdivs⟩ := hall
    rw [henv a x hx, Option.some.injEq] at hy
    subst hy
    exact ⟨hnonneg, (hdiv p a x hinted hx hhint).mp hdivs⟩
  -- and every statement that is generated is about an axis
  · intro h st hst
    obtain ⟨v, hv, hst⟩ := List.mem_flatMap.mp hst
    rw [List.mem_zipIdx_iff_getElem?, List.getElem?_map, Option.map_eq_some_iff] at hv
    obtain ⟨a, hp, hva⟩ := hv
    obtain ⟨hle, hlt⟩ := le_of_sublist_range haxes hp
    have hx : values[a]? = some values[a] := List.getElem?_eq_getElem hlt
    have hhint : values[v.2]? = some values[v.2] := List.getElem?_eq_getElem (by omega)
    obtain ⟨hnonneg, hdivs⟩ := h v.2 a _ _ hp hx hhint
    rw [← hva] at hst
    obtain rfl | hst := List.mem_cons.mp hst
    · exact ⟨_, henv a _ hx, hnonneg⟩
    · exact (hdiv v.2 a _ _ hx hhint).mpr hdivs st hst

/-- The other statements state nothing. -/
private theorem generateStatements_hold :
    (∀ s ∈ e.generateStatements, s.HoldsIn env) ↔
      (∀ s ∈ e.assumeDynamic SpecializationBits.shapeDiv
        (TensorInput.getDynamicElements e.tensorViewShape .dim), s.HoldsIn env) ∧
      (∀ s ∈ e.assumeDynamic SpecializationBits.strideDiv
        (TensorInput.getDynamicElements e.staticStrides .stride), s.HoldsIn env) ∧
      ∀ s ∈ e.assumeDiv .ptr (e.spec.map fun s => s.basePtrDiv.divisor), s.HoldsIn env := by
  unfold TensorInput.generateStatements
  simp only [List.forall_mem_append, List.forall_mem_cons]
  cases e.param.kind with
  | tensor => simp [EntryStmt.HoldsIn, and_assoc]
  | mappedPartitionMut mapShape => simp [EntryStmt.HoldsIn, and_assoc]

end Assumptions

/-! ### Launches -/

section Launch

variable {param : TensorParam} {optHints : OptimizationHints} {arg : TensorArg} {l : Launched}

/-- The dynamic axes are in order. -/
private theorem axes_sublist {α : Type} (l : List α) (keep : α → Bool) :
    List.Sublist ((l.zipIdx.filter fun p => keep p.1).map Prod.snd) (List.range l.length) := by
  have hrange : l.zipIdx.map Prod.snd = List.range l.length := by
    rw [List.zipIdx_map_snd, List.range_eq_range']
  rw [← hrange]
  exact List.filter_sublist.map _

/-- The stride hints of a tensor. -/
private theorem strideOne_spec (t : Tensor) : t.spec.strideOne = t.strides.map (· == 1) := by
  show (t.strides.take t.shape.length).map _ = _
  rw [← t.rank_eq, List.take_length]

/-- The divisibility hints of the strides. -/
private theorem strideDiv_spec (t : Tensor) :
    t.spec.strideDiv = t.strides.map DivHint.fromValue := by
  show (t.strides.take t.shape.length).map _ = _
  rw [← t.rank_eq, List.take_length]

/-- The axes of a view are in order. -/
private theorem viewAxes_sublist (hrank : param.shape.length = arg.object.shape.length) :
    List.Sublist (arg.viewAxes param) (List.range arg.object.shape.length) := by
  cases arg with
  | input t =>
    rw [← hrank]
    exact axes_sublist param.shape fun text => text == "- 1" || text == "-1"
  | output p => exact List.Sublist.refl _
  | mapped p _ _ => exact List.Sublist.refl _

/-- The strides that the launcher marks dynamic are those other than one. -/
private theorem dynamicAxes_stridesHint (arg : TensorArg) :
    dynamicAxes (arg.stridesHint.map toString) = stridedAxes arg.object.strides := by
  have htext : ∀ x : Int32, ((toString (if (x == 1) = true then (1 : Int32) else -1) == "- 1") ||
      (toString (if (x == 1) = true then (1 : Int32) else -1) == "-1")) = decide (x ≠ 1) := by
    intro x
    by_cases hx : x = 1
    · subst hx
      rfl
    · have hne : (x == 1) = false := beq_eq_false_iff_ne.mpr hx
      rw [hne, decide_eq_true hx]
      rfl
  unfold dynamicAxes stridedAxes TensorArg.stridesHint
  rw [strideOne_spec, List.map_map, List.map_map, List.zipIdx_map, List.filter_map, List.map_map]
  congr 1
  apply List.filter_congr
  intro p _
  exact htext p.1

/-- An entry that compiles carries what the launcher passed. -/
private theorem new_eq_ok {strideArgs : List Int32} {spec : Option SpecializationBits}
    {e : TensorInput} (h : TensorInput.new param strideArgs spec optHints = .ok e) :
    e = { param
          staticStrides := strideArgs.map toString
          mutable := param.mutability || param.kind ≠ .tensor
          maxDivisibility := optHints.maxDivisibility
          spec } := by
  obtain ⟨_, -, he⟩ := map_eq_ok.mp h
  exact he.symm

/-- A partition has the rank of its tensor. -/
private theorem partitionLaunchGrid_rank {shape : List Int32}
    {partitionShape : List UInt64} {g : Grid}
    (h : partitionLaunchGrid shape partitionShape = .ok g) :
    partitionShape.length = shape.length := by
  unfold partitionLaunchGrid at h
  split at h
  · cases h
  split at h
  · cases h
  · rename_i hne
    exact not_not.mp hne

/-- The argument of a launch has the rank of its parameter. -/
private theorem checkArg_rank {valid : List Int32} {g : Option Grid}
    (hcheck : checkArg param valid arg = .ok ()) (hgrid : arg.grid = .ok g) :
    valid.length = arg.object.shape.length := by
  unfold checkArg at hcheck
  split at hcheck
  · cases hcheck
  cases arg with
  | input t =>
    dsimp only at hcheck
    split at hcheck
    · cases hcheck
    · rename_i hne
      exact not_not.mp hne
  | output p =>
    dsimp only at hcheck
    split at hcheck
    · cases hcheck
    rename_i hne
    obtain ⟨grid, hgrid, -⟩ := map_eq_ok.mp hgrid
    exact (not_not.mp hne).trans (partitionLaunchGrid_rank hgrid)
  | mapped p mapShape n =>
    dsimp only at hcheck
    split at hcheck
    · cases hcheck
    rename_i hne
    unfold TensorArg.grid at hgrid
    obtain ⟨grid, hgrid, -⟩ := bind_eq_ok.mp hgrid
    exact (not_not.mp hne).trans (partitionLaunchGrid_rank hgrid)

/-- What a launch compiles and pushes. -/
private theorem launch_spec (h : launch param optHints arg = .ok l) :
    arg.isOutput = (param.mutability || param.kind ≠ .tensor) ∧
      l = { entry :=
              { param
                staticStrides := arg.stridesHint.map toString
                mutable := arg.isOutput
                maxDivisibility := optHints.maxDivisibility
                spec := some arg.object.spec }
            args := arg.pushKernelArgs } ∧
      param.shape.length = arg.object.shape.length := by
  unfold launch at h
  split at h
  · cases h
  rename_i hkind
  rw [not_not] at hkind
  obtain ⟨entry, hentry, h⟩ := bind_eq_ok.mp h
  obtain ⟨valid, hvalid, h⟩ := bind_eq_ok.mp h
  obtain ⟨_, hcheck, h⟩ := bind_eq_ok.mp h
  obtain ⟨g, hgrid, h⟩ := bind_eq_ok.mp h
  have hnew : TensorInput.new param arg.stridesHint (some arg.object.spec) optHints =
      .ok entry := by
    cases hres : TensorInput.new param arg.stridesHint (some arg.object.spec) optHints with
    | error err =>
      rw [hres] at hentry
      cases hentry
    | ok e =>
      rw [hres] at hentry
      cases hentry
      rfl
  have hrank : param.shape.length = arg.object.shape.length :=
    (mapM_eq_ok hvalid).1.symm.trans (checkArg_rank hcheck hgrid)
  cases h
  refine ⟨hkind, ?_, hrank⟩
  rw [new_eq_ok hnew, hkind]

/-- The pushed values start with those of the tensor. -/
private theorem pushKernelArgs_object (arg : TensorArg) :
    ∃ rest, arg.pushKernelArgs = arg.object.pushKernelArgs ++ rest := by
  cases arg with
  | input t => exact ⟨[], (List.append_nil _).symm⟩
  | output p => exact ⟨_, rfl⟩
  | mapped p _ _ => exact ⟨_, rfl⟩

/-- The dynamic extents of the view of the entry are those of the argument. -/
private theorem dynamicAxes_view (h : launch param optHints arg = .ok l) :
    dynamicAxes l.entry.tensorViewShape = arg.viewAxes param := by
  obtain ⟨-, hl, hrank⟩ := launch_spec h
  have hall : ∀ n, dynamicAxes (List.replicate n "-1") = List.range n := by
    intro n
    unfold dynamicAxes
    rw [List.filter_eq_self.mpr, List.zipIdx_map_snd, List.length_replicate, List.range_eq_range']
    intro p hp
    rw [List.mem_zipIdx_iff_getElem?] at hp
    have := List.eq_of_mem_replicate (List.mem_of_getElem? hp)
    rw [this]
    rfl
  rw [hl]
  unfold TensorInput.tensorViewShape TensorInput.rank
  cases arg with
  | input t => rfl
  | output p => exact (hall _).trans (congrArg List.range hrank)
  | mapped p _ _ => exact (hall _).trans (congrArg List.range hrank)

end Launch

/-- **Assumptions of a kernel entry.**  Under every option of the hints and the launch, each
assumption of the entry holds of the value that is pushed for its variable exactly when the values
are as the hints say by position. -/
theorem assumptions_hold_iff (param : TensorParam) (optHints : OptimizationHints)
    (options : CompileOptions) (arg : TensorArg) (l : Launched)
    (h : launch param (optHints.applyCompileOptions options) arg = .ok l) :
    (∀ s ∈ l.entry.generateStatements, s.HoldsIn l.env) ↔
      AssumptionsMet (optHints.targetGpuName.bind fun _ =>
        options.maxDivisibility.or optHints.maxDivisibility) param arg := by
  obtain ⟨-, hl, hrank⟩ := launch_spec h
  obtain ⟨rest, hargs⟩ := pushKernelArgs_object arg
  have hview := dynamicAxes_view h
  have hstrides : dynamicAxes l.entry.staticStrides = stridedAxes arg.object.strides := by
    rw [hl]
    exact dynamicAxes_stridesHint arg
  have hcap : l.entry.maxDivisibility = optHints.targetGpuName.bind fun _ =>
      options.maxDivisibility.or optHints.maxDivisibility := by
    rw [hl]
    exact optHints.maxDivisibility_applyCompileOptions options
  have hspec : l.entry.spec = some arg.object.spec := by rw [hl]
  have hr : l.entry.rank = arg.object.shape.length := by
    rw [hl]
    exact hrank
  have hpush : l.args = arg.object.pushKernelArgs ++ rest := by
    rw [hl]
    exact hargs
  have hdims := assumeDynamic_holds hspec SpecializationBits.shapeDiv .dim arg.object.shape
    (arg.viewAxes param) rfl (fun a x hx => env_dim l hr hpush hx) (viewAxes_sublist hrank)
  have hsteps := assumeDynamic_holds hspec SpecializationBits.strideDiv .stride arg.object.strides
    (stridedAxes arg.object.strides) (strideDiv_spec arg.object)
    (fun a x hx => env_stride l hr hpush hx) (axes_sublist _ fun x => decide (x ≠ 1))
  have hgcd : (DivHint.fromPtr arg.object.ptr).divisor.toInt =
      Int.gcd (arg.object.ptr.toNat : ℤ) 16 := fromPtr_divisor arg.object.ptr
  have hptr := assumeDiv_holds (e := l.entry) (lookup_ptr l hpush) hgcd
  rw [hcap] at hdims hsteps hptr
  rw [generateStatements_hold]
  unfold AssumptionsMet TensorInput.getDynamicElements
  rw [← hdims, ← hsteps, hview, hstrides, hspec]
  exact and_congr_right fun _ => and_congr_right fun _ => hptr

/-- A parameter with a static extent before a dynamic one, and an argument for it. -/
def mixedParam : TensorParam where
  elementType := "f32"
  kind := .tensor
  mutability := false
  shape := ["16", "- 1"]
  shapeParam := "\x7b[16, - 1]\x7d"

/-- The tensor of the example. -/
def mixedTensor (dim : Int32) : Tensor where
  dtype := "f32"
  ptr := 4096
  shape := [16, dim]
  strides := [dim, 1]
  rank_eq := rfl

/-- No options. -/
def noOptions : CompileOptions := ⟨none, none, none, none, none⟩

/-- No hints. -/
def noHints : OptimizationHints := { OptimizationHints.empty with targetGpuName := some "sm_100" }

/-- The assumptions of the example hold. -/
theorem assumptions_hold_iff_mixed :
    ∃ l, launch mixedParam (noHints.applyCompileOptions noOptions)
      (.input (mixedTensor 32)) = .ok l ∧
      ((∀ s ∈ l.entry.generateStatements, s.HoldsIn l.env) ↔
        AssumptionsMet none mixedParam (.input (mixedTensor 32))) :=
  ⟨_, rfl, assumptions_hold_iff mixedParam noHints noOptions (.input (mixedTensor 32)) _ rfl⟩

/-- The dynamic extent of three is assumed to be divisible by sixteen, as the static one is. -/
theorem static_hint_misplaced :
    ∃ l, launch mixedParam (noHints.applyCompileOptions noOptions)
      (.input (mixedTensor 3)) = .ok l ∧
      ¬ ∀ s ∈ l.entry.generateStatements, s.HoldsIn l.env := by
  refine ⟨_, rfl, ?_⟩
  intro h
  obtain ⟨x, hx, hdvd⟩ := h (.assumeDivBy (.dim 1) 16) (by decide)
  cases hx
  revert hdvd
  decide

end CudaOxide.Tile
