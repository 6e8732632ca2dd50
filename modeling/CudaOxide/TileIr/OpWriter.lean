import CudaOxide.TileIr.DebugInfo
import CudaOxide.TileIr.Requirements

/-!
# The body of an operation

What the writer appends after an opcode, operation by operation
(`cutile-ir/src/bytecode/op_writer.rs`).  A body is a list of fields in the order they are written;
a check that fails and an index out of range are fields too, at which the writer stops.  The regions
of an operation always come last.

* `opFields` — the fields of an operation, `writesRegions` whether regions follow.
* `encodedOperands` — the operands among the fields.
* `opFields_sound` — these are operands of the operation, and only they can be without an index.
-/

namespace CudaOxide.TileIr

open CudaOxide.Lib

/-! ### Errors -/

/-- Why the writer fails. -/
inductive WriteError where
  | unsupportedVersion (v : BytecodeVersion)
  | requiresVersion (subject : Subject) (required target : BytecodeVersion)
  | missingAttribute (name : String) (op : Opcode)
  | missingInterfaceAttribute (name : String) (op : Opcode)
  | operandNotFound (v : Value) (op : Opcode)
  | operandGroupNotFound (group i : ℕ)
  | variadicOperandGroupNotFound (group i : ℕ)
  | tooManyTokens (op : Opcode)
  | negativeIndexCount
  | inboundsElements
  | inboundsCount (op : Opcode) (rank : ℕ)
  | returnInsideFor
  | functionMissing (name : String)
  | argAttrsCount
  | pointerAttributeBase
  | declarationFlags
  deriving DecidableEq, Repr

/-- The error says that an operand has no index. -/
def WriteError.IsMissingIndex : WriteError → Prop
  | operandNotFound _ _ | operandGroupNotFound _ _ | variadicOperandGroupNotFound _ _ => True
  | _ => False

/-! ### Fields -/

/-- A part of an operation's bytes, before its operands have numbers. -/
inductive Field where
  | bytes (bs : Bytes)
  | typeIndex (ty : Ty)
  /-- An attribute without its tag, and one with it. -/
  | attr (a : Attribute)
  | selfContained (a : Attribute)
  /-- The index of an operand, and the error where it has none. -/
  | operand (v : Value) (missing : WriteError)
  | stop (s : Stop WriteError)

namespace Field

/-- A number. -/
def varint (n : ℕ) : Field := bytes (Varint.encode n)

/-- The writer stops here. -/
def fail (e : WriteError) : Field := stop (.err e)

/-- `require_version` -/
def requireVersion (subject : Subject) (required version : BytecodeVersion) : List Field :=
  if version < required then [fail (.requiresVersion subject required version)] else []

end Field

namespace Operation

variable (op : Operation) (version : BytecodeVersion)

/-- The attribute of the operation. -/
def findAttr (name : String) : Option Attribute := TileIr.findAttr op.attributes name

/-- The number of a segment, as `i32`. -/
def segmentSize : Attribute → Int32
  | .integer v _ => v.toInt32
  | _ => 0

/-- The sizes of the operand groups: one operand each where they are not given
(`operand_segment_sizes`). -/
def operandSegmentSizes : List Int32 :=
  (op.attributes.findSome? fun p =>
    match p.2 with
    | .array elems => if p.1 = "operandSegmentSizes" then some (elems.map segmentSize) else none
    | _ => none).getD (List.replicate op.operands.length 1)

/-- The size of an operand group, 0 where none is given. -/
def groupSize (group : ℕ) : Int32 := op.operandSegmentSizes[group]?.getD 0

/-- A group size as `usize`: a negative one wraps around. -/
def asUsize (size : Int32) : ℕ := size.toInt64.toUInt64.toNat

/-- `operand_group_offset`; the sum may overflow. -/
def operandGroupOffset (group : ℕ) : ℕ :=
  ((op.operandSegmentSizes.take group).map asUsize).sum

/-- `size` operands from `offset` on; the writer panics where there are fewer. -/
def operandsFrom (offset size : ℕ) (missing : Value → ℕ → WriteError) : List Field :=
  (((op.operands.drop offset).take size).zipIdx.map fun p => .operand p.1 (missing p.1 p.2)) ++
    if size ≤ op.operands.length - offset then [] else [.stop (.panic .indexOutOfBounds)]

/-- One group of `size` operands (`write_operand_group`, which is only called for one). -/
def operandGroup (group : ℕ) : List Field :=
  if op.operandGroupOffset group < 2 ^ 64 then
    op.operandsFrom (op.operandGroupOffset group) 1 fun _ => .operandGroupNotFound group
  else [.stop (.panic .overflow)]

/-- A group with its size (`write_variadic_operand_group`). -/
def variadicOperandGroup (group : ℕ) : List Field :=
  if op.operandGroupOffset group < 2 ^ 64 then
    .varint (asUsize (op.groupSize group)) ::
      op.operandsFrom (op.operandGroupOffset group) (asUsize (op.groupSize group))
        fun _ => .variadicOperandGroupNotFound group
  else [.stop (.panic .overflow)]

/-- The group has operands. -/
def hasOperandGroup (group : ℕ) : Bool := 0 < op.groupSize group

/-- A group that is only written where it is not empty. -/
def optionalOperandGroup (group : ℕ) : List Field :=
  if op.hasOperandGroup group then op.operandGroup group else []

/-- Operands, each with the error that a missing number gives. -/
def operandFields (vs : List Value) : List Field :=
  vs.map fun v => .operand v (.operandNotFound v op.opcode)

/-- All operands, without their number and with it (`write_operands`). -/
def allOperands : List Field := op.operandFields op.operands

/-- The number of operands and the operands. -/
def sizedOperands : List Field := .varint op.operands.length :: op.operandFields op.operands

/-- The types of the results. -/
def resultTypeFields : List Field := op.resultTypes.map .typeIndex

/-- The number of results. -/
def resultCount : Field := .varint op.resultTypes.length

/-! ### Attributes -/

/-- The operation has the attribute. -/
def hasAttr (name : String) : Bool := (op.findAttr name).isSome

/-- `flag_if_bool_true`: an integer that is not zero counts too. -/
def boolTrue (name : String) : Bool :=
  match op.findAttr name with
  | some (.bool b) => b
  | some (.integer v _) => v ≠ 0
  | _ => false

/-- `write_inline_attr` -/
def inlineAttr (name : String) : List Field :=
  match op.findAttr name with
  | some a => [.attr a]
  | none => [.fail (.missingAttribute name op.opcode)]

/-- `write_inline_attr_or_default` -/
def inlineAttrOr (name : String) (default : ℕ) : List Field :=
  match op.findAttr name with
  | some a => [.attr a]
  | none => [.varint default]

/-- An attribute that is only written where it is there. -/
def optionalAttr (name : String) : List Field := if op.hasAttr name then op.inlineAttr name else []

/-- `write_interface_attr` -/
def interfaceAttr (name : String) : List Field :=
  match op.findAttr name with
  | some a => [.selfContained a]
  | none => [.fail (.missingInterfaceAttribute name op.opcode)]

/-- The attribute is there and is not the integer `default`. -/
def isNot (name : String) (default : Int64) : Bool :=
  match op.findAttr name with
  | some (.integer v _) => v ≠ default
  | some _ => true
  | none => false

/-- Bits of a flags word, lowest first. -/
def flagsWord (bits : List Bool) : ℕ := bits.foldr (fun b n => b.toNat + 2 * n) 0

/-- A word of flags. -/
def flags (bits : List Bool) : Field := .varint (flagsWord bits)

/-- The version that introduced the `inbounds` of the operation. -/
def inboundsSince : BytecodeVersion :=
  match op.opcode with
  | .atomicRedViewTko | .multimemLoadReduceViewTko | .multimemReduceViewTko
  | .multimemStoreViewTko => .v13_5
  | _ => .v13_4

/-- The vector of `inbounds`, one byte for each index; no attribute means all false. -/
def inboundsFields (values : List Bool) : List Field :=
  (if true ∈ values then
    Field.requireVersion (.attribute op.opcode "inbounds") op.inboundsSince version else []) ++
  if op.inboundsSince ≤ version then
    [.varint values.length, .bytes (values.map fun b => if b then 1 else 0)] else []

/-- A boolean element. -/
def asBool : Attribute → Option Bool
  | .bool b => some b
  | _ => none

/-- `write_inbounds` -/
def inbounds (indicesGroup : ℕ) : List Field :=
  let size := op.groupSize indicesGroup
  let rank := asUsize size
  if size < 0 then [.fail .negativeIndexCount]
  else
    match op.findAttr "inbounds" with
    | none => op.inboundsFields version (List.replicate rank false)
    | some (.array elems) =>
      if elems.length = rank then
        match elems.mapM asBool with
        | some values => op.inboundsFields version values
        | none => [.fail .inboundsElements]
      else [.fail (.inboundsCount op.opcode rank)]
    | some _ => [.fail (.inboundsCount op.opcode rank)]

end Operation

/-! ### Operations -/

section

variable (m : Module) (version : BytecodeVersion) (op : Operation)

open Operation

/-- The number of format arguments of a `print`, and whether a token follows them
(`print_operand_groups`). -/
def printOperandGroups : Run WriteError (ℕ × Bool) :=
  if op.hasAttr "operandSegmentSizes" then
    let numArgs := op.groupSize 0
    .ok (Min.min (if numArgs < 0 then 0 else asUsize numArgs) op.operands.length,
      op.hasOperandGroup 1)
  else
    match op.operands.getLast? with
    | none => .ok (0, false)
    | some v =>
      match m.values[v]? with
      | some data =>
        let hasToken := data.ty = .token
        .ok (op.operands.length - (decide hasToken).toNat, hasToken)
      | none => Run.panic .indexOutOfBounds

/-- `print`: its groups, then its text and arguments. -/
def printFields : List Field :=
  match printOperandGroups m op with
  | .error s => [.stop s]
  | .ok (numArgs, hasToken) =>
    flags [hasToken] :: op.inlineAttr "str" ++ .varint numArgs ::
      op.operandFields (op.operands.take numArgs) ++
        if hasToken then op.operandsFrom numArgs 1 fun v _ => .operandNotFound v op.opcode else []

/-- The memory operations share their order: flags, ordering, scope and hints where they are
there. -/
def memoryAttrs (groups : List Bool) : List Field :=
  flags (op.hasAttr "memory_scope" :: op.hasAttr "optimization_hints" :: groups) ::
    op.inlineAttr "memory_ordering_semantics" ++ op.optionalAttr "memory_scope" ++
      op.optionalAttr "optimization_hints"

/-- The atomic operations write ordering and scope always. -/
def atomicAttrs (groups : List Bool) : List Field :=
  flags groups :: op.inlineAttr "memory_ordering_semantics" ++ op.inlineAttr "memory_scope"

/-- The multimem operations. -/
def multimemFields : List Field :=
  let load : Bool := op.opcode = .multimemLoadReduceViewTko
  let reduce : Bool := op.opcode = .multimemReduceViewTko
  let tokenGroup := if load then 2 else 3
  let indicesGroup := if load then 1 else 2
  let token := op.hasOperandGroup tokenGroup
  let scope := !reduce && op.hasAttr "memory_scope"
  op.resultCount :: op.resultTypeFields ++
    flags (if reduce then [token] else [scope, token]) ::
    op.inlineAttr "memory_ordering_semantics" ++
    -- the token is bit 0 of the flags of a reduction, whose scope is always written
    (if reduce || scope then op.inlineAttr "memory_scope" else []) ++
    (if load || reduce then op.inlineAttrOr "reduction" 0 else []) ++
    op.inbounds version indicesGroup ++ op.operandGroup 0 ++
    (if load then [] else op.operandGroup 1) ++ op.variadicOperandGroup indicesGroup ++
    if token then op.operandGroup tokenGroup else []

/-- Fields that an older version leaves out. -/
def fieldsSince (since : BytecodeVersion) (fs : List Field) : List Field :=
  if since ≤ version then fs else []

/-- A requirement that only holds where the feature is used. -/
def requireIf (used : Bool) (subject : Subject) (f : Feature) : List Field :=
  if used then Field.requireVersion subject f.since version else []

/-- What follows the version checks of an operation: the arms of `write_op_body`. -/
def opcodeFields : List Field :=
  match op.opcode with
  | .absF | .absI | .andI | .atan2 | .bitcast | .broadcast | .ceil | .cos | .cosH | .floor | .fPowI
  | .intToPtr | .log | .log2 | .makeGatherScatterView | .makeStridedView | .memoryFenceAliasTko
  | .mmaFScaled | .mulhiI | .negF | .offset | .orI | .pack | .pow | .ptrToInt | .ptrToPtr | .remF
  | .reshape | .sin | .sinH | .tan | .unpack | .xOrI =>
    op.resultTypeFields ++ op.allOperands
  -- the hints of a `select` stay in the IR
  | .select => op.resultTypeFields ++ op.allOperands
  | .exp =>
    op.resultTypeFields ++
      requireIf version (op.isNot "rounding_mode" 5) (.feature .expRounding) .expRounding ++
      fieldsSince version .v13_3 (op.inlineAttrOr "rounding_mode" 5) ++ op.allOperands
  | .mmaF =>
    op.resultTypeFields ++
      requireIf version (op.boolTrue "fast_acc") (.feature .fastAccumulation) .fastAccumulation ++
      fieldsSince version .v13_3 [flags [op.boolTrue "fast_acc"]] ++ op.allOperands
  | .alloca =>
    op.resultTypeFields ++ flags [op.boolTrue "global"] :: op.inlineAttr "num_elem" ++
      op.inlineAttr "alignment"
  | .negI => op.resultTypeFields ++ op.inlineAttrOr "overflow" 0 ++ op.allOperands
  | .tanH => op.resultTypeFields ++ op.inlineAttrOr "rounding_mode" 5 ++ op.allOperands
  | .iota => op.resultTypeFields
  | .addI | .mulI | .subI | .shLI | .truncI =>
    op.resultTypeFields ++ op.inlineAttr "overflow" ++ op.allOperands
  | .shRI | .extI => op.resultTypeFields ++ op.inlineAttr "signedness" ++ op.allOperands
  | .cat => op.resultTypeFields ++ op.inlineAttr "dim" ++ op.allOperands
  | .permute => op.resultTypeFields ++ op.inlineAttr "permutation" ++ op.allOperands
  | .assertOp => op.resultTypeFields ++ op.inlineAttr "message" ++ op.allOperands
  | .assumeOp => op.resultTypeFields ++ op.interfaceAttr "predicate" ++ op.allOperands
  | .cmpF =>
    op.resultTypeFields ++ op.inlineAttr "comparison_predicate" ++
      op.inlineAttr "comparison_ordering" ++ op.allOperands
  | .cmpI =>
    op.resultTypeFields ++ op.inlineAttr "comparison_predicate" ++ op.inlineAttr "signedness" ++
      op.allOperands
  | .constantOp => op.resultTypeFields ++ op.inlineAttr "value"
  | .divI =>
    op.resultTypeFields ++ op.inlineAttr "signedness" ++ op.inlineAttr "rounding" ++ op.allOperands
  | .fToF => op.resultTypeFields ++ op.inlineAttr "rounding_mode" ++ op.allOperands
  | .fToI =>
    op.resultTypeFields ++
      requireIf version (op.boolTrue "saturating") (.feature .saturatingFToI) .saturatingFToI ++
      fieldsSince version .v13_4 [flags [op.boolTrue "saturating"]] ++
      op.inlineAttr "signedness" ++ op.inlineAttr "rounding_mode" ++ op.allOperands
  | .iToF =>
    op.resultTypeFields ++ op.inlineAttr "signedness" ++ op.inlineAttr "rounding_mode" ++
      op.allOperands
  | .maxI | .minI | .remI => op.resultTypeFields ++ op.inlineAttr "signedness" ++ op.allOperands
  | .mmaI =>
    op.resultTypeFields ++ op.inlineAttr "signedness_lhs" ++ op.inlineAttr "signedness_rhs" ++
      op.allOperands
  | .getNumTileBlocks | .getTileBlockId | .makeToken => op.resultTypeFields
  | .makePartitionView => op.resultTypeFields ++ op.allOperands
  | .joinTokens => op.resultCount :: op.resultTypeFields ++ op.sizedOperands
  | .makeTensorView =>
    op.resultCount :: op.resultTypeFields ++ op.operandGroup 0 ++ op.variadicOperandGroup 1 ++
      op.variadicOperandGroup 2
  | .getGlobal => op.resultTypeFields ++ op.inlineAttr "name"
  | .extract | .insert => op.resultCount :: op.resultTypeFields ++ op.sizedOperands
  | .addF | .divF | .mulF | .subF | .fma | .sqrt =>
    op.resultTypeFields ++ flags [op.hasAttr "flush_to_zero"] :: op.inlineAttr "rounding_mode" ++
      op.allOperands
  | .exp2 | .rsqrt => op.resultTypeFields ++ flags [op.hasAttr "flush_to_zero"] :: op.allOperands
  | .maxF | .minF =>
    op.resultTypeFields ++ flags [op.hasAttr "propagate_nan", op.hasAttr "flush_to_zero"] ::
      op.allOperands
  | .getIndexSpaceShape | .getTensorShape =>
    op.resultCount :: op.resultTypeFields ++ op.allOperands
  | .globalOp =>
    op.resultTypeFields ++
      requireIf version (op.boolTrue "constant") (.feature .globalConstant) .globalConstant ++
      requireIf version (op.isNot "symbol_visibility" 0) (.feature .globalVisibility)
        .globalVisibility ++
      fieldsSince version .v13_3 [flags [op.boolTrue "constant"]] ++ op.inlineAttr "sym_name" ++
      op.inlineAttr "value" ++ op.inlineAttr "alignment" ++
      fieldsSince version .v13_3 (op.inlineAttrOr "symbol_visibility" 0)
  | .moduleOp =>
    op.resultTypeFields ++
      requireIf version (op.hasAttr "producer") (.feature .producer) .producer ++
      fieldsSince version .v13_3 [flags [op.hasAttr "producer"]] ++ op.inlineAttr "sym_name" ++
      fieldsSince version .v13_3 (op.optionalAttr "producer")
  | .breakOp | .continueOp | .returnOp | .yieldOp =>
    op.resultCount :: op.resultTypeFields ++ op.sizedOperands
  | .print => op.resultCount :: op.resultTypeFields ++ printFields m op
  | .forOp =>
    op.resultCount :: op.resultTypeFields ++ flags [op.hasAttr "unsigned_cmp"] :: op.sizedOperands
  | .loopOp => op.resultCount :: op.resultTypeFields ++ op.sizedOperands
  | .ifOp => op.resultCount :: op.resultTypeFields ++ op.allOperands
  | .reduce =>
    op.resultCount :: op.resultTypeFields ++ op.inlineAttr "dim" ++ op.inlineAttr "identities" ++
      op.sizedOperands
  | .scan =>
    op.resultCount :: op.resultTypeFields ++ op.inlineAttr "dim" ++ op.inlineAttr "reverse" ++
      op.inlineAttr "identities" ++ op.sizedOperands
  | .atomicCAS =>
    op.resultTypeFields ++ atomicAttrs op [op.hasOperandGroup 3, op.hasOperandGroup 4] ++
      op.operandGroup 0 ++ op.operandGroup 1 ++ op.operandGroup 2 ++ op.optionalOperandGroup 3 ++
      op.optionalOperandGroup 4
  | .atomicRMW =>
    op.resultTypeFields ++ atomicAttrs op [op.hasOperandGroup 2, op.hasOperandGroup 3] ++
      op.inlineAttr "mode" ++ op.operandGroup 0 ++ op.operandGroup 1 ++
      op.optionalOperandGroup 2 ++ op.optionalOperandGroup 3
  | .atomicRedViewTko =>
    op.resultCount :: op.resultTypeFields ++ atomicAttrs op [op.hasOperandGroup 3] ++
      op.inlineAttr "mode" ++ op.inbounds version 1 ++ op.operandGroup 0 ++
      op.variadicOperandGroup 1 ++ op.operandGroup 2 ++ op.optionalOperandGroup 3
  | .previewCall =>
    op.resultCount :: op.resultTypeFields ++ .varint 0 :: op.inlineAttr "callee" ++
      op.inlineAttr "const_args" ++ op.sizedOperands
  | .loadPtrTko =>
    op.resultTypeFields ++
      memoryAttrs op [op.hasOperandGroup 1, op.hasOperandGroup 2, op.hasOperandGroup 3] ++
      op.operandGroup 0 ++ op.optionalOperandGroup 1 ++ op.optionalOperandGroup 2 ++
      op.optionalOperandGroup 3
  | .loadViewTko =>
    op.resultCount :: op.resultTypeFields ++
      memoryAttrs op [op.hasOperandGroup 2, op.boolTrue "valid_check"] ++
      op.inbounds version 1 ++ (if op.boolTrue "valid_check" then [.bytes [1]] else []) ++
      op.operandGroup 0 ++ op.variadicOperandGroup 1 ++ op.optionalOperandGroup 2
  | .storePtrTko =>
    op.resultTypeFields ++ memoryAttrs op [op.hasOperandGroup 2, op.hasOperandGroup 3] ++
      op.operandGroup 0 ++ op.operandGroup 1 ++ op.optionalOperandGroup 2 ++
      op.optionalOperandGroup 3
  | .storeViewTko =>
    op.resultCount :: op.resultTypeFields ++ memoryAttrs op [op.hasOperandGroup 3] ++
      op.inbounds version 2 ++ op.operandGroup 0 ++ op.operandGroup 1 ++
      op.variadicOperandGroup 2 ++ op.optionalOperandGroup 3
  | .multimemLoadReduceViewTko | .multimemReduceViewTko | .multimemStoreViewTko =>
    multimemFields version op
  | .gdcLaunchDependentsTko | .gdcWaitTko =>
    if 1 < op.operands.length then [.fail (.tooManyTokens op.opcode)]
    else op.resultTypeFields ++ flags [!op.operands.isEmpty] :: op.allOperands
  | .entry =>
    op.resultTypeFields ++
      flags [op.hasAttr "arg_attrs", op.hasAttr "res_attrs", op.hasAttr "optimization_hints"] ::
      op.inlineAttr "sym_name" ++ op.inlineAttr "function_type" ++ op.optionalAttr "arg_attrs" ++
      op.optionalAttr "res_attrs" ++ op.optionalAttr "optimization_hints"

/-- The operations whose regions are written. -/
def Opcode.writesRegions : Opcode → Bool
  | .moduleOp | .forOp | .loopOp | .ifOp | .reduce | .scan | .entry => true
  | _ => false

/-- The version checks on an operation and its attributes. -/
def requirementFields : List Field :=
  Field.requireVersion (.opcode op.opcode) (opcodeRequirement op.opcode).since version ++
    op.attributes.flatMap fun p =>
      match attributeFeature op.opcode p.1 p.2 with
      | some f => Field.requireVersion (.feature f) f.since version
      | none => []

/-- The fields of `write_op_body`, without the regions. -/
def opFields : List Field := requirementFields version op ++ opcodeFields m version op

end

/-! ### What the fields are -/

/-- The operands that are encoded, in order. -/
def encodedOperands (fields : List Field) : List Value :=
  fields.filterMap fun
    | .operand v _ => some v
    | _ => none

/-- The operand of a field is an operand of the operation, and a check that fails does not report an
operand without an index. -/
def Field.Sound (op : Operation) : Field → Prop
  | operand v missing => v ∈ op.operands ∧ missing.IsMissingIndex
  | stop s => ∀ e, s = .err e → ¬e.IsMissingIndex
  | _ => True

/-- Every field is sound. -/
def AllSound (op : Operation) (fs : List Field) : Prop := ∀ f ∈ fs, f.Sound op

section AllSound

variable {op : Operation} {version : BytecodeVersion} {fs gs : List Field} {f : Field}

/-- No fields are sound. -/
@[simp] theorem allSound_nil : AllSound op [] := fun _ hf => absurd hf List.not_mem_nil

/-- Fields are sound one by one. -/
@[simp] theorem allSound_cons : AllSound op (f :: fs) ↔ f.Sound op ∧ AllSound op fs :=
  List.forall_mem_cons

/-- Fields in a row are sound when both parts are. -/
@[simp] theorem allSound_append : AllSound op (fs ++ gs) ↔ AllSound op fs ∧ AllSound op gs :=
  List.forall_mem_append

/-- Fields behind a condition are sound when both branches are. -/
theorem allSound_ite {c : Prop} [Decidable c] :
    AllSound op (if c then fs else gs) ↔ (c → AllSound op fs) ∧ (¬c → AllSound op gs) := by
  split <;> simp [*]

@[simp] theorem sound_bytes {bs : Bytes} : (Field.bytes bs).Sound op := trivial

@[simp] theorem sound_varint {n : ℕ} : (Field.varint n).Sound op := trivial

@[simp] theorem sound_flags {bits : List Bool} : (Operation.flags bits).Sound op := trivial

@[simp] theorem sound_resultCount : op.resultCount.Sound op := trivial

@[simp] theorem sound_attr {a : Attribute} : (Field.attr a).Sound op := trivial

@[simp] theorem sound_selfContained {a : Attribute} : (Field.selfContained a).Sound op := trivial

@[simp] theorem sound_fail {e : WriteError} : (Field.fail e).Sound op ↔ ¬e.IsMissingIndex := by
  constructor
  · exact fun h => h e rfl
  · intro h e' he
    cases he
    exact h

/-- A panic is sound: it asks for no operand. -/
@[simp] theorem sound_panic {p : Panic} : (Field.stop (.panic p)).Sound op := by
  intro e he
  cases he

/-- The version check asks for no operand. -/
@[simp] theorem allSound_requireVersion {subject : Subject} {required : BytecodeVersion} :
    AllSound op (Field.requireVersion subject required version) := by
  unfold Field.requireVersion
  split
  · simp [WriteError.IsMissingIndex]
  · simp

/-- The check of a feature asks for no operand. -/
@[simp] theorem allSound_requireIf {used : Bool} {subject : Subject} {feature : Feature} :
    AllSound op (requireIf version used subject feature) := by
  unfold requireIf
  split <;> simp

/-- Fields of a later version are sound when they are. -/
theorem allSound_fieldsSince {since : BytecodeVersion} (h : AllSound op fs) :
    AllSound op (fieldsSince version since fs) := by
  unfold fieldsSince
  split
  · exact h
  · simp

/-- Operands of the operation are sound. -/
theorem allSound_operandFields {vs : List Value} (h : ∀ v ∈ vs, v ∈ op.operands) :
    AllSound op (op.operandFields vs) := by
  intro f hf
  obtain ⟨v, hv, rfl⟩ := List.mem_map.mp hf
  exact ⟨h v hv, trivial⟩

/-- All operands are sound. -/
@[simp] theorem allSound_allOperands : AllSound op op.allOperands :=
  allSound_operandFields fun _ hv => hv

/-- The counted operands are sound. -/
@[simp] theorem allSound_sizedOperands : AllSound op op.sizedOperands :=
  allSound_cons.mpr ⟨sound_varint, allSound_allOperands⟩

/-- A range of the operands is sound. -/
theorem allSound_operandsFrom {offset size : ℕ} {missing : Value → ℕ → WriteError}
    (h : ∀ v i, (missing v i).IsMissingIndex) :
      AllSound op (op.operandsFrom offset size missing) := by
  refine allSound_append.mpr ⟨?_, ?_⟩
  · intro f hf
    obtain ⟨p, hp, rfl⟩ := List.mem_map.mp hf
    have hmem := List.mem_of_mem_take (List.fst_mem_of_mem_zipIdx hp)
    exact ⟨List.mem_of_mem_drop hmem, h _ _⟩
  · split <;> simp

/-- The operands of a group are sound. -/
@[simp] theorem allSound_operandGroup {group : ℕ} : AllSound op (op.operandGroup group) := by
  unfold Operation.operandGroup
  split
  · apply allSound_operandsFrom
    exact fun _ _ => trivial
  · simp

/-- The operand of an optional group is sound. -/
@[simp] theorem allSound_optionalOperandGroup {group : ℕ} :
    AllSound op (op.optionalOperandGroup group) := by
  unfold Operation.optionalOperandGroup
  split <;> simp

/-- The operands of a variadic group are sound. -/
@[simp] theorem allSound_variadicOperandGroup {group : ℕ} :
    AllSound op (op.variadicOperandGroup group) := by
  unfold Operation.variadicOperandGroup
  split
  · refine allSound_cons.mpr ⟨sound_varint, ?_⟩
    apply allSound_operandsFrom
    exact fun _ _ => trivial
  · simp

/-- The result types are sound. -/
@[simp] theorem allSound_resultTypeFields : AllSound op op.resultTypeFields := by
  intro f hf
  obtain ⟨ty, -, rfl⟩ := List.mem_map.mp hf
  trivial

/-- An attribute is sound. -/
@[simp] theorem allSound_inlineAttr {name : String} : AllSound op (op.inlineAttr name) := by
  unfold Operation.inlineAttr
  split <;> simp [WriteError.IsMissingIndex]

/-- An optional attribute is sound. -/
@[simp] theorem allSound_optionalAttr {name : String} : AllSound op (op.optionalAttr name) := by
  unfold Operation.optionalAttr
  split <;> simp

/-- An attribute with a default is sound. -/
@[simp] theorem allSound_inlineAttrOr {name : String} {default : ℕ} :
    AllSound op (op.inlineAttrOr name default) := by
  unfold Operation.inlineAttrOr
  split <;> simp

/-- An attribute of an interface is sound. -/
@[simp] theorem allSound_interfaceAttr {name : String} : AllSound op (op.interfaceAttr name) := by
  unfold Operation.interfaceAttr
  split <;> simp [WriteError.IsMissingIndex]

/-- The bounds flags are sound. -/
theorem allSound_inboundsFields {values : List Bool} :
    AllSound op (op.inboundsFields version values) := by
  refine allSound_append.mpr ⟨?_, ?_⟩
  · split <;> simp
  · split <;> simp

/-- The bounds flags of a group are sound. -/
@[simp] theorem allSound_inbounds {group : ℕ} : AllSound op (op.inbounds version group) := by
  have hfail : ∀ e, ¬e.IsMissingIndex → AllSound op [.fail e] := by
    intro e he
    simpa using he
  simp only [Operation.inbounds]
  split
  · exact hfail _ id
  · split
    · exact allSound_inboundsFields
    · split
      · split
        · exact allSound_inboundsFields
        · exact hfail _ id
      · exact hfail _ id
    · exact hfail _ id

variable {m : Module}

/-- The fields of `print` are sound. -/
@[simp] theorem allSound_printFields : AllSound op (printFields m op) := by
  have hpanic : ∀ s, printOperandGroups m op = .error s → (Field.stop s).Sound op := by
    intro s hs
    unfold printOperandGroups at hs
    split at hs
    · cases hs
    · split at hs
      · cases hs
      · split at hs
        · cases hs
        · cases hs
          exact sound_panic
  unfold printFields
  split
  · rename_i s hs
    simpa using hpanic s hs
  · simp only [allSound_append, allSound_cons, sound_flags, sound_varint,
      allSound_inlineAttr, true_and]
    refine ⟨allSound_operandFields fun v hv => List.mem_of_mem_take hv, ?_⟩
    split
    · apply allSound_operandsFrom
      exact fun _ _ => trivial
    · simp

/-- The memory attributes are sound. -/
@[simp] theorem allSound_memoryAttrs {groups : List Bool} :
    AllSound op (memoryAttrs op groups) := by
  simp [memoryAttrs]

/-- The attributes of an atomic operation are sound. -/
@[simp] theorem allSound_atomicAttrs {groups : List Bool} :
    AllSound op (atomicAttrs op groups) := by
  simp [atomicAttrs]

/-- The fields of a multimem operation are sound. -/
@[simp] theorem allSound_multimemFields : AllSound op (multimemFields version op) := by
  simp [multimemFields, allSound_ite]

/-- The fields of every opcode are sound. -/
theorem allSound_opcodeFields : AllSound op (opcodeFields m version op) := by
  unfold opcodeFields
  split <;> simp [allSound_fieldsSince, allSound_ite, WriteError.IsMissingIndex]

/-- **The operands of the fields are operands of the operation.**  A check that stops the writer
does not report an operand without an index. -/
theorem opFields_sound : AllSound op (opFields m version op) := by
  refine allSound_append.mpr ⟨allSound_append.mpr ⟨allSound_requireVersion, ?_⟩,
    allSound_opcodeFields⟩
  intro f hf
  obtain ⟨p, -, hf⟩ := List.mem_flatMap.mp hf
  split at hf
  · exact allSound_requireVersion f hf
  · cases hf

/-- Only operands of the operation are written. -/
theorem encodedOperands_subset {v : Value} (hv : v ∈ encodedOperands (opFields m version op)) :
    v ∈ op.operands := by
  obtain ⟨f, hf, hfv⟩ := List.mem_filterMap.mp hv
  have hsound := opFields_sound f hf
  cases f with
  | operand u missing =>
    cases hfv
    exact hsound.1
  | _ => cases hfv

end AllSound

end CudaOxide.TileIr
