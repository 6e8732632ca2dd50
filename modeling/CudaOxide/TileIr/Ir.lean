import CudaOxide.TileIr.Types
import CudaOxide.Lib.Bytes

/-!
# Modules of Tile IR

Operations, blocks and regions (`cutile-ir/src/ir`).  A module holds them in arenas; here a region
holds its blocks and a block its operations, so that what is reachable from a function is a tree.

* `Opcode`, `Attribute` — what an operation is and what it carries.
* `Operation`, `Region`, `Block`, `Module` — the tree.
* `Module.findOpResult` — the value that stands for a result, found by its producer.
-/

namespace CudaOxide.TileIr

open CudaOxide.Lib

/-! ### Opcodes -/

/-- `Opcode`. -/
inductive Opcode where
  | absF | absI | addF | addI | andI | assertOp | assumeOp | atomicCAS | atomicRMW | bitcast
  | breakOp | broadcast | cat | ceil | cmpF | cmpI | constantOp | continueOp | cos | cosH | divF
  | divI | entry | exp | exp2 | extI | extract | floor | fma | forOp | fToF | fToI | getGlobal
  | getIndexSpaceShape | getNumTileBlocks | getTensorShape | getTileBlockId | globalOp | ifOp
  | intToPtr | iota | iToF | joinTokens | loadPtrTko | loadViewTko | log | log2 | loopOp
  | makePartitionView | makeTensorView | makeToken | maxF | maxI | minF | minI | mmaF | mmaI
  | moduleOp | mulF | mulhiI | mulI | negF | negI | offset | orI | permute | pow | print
  | ptrToInt | ptrToPtr | reduce | remF | remI | reshape | returnOp | rsqrt | scan | select | shLI
  | shRI | sin | sinH | sqrt | storePtrTko | storeViewTko | subF | subI | tan | tanH | truncI
  | xOrI | yieldOp | atan2 | pack | unpack | alloca | mmaFScaled | makeGatherScatterView
  | makeStridedView | atomicRedViewTko | insert | gdcLaunchDependentsTko | gdcWaitTko | fPowI
  | memoryFenceAliasTko | multimemLoadReduceViewTko | multimemReduceViewTko | multimemStoreViewTko
  | previewCall
  deriving DecidableEq, Repr

namespace Opcode

/-- The opcode on the wire. -/
def asU16 : Opcode → ℕ
  | .absF => 0x00 | .absI => 0x01 | .addF => 0x02 | .addI => 0x03 | .andI => 0x04
  | .assertOp => 0x05 | .assumeOp => 0x06 | .atomicCAS => 0x07 | .atomicRMW => 0x08
  | .bitcast => 0x09 | .breakOp => 0x0A | .broadcast => 0x0B | .cat => 0x0C | .ceil => 0x0D
  | .cmpF => 0x0E | .cmpI => 0x0F | .constantOp => 0x10 | .continueOp => 0x11 | .cos => 0x12
  | .cosH => 0x13 | .divF => 0x14 | .divI => 0x15 | .entry => 0x16 | .exp => 0x17 | .exp2 => 0x18
  | .extI => 0x25 | .extract => 0x26 | .floor => 0x27 | .fma => 0x28 | .forOp => 0x29
  | .fToF => 0x2A | .fToI => 0x2B | .getGlobal => 0x2C | .getIndexSpaceShape => 0x2D
  | .getNumTileBlocks => 0x2E | .getTensorShape => 0x2F | .getTileBlockId => 0x30
  | .globalOp => 0x31 | .ifOp => 0x32 | .intToPtr => 0x33 | .iota => 0x3A | .iToF => 0x3B
  | .joinTokens => 0x3C | .loadPtrTko => 0x3D | .loadViewTko => 0x3E | .log => 0x3F
  | .log2 => 0x40 | .loopOp => 0x41 | .makePartitionView => 0x42 | .makeTensorView => 0x43
  | .makeToken => 0x44 | .maxF => 0x45 | .maxI => 0x46 | .minF => 0x47 | .minI => 0x48
  | .mmaF => 0x49 | .mmaI => 0x4A | .moduleOp => 0x4B | .mulF => 0x4C | .mulhiI => 0x4D
  | .mulI => 0x4E | .negF => 0x4F | .negI => 0x50 | .offset => 0x51 | .orI => 0x52
  | .permute => 0x53 | .pow => 0x54 | .print => 0x55 | .ptrToInt => 0x56 | .ptrToPtr => 0x57
  | .reduce => 0x58 | .remF => 0x59 | .remI => 0x5A | .reshape => 0x5B | .returnOp => 0x5C
  | .rsqrt => 0x5D | .scan => 0x5E | .select => 0x5F | .shLI => 0x60 | .shRI => 0x61
  | .sin => 0x62 | .sinH => 0x63 | .sqrt => 0x64 | .storePtrTko => 0x65 | .storeViewTko => 0x66
  | .subF => 0x67 | .subI => 0x68 | .tan => 0x69 | .tanH => 0x6A | .truncI => 0x6B | .xOrI => 0x6C
  | .yieldOp => 0x6D | .atan2 => 0x6E | .pack => 0x6F | .unpack => 0x70 | .alloca => 0x71
  | .mmaFScaled => 0x72 | .makeGatherScatterView => 0x73 | .makeStridedView => 0x74
  | .atomicRedViewTko => 0x75 | .insert => 0x76 | .gdcLaunchDependentsTko => 0x77
  | .gdcWaitTko => 0x78 | .fPowI => 0x79 | .memoryFenceAliasTko => 0x7A
  | .multimemLoadReduceViewTko => 0x7B | .multimemReduceViewTko => 0x7C
  | .multimemStoreViewTko => 0x7D | .previewCall => 0x4002

/-- A public-preview operation. -/
def isPreview (op : Opcode) : Bool := op = previewCall

/-- The number of results a reader allocates for the operation, where the format does not write it
(`fixed_result_count`). -/
def fixedResultCount : Opcode → Option ℕ
  | .breakOp | .continueOp | .extract | .insert | .forOp | .getIndexSpaceShape | .getTensorShape
  | .ifOp | .joinTokens | .loadViewTko | .loopOp | .makeTensorView | .print | .reduce | .returnOp
  | .scan | .storeViewTko | .yieldOp | .multimemLoadReduceViewTko | .multimemReduceViewTko
  | .multimemStoreViewTko | .previewCall => none
  | .assertOp | .globalOp | .moduleOp => some 0
  | .absF | .absI | .addF | .addI | .andI | .assumeOp | .atan2 | .bitcast | .broadcast | .cat
  | .ceil | .cmpF | .cmpI | .constantOp | .cos | .cosH | .divF | .divI | .exp | .exp2 | .extI
  | .floor | .fPowI | .gdcLaunchDependentsTko | .gdcWaitTko | .fma | .fToF | .fToI | .getGlobal
  | .intToPtr | .iota | .iToF | .log | .log2 | .makeGatherScatterView | .makePartitionView
  | .makeStridedView | .makeToken | .memoryFenceAliasTko | .maxF | .maxI | .minF | .minI | .mmaF
  | .mmaFScaled | .mmaI | .mulF | .mulhiI | .mulI | .negF | .negI | .offset | .orI | .pack
  | .permute | .pow | .ptrToInt | .ptrToPtr | .reshape | .remF | .remI | .rsqrt | .select | .shLI
  | .shRI | .sin | .sinH | .sqrt | .subF | .subI | .tan | .tanH | .truncI | .unpack
  | .xOrI => some 1
  | .atomicCAS | .atomicRMW | .loadPtrTko => some 2
  | .atomicRedViewTko | .storePtrTko => some 1
  | .getTileBlockId | .getNumTileBlocks => some 3
  | .alloca => some 1
  | .entry => some 0

end Opcode

/-! ### Attributes -/

/-- The data of a constant tensor. -/
structure DenseElements where
  elementType : Ty
  shape : List Int64
  data : Bytes

/-- A constant argument of a foreign call. -/
inductive PreviewConstArg where
  | int (v : Int64)
  | str (s : String)
  | datatype (ty : Ty)

/-- An attribute value.  A float stands as the bits of an `f64`. -/
inductive Attribute where
  | integer (v : Int64) (ty : Ty)
  | float (bits : UInt64) (ty : Ty)
  | bool (b : Bool)
  | type (ty : Ty)
  | string (s : String)
  | array (elems : List Attribute)
  | denseElements (d : DenseElements)
  | denseI32Array (values : List Int32)
  | divBy (divisor : UInt64) (every along : Option Int64)
  | sameElements (values : List Int64)
  | dictionary (entries : List (String × Attribute))
  | optimizationHints (entries : List (String × List (String × Attribute)))
  | bounded (lb ub : Option Int64)
  | previewConstArg (arg : PreviewConstArg)

/-- Attributes by name. -/
abbrev Attributes := List (String × Attribute)

/-- The first attribute of that name (`find_attr`, `find_op_attr`). -/
def findAttr (attrs : Attributes) (name : String) : Option Attribute :=
  (attrs.find? (·.1 = name)).map (·.2)

/-! ### Locations -/

/-- `DIFile`. -/
structure DIFile where
  name : String
  directory : String

/-- `DISubprogram`. -/
structure DISubprogram where
  file : DIFile
  line : UInt32
  name : String
  linkageName : String
  compileUnit : DIFile
  scopeLine : UInt32
  isDeclaration : Bool

/-- `DebugScope`. -/
inductive DebugScope where
  | subprogram (sp : DISubprogram)
  | lexicalBlock (scope : DebugScope) (file : DIFile) (line column : UInt32)

/-- Where an operation comes from. -/
inductive Location where
  | unknown
  | fileLineCol (filename : String) (line column : UInt32)
  | debugInfo (filename : String) (line column : UInt32) (scope : DebugScope)
  | callSite (callee caller : Location)

/-! ### Operations -/

/-- Handles into the arenas of a module. -/
abbrev Value := ℕ

/-- The number of an operation. -/
abbrev OpId := ℕ

/-- The number of a block. -/
abbrev BlockId := ℕ

mutual

/-- `Operation`. -/
structure Operation where
  id : OpId
  opcode : Opcode
  operands : List Value
  resultTypes : List Ty
  attributes : Attributes
  regions : List Region
  location : Location

/-- `Region`. -/
structure Region where
  blocks : List Block

/-- `Block`. -/
structure Block where
  args : List (Value × Ty)
  ops : List Operation

end

/-- What produced a value. -/
inductive ValueProducer where
  | opResult (op : OpId) (index : ℕ)
  | blockArg (block : BlockId) (index : ℕ)
  deriving DecidableEq

/-- `ValueData`: the type of a value and where it comes from. -/
structure ValueData where
  ty : Ty
  producer : ValueProducer

/-- `SymbolVisibility`. -/
inductive SymbolVisibility where
  | publicSymbol | privateSymbol
  deriving DecidableEq

/-- A global variable with its initial value. -/
structure Global where
  symName : String
  value : DenseElements
  alignment : UInt64
  constant : Bool
  symbolVisibility : SymbolVisibility

/-- A Tile IR program. -/
structure Module where
  producer : Option String
  values : List ValueData
  functions : List Operation
  globals : List Global

namespace Module

/-- The value that stands for a result: the first one with that producer (`find_op_result`,
`find_result_value`). -/
def findOpResult (m : Module) (op : OpId) (index : ℕ) : Option Value :=
  m.values.findIdx? (·.producer = .opResult op index)

/-- The values that stand for the results of an operation. -/
def results (m : Module) (op : Operation) : List (Option Value) :=
  (List.range op.resultTypes.length).map (m.findOpResult op.id)

end Module

end CudaOxide.TileIr
