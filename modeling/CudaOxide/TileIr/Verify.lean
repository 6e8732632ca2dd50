import CudaOxide.TileIr.BodyWriter

/-!
# Verification of a module

The two checks that come before a module is written (`cutile-ir/src/ir/module.rs`).

* `verifyDominance` — every operand is visible where it is used: the arguments of the blocks around
  it, and the results of the operations before it.
* `verifyBytecodeIndices` — a run of the numbering of the writer, with a roll-back at the end of a
  block.  Here the results of an operation get their numbers before its regions are visited.
-/

namespace CudaOxide.TileIr

open CudaOxide.Lib Scoping

/-- What a check reports.  A function is named by its `sym_name`, or by its handle. -/
inductive VerifyError where
  | doesNotDominate (function : Attribute ⊕ OpId) (operand : ℕ) (opcode : Opcode) (op : OpId)
      (v : Value)
  | notInValueMap (function : Attribute ⊕ OpId) (operand : ℕ) (opcode : Opcode) (op : OpId)
      (v : Value) (nextIdx mapSize : ℕ)
  | fixedResultCount (function : Attribute ⊕ OpId) (opcode : Opcode) (op : OpId)
      (results expected : ℕ)
  | resultWithoutValue (function : Attribute ⊕ OpId) (opcode : Opcode) (op : OpId)
      (results result : ℕ)

/-- The name of a function in an error. -/
def Operation.verifyName (f : Operation) : Attribute ⊕ OpId :=
  match f.findAttr "sym_name" with
  | some a => .inl a
  | none => .inr f.id

section

variable (m : Module) (function : Attribute ⊕ OpId)

/-! ### Dominance -/

/-- The operands that are not visible. -/
def checkOperands (op : Operation) (visible : List Value) : List VerifyError :=
  op.operands.zipIdx.filterMap fun p =>
    if p.1 ∈ visible then none
    else some (.doesNotDominate function p.2 op.opcode op.id p.1)

mutual

/-- The errors of regions. -/
def verifyRegions : List Region → List Value → List VerifyError
  | [], _ => []
  | r :: rs, visible => verifyRegion r visible ++ verifyRegions rs visible

/-- The errors of a region. -/
def verifyRegion : Region → List Value → List VerifyError
  | ⟨blocks⟩, visible => verifyBlocks blocks visible

/-- The errors of blocks. -/
def verifyBlocks : List Block → List Value → List VerifyError
  | [], _ => []
  | b :: bs, visible => verifyBlock b visible ++ verifyBlocks bs visible

/-- The errors of a block: its arguments are visible in it. -/
def verifyBlock : Block → List Value → List VerifyError
  | ⟨args, ops⟩, visible => verifyOps ops (args.map (·.1) ++ visible)

/-- The operations of a block, each with what is visible at it. -/
def verifyOps : List Operation → List Value → List VerifyError
  | [], _ => []
  | ⟨id, opcode, operands, resultTypes, attributes, regions, location⟩ :: ops, visible =>
    let op : Operation := ⟨id, opcode, operands, resultTypes, attributes, regions, location⟩
    let visible' := (m.results op).reduceOption ++ visible
    checkOperands function op visible ++ verifyRegions regions visible' ++ verifyOps ops visible'

end

/-! ### Bytecode indices -/

/-- The state of the check. -/
structure BcState where
  numbering : Numbering Value
  errors : List VerifyError

namespace BcState

/-- Errors are reported. -/
def report (s : BcState) (errors : List VerifyError) : BcState :=
  { s with errors := s.errors ++ errors }

/-- Number a value, or leave a number out (`next_idx += 1`). -/
def assign (s : BcState) (v : Option Value) : BcState :=
  { s with numbering := s.numbering.assign v }

end BcState

/-- The operands without a number. -/
def operandErrors (op : Operation) (s : BcState) : List VerifyError :=
  op.operands.zipIdx.filterMap fun p =>
    if (s.numbering.get? p.1).isSome then none
    else some (.notInValueMap function p.2 op.opcode op.id p.1 s.numbering.next
      s.numbering.map.length)

/-- The number of results is not the one that a reader allocates. -/
def resultCountErrors (op : Operation) : List VerifyError :=
  match op.opcode.fixedResultCount with
  | some expected =>
    if op.resultTypes.length = expected then []
    else [.fixedResultCount function op.opcode op.id op.resultTypes.length expected]
  | none => []

/-- The results without a value. -/
def resultErrors (op : Operation) : List VerifyError :=
  (m.results op).zipIdx.filterMap fun p =>
    if p.1.isSome then none
    else some (.resultWithoutValue function op.opcode op.id op.resultTypes.length p.2)

/-- The errors of an operation: operands, number of results, results. -/
def operationErrors (op : Operation) (s : BcState) : List VerifyError :=
  operandErrors function op s ++ resultCountErrors function op ++ resultErrors m function op

mutual

/-- `verify_bc_operation`: the results come before the regions. -/
def verifyBcOperation : Operation → BcState → BcState
  | ⟨id, opcode, operands, resultTypes, attributes, regions, location⟩, s =>
    let op : Operation := ⟨id, opcode, operands, resultTypes, attributes, regions, location⟩
    verifyBcRegions regions
      ((m.results op).foldl .assign (s.report (operationErrors m function op s)))

/-- The regions of an operation. -/
def verifyBcRegions : List Region → BcState → BcState
  | [], s => s
  | r :: rs, s => verifyBcRegions rs (verifyBcRegion r s)

/-- `verify_bc_region`. -/
def verifyBcRegion : Region → BcState → BcState
  | ⟨blocks⟩, s => verifyBcBlocks blocks s

/-- The blocks of a region. -/
def verifyBcBlocks : List Block → BcState → BcState
  | [], s => s
  | b :: bs, s => verifyBcBlocks bs (verifyBcBlock b s)

/-- `verify_bc_block`: its values end with it. -/
def verifyBcBlock : Block → BcState → BcState
  | ⟨args, ops⟩, s =>
    let s' := verifyBcOperations ops ((args.map fun a => some a.1).foldl .assign s)
    { s' with numbering := s'.numbering.close s.numbering.next }

/-- The operations of a block. -/
def verifyBcOperations : List Operation → BcState → BcState
  | [], s => s
  | op :: ops, s => verifyBcOperations ops (verifyBcOperation op s)

end

/-- The entry block is walked without a roll-back, as the writer walks it. -/
def verifyBcFunction (f : Operation) : List VerifyError :=
  match f.entryBlock? with
  | none => []
  | some entry =>
    (verifyBcOperations m f.verifyName entry.ops
      ((entry.args.map fun a => some a.1).foldl .assign ⟨⟨[], 0⟩, []⟩)).errors

end

/-- The errors of the two checks; a check passes where there are none. -/
def Module.verifyDominance (m : Module) : List VerifyError :=
  m.functions.flatMap fun f => verifyRegions m f.verifyName f.regions []

/-- `verify_bytecode_indices`. -/
def Module.verifyBytecodeIndices (m : Module) : List VerifyError :=
  m.functions.flatMap (verifyBcFunction m)

end CudaOxide.TileIr
