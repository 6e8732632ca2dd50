import CudaOxide.Lib.Scoping
import CudaOxide.TileIr.OpWriter

/-!
# Function bodies

The writer numbers function arguments, block arguments and results as it meets them, and writes an
operand as the number of its value (`write_operation`, `write_region`, `write_block`,
`write_function_body` of `cutile-ir/src/bytecode/writer.rs`).

* `Piece` — what is written, with the indices of operands kept apart from other bytes.
* `writeOperation`, `writeBlock` — an operation is written with its regions, then its results get
  their numbers; at the end of a block the numbers are rolled back.
* `writeFunctionBody` — the entry block of the first region.
-/

namespace CudaOxide.TileIr

open CudaOxide.Lib Scoping

/-- A part of the output. -/
inductive Piece where
  | bytes (bs : Bytes)
  | operand (index : ℕ)

/-- The bytes of a piece. -/
def Piece.render : Piece → Bytes
  | bytes bs => bs
  | operand index => varint index

/-- The indices of the operands, in the order they are written. -/
def operandIndices (ps : List Piece) : List ℕ :=
  ps.filterMap fun
    | .operand index => some index
    | .bytes _ => none

/-- The state of the writer. -/
structure WriterCtx where
  tables : Tables
  numbering : Numbering Value

/-- A part of the writer: what it writes, and the state after it. -/
abbrev Writer := WriterCtx → Run WriteError (List Piece × WriterCtx)

namespace Writer

/-- Writes pieces. -/
def put (ps : List Piece) : Writer := fun ctx => .ok (ps, ctx)

/-- Writes a number. -/
def number (n : ℕ) : Writer := put [.bytes (varint n)]

/-- Fails. -/
def fail (s : Stop WriteError) : Writer := fun _ => .error s

/-- Write what the tables give. -/
def entered (w : StateM Tables Bytes) : Writer := fun ctx =>
  .ok ([.bytes (w ctx.tables).1], { ctx with tables := (w ctx.tables).2 })

/-- Changes the context. -/
def modify (f : WriterCtx → WriterCtx) : Writer := fun ctx => .ok ([], f ctx)

/-- Give a value the next number. -/
def assign (v : Value) : Writer :=
  modify fun ctx => { ctx with numbering := ctx.numbering.assign (some v) }

/-- Write the number of a value. -/
def operand (v : Value) (missing : WriteError) : Writer := fun ctx =>
  match ctx.numbering.get? v with
  | some index => .ok ([.operand index], ctx)
  | none => Run.fail missing

/-- One writer after the other. -/
def seq (w w' : Writer) : Writer := fun ctx => do
  let first ← w ctx
  let rest ← w' first.2
  return (first.1 ++ rest.1, rest.2)

/-- Writers in a row. -/
def all : List Writer → Writer
  | [] => put []
  | w :: ws => w.seq (all ws)

/-- Roll the numbers back afterwards. -/
def scope (w : Writer) : Writer := fun ctx => do
  let body ← w ctx
  return (body.1, { body.2 with numbering := body.2.numbering.close ctx.numbering.next })

end Writer

open Writer

section

variable (casts : FloatCasts) (m : Module) (version : BytecodeVersion)

/-- Writes a field of an operation. -/
def writeField : Field → Writer
  | .bytes bs => put [.bytes bs]
  | .typeIndex ty => entered (varint <$> Tables.typeIndex ty)
  | .attr a => entered (writeAttrValueInline casts a)
  | .selfContained a => entered (writeSelfContainedAttribute casts a)
  | .operand v missing => operand v missing
  | .stop s => fail s

/-- An argument of a block. -/
def writeArg (arg : Value × Ty) : Writer :=
  all [entered (varint <$> Tables.typeIndex arg.2), assign arg.1]

/-- Give the results of an operation their numbers. -/
def registerResults (op : Operation) : Writer := all ((m.results op).reduceOption.map assign)

mutual

/-- `write_operation`: the operation, its results and its regions. -/
def writeOperation : Operation → Writer
  | ⟨id, opcode, operands, resultTypes, attributes, regions, location⟩ =>
    let op : Operation := ⟨id, opcode, operands, resultTypes, attributes, regions, location⟩
    all [modify fun ctx => { ctx with tables := (DebugInfo.recordOp location ctx.tables).2 },
      number opcode.asU16, all ((opFields m version op).map (writeField casts)),
      if opcode.writesRegions then (number regions.length).seq (writeRegions regions) else put [],
      -- the results get their numbers after the regions
      registerResults m op]

/-- The regions of an operation. -/
def writeRegions : List Region → Writer
  | [] => put []
  | r :: rs => (writeRegion r).seq (writeRegions rs)

/-- `write_region`. -/
def writeRegion : Region → Writer
  | ⟨blocks⟩ => (number blocks.length).seq (writeBlocks blocks)

/-- The blocks of a region. -/
def writeBlocks : List Block → Writer
  | [] => put []
  | b :: bs => (writeBlock b).seq (writeBlocks bs)

/-- `write_block`, in a scope of its own. -/
def writeBlock : Block → Writer
  | ⟨args, ops⟩ =>
    scope (all [number args.length, all (args.map writeArg), number ops.length,
      writeOperations ops])

/-- The operations of a block. -/
def writeOperations : List Operation → Writer
  | [] => put []
  | op :: ops => (writeOperation op).seq (writeOperations ops)

end

end

/-- The entry block of a function: the first block of its first region. -/
def Operation.entryBlock? (f : Operation) : Option Block := do
  let region ← f.regions.head?
  region.blocks.head?

section

variable (casts : FloatCasts) (m : Module) (version : BytecodeVersion)

/-- `write_function_body`, with the numbering of the function before reset. -/
def writeFunctionBody (f : Operation) (tables : Tables) : Run WriteError (List Piece × Tables) :=
  match f.entryBlock? with
  | none => .ok ([], tables)
  | some entry => do
    let body ← (all (entry.args.map fun a => assign a.1)).seq
      (writeOperations casts m version entry.ops) ⟨tables, ⟨[], 0⟩⟩
    return (body.1, body.2.tables)

end

end CudaOxide.TileIr
