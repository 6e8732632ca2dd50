import CudaOxide.TileIr.Tables

/-!
# Debug attributes

Scopes and locations are entered in a table by their encoding
(`cutile-ir/src/bytecode/debug_info.rs` and the collector in `writer.rs`).  Attribute 0 stands for
no information.

* `attrFor` — the attribute of a location.
* `beginFunction`, `recordOp` — the list of attributes of a function.
-/

namespace CudaOxide.TileIr

open CudaOxide.Lib Tables

namespace DebugInfo

/-- The number of an attribute, counted from 1 (`DebugAttrTable::intern`). -/
def intern (encoded : Bytes) : StateM Tables ℕ := fun t =>
  match t.debug.attrs.idxOf? encoded with
  | some i => (i + 1, t)
  | none =>
    (t.debug.attrs.length + 1,
      { t with debug := { t.debug with attrs := t.debug.attrs ++ [encoded] } })

/-- The entry of a file. -/
def file (f : DIFile) : StateM Tables ℕ := do
  let name ← stringIndex f.name
  let directory ← stringIndex f.directory
  intern ([2] ++ varint name ++ varint directory)

/-- The entry of a compile unit. -/
def compileUnit (file : ℕ) : StateM Tables ℕ := intern ([1] ++ varint file)

/-- The last field is new in 13.5; older images leave it out. -/
def subprogram (file line : ℕ) (name linkageName : String) (compileUnit scopeLine : ℕ)
    (isDeclaration : Bool) : StateM Tables ℕ := do
  let name ← stringIndex name
  let linkageName ← stringIndex linkageName
  intern ([5] ++ varint file ++ varint line ++ varint name ++ varint linkageName ++
    varint compileUnit ++ varint scopeLine ++ varint isDeclaration.toNat)

/-- The entry of a lexical block. -/
def lexicalBlock (parent file line column : ℕ) : StateM Tables ℕ :=
  intern ([3] ++ varint parent ++ varint file ++ varint line ++ varint column)

/-- The entry of a location. -/
def loc (scope : ℕ) (filename : String) (line column : ℕ) : StateM Tables ℕ := do
  let filename ← stringIndex filename
  intern ([4] ++ varint scope ++ varint filename ++ varint line ++ varint column)

/-- The entry of a call site. -/
def callSite (callee caller : ℕ) : StateM Tables ℕ :=
  intern ([6] ++ varint callee ++ varint caller)

/-- The entry of a subprogram, behind those that it names. -/
def subprogramAttr (sp : DISubprogram) : StateM Tables ℕ := do
  let f ← file sp.file
  let cu ← compileUnit (← file sp.compileUnit)
  subprogram f sp.line.toNat sp.name sp.linkageName cu sp.scopeLine.toNat sp.isDeclaration

/-- The entry of a scope, behind those of its parents. -/
def scopeAttr : DebugScope → StateM Tables ℕ
  | .subprogram sp => subprogramAttr sp
  | .lexicalBlock scope f line column => do
    let parent ← scopeAttr scope
    lexicalBlock parent (← file f) line.toNat column.toNat

/-- The attribute of a location; 0 where there is nothing to say. -/
def attrFor : Location → StateM Tables ℕ
  | .unknown => return 0
  | .fileLineCol filename line column => do
    let scope := (← get).debug.currentScope
    if scope = 0 then return 0
    loc scope filename line.toNat column.toNat
  | .debugInfo filename line column scope => do
    let scope ← scopeAttr scope
    loc scope filename line.toNat column.toNat
  | .callSite callee caller => do
    let calleeAttr ← attrFor callee
    if calleeAttr = 0 then return 0
    callSite calleeAttr (← attrFor caller)

/-- Directory and file name of a path. -/
def splitFilePath (path : String) : DIFile :=
  let chars := path.toList.reverse
  if '/' ∈ path.toList then
    ⟨.ofList (chars.takeWhile (· ≠ '/')).reverse,
      .ofList ((chars.dropWhile (· ≠ '/')).drop 1).reverse⟩
  else ⟨path, ""⟩

/-- Begin the list of a function; its place in the section, counted from 1. -/
def beginFunction (symName : String) (diName : Option String) (location : Location) :
    StateM Tables ℕ := do
  let scope ←
    match location with
    | .fileLineCol filename line _ => do
      let f ← file (splitFilePath filename)
      let cu ← compileUnit f
      subprogram f line.toNat (diName.getD symName) symName cu line.toNat false
    | .debugInfo _ _ _ scope => scopeAttr scope
    | _ => pure 0
  modify fun t => { t with debug := { t.debug with currentScope := scope } }
  let attr ← attrFor location
  modify fun t =>
    { t with debug := { t.debug with perFunction := t.debug.perFunction ++ [[attr]] } }
  return (← get).debug.perFunction.length

/-- Append the attribute of an operation to the list of the function being written. -/
def recordOp (location : Location) : StateM Tables Unit := do
  let attr ← attrFor location
  modify fun t =>
    { t with debug :=
        { t.debug with
          perFunction := t.debug.perFunction.modify (t.debug.perFunction.length - 1)
            (· ++ [attr]) } }

end DebugInfo

end CudaOxide.TileIr
