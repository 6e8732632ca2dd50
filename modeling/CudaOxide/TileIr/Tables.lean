import CudaOxide.TileIr.Encoding

/-!
# Tables of the bytecode writer

Strings, types and constants stand in tables of their own and are written as indices
(`cutile-ir/src/bytecode/writer.rs`).

* `Ty.deps`, `getOrInsert` — a type is entered after the types it is made of.
* `writeSelfContainedAttribute` — an attribute with its tag.
* `writeAttrValueInline` — an attribute of an operation, whose kind the reader knows.
-/

namespace CudaOxide.TileIr

open CudaOxide.Lib CudaOxide.Lib.Bytes

/-! ### Types -/

namespace Ty

/-- The type a classification of the view or tile is handed on to (`pointer_dependency`). -/
def pointerDependency : Ty → Option Ty
  | tile t =>
    match t.elementType with
    | .pointer p => some (pointer p)
    | .scalar _ => none
  | partitionView v => some (tensorView v.tensorView)
  | gatherScatterView v => some (tensorView v.tensorView)
  | stridedView v => some (tensorView v.tensorView)
  | _ => none

/-- The types that `register_deps` enters before a type. -/
def deps : Ty → List Ty
  | withPointerAttribute base a =>
    match base with
    | pointer p => [scalar p.pointee]
    | tensorView v => [scalar v.elementType]
    | _ => (base.pointerDependency.map (·.withPointerAttribute' a)).toList
  | pointer p => [scalar p.pointee]
  | tile t =>
    match t.elementType with
    | .scalar s => [scalar s]
    | .pointer p => [pointer p]
  | tensorView v => [scalar v.elementType]
  | partitionView v => [tensorView v.tensorView]
  | gatherScatterView v => [tensorView v.tensorView]
  | stridedView v => [tensorView v.tensorView]
  | func inputs results => inputs ++ results
  | scalar _ | token => []

mutual

/-- How deep the types go that a type is made of. -/
def weight : Ty → ℕ
  | scalar _ | token => 0
  | pointer _ | tensorView _ => 1
  | tile _ | partitionView _ | gatherScatterView _ | stridedView _ => 2
  | func inputs results => 1 + weightAll inputs + weightAll results
  | withPointerAttribute base _ => base.weight

/-- The weight of a list of types. -/
def weightAll : List Ty → ℕ
  | [] => 0
  | t :: ts => t.weight + weightAll ts

end

/-- A type weighs at most as much as a list that it is in. -/
theorem weight_le_weightAll {t : Ty} {ts : List Ty} (ht : t ∈ ts) : t.weight ≤ weightAll ts := by
  induction ts with
  | nil => cases ht
  | cons u ts ih =>
    rw [weightAll]
    rcases List.mem_cons.mp ht with rfl | ht
    · exact Nat.le_add_right _ _
    · exact (ih ht).trans (Nat.le_add_left _ _)

/-- A type weighs more than the ones it depends on. -/
theorem weight_lt_of_mem_deps {d t : Ty} (hd : d ∈ t.deps) : d.weight < t.weight := by
  -- one dependency each, but for functions and for types that carry an attribute
  cases t with
  | scalar s => cases hd
  | token => cases hd
  | pointer p =>
    obtain rfl := List.mem_singleton.mp hd
    exact Nat.one_pos
  | tensorView v =>
    obtain rfl := List.mem_singleton.mp hd
    exact Nat.one_pos
  | tile t =>
    obtain ⟨shape, e⟩ := t
    cases e with
    | scalar s =>
      obtain rfl := List.mem_singleton.mp hd
      exact Nat.two_pos
    | pointer p =>
      obtain rfl := List.mem_singleton.mp hd
      exact Nat.one_lt_two
  | partitionView v =>
    obtain rfl := List.mem_singleton.mp hd
    exact Nat.one_lt_two
  | gatherScatterView v =>
    obtain rfl := List.mem_singleton.mp hd
    exact Nat.one_lt_two
  | stridedView v =>
    obtain rfl := List.mem_singleton.mp hd
    exact Nat.one_lt_two
  | func inputs results =>
    rw [weight]
    rcases List.mem_append.mp hd with hd | hd
    · have := weight_le_weightAll hd
      omega
    · have := weight_le_weightAll hd
      omega
  -- the attribute is taken to the type that the base depends on
  | withPointerAttribute base a =>
    rw [weight]
    cases base with
    | pointer p =>
      obtain rfl := List.mem_singleton.mp hd
      exact Nat.one_pos
    | tensorView v =>
      obtain rfl := List.mem_singleton.mp hd
      exact Nat.one_pos
    | tile t =>
      obtain ⟨shape, e⟩ := t
      cases e with
      | scalar s => cases hd
      | pointer p =>
        obtain rfl := List.mem_singleton.mp hd
        exact Nat.one_lt_two
    | partitionView v =>
      obtain rfl := List.mem_singleton.mp hd
      exact Nat.one_lt_two
    | gatherScatterView v =>
      obtain rfl := List.mem_singleton.mp hd
      exact Nat.one_lt_two
    | stridedView v =>
      obtain rfl := List.mem_singleton.mp hd
      exact Nat.one_lt_two
    | _ => cases hd

end Ty

/-- The types in the order of their indices. -/
abbrev TypeTable := List Ty

/-- The index of a type, which is entered where it is not there yet
(`TypeManager::get_or_insert`). -/
def TypeTable.getOrInsert (types : TypeTable) (ty : Ty) : ℕ × TypeTable :=
  match types.idxOf? ty with
  | some i => (i, types)
  | none =>
    let types' := ty.deps.attach.foldl (fun acc d => (TypeTable.getOrInsert acc d.1).2) types
    (types'.length, types' ++ [ty])
termination_by ty.weight
decreasing_by exact Ty.weight_lt_of_mem_deps d.2

/-! ### Strings and constants -/

/-- Debug attributes by their encoding, with the attributes of each function: its own, then one for
each operation (`DebugInfoCollector`). -/
structure DebugInfo where
  attrs : List Bytes
  perFunction : List (List ℕ)
  currentScope : ℕ

/-- The tables of a module that is being written. -/
structure Tables where
  strings : List String
  types : TypeTable
  constants : List Bytes
  debug : DebugInfo

namespace Tables

/-- No entries. -/
def empty : Tables := ⟨[], [], [], ⟨[], [], 0⟩⟩

/-- `StringManager::get_or_insert` -/
def stringIndex (s : String) : StateM Tables ℕ := fun t =>
  match t.strings.idxOf? s with
  | some i => (i, t)
  | none => (t.strings.length, { t with strings := t.strings ++ [s] })

/-- The index of a type, added when it is new. -/
def typeIndex (ty : Ty) : StateM Tables ℕ := fun t =>
  ((t.types.getOrInsert ty).1, { t with types := (t.types.getOrInsert ty).2 })

/-- `ConstantManager::add` -/
def addConstant (data : Bytes) : StateM Tables ℕ := fun t =>
  (t.constants.length, { t with constants := t.constants ++ [data] })

end Tables

open Tables

/-! ### Attributes -/

/-- An optional signed number (`every`, `along`, `lb`, `ub`). -/
def optionalVarint (v : Option Int64) : Bytes := v.elim [] signedVarint

/-- Which of two optional numbers are there. -/
def optionalFlags (a b : Option Int64) : UInt8 :=
  (if a.isSome then 1 else 0) + if b.isSome then 2 else 0

/-- A constant as the pool holds it. -/
def constantData (data : Bytes) : Bytes := varint data.length ++ data

/-- An argument of a preview type. -/
def writePreviewConstArg : PreviewConstArg → StateM Tables Bytes
  | .int v => return varint 0xD1 ++ signedVarint v
  | .str s => return varint 0xE4 ++ varint (← stringIndex s)
  | .datatype ty => return varint 0xDB ++ varint (← typeIndex ty)

section

variable (casts : FloatCasts)

mutual

/-- An attribute with its tag (`write_self_contained_attribute`); an array of `i32` has none. -/
def writeSelfContainedAttribute : Attribute → StateM Tables Bytes
  | .integer v ty => return varint 1 ++ varint (← typeIndex ty) ++ varint v.toUInt64.toNat
  | .float bits ty => return varint 2 ++ varint (← typeIndex ty) ++ apFloat casts bits ty
  | .bool b => return varint 3 ++ [if b then 1 else 0]
  | .type ty => return varint 4 ++ varint (← typeIndex ty)
  | .string s => return varint 5 ++ varint (← stringIndex s)
  | .array elems => return varint 6 ++ varint elems.length ++ (← writeElements elems)
  | .denseElements d => do
    let ty ← typeIndex d.elementType
    return varint 7 ++ varint ty ++ varint (← addConstant (constantData d.data))
  | .denseI32Array vs => return leI32s vs
  | .divBy divisor every along =>
    return varint 8 ++ varint divisor.toNat ++ [optionalFlags every along] ++
      optionalVarint every ++ optionalVarint along
  | .sameElements vs => return varint 9 ++ leI64s vs
  | .dictionary entries => return varint 10 ++ varint entries.length ++ (← writeEntries entries)
  | .optimizationHints entries =>
    return varint 11 ++ varint entries.length ++ (← writeArchHints entries)
  | .bounded lb ub =>
    return varint 12 ++ [optionalFlags lb ub] ++ optionalVarint lb ++ optionalVarint ub
  | .previewConstArg arg => writePreviewConstArg arg

/-- The elements of an array attribute. -/
def writeElements : List Attribute → StateM Tables Bytes
  | [] => return []
  | a :: elems => return (← writeSelfContainedAttribute a) ++ (← writeElements elems)

/-- The entries of a dictionary attribute. -/
def writeEntries : List (String × Attribute) → StateM Tables Bytes
  | [] => return []
  | (key, a) :: entries =>
    return varint (← stringIndex key) ++ (← writeSelfContainedAttribute a) ++
      (← writeEntries entries)

/-- Each architecture maps to a dictionary of hints. -/
def writeArchHints : List (String × List (String × Attribute)) → StateM Tables Bytes
  | [] => return []
  | (arch, hints) :: entries =>
    return varint (← stringIndex arch) ++ varint 10 ++ varint hints.length ++
      (← writeEntries hints) ++ (← writeArchHints entries)

end

/-- An attribute without its tag (`write_attr_value_inline`). -/
def writeAttrValueInline : Attribute → StateM Tables Bytes
  | .integer v _ => return varint v.toUInt64.toNat
  | .float bits ty => return apFloat casts bits ty
  | .bool b => return [if b then 1 else 0]
  | .string s => return varint (← stringIndex s)
  | .type ty => return varint (← typeIndex ty)
  | .denseI32Array vs => return leI32s vs
  | .denseElements d => return varint (← addConstant (constantData d.data))
  | .array elems => return varint elems.length ++ (← writeElements casts elems)
  | .dictionary entries => return varint entries.length ++ (← writeEntries casts entries)
  | .optimizationHints entries => return varint entries.length ++ (← writeArchHints casts entries)
  | a => writeSelfContainedAttribute casts a

end

end CudaOxide.TileIr
