import CudaOxide.Cute.Parse
import CudaOxide.Lib.Search
import CudaOxide.TileIr.Types

namespace CudaOxide.TileIr

open Lib Search

/-!
# The text of a type

How a type is printed (`format_type` of `cutile-ir/src/ir/fmt.rs`) and read back (`Type::parse` of
`cutile-ir/src/ir/types.rs`).  A text is the list of its characters.  The reader does not go from
left to right: it looks for the pieces that it needs anywhere in the text, and what it cannot read
as a number it replaces by a default.

* `formatType` — the printer.
* `Ty.parse` — the reader, with one function for each form of a type.
-/

/-- The text of a type. -/
abbrev TypeText := List Char

/-- The characters of a text in ASCII. -/
def chars (s : String) : TypeText := s.toByteArray.data.toList.map fun b => Char.ofNat b.toNat

/-- `DYNAMIC` -/
def dynamic : Int64 := Int64.minValue

/-! ### Numbers -/

/-- The text of a 64-bit number. -/
def displayI64 (v : Int64) : TypeText := Cute.displayI64 v.toInt

/-- The text of a 32-bit number. -/
def displayI32 (v : Int32) : TypeText := Cute.displayI64 v.toInt

/-- A 64-bit number from its text. -/
def parseI64 (s : TypeText) : Option Int64 := (Cute.parseI64 s).map Int64.ofInt

/-- `s.parse::<i32>()` reads what `parse::<i64>` reads, in a smaller range. -/
def parseI32 (s : TypeText) : Option Int32 :=
  (Cute.parseI64 s).bind fun v =>
    if -2147483648 ≤ v ∧ v ≤ 2147483647 then some (Int32.ofInt v) else none

/-- `trim`. -/
def trim (s : TypeText) : TypeText := (Cute.trimStart s).rdropWhile Cute.isWhitespace

/-! ### Names -/

/-- The text of a scalar type. -/
def formatScalar : ScalarType → TypeText
  | .i1 => chars "i1"
  | .i4 => chars "i4"
  | .i8 => chars "i8"
  | .i16 => chars "i16"
  | .i32 => chars "i32"
  | .i64 => chars "i64"
  | .f16 => chars "f16"
  | .bf16 => chars "bf16"
  | .f32 => chars "f32"
  | .tf32 => chars "tf32"
  | .f64 => chars "f64"
  | .f8e4m3fn => chars "f8e4m3fn"
  | .f8e5m2 => chars "f8e5m2"
  | .f8e8m0fnu => chars "f8e8m0fnu"
  | .f8e5m3fnu => chars "f8e5m3fnu"
  | .f4e2m1fn => chars "f4e2m1fn"

/-- The names that are read; the last one is Rust's. -/
def scalarNames : List (TypeText × ScalarType) :=
  [(chars "i1", .i1), (chars "i4", .i4), (chars "i8", .i8), (chars "i16", .i16),
    (chars "i32", .i32),
    (chars "i64", .i64), (chars "f16", .f16), (chars "bf16", .bf16), (chars "f32", .f32),
    (chars "tf32", .tf32), (chars "f64", .f64),
    (chars "f8E4M3FN", .f8e4m3fn), (chars "f8e4m3fn", .f8e4m3fn),
    (chars "f8E5M2", .f8e5m2), (chars "f8e5m2", .f8e5m2),
    (chars "f8E8M0FNU", .f8e8m0fnu), (chars "f8e8m0fnu", .f8e8m0fnu),
    (chars "f4E2M1FN", .f4e2m1fn), (chars "f4e2m1fn", .f4e2m1fn),
    (chars "f8E5M3FNU", .f8e5m3fnu), (chars "f8e5m3fnu", .f8e5m3fnu), (chars "bool", .i1)]

/-- `parse_scalar`. -/
def parseScalar (s : TypeText) : Option ScalarType := scalarNames.lookup (trim s)

/-- The name of a pointer attribute. -/
def PointerAttribute.name : PointerAttribute → TypeText
  | .none => chars "none"
  | .unicast => chars "unicast"
  | .multicast => chars "multicast"

/-- What is printed behind a classified pointee. -/
def PointerAttribute.suffix (a : PointerAttribute) : TypeText :=
  chars ", #cuda_tile.ptr_attr<" ++ a.name ++ ['>']

/-- The name of a padding value. -/
def PaddingValue.name : PaddingValue → TypeText
  | .zero => chars "zero"
  | .negZero => chars "neg_zero"
  | .nan => chars "nan"
  | .posInf => chars "pos_inf"
  | .negInf => chars "neg_inf"

/-! ### Printing -/

/-- A dimension of a tensor view. -/
def formatDim (d : Int64) : TypeText := if d = dynamic ∨ d < 0 then ['?'] else displayI64 d

/-- The text of an element type. -/
def formatElement : TileElementType → TypeText
  | .scalar s => formatScalar s
  | .pointer p => chars "ptr<" ++ formatScalar p.pointee ++ ['>']

/-- The text of a tile. -/
def formatTile (t : TileType) : TypeText :=
  if t.shape = [] then chars "tile<" ++ formatElement t.elementType ++ ['>']
  else chars "tile<" ++ ['x'].intercalate (t.shape.map displayI64) ++ ['x'] ++
    formatElement t.elementType ++ ['>']

/-- The `x` stands before the element, whether a dimension stands before it or not. -/
def formatTensorView (v : TensorViewType) : TypeText :=
  chars "tensor_view<" ++ ['x'].intercalate (v.shape.map formatDim) ++ ['x'] ++
    formatScalar v.elementType ++ chars ", strides=[" ++ [','].intercalate
      (v.strides.map formatDim) ++
      chars "]>"

/-- The text of a tile shape. -/
def formatTileShape (tileShape : List Int32) : TypeText :=
  chars "tile=(" ++ ['x'].intercalate (tileShape.map displayI32) ++ [')']

/-- The text of a padding value. -/
def formatPadding : Option PaddingValue → TypeText
  | none => []
  | some p => chars ", padding_value = " ++ p.name

/-- `i as i32` is the index that each value of the map is compared with. -/
def isIdentity (dimMap : List Int32) : Bool := dimMap.zipIdx.all fun p => p.1 = Int32.ofNat p.2

/-- The text of a list of numbers. -/
def formatList (vs : List Int32) : TypeText := [','].intercalate (vs.map displayI32)

/-- The text of a dimension map; the identity is left out. -/
def formatDimMap (dimMap : List Int32) : TypeText :=
  if isIdentity dimMap then [] else chars ", dim_map=[" ++ formatList dimMap ++ [']']

/-- The text of a partition view. -/
def formatPartitionView (v : PartitionViewType) : TypeText :=
  chars "partition_view<" ++ formatTileShape v.tileShape ++ formatPadding v.paddingValue ++
    chars ", " ++ formatTensorView v.tensorView ++ formatDimMap v.dimMap ++ ['>']

/-- The text of a gather-scatter view. -/
def formatGatherScatterView (v : GatherScatterViewType) : TypeText :=
  chars "gather_scatter_view<" ++ formatTileShape v.tileShape ++ formatPadding v.paddingValue ++
    chars ", " ++ formatTensorView v.tensorView ++ chars ", sparse_dim=" ++
      displayI32 v.sparseDim ++
      ['>']

/-- The text of a strided view. -/
def formatStridedView (v : StridedViewType) : TypeText :=
  chars "strided_view<" ++ formatTileShape v.tileShape ++ formatPadding v.paddingValue ++
    chars ", traversal_strides=[" ++ formatList v.traversalStrides ++ chars "], " ++
      formatTensorView v.tensorView ++ formatDimMap v.dimMap ++ ['>']

/-- The text up to and with `pat`, and the text behind it. -/
def findBehind (pat s : TypeText) : Option (TypeText × TypeText) :=
  (find pat s).map fun p => (p.1 ++ pat, p.2)

/-- The classification is inserted before the first `>` behind the first pointer, else behind the
first tensor view; a text without either is left as it is. -/
def insertAttribute (a : PointerAttribute) (text : TypeText) : TypeText :=
  match findBehind (chars "ptr<") text <|> findBehind (chars "tensor_view<") text with
  | none => text
  | some p =>
    match find ['>'] p.2 with
    | none => text
    | some q => p.1 ++ q.1 ++ a.suffix ++ '>' :: q.2

mutual

/-- `format_type`. -/
def formatType : Ty → TypeText
  | .withPointerAttribute base a => insertAttribute a (formatType base)
  | .scalar s => formatScalar s
  | .pointer p => chars "ptr<" ++ formatScalar p.pointee ++ ['>']
  | .tile t => formatTile t
  | .tensorView v => formatTensorView v
  | .partitionView v => formatPartitionView v
  | .gatherScatterView v => formatGatherScatterView v
  | .stridedView v => formatStridedView v
  | .func inputs results =>
    ['('] ++ (chars ", ").intercalate (formatTypes inputs) ++ chars ") -> (" ++
      (chars ", ").intercalate (formatTypes results) ++ [')']
  | .token => chars "token"

/-- The texts of types. -/
def formatTypes : List Ty → List TypeText
  | [] => []
  | t :: ts => formatType t :: formatTypes ts

end

/-! ### Reading -/

/-- A dimension: `?` and what is not a number are dynamic. -/
def parseDim (s : TypeText) : Int64 :=
  if trim s = ['?'] then dynamic else (parseI64 (trim s)).getD dynamic

/-- `strip_prefix_suffix`: the text between `start` and the `>` that closes it; where none does, the
text up to a `>` at the end. -/
def stripPrefixSuffix (start s : TypeText) : Option TypeText :=
  if start <+: s then
    match untilClose '<' '>' 1 (s.drop start.length) with
    | some p => some p.1
    | none =>
      if (s.drop start.length).getLast? = some '>' then some (s.drop start.length).dropLast
        else none
  else none

/-- `trim_end_matches` of a text: it is taken off the end as often as it stands there. -/
def trimEndMatches (pat s : TypeText) : TypeText :=
  if _h : pat ≠ [] ∧ pat <:+ s then trimEndMatches pat (s.take (s.length - pat.length)) else s
termination_by s.length
decreasing_by
  have hpos := List.length_pos_iff.mpr _h.1
  have hle := _h.2.length_le
  rw [List.length_take]
  omega

/-- The dimensions before an `x` each, and the text behind the last `x`. -/
def parseTile (inner : TypeText) : Option Ty :=
  match find (chars "ptr<") inner with
  | some p => do
    let before := trimEndMatches (chars "!cuda_tile.") (trim p.1)
    let shape :=
      if before = [] then [] else ((before.rdropWhile (· = 'x')).splitOn 'x').map parseDim
    let q ← find ['>'] p.2
    let pointee ← parseScalar q.1
    some (.tile ⟨shape, .pointer ⟨pointee⟩⟩)
  | none => do
    let elem ← (inner.splitOn 'x').getLast?
    let scalar ← parseScalar elem
    some (.tile ⟨(inner.splitOn 'x').dropLast.map parseDim, .scalar scalar⟩)

/-- The strides between brackets, or without them. -/
def parseStrides (s : TypeText) : List Int64 :=
  (((s.dropWhile (· = '[')).rdropWhile (· = ']')).splitOn ',').map parseDim

/-- The text is split at the first `, strides=`, or else at the first `,strides=`. -/
def parseTensorView (inner : TypeText) : Option TensorViewType := do
  let strides := find (chars ", strides=") inner <|> find (chars ",strides=") inner
  let parts := ((strides.map Prod.fst).getD inner).splitOn 'x'
  let elem ← parts.getLast?
  let scalar ← parseScalar elem
  let shape := parts.dropLast.map parseDim
  some ⟨scalar, shape, (strides.map fun p => parseStrides p.2).getD
    (List.replicate shape.length dynamic)⟩

/-- `s.trim().parse::<i32>().unwrap_or(default)` of each item. -/
def parseItems (default : Int32) (items : List TypeText) : List Int32 :=
  items.map fun s => (parseI32 (trim s)).getD default

/-- The shape of the tiles and the text behind it (`parse_view_tile_shape`, repeated in
`parse_partition_view`). -/
def parseViewTileShape (inner : TypeText) : Option (List Int32 × TypeText) := do
  let p ← find (chars "tile=(") inner
  let q ← find [')'] p.2
  some (parseItems 1 (q.1.splitOn (if 'x' ∈ q.1 then 'x' else ',')), q.2)

/-- `parse_padding_value`: the names are searched for, in this order. -/
def parsePaddingValue (inner : TypeText) : Option PaddingValue :=
  if chars "padding_value" <:+: inner then
    if chars "zero" <:+: inner ∧ ¬chars "neg_zero" <:+: inner then some .zero
    else if chars "neg_zero" <:+: inner then some .negZero
    else if chars "nan" <:+: inner then some .nan
    else if chars "pos_inf" <:+: inner then some .posInf
    else if chars "neg_inf" <:+: inner then some .negInf
    else none
  else none

/-- `after` is the text behind the shape of the tiles. -/
def parseNestedTensorView (inner after : TypeText) : Option TensorViewType := do
  let p ← find (chars "tensor_view=!cuda_tile.tensor_view<") inner <|>
    find (chars "!cuda_tile.tensor_view<") inner <|> find (chars "tensor_view<") after
  parseTensorView (((untilClose '<' '>' 1 p.2).map Prod.fst).getD [])

/-- A list of numbers behind a prefix. -/
def parseI32ListAfter (inner start : TypeText) : Option (List Int32) := do
  let p ← find start inner
  let q ← find [']'] p.2
  some (parseItems 0 (q.1.splitOn ','))

/-- `(0..rank as i32).collect()` -/
def identityMap (rank : ℕ) : List Int32 :=
  (List.range (Int32.ofNat rank).toInt.toNat).map Int32.ofNat

/-- A map that is not closed is an error here; in a strided view the default takes its place. -/
def parsePartitionView (inner : TypeText) : Option Ty := do
  let p ← parseViewTileShape inner
  let tensorView ← parseNestedTensorView inner p.2
  let dimMap ←
    if chars "dim_map=[" <:+: inner then parseI32ListAfter inner (chars "dim_map=[")
    else some (identityMap p.1.length)
  some (.partitionView ⟨p.1, tensorView, dimMap, parsePaddingValue inner⟩)

/-- `parse_gather_scatter_view`. -/
def parseGatherScatterView (inner : TypeText) : Option Ty := do
  let p ← parseViewTileShape inner
  let tensorView ← parseNestedTensorView inner p.2
  let value := (find (chars "sparse_dim=") inner).map fun q => q.2.takeWhile fun c => c ≠
    ',' ∧ c ≠ '>'
  let sparseDim := (value.map fun s => (parseI32 (trim s)).getD 0).getD 0
  some (.gatherScatterView ⟨p.1, tensorView, sparseDim, parsePaddingValue inner⟩)

/-- `parse_strided_view`. -/
def parseStridedView (inner : TypeText) : Option Ty := do
  let p ← parseViewTileShape inner
  let traversalStrides := (parseI32ListAfter inner (chars "traversal_strides=[")).getD
    (List.replicate p.1.length 1)
  let tensorView ← parseNestedTensorView inner p.2
  let dimMap := (parseI32ListAfter inner (chars "dim_map=[")).getD (identityMap p.1.length)
  some (.stridedView ⟨p.1, traversalStrides, tensorView, dimMap, parsePaddingValue inner⟩)

/-- A pointer from its inner text. -/
def parsePointer (inner : TypeText) : Option Ty := (parseScalar inner).map fun s => .pointer ⟨s⟩

/-- How a type can start, and what reads the rest of it. -/
def forms : List (TypeText × (TypeText → Option Ty)) :=
  [(chars "tile<", parseTile),
    (chars "tensor_view<", fun inner => (parseTensorView inner).map .tensorView),
    (chars "partition_view<", parsePartitionView),
    (chars "gather_scatter_view<", parseGatherScatterView),
    (chars "strided_view<", parseStridedView),
    (chars "ptr<", parsePointer)]

/-- A text without classifications and without white space around it. -/
def parseUnclassified (s : TypeText) : Option Ty :=
  if s = chars "!cuda_tile.token" ∨ s = chars "token" then some .token
  else
    -- every form in its long spelling, then every form in its short one
    let result := (forms.map fun f => (chars "!cuda_tile." ++ f.1, f.2)) ++
      forms |>.findSome? fun f =>
      (stripPrefixSuffix f.1 s).map f.2
    result.getD ((parseScalar s).map .scalar)

/-- The first classification whose text is there. -/
def findAttribute (s : TypeText) : Option PointerAttribute :=
  [PointerAttribute.none, .unicast, .multicast].find? fun a => a.suffix <:+: s

/-- An attribute has a suffix. -/
theorem suffix_ne_nil (a : PointerAttribute) : a.suffix ≠ [] := by
  cases a <;> decide

/-- Trimming does not lengthen. -/
theorem length_trim_le (s : TypeText) : (trim s).length ≤ s.length :=
  le_trans (List.rdropWhile_prefix _ _).length_le (Cute.length_trimStart_le s)

/-- An attribute that is found stands in the text. -/
theorem infix_of_findAttribute {s : TypeText} {a : PointerAttribute}
    (h : findAttribute s = some a) :
    a.suffix <:+: s := by
  have hfound := List.find?_some h
  exact of_decide_eq_true hfound

/-- `Type::parse`: the text of a classification is taken out wherever it stands. -/
def Ty.parse (s : TypeText) : Option Ty :=
  match _h : findAttribute (trim s) with
  | some a => (Ty.parse (removeAll a.suffix (trim s))).map fun ty => ty.withPointerAttribute' a
  | none => parseUnclassified (trim s)
termination_by s.length
decreasing_by
  exact (length_removeAll_lt (suffix_ne_nil a) (infix_of_findAttribute _h)).trans_le
    (length_trim_le s)

end CudaOxide.TileIr
