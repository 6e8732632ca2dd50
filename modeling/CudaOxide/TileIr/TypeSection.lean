import CudaOxide.TileIr.OpWriter
import CudaOxide.TileIr.TypeEntry

/-!
# The type section

The table of types is filled while functions are written, and its section is written at the end
(`TypeManager`, `serialize_type`, `write_type_section` of `cutile-ir/src/bytecode/writer.rs`).

* `TypeTable.WellFormed` — each type stands there once, behind the types it is made of; entering a
  type keeps that.
* `serializeType` — the encoding of a type, with the indices the table gives for its parts.
* `typeSection` — the section.
-/

namespace CudaOxide.TileIr

open CudaOxide.Lib CudaOxide.Lib.Bytes Decode

/-! ### The table -/

namespace TypeTable

/-- Each type stands once in the table, behind the types it is made of. -/
structure WellFormed (types : TypeTable) : Prop where
  nodup : types.Nodup
  deps : ∀ (n : ℕ) (ty : Ty), types[n]? = some ty → ∀ d ∈ ty.deps, ∃ i < n, types[i]? = some d

/-- The table after an insertion: `ty` stands at the index that was returned, and no type is new
that is heavier. -/
structure Entered (types : TypeTable) (ty : Ty) (out : ℕ × TypeTable) : Prop where
  wellFormed : WellFormed out.2
  extends_ : types <+: out.2
  index : out.2[out.1]? = some ty
  light : ∀ t ∈ out.2, t ∈ types ∨ t.weight ≤ ty.weight

variable {types : TypeTable} {ty d : Ty} {n : ℕ}

/-- The empty table is well formed. -/
theorem wellFormed_nil : WellFormed ([] : TypeTable) where
  nodup := List.nodup_nil
  deps := by
    intro n ty h
    cases h

/-- A new type may be added behind the ones it depends on. -/
theorem WellFormed.append (h : WellFormed types) (hnew : ty ∉ types)
    (hdeps : ∀ d ∈ ty.deps, d ∈ types) : WellFormed (types ++ [ty]) where
  nodup := by
    rw [← List.concat_eq_append]
    exact List.Nodup.concat hnew h.nodup
  deps := by
    intro n t hn d hd
    rcases Nat.lt_or_ge n types.length with hlt | hge
    · rw [List.getElem?_append_left hlt] at hn
      obtain ⟨i, hi, hget⟩ := h.deps n t hn d hd
      exact ⟨i, hi, by rw [List.getElem?_append_left (hi.trans hlt), hget]⟩
    · rw [List.getElem?_append_right hge, List.getElem?_singleton] at hn
      split at hn
      · cases hn
        obtain ⟨i, hi, hget⟩ := List.mem_iff_getElem.mp (hdeps d hd)
        refine ⟨i, by omega, ?_⟩
        rw [List.getElem?_append_left hi, List.getElem?_eq_getElem hi, hget]
      · cases hn

/-- A type that is there is found, and nothing is entered. -/
theorem getOrInsert_of_mem (hd : d ∈ types) :
    ∃ i, types[i]? = some d ∧ types.getOrInsert d = (i, types) := by
  cases hfound : types.idxOf? d with
  | none => exact absurd hd (List.idxOf?_eq_none_iff.mp hfound)
  | some i =>
    obtain ⟨hlt, hget, -⟩ := List.idxOf?_eq_some_iff.mp hfound
    refine ⟨i, ?_, ?_⟩
    · rw [List.getElem?_eq_getElem hlt, hget]
    · rw [TypeTable.getOrInsert, hfound]

/-- A new type stands behind the types it is made of. -/
theorem getOrInsert_of_not_mem (hty : ty ∉ types) :
    types.getOrInsert ty =
      ((ty.deps.foldl (fun acc d => (getOrInsert acc d).2) types).length,
        ty.deps.foldl (fun acc d => (getOrInsert acc d).2) types ++ [ty]) := by
  rw [TypeTable.getOrInsert, List.idxOf?_eq_none_iff.mpr hty,
    ← List.foldl_attach (l := ty.deps) (f := fun acc d => (getOrInsert acc d).2)]

/-- The tables after several insertions. -/
theorem foldl_getOrInsert {ds : List Ty} (h : WellFormed types)
    (hentered : ∀ d ∈ ds, ∀ types : TypeTable, WellFormed types →
      Entered types d (types.getOrInsert d)) :
    WellFormed (ds.foldl (fun acc d => (getOrInsert acc d).2) types) ∧
      types <+: ds.foldl (fun acc d => (getOrInsert acc d).2) types ∧
      (∀ d ∈ ds, d ∈ ds.foldl (fun acc d => (getOrInsert acc d).2) types) ∧
      ∀ t ∈ ds.foldl (fun acc d => (getOrInsert acc d).2) types,
        t ∈ types ∨ ∃ d ∈ ds, t.weight ≤ d.weight := by
  induction ds generalizing types with
  | nil => exact ⟨h, List.prefix_rfl, fun _ hd => absurd hd List.not_mem_nil, fun _ ht => .inl ht⟩
  | cons d ds ih =>
    have hd := hentered d List.mem_cons_self types h
    obtain ⟨hwf, hpre, hmem, hlight⟩ := ih hd.wellFormed fun e he =>
      hentered e (List.mem_cons_of_mem _ he)
    rw [List.foldl_cons]
    refine ⟨hwf, hd.extends_.trans hpre, ?_, ?_⟩
    · intro e he
      rcases List.mem_cons.mp he with rfl | he
      · exact hpre.subset (List.mem_of_getElem? hd.index)
      · exact hmem e he
    · intro t ht
      rcases hlight t ht with ht | ⟨e, he, hle⟩
      · exact (hd.light t ht).imp_right fun hle => ⟨d, List.mem_cons_self, hle⟩
      · exact .inr ⟨e, List.mem_cons_of_mem _ he, hle⟩

/-- Entering a type keeps the table well formed: by induction on its weight, since its parts weigh
less, and so none of the types entered on the way is the type itself. -/
theorem getOrInsert_entered (h : WellFormed types) (ty : Ty) :
    Entered types ty (types.getOrInsert ty) := by
  induction hw : ty.weight using Nat.strongRecOn generalizing types ty with
  | ind w ih =>
    subst hw
    by_cases hmem : ty ∈ types
    · obtain ⟨i, hget, heq⟩ := getOrInsert_of_mem hmem
      rw [heq]
      exact ⟨h, List.prefix_rfl, hget, fun _ ht => .inl ht⟩
    · have hentered : ∀ d ∈ ty.deps, ∀ types : TypeTable, WellFormed types →
          Entered types d (types.getOrInsert d) := fun d hd types h =>
        ih d.weight (Ty.weight_lt_of_mem_deps hd) h d rfl
      obtain ⟨hwf, hpre, hdeps, hlight⟩ := foldl_getOrInsert h hentered
      have hnew : ty ∉ ty.deps.foldl (fun acc d => (getOrInsert acc d).2) types := by
        intro hin
        rcases hlight ty hin with hin | ⟨d, hd, hle⟩
        · exact hmem hin
        · exact absurd (Ty.weight_lt_of_mem_deps hd) (Nat.not_lt.mpr hle)
      rw [getOrInsert_of_not_mem hmem]
      refine ⟨hwf.append hnew hdeps, hpre.trans (List.prefix_append _ _), ?_, ?_⟩
      · rw [List.getElem?_append_right (Nat.le_refl _), Nat.sub_self]
        rfl
      · intro t ht
        rcases List.mem_append.mp ht with ht | ht
        · rcases hlight t ht with ht | ⟨d, hd, hle⟩
          · exact .inl ht
          · exact .inr (hle.trans (Ty.weight_lt_of_mem_deps hd).le)
        · rw [List.mem_singleton.mp ht]
          exact .inr (Nat.le_refl _)

/-- The index of a part lies below the index of the type. -/
theorem WellFormed.index_dep (h : WellFormed types) (hn : types[n]? = some ty) (hd : d ∈ ty.deps) :
    ∃ i < n, (types.take n)[i]? = some d ∧ types.getOrInsert d = (i, types) := by
  obtain ⟨j, hj, hget⟩ := h.deps n ty hn d hd
  obtain ⟨i, hi, heq⟩ := getOrInsert_of_mem (List.mem_of_getElem? hget)
  have hij : i = j := by
    obtain ⟨hilt, hi⟩ := List.getElem?_eq_some_iff.mp hi
    obtain ⟨hjlt, hj⟩ := List.getElem?_eq_some_iff.mp hget
    exact (h.nodup.getElem_inj_iff).mp (hi.trans hj.symm)
  subst hij
  exact ⟨i, hj, by rw [List.getElem?_take_of_lt hj, hget], heq⟩

/-- The table after the types have been inserted in turn. -/
def insertAll (tys : List Ty) : TypeTable := tys.foldl (fun types ty => (types.getOrInsert ty).2) []

/-- The table of a list of types is well formed. -/
theorem insertAll_wellFormed (tys : List Ty) : WellFormed (insertAll tys) :=
  (foldl_getOrInsert wellFormed_nil fun ty _ _ h => getOrInsert_entered h ty).1

/-- Every type of the list is in its table. -/
theorem mem_insertAll {tys : List Ty} (hty : ty ∈ tys) : ty ∈ insertAll tys :=
  (foldl_getOrInsert wellFormed_nil fun ty _ _ h => getOrInsert_entered h ty).2.2.1 ty hty

end TypeTable

/-! ### Writing -/

/-- `require_version` -/
def requireVersion (subject : Subject) (required version : BytecodeVersion) : Run WriteError Unit :=
  if version < required then Run.fail (.requiresVersion subject required version) else .ok ()

/-- A writer that may add types to the table. -/
abbrev TypeWriter := StateT TypeTable (Run WriteError)

/-- The index of a type, which is entered where it is not there yet. -/
def indexOf (ty : Ty) : TypeWriter ℕ := fun types => .ok (types.getOrInsert ty)

/-- The indices of types, in order. -/
def indicesOf : List Ty → TypeWriter Bytes
  | [] => return []
  | ty :: tys => do
    let index ← indexOf ty
    let rest ← indicesOf tys
    return varint index ++ rest

namespace Ty

/-- A pointer, a tensor view, or a type that hands its classification on. -/
def takesAttribute : Ty → Bool
  | pointer _ | tensorView _ => true
  | t => t.pointerDependency.isSome

/-- `t` with the classification, where there is one. -/
def qualify (t : Ty) : Option PointerAttribute → Ty
  | some a => t.withPointerAttribute' a
  | none => t

end Ty

/-- The flags of a pointer or a tensor view. -/
def attributeFlags (version : BytecodeVersion) (a : Option PointerAttribute) : Bytes :=
  if .v13_4 ≤ version then varint a.isSome.toNat else []

/-- The byte of a pointer attribute. -/
def attributeByte (a : Option PointerAttribute) : Bytes := a.elim [] fun a => [a.toByte]

/-- The flag of a padding value. -/
def paddingFlag (p : Option PaddingValue) : Bytes := varint (if p.isSome then 1 else 0)

/-- The byte of a padding value. -/
def paddingByte (p : Option PaddingValue) : Bytes := p.elim [] fun p => [p.toByte]

/-- `serialize_type_with_pointer_attribute` -/
def serializeWithPointerAttribute (version : BytecodeVersion) :
    Ty → Option PointerAttribute → TypeWriter Bytes
  | .withPointerAttribute base a, _ => do
    requireVersion (.feature .pointerAttribute) a.feature.since version
    if base.takesAttribute then serializeWithPointerAttribute version base (some a)
    else StateT.lift (Run.fail .pointerAttributeBase)
  | .scalar s, _ => do
    requireVersion (.scalar s) (scalarRequirement s).since version
    return varint s.typeTag
  | .pointer p, attr => do
    let index ← indexOf (.scalar p.pointee)
    return varint 12 ++ (attributeFlags version attr ++ (varint index ++ attributeByte attr))
  | .tile t, attr => do
    let index ← indexOf (match t.elementType with
      | .scalar s => .scalar s
      | .pointer p => Ty.qualify (.pointer p) attr)
    return varint 13 ++ (varint index ++ leI64s t.shape)
  | .tensorView v, attr => do
    let index ← indexOf (.scalar v.elementType)
    return varint 14 ++ (attributeFlags version attr ++ (varint index ++ (leI64s v.shape ++
      (leI64s v.strides ++ attributeByte attr))))
  | .partitionView v, attr => do
    let index ← indexOf (Ty.qualify (.tensorView v.tensorView) attr)
    if .v13_3 ≤ version then
      return varint 15 ++ (paddingFlag v.paddingValue ++ (leI32s v.tileShape ++ (varint index ++
        (leI32s v.dimMap ++ paddingByte v.paddingValue))))
    else
      return varint 15 ++ (leI32s v.tileShape ++ (varint index ++ (leI32s v.dimMap ++
        ([if v.paddingValue.isSome then 1 else 0] ++
          v.paddingValue.elim [] fun p => varint p.toByte.toNat))))
  | .gatherScatterView v, attr => do
    requireVersion (.feature .gatherScatterView) Feature.gatherScatterView.since version
    let index ← indexOf (Ty.qualify (.tensorView v.tensorView) attr)
    return varint 20 ++ (paddingFlag v.paddingValue ++ (leI32s v.tileShape ++ (varint index ++
      (varint v.sparseDim.toInt64.toUInt64.toNat ++ paddingByte v.paddingValue))))
  | .stridedView v, attr => do
    requireVersion (.feature .stridedView) Feature.stridedView.since version
    let index ← indexOf (Ty.qualify (.tensorView v.tensorView) attr)
    return varint 21 ++ (paddingFlag v.paddingValue ++ (leI32s v.tileShape ++
      (leI32s v.traversalStrides ++ (varint index ++ (leI32s v.dimMap ++
        paddingByte v.paddingValue)))))
  | .func inputs results, _ => do
    let inputBytes ← indicesOf inputs
    let resultBytes ← indicesOf results
    return varint 16 ++ ((varint inputs.length ++ inputBytes) ++
      (varint results.length ++ resultBytes))
  | .token, _ => return varint 17

/-- `serialize_type`. -/
def serializeType (version : BytecodeVersion) (ty : Ty) : TypeWriter Bytes :=
  serializeWithPointerAttribute version ty none

/-- `a + b` on `u32`, which panics on overflow. -/
def addU32 {ε : Type} (a b : ℕ) : Run ε ℕ :=
  if a + b < 2 ^ 32 then .ok (a + b) else Run.panic .overflow

/-- The types one after the other, each with its offset.  The length of an encoding is cut to 32
bits before it is added. -/
def serializeTypes (version : BytecodeVersion) :
    List Ty → ℕ → TypeTable → Run WriteError (List (ℕ × Bytes))
  | [], _, _ => .ok []
  | ty :: tys, running, types => do
    let out ← serializeType version ty types
    let running' ← addU32 running (out.1.length % 2 ^ 32)
    let rest ← serializeTypes version tys running' out.2
    return (running, out.1) :: rest

/-- The payload of the type section; without types there is no section (`write_type_section`). -/
def typeSection (version : BytecodeVersion) (types : TypeTable) : Run WriteError (Option Bytes) :=
  if types.isEmpty then return none
  else do
    let out ← serializeTypes version types 0 types
    return some (tableBytes 4 (out.map (·.1)) (out.map (·.2)).flatten)

/-! ### Encodings -/

/-- `base` with the classification, where there is one. -/
def Ty.classified (base : Ty) : Option PointerAttribute → Ty
  | some a => .withPointerAttribute base a
  | none => base

/-- What an encoding of the type at index `n` holds: an entry that the version has, made of the
types below `n`, which stands for the type. -/
structure EntryFor (version : BytecodeVersion) (types : TypeTable) (n : ℕ) (ty : Ty)
    (e : TypeEntry) : Prop where
  writable : e.Writable version
  below : ∀ i ∈ e.indices, i < n
  resolves : e.resolve (types.take n) = some ty

/-- What writing the type at index `n` gives: the encoding of an entry for it, and the table as it
was. -/
def Serializes (version : BytecodeVersion) (types : TypeTable) (n : ℕ) (ty : Ty)
    (out : Bytes × TypeTable) : Prop :=
  out.2 = types ∧ ∃ e : TypeEntry, out.1 = e.encode version ∧ EntryFor version types n ty e

section

variable {version : BytecodeVersion} {types : TypeTable} {n : ℕ} {ty base d : Ty}
  {attr : Option PointerAttribute} {out : Bytes × TypeTable}

/-- The version check goes on from the required version. -/
theorem requireVersion_eq_ok {subject : Subject} {required : BytecodeVersion} {u : Unit} :
    requireVersion subject required version = .ok u ↔ required ≤ version := by
  unfold requireVersion
  split
  · exact ⟨fun h => absurd h Run.fail_ne_ok, fun h => absurd h (not_le.mpr ‹_›)⟩
  · exact ⟨fun _ => not_lt.mp ‹_›, fun _ => rfl⟩

/-- Behind a version check that goes on. -/
theorem requireVersion_bind {α : Type} {subject : Subject} {required : BytecodeVersion}
    {f : TypeWriter α} {out : α × TypeTable}
    (h : (do requireVersion subject required version; f : TypeWriter α) types = .ok out) :
    required ≤ version ∧ f types = .ok out := by
  have hrun : (do requireVersion subject required version; f : TypeWriter α) types =
      (requireVersion subject required version >>= fun _ => f types) := by
    cases requireVersion subject required version with
    | ok u => rfl
    | error s => rfl
  obtain ⟨u, hu, h⟩ := Run.bind_eq_ok.mp (hrun ▸ h)
  exact ⟨requireVersion_eq_ok.mp hu, h⟩

/-- The index of a part is looked up, and the table stays. -/
theorem indexOf_bind {α : Type} {i : ℕ} {f : ℕ → TypeWriter α} {out : α × TypeTable}
    (hi : types.getOrInsert d = (i, types)) (h : (indexOf d >>= f) types = .ok out) :
    f i types = .ok out := by
  simpa only [bind, StateT.bind, indexOf, hi, Except.bind] using h

/-- The flags that are written are those that are read. -/
theorem attributeFlags_eq : attributeFlags version attr =
    TypeEntry.attrFlagBytes version (attr.map (·.toByte)) := by
  cases attr with
  | none => rfl
  | some a => rfl

/-- The attribute byte that is written is the one that is read. -/
theorem attributeByte_eq : attributeByte attr = (attr.map (·.toByte)).toList := by
  cases attr with
  | none => rfl
  | some a => rfl

/-- A base type is classified by its attribute. -/
theorem classify_map (base : Ty) : TypeEntry.classify base (attr.map (·.toByte)) =
    some (base.classified attr) := by
  cases attr with
  | none => rfl
  | some a =>
    rw [Option.map_some, TypeEntry.classify, a.ofByte_toByte]
    rfl

/-- A view is classified by its attribute. -/
theorem overView_qualify (view : TensorViewType → Ty) (v : TensorViewType) :
    TypeEntry.overView view (Ty.qualify (.tensorView v) attr) =
      some ((view v).classified attr) := by
  cases attr with
  | none => rfl
  | some a => rfl

section Padding

variable (p : Option PaddingValue)

/-- The padding as its entry has it. -/
def paddingNumber : Option ℕ := p.map (·.toByte.toNat)

/-- The padding flag that is written is the one that is read. -/
theorem paddingFlag_eq : paddingFlag p = TypeEntry.flagBytes (paddingNumber p) := by
  cases p with
  | none => rfl
  | some v => rfl

/-- The padding byte that is written is the one that is read. -/
theorem paddingByte_eq : paddingByte p = TypeEntry.paddingBytes (paddingNumber p) := by
  cases p with
  | none => rfl
  | some v => cases v <;> rfl

/-- The number of a padding value fits a byte. -/
theorem paddingNumber_lt : ∀ q ∈ paddingNumber p, q < 256 := by
  intro q hq
  obtain ⟨v, -, rfl⟩ := Option.mem_map.mp hq
  exact v.toByte.toNat_lt

/-- A padding value comes back from its number. -/
theorem padding?_paddingNumber : TypeEntry.padding? (paddingNumber p) = some p := by
  cases p with
  | none => rfl
  | some v =>
    rw [paddingNumber, Option.map_some, TypeEntry.padding?, v.ofNat?_toByte]
    rfl

end Padding

/-- The types of a signature, each of them a part of the type at `n`. -/
theorem indicesOf_spec (h : types.WellFormed) (hn : types[n]? = some ty) {tys : List Ty}
    (htys : ∀ t ∈ tys, t ∈ ty.deps) : ∃ is : List ℕ, is.length = tys.length ∧ (∀ i ∈ is, i < n) ∧
      TypeEntry.typesAt (types.take n) is = some tys ∧
      indicesOf tys types = .ok (is.flatMap varint, types) := by
  induction tys with
  | nil => exact ⟨[], rfl, fun _ hi => absurd hi List.not_mem_nil, rfl, rfl⟩
  | cons t tys ih =>
    obtain ⟨is, hlen, hbelow, hat, hrun⟩ := ih fun u hu => htys u (List.mem_cons_of_mem _ hu)
    obtain ⟨i, hi, hget, heq⟩ := h.index_dep hn (htys t List.mem_cons_self)
    refine ⟨i :: is, by rw [List.length_cons, hlen, List.length_cons], ?_, ?_, ?_⟩
    · rintro j (_ | ⟨_, hj⟩)
      · exact hi
      · exact hbelow j hj
    · simp only [TypeEntry.typesAt, hget, hat]
      rfl
    · simp only [indicesOf, bind, StateT.bind, indexOf, heq, Except.bind, hrun]
      rfl

/-- A type with one part: the entry names the part by its index and stands for the type over any
table that has the part there. -/
theorem Serializes.of_part {f : ℕ → TypeWriter Bytes} (h : types.WellFormed)
    (hn : types[n]? = some ty) (hd : d ∈ ty.deps) (hout : (indexOf d >>= f) types = .ok out)
    (hentry : ∀ i, f i types = .ok out → ∃ e : TypeEntry, out = (e.encode version, types) ∧
      e.Writable version ∧ e.indices = [i] ∧
      ∀ below : TypeTable, below[i]? = some d → e.resolve below = some ty) :
    Serializes version types n ty out := by
  obtain ⟨i, hi, hget, heq⟩ := h.index_dep hn hd
  obtain ⟨e, rfl, hwritable, hindices, hresolve⟩ := hentry i (indexOf_bind heq hout)
  refine ⟨rfl, e, rfl, hwritable, ?_, hresolve _ hget⟩
  intro j hj
  rw [hindices] at hj
  rwa [List.mem_singleton.mp hj]

/-- A signature names the types of its arguments and of its results. -/
theorem serialize_func {inputs results : List Ty} (h : types.WellFormed)
    (hn : types[n]? = some (.func inputs results))
    (hout : serializeWithPointerAttribute version (.func inputs results) none types = .ok out) :
    Serializes version types n (.func inputs results) out := by
  have hinputs : ∀ t ∈ inputs, t ∈ (Ty.func inputs results).deps := fun t ht =>
    List.mem_append_left _ ht
  have hresults : ∀ t ∈ results, t ∈ (Ty.func inputs results).deps := fun t ht =>
    List.mem_append_right _ ht
  obtain ⟨is, hislen, hisbelow, hisat, hisrun⟩ := indicesOf_spec h hn hinputs
  obtain ⟨rs, hrslen, hrsbelow, hrsat, hrsrun⟩ := indicesOf_spec h hn hresults
  simp only [serializeWithPointerAttribute, bind, StateT.bind, hisrun, hrsrun, Except.bind] at hout
  cases hout
  refine ⟨rfl, .func is rs, ?_, trivial, ?_, ?_⟩
  · rw [TypeEntry.encode, hislen, hrslen]
  · intro i hi
    rcases List.mem_append.mp hi with hi | hi
    · exact hisbelow i hi
    · exact hrsbelow i hi
  · simp only [TypeEntry.resolve, hisat, hrsat, bind, Option.bind]
    rfl

/-- Only a type that takes a classification is written with one. -/
theorem attr_eq_none (hattr : attr.isSome → .v13_4 ≤ version ∧ base.takesAttribute)
    (hbase : base.takesAttribute = false) : attr = none := by
  cases attr with
  | none => rfl
  | some a => rw [(hattr rfl).2] at hbase; cases hbase

/-- The classification of a pointer or a tensor view is one that the version has. -/
theorem attr_since (hattr : attr.isSome → .v13_4 ≤ version ∧ base.takesAttribute)
    (hsome : (attr.map (·.toByte)).isSome) : .v13_4 ≤ version := by
  rw [Option.isSome_map] at hsome
  exact (hattr hsome).1

/-- The encoding of a type with the classification it is written with. -/
theorem serialize_classified (h : types.WellFormed)
    (hattr : attr.isSome → .v13_4 ≤ version ∧ base.takesAttribute)
    (hn : types[n]? = some (base.classified attr))
    (hout : serializeWithPointerAttribute version base attr types = .ok out)
    (hplain : ∀ b a, base ≠ .withPointerAttribute b a) :
    Serializes version types n (base.classified attr) out := by
  -- by the kind of type, as in the code; an attribute is only written for types with a pointer
  cases base with
  | withPointerAttribute b a => exact absurd rfl (hplain b a)
  | scalar s =>
    obtain rfl := attr_eq_none hattr rfl
    obtain ⟨-, hout⟩ := requireVersion_bind hout
    cases hout
    exact ⟨rfl, .scalar s, rfl, trivial, fun _ hi => absurd hi List.not_mem_nil, rfl⟩
  | token =>
    obtain rfl := attr_eq_none hattr rfl
    cases hout
    exact ⟨rfl, .token, rfl, trivial, fun _ hi => absurd hi List.not_mem_nil, rfl⟩
  | func inputs results =>
    obtain rfl := attr_eq_none hattr rfl
    exact serialize_func h hn hout
  | pointer p =>
    have hd : .scalar p.pointee ∈ ((Ty.pointer p).classified attr).deps := by
      cases attr <;> exact List.mem_singleton.mpr rfl
    refine Serializes.of_part h hn hd hout fun i hi =>
      ⟨.pointer i (attr.map (·.toByte)), ?_, fun hsome => attr_since hattr hsome, rfl,
        fun below hget => ?_⟩
    · cases hi
      rw [attributeFlags_eq, attributeByte_eq]
      rfl
    · simp only [TypeEntry.resolve, hget, TypeEntry.scalar?, classify_map, bind, Option.bind]
  | tensorView v =>
    have hd : .scalar v.elementType ∈ ((Ty.tensorView v).classified attr).deps := by
      cases attr <;> exact List.mem_singleton.mpr rfl
    refine Serializes.of_part h hn hd hout fun i hi =>
      ⟨.tensorView i v.shape v.strides (attr.map (·.toByte)), ?_,
        fun hsome => attr_since hattr hsome, rfl,
        fun below hget => ?_⟩
    · cases hi
      rw [attributeFlags_eq, attributeByte_eq]
      rfl
    · simp only [TypeEntry.resolve, hget, TypeEntry.scalar?, classify_map, bind, Option.bind]
  | tile t =>
    obtain ⟨shape, e⟩ := t
    cases e with
    | scalar s =>
      obtain rfl := attr_eq_none hattr rfl
      have hd : .scalar s ∈ ((Ty.tile ⟨shape, .scalar s⟩).classified none).deps :=
        List.mem_singleton.mpr rfl
      refine Serializes.of_part h hn hd hout fun i hi =>
        ⟨.tile i shape, ?_, trivial, rfl, fun below hget => ?_⟩
      · cases hi
        rfl
      · simp only [TypeEntry.resolve, hget, bind, Option.bind]
        rfl
    | pointer p =>
      have hd : Ty.qualify (.pointer p) attr ∈
          ((Ty.tile ⟨shape, .pointer p⟩).classified attr).deps := by
        cases attr <;> exact List.mem_singleton.mpr rfl
      refine Serializes.of_part h hn hd hout fun i hi =>
        ⟨.tile i shape, ?_, trivial, rfl, fun below hget => ?_⟩
      · cases hi
        rfl
      · simp only [TypeEntry.resolve, hget, bind, Option.bind]
        cases attr <;> rfl
  | partitionView v =>
    have hd : Ty.qualify (.tensorView v.tensorView) attr ∈
        ((Ty.partitionView v).classified attr).deps := by
      cases attr <;> exact List.mem_singleton.mpr rfl
    refine Serializes.of_part h hn hd hout fun i hi =>
      ⟨.partitionView v.tileShape i v.dimMap (paddingNumber v.paddingValue), ?_,
        paddingNumber_lt _, rfl, fun below hget => ?_⟩
    · -- the padding stands in front from 13.3 on, and behind before
      split at hi
      · rename_i hversion
        cases hi
        rw [TypeEntry.encode, if_pos hversion, paddingFlag_eq, paddingByte_eq]
      · rename_i hversion
        cases hi
        rw [TypeEntry.encode, if_neg hversion]
        cases v.paddingValue <;> rfl
    · simp only [TypeEntry.resolve, hget, padding?_paddingNumber, overView_qualify, bind,
        Option.bind]
  -- the views that came with 13.3
  | gatherScatterView v =>
    obtain ⟨-, hout⟩ := requireVersion_bind hout
    have hd : Ty.qualify (.tensorView v.tensorView) attr ∈
        ((Ty.gatherScatterView v).classified attr).deps := by
      cases attr <;> exact List.mem_singleton.mpr rfl
    refine Serializes.of_part h hn hd hout fun i hi =>
      ⟨.gatherScatterView v.tileShape i v.sparseDim.toInt64.toUInt64.toNat
        (paddingNumber v.paddingValue), ?_, ⟨UInt64.toNat_lt _, paddingNumber_lt _⟩, rfl,
        fun below hget => ?_⟩
    · cases hi
      rw [paddingFlag_eq, paddingByte_eq]
      rfl
    · simp only [TypeEntry.resolve, hget, padding?_paddingNumber, overView_qualify, bind,
        Option.bind, UInt64.ofNat_toNat, Int64.toInt64_toUInt64, Int32.toInt32_toInt64]
  | stridedView v =>
    obtain ⟨-, hout⟩ := requireVersion_bind hout
    have hd : Ty.qualify (.tensorView v.tensorView) attr ∈
        ((Ty.stridedView v).classified attr).deps := by
      cases attr <;> exact List.mem_singleton.mpr rfl
    refine Serializes.of_part h hn hd hout fun i hi =>
      ⟨.stridedView v.tileShape v.traversalStrides i v.dimMap (paddingNumber v.paddingValue), ?_,
        paddingNumber_lt _, rfl, fun below hget => ?_⟩
    · cases hi
      rw [paddingFlag_eq, paddingByte_eq]
      rfl
    · simp only [TypeEntry.resolve, hget, padding?_paddingNumber, overView_qualify, bind,
        Option.bind]

end

/-! ### Reading -/

/-- `parse_type_section`, up to the texts that are made of the entries. -/
def parseTypeSection (version : BytecodeVersion) : Option Bytes → Decode (List TypeEntry)
  | none => return []
  | some data => Read.within data (readTable (decodeTypeEntry version) 4)

/-- The texts of the entries. -/
def describeTypes : List String → List TypeEntry → List String
  | prev, [] => prev
  | prev, e :: es => describeTypes (prev ++ [e.describe prev]) es

/-- The types that the entries stand for. -/
def resolveTypes : List Ty → List TypeEntry → Option (List Ty)
  | prev, [] => some prev
  | prev, e :: es => do resolveTypes (prev ++ [← e.resolve prev]) es

/-! ### Round trip -/

section

variable {version : BytecodeVersion} {types pre tys : TypeTable} {n running : ℕ} {ty : Ty}

/-- Pointer attributes need version 13.4. -/
theorem v13_4_le_feature (a : PointerAttribute) : .v13_4 ≤ a.feature.since := by
  cases a <;> decide

/-- A type of the table is written as an entry for it, and nothing is entered. -/
theorem serializeType_spec {out : Bytes × TypeTable} (h : types.WellFormed)
    (hn : types[n]? = some ty) (hout : serializeType version ty types = .ok out) :
    Serializes version types n ty out := by
  by_cases hplain : ∀ b a, ty ≠ .withPointerAttribute b a
  · exact serialize_classified h (fun hsome => by cases hsome) hn hout hplain
  · push Not at hplain
    obtain ⟨b, a, rfl⟩ := hplain
    obtain ⟨hversion, hout⟩ := requireVersion_bind hout
    split at hout
    · refine serialize_classified h (fun _ => ⟨(v13_4_le_feature a).trans hversion, ‹_›⟩) hn hout ?_
      rintro c a' rfl
      rename_i htakes
      cases htakes
    · cases hout

/-- The bytes that a type of the table takes. -/
def entrySize (version : BytecodeVersion) (types : TypeTable) (ty : Ty) : ℕ :=
  match serializeType version ty types with
  | .ok out => out.1.length
  | .error _ => 0

/-- The section holds an entry for each type, and the offsets are where the entries start unless
they outgrow 32 bits. -/
theorem serializeTypes_spec {out : List (ℕ × Bytes)} (h : types.WellFormed)
    (hsplit : types = pre ++ tys) (hout : serializeTypes version tys running types = .ok out) :
    ∃ es : List TypeEntry, out.map (·.2) = es.map (·.encode version) ∧
      (∀ e ∈ es, e.Writable version ∧ ∀ i ∈ e.indices, i < types.length) ∧
      resolveTypes pre es = some types ∧
      out.map (·.2.length) = tys.map (entrySize version types) ∧
      (running + (tys.dropLast.map (entrySize version types)).sum < 2 ^ 32 →
        out.map (·.1) = startsFrom running (out.map (·.2))) := by
  induction tys generalizing pre running out with
  | nil =>
    -- an empty list writes no entry
    cases hout
    refine ⟨[], rfl, fun _ he => absurd he List.not_mem_nil, ?_, rfl, fun _ => rfl⟩
    rw [hsplit, List.append_nil]
    rfl
  | cons t tys ih =>
    obtain ⟨first, hfirst, hout⟩ := Run.bind_eq_ok.mp hout
    obtain ⟨running', hrunning, hout⟩ := Run.bind_eq_ok.mp hout
    obtain ⟨rest, hrest, hout⟩ := Run.bind_eq_ok.mp hout
    cases hout
    have hn : types[pre.length]? = some t := by
      rw [hsplit, List.getElem?_append_right (Nat.le_refl _), Nat.sub_self]
      rfl
    -- the entry of one type resolves against the entries before it
    obtain ⟨hsame, e, henc, hentry⟩ := serializeType_spec h hn hfirst
    rw [hsame] at hrest
    have hsize : entrySize version types t = first.1.length := by rw [entrySize, hfirst]
    have hsplit' : types = pre ++ [t] ++ tys := by rw [hsplit, List.append_assoc]; rfl
    obtain ⟨es, hes, hall, hresolve, hsizes, hstarts⟩ := ih hsplit' hrest
    have hlt : pre.length < types.length := by
      rw [hsplit, List.length_append, List.length_cons]
      omega
    refine ⟨e :: es, ?_, ?_, ?_, ?_, ?_⟩
    · rw [List.map_cons, hes, henc, List.map_cons]
    · rintro e' (_ | ⟨_, he'⟩)
      · exact ⟨hentry.writable, fun i hi => (hentry.below i hi).trans hlt⟩
      · exact hall e' he'
    · have hpre : types.take pre.length = pre := by rw [hsplit, List.take_left]
      -- the entry is read behind the ones before it
      have hresolves := hentry.resolves
      rw [hpre] at hresolves
      simp only [resolveTypes, hresolves, bind, Option.bind, hresolve]
    · rw [List.map_cons, List.map_cons, hsizes, hsize]
    -- the offsets count the bytes before each entry
    · intro hsum
      rw [List.map_cons, List.map_cons, startsFrom]
      cases tys with
      | nil =>
        cases hrest
        rfl
      | cons u us =>
        rw [List.dropLast_cons_cons, List.map_cons, List.sum_cons, hsize] at hsum
        have hnext : running' = running + first.1.length := by
          unfold addU32 at hrunning
          rw [Nat.mod_eq_of_lt (by omega), if_pos (by omega)] at hrunning
          cases hrunning
          rfl
        rw [hstarts (by rw [hnext]; omega), hnext]

/-- Every entry starts within the section. -/
theorem mem_startsFrom_le {es : List Bytes} {s start : ℕ} (hs : s ∈ startsFrom start es) :
    s ≤ start + (es.dropLast.map List.length).sum := by
  induction es generalizing start with
  | nil => cases hs
  | cons e es ih =>
    rcases List.mem_cons.mp hs with rfl | hs
    · exact Nat.le_add_right _ _
    · cases es with
      | nil => cases hs
      | cons e' es =>
        have := ih hs
        rw [List.dropLast_cons_cons, List.map_cons, List.sum_cons]
        omega

/-- The section is read as the entries that were written. -/
theorem typeSection_reads {bytes : Bytes} (h : types.WellFormed)
    (hbytes : typeSection version types = .ok (some bytes)) (hmem : bytes.length < 2 ^ 63)
    (hsmall : (types.dropLast.map (entrySize version types)).sum < 2 ^ 32) :
    ∃ entries, Finishes [] bytes (readTable (decodeTypeEntry version) 4) entries ∧
      resolveTypes [] entries = some types := by
  unfold typeSection at hbytes
  -- an empty table writes nothing at all
  split at hbytes
  · cases hbytes
  · rename_i hne
    obtain ⟨out, hout, hbytes⟩ := Run.bind_eq_ok.mp hbytes
    cases hbytes
    obtain ⟨es, hes, hall, hresolve, hsizes, hstarts⟩ :=
      serializeTypes_spec h (List.nil_append types).symm hout
    have hstarts := hstarts (by rwa [Nat.zero_add])
    rw [hstarts] at hmem ⊢
    have hlen : types.length = (startsFrom 0 (out.map (·.2))).length := by
      have hsame := congrArg List.length hsizes
      rw [List.length_map, List.length_map] at hsame
      rw [length_startsFrom, List.length_map, hsame]
    -- the sizes of the entries are the bytes that follow the offsets
    have hsum : ((out.map (·.2)).flatten).length =
        (es.map fun e => (e.encode version).length).sum := by
      rw [hes, List.length_flatten, List.map_map]
      rfl
    have hparts : types.length + ((out.map (·.2)).flatten).length < 2 ^ 63 := by
      rw [tableBytes, List.length_append, List.length_append, List.length_append,
        length_flatMap_leBytes, ← hlen] at hmem
      omega
    refine ⟨es, readTable_finishes ?_ (by decide) ?_ ?_ hmem, hresolve⟩
    -- every entry is read back from its own bytes
    · rw [hes, List.forall₂_map_left_iff, List.forall₂_same]
      intro e he
      obtain ⟨hwritable, hindices⟩ := hall e he
      have hle := List.single_le_sum (fun _ _ => Nat.zero_le _) _
        (List.mem_map_of_mem (f := fun e => (e.encode version).length) he)
      apply Consumes.finishes
      · rw [List.nil_append]
        omega
      · apply decodeTypeEntry_encode hwritable
        intro i hi
        have := hindices i hi
        omega
    · intro hnil
      rw [hnil] at hlen
      exact hne (List.isEmpty_iff_length_eq_zero.mpr hlen)
    -- every offset is within the section, so it fits 32 bits
    · intro s hs
      have hle := mem_startsFrom_le hs
      have hsame : (out.map (·.2)).dropLast.map List.length =
          types.dropLast.map (entrySize version types) := by
        rw [List.map_dropLast, List.map_map, List.map_dropLast, ← hsizes]
        rfl
      rw [hsame] at hle
      omega

/-- **Type table.**  However types are inserted, each stands once in the table, behind the types it
is made of; it is written with the indices of those, which enters nothing; and a section whose
offsets fit 32 bits is read as the types of the table, in order. -/
theorem typeTable_faithful (version : BytecodeVersion) (tys : List Ty) :
    (TypeTable.insertAll tys).WellFormed ∧ (∀ ty ∈ tys, ty ∈ TypeTable.insertAll tys) ∧
    (∀ n ty out, (TypeTable.insertAll tys)[n]? = some ty →
      serializeType version ty (TypeTable.insertAll tys) = .ok out →
      Serializes version (TypeTable.insertAll tys) n ty out) ∧
    ∀ payload, typeSection version (TypeTable.insertAll tys) = .ok payload →
      (∀ bytes ∈ payload, bytes.length < 2 ^ 63) →
      ((TypeTable.insertAll tys).dropLast.map
        (entrySize version (TypeTable.insertAll tys))).sum < 2 ^ 32 →
      ∃ entries, (parseTypeSection version payload).run = .ok (.ok entries) ∧
        resolveTypes [] entries = some (TypeTable.insertAll tys) := by
  have hwf := TypeTable.insertAll_wellFormed tys
  refine ⟨hwf, fun ty => TypeTable.mem_insertAll, fun n ty out => serializeType_spec hwf, ?_⟩
  intro payload hpayload hmem hsmall
  cases payload with
  | some bytes =>
    obtain ⟨entries, hreads, hresolve⟩ := typeSection_reads hwf hpayload (hmem bytes rfl) hsmall
    exact ⟨entries, hreads.within.run, hresolve⟩
  | none =>
    unfold typeSection at hpayload
    split at hpayload
    · rename_i hempty
      rw [List.isEmpty_iff.mp hempty]
      exact ⟨[], rfl, rfl⟩
    · obtain ⟨out, -, hnone⟩ := Run.bind_eq_ok.mp hpayload
      cases hnone

end

/-! ### Offsets -/

section

variable (v : TensorViewType)

/-- Two types behind the scalar `i1`. -/
def viewTable : TypeTable := [.scalar .i1, .tensorView v, .token]

/-- The encoding of the view, where the scalar has index `0`. -/
def viewBytes : Bytes :=
  varint 14 ++ (varint 0 ++ (leI64s v.shape ++ (leI64s v.strides ++ [])))

variable {v}

/-- The table of a view of bits. -/
theorem insertAll_view (hv : v.elementType = .i1) :
    TypeTable.insertAll [.tensorView v, .token] = viewTable v := by
  have hscalar : TypeTable.getOrInsert [] (.scalar v.elementType) = (0, [.scalar .i1]) := by
    rw [hv]
    exact TypeTable.getOrInsert_of_not_mem List.not_mem_nil
  have hview : TypeTable.getOrInsert [] (.tensorView v) = (1, [.scalar .i1, .tensorView v]) := by
    rw [TypeTable.getOrInsert_of_not_mem List.not_mem_nil]
    simp only [Ty.deps, List.foldl_cons, List.foldl_nil, hscalar]
    rfl
  have htoken : TypeTable.getOrInsert [.scalar .i1, .tensorView v] .token = (2, viewTable v) :=
    TypeTable.getOrInsert_of_not_mem (by simp)
  simp only [TypeTable.insertAll, List.foldl_cons, List.foldl_nil, hview, htoken]

/-- The bytes of a view of bits. -/
theorem serializeType_view (hv : v.elementType = .i1) :
    serializeType .v13_2 (.tensorView v) (viewTable v) = .ok (viewBytes v, viewTable v) := by
  have hindex : (viewTable v).getOrInsert (.scalar v.elementType) = (0, viewTable v) := by
    rw [hv, TypeTable.getOrInsert]
    rfl
  simp only [serializeType, serializeWithPointerAttribute, bind, StateT.bind, indexOf, hindex,
    Except.bind]
  rfl

/-- The length of the view is cut to zero, and the offset after it is its own. -/
theorem typeSection_view (hv : v.elementType = .i1) (hlen : (viewBytes v).length = 2 ^ 32) :
    typeSection .v13_2 (viewTable v) =
      .ok (some (tableBytes 4 [0, 1, 1] ([0] ++ (viewBytes v ++ [17])))) := by
  have hscalar : serializeType .v13_2 (.scalar .i1) (viewTable v) =
      .ok (varint 0, viewTable v) := rfl
  have htoken : serializeType .v13_2 .token (viewTable v) = .ok (varint 17, viewTable v) := rfl
  have hzero : varint 0 = [0] := by decide +kernel
  have hseventeen : varint 17 = [17] := by decide +kernel
  have htypes : serializeTypes .v13_2 (viewTable v) 0 (viewTable v) =
      .ok [(0, [0]), (1, viewBytes v), (1, [17])] := by
    have hunfold : viewTable v = [.scalar .i1, .tensorView v, .token] := rfl
    rw [hunfold]
    simp only [serializeTypes, ← hunfold, hscalar, serializeType_view hv, htoken, hzero,
      hseventeen, bind,
      Except.bind, hlen]
    rfl
  rw [typeSection, if_neg (by exact Bool.false_ne_true), htypes]
  rfl

/-- The second of two equal offsets leaves no bytes for an entry in front of it. -/
theorem readEntries_same {version : BytecodeVersion} {data : Bytes} {start stop : ℕ}
    {offsets : List ℕ} {es : List TypeEntry} {r r' : Cursor}
    (h : readEntries (decodeTypeEntry version) data (start :: stop :: stop :: offsets) r =
      .ok (.ok es, r')) : ∃ e rest, es = e :: .readError :: rest := by
  obtain ⟨piece, r₁, -, h⟩ := Read.bind_eq_ok.mp h
  obtain ⟨e, r₂, -, h⟩ := Read.bind_eq_ok.mp h
  obtain ⟨es', r₃, hrest, h⟩ := Read.bind_eq_ok.mp h
  cases h
  obtain ⟨piece', r₄, hpiece, h⟩ := Read.bind_eq_ok.mp hrest
  obtain ⟨e', r₅, he', h⟩ := Read.bind_eq_ok.mp h
  obtain ⟨es'', r₆, -, h⟩ := Read.bind_eq_ok.mp h
  cases h
  have hnil : piece' = [] := by
    have hheadD : (stop :: offsets).headD data.length = stop := rfl
    rw [hheadD, range] at hpiece
    split at hpiece
    · cases hpiece
      rw [Nat.sub_self]
      rfl
    · cases hpiece
  rw [hnil] at he'
  cases he'
  exact ⟨e, es'', rfl⟩

/-- An entry that cannot be read cannot be resolved. -/
theorem resolveTypes_readError (prev : List Ty) (e : TypeEntry) (rest : List TypeEntry) :
    resolveTypes prev (e :: .readError :: rest) = none := by
  cases he : e.resolve prev with
  | none => simp [resolveTypes, he]
  | some ty => simp [resolveTypes, TypeEntry.resolve]

/-- An encoding of 2³² bytes leaves the offset where it was, and the types are not read back. -/
theorem parseTypeSection_view (hlen : (viewBytes v).length = 2 ^ 32) (entries : List TypeEntry)
    (h : (parseTypeSection .v13_2
      (some (tableBytes 4 [0, 1, 1] ([0] ++ (viewBytes v ++ [17]))))).run = .ok (.ok entries)) :
    resolveTypes [] entries = none := by
  obtain ⟨r, hrun⟩ := Read.run_eq_ok.mp h
  obtain ⟨-, r₁, hrun⟩ := Read.within_eq_ok.mp hrun
  have hcount : (varint 3).length = 1 := by decide +kernel
  have hpadding : (padding 1 4).length = 3 := by decide
  have hmem : (tableBytes 4 [0, 1, 1] ([0] ++ (viewBytes v ++ [17]))).length < 2 ^ 63 := by
    simp only [tableBytes, List.length_append, length_flatMap_leBytes, List.length_cons,
      List.length_nil, hlen, Nat.zero_add, Nat.reduceAdd, hcount, hpadding]
    decide
  have hentries : (readTable (decodeTypeEntry .v13_2) 4).behind [] _ =
      (readEntries (decodeTypeEntry .v13_2) _ [0, 1, 1]).behind _ [] :=
    readTable_behind (by decide) (List.cons_ne_nil 0 [1, 1]) (by decide) hmem
  rw [Read.behind, List.nil_append, List.length_nil, hrun] at hentries
  obtain ⟨e, rest, rfl⟩ := readEntries_same hentries.symm
  exact resolveTypes_readError [] e rest

end

/-- A view of 2²⁹ − 1 extents, whose encoding takes 2³² bytes. -/
def hugeView : TensorViewType := ⟨.i1, List.replicate 536870911 0, []⟩

/-- The length of a shape. -/
theorem length_leI64s (vs : List Int64) :
    (leI64s vs).length = (varint vs.length).length + 8 * vs.length := by
  have hdata : (vs.flatMap fun v => leBytes 8 v.toUInt64.toNat).length = 8 * vs.length := by
    induction vs with
    | nil => rfl
    | cons v vs ih =>
      rw [List.flatMap_cons, List.length_append, length_leBytes, ih, List.length_cons]
      omega
  rw [leI64s, List.length_append, hdata]

/-- The bytes of a view can fill 32 bits. -/
theorem length_viewBytes_hugeView : (viewBytes hugeView).length = 2 ^ 32 := by
  have hshape : hugeView.shape.length = 536870911 := List.length_replicate
  have hstrides : hugeView.strides.length = 0 := rfl
  have htag : (varint 14).length = 1 := by decide +kernel
  have hzero : (varint 0).length = 1 := by decide +kernel
  have hrank : (varint 536870911).length = 5 := by decide +kernel
  rw [viewBytes, List.append_nil, List.length_append, List.length_append, List.length_append,
    length_leI64s, length_leI64s, hshape, hstrides, htag, hzero, hrank]
  norm_num

/-- With such a view, later entries are not read back. -/
theorem typeTable_truncated : ∃ payload,
    typeSection .v13_2 (TypeTable.insertAll [.tensorView hugeView, .token]) = .ok payload ∧
    ∀ entries, (parseTypeSection .v13_2 payload).run = .ok (.ok entries) →
      resolveTypes [] entries ≠ some (TypeTable.insertAll [.tensorView hugeView, .token]) := by
  rw [insertAll_view rfl]
  refine ⟨_, typeSection_view rfl length_viewBytes_hugeView, ?_⟩
  intro entries h hresolve
  rw [parseTypeSection_view length_viewBytes_hugeView entries h] at hresolve
  cases hresolve

end CudaOxide.TileIr
