import CudaOxide.TileIr.Flags

/-!
# Operand groups

The memory, view, atomic and multimem operations write their operands in groups: a fixed operand, a
group with its size, or an operand that is there when a bit of the flags word says so.

* `Opcode.segments` — the groups of an operation in order; `Segmented op` — its sizes fit them.
* `readGroups` — reads the groups back, from the flags word and the bytes behind the attributes.
* `segments_recovered` — the groups that are written are read back, every operand is written once
  and in order, and nothing is looked up out of bounds.
-/

namespace CudaOxide.TileIr

open CudaOxide.Lib

/-! ### The groups of an operation -/

/-- A group of operands; the bit of the flags word says whether an optional one is there. -/
inductive SegmentKind where
  | one
  | variadic
  | optional (bit : ℕ)
  deriving DecidableEq, Repr

/-- The sizes that a kind of segment admits. -/
def SegmentKind.Admits (size : Int32) : SegmentKind → Prop
  | one => size = 1
  | variadic => 0 ≤ size
  | optional _ => size = 0 ∨ size = 1

/-- The groups in the order they are written, which is the order of the operands. -/
def Opcode.segments : Opcode → List SegmentKind
  | .makeTensorView => [.one, .variadic, .variadic]
  | .print => [.variadic, .optional 0]
  | .atomicCAS => [.one, .one, .one, .optional 0, .optional 1]
  | .atomicRMW => [.one, .one, .optional 0, .optional 1]
  | .atomicRedViewTko => [.one, .variadic, .one, .optional 0]
  | .loadPtrTko => [.one, .optional 2, .optional 3, .optional 4]
  | .loadViewTko => [.one, .variadic, .optional 2]
  | .storePtrTko => [.one, .one, .optional 2, .optional 3]
  | .storeViewTko => [.one, .one, .variadic, .optional 2]
  | .multimemLoadReduceViewTko => [.one, .variadic, .optional 1]
  | .multimemReduceViewTko => [.one, .one, .variadic, .optional 0]
  | .multimemStoreViewTko => [.one, .one, .variadic, .optional 1]
  | _ => []

namespace Operation

variable (op : Operation)

/-- The sizes of the groups fit the operation and its operands. -/
structure Segmented : Prop where
  segmented : op.opcode.segments ≠ []
  length_le : op.operandSegmentSizes.length ≤ op.opcode.segments.length
  arity : ∀ (group : ℕ) (kind : SegmentKind), op.opcode.segments[group]? = some kind →
    kind.Admits (op.groupSize group)
  total : (op.operandSegmentSizes.map Int32.toInt).sum = op.operands.length
  /-- Without sizes, a `print` finds its token by its type. -/
  given : op.opcode = .print → op.hasAttr "operandSegmentSizes" = true

/-- The operands of a group. -/
def segment (group : ℕ) : List Value :=
  (op.operands.drop (op.operandGroupOffset group)).take (asUsize (op.groupSize group))

/-- The groups that an operation writes, from the number `group` on. -/
def segmentsFrom : List SegmentKind → ℕ → List (List Value)
  | [], _ => []
  | _ :: kinds, group => op.segment group :: segmentsFrom kinds (group + 1)

/-- The operand segments of the operation. -/
def segments : List (List Value) := op.segmentsFrom op.opcode.segments 0

end Operation

/-! ### Reading the groups back -/

/-- `count` indices. -/
def readIndices : ℕ → Bytes → Option (List ℕ × Bytes)
  | 0, bs => some ([], bs)
  | count + 1, bs => do
    let (index, bs) ← Varint.decode bs
    let (indices, bs) ← readIndices count bs
    some (index :: indices, bs)

/-- The number of operands of a group: fixed, written before them, or said by the flags word. -/
def SegmentKind.readSize (word : ℕ) (bs : Bytes) : SegmentKind → Option (ℕ × Bytes)
  | one => some (1, bs)
  | variadic => Varint.decode bs
  | optional bit => some (if word.testBit bit then 1 else 0, bs)

/-- The groups of an operation, and what stands behind them. -/
def readGroups (word : ℕ) : List SegmentKind → Bytes → Option (List (List ℕ) × Bytes)
  | [], bs => some ([], bs)
  | kind :: kinds, bs => do
    let (size, bs) ← kind.readSize word bs
    let (indices, bs) ← readIndices size bs
    let (groups, bs) ← readGroups word kinds bs
    some (indices :: groups, bs)

/-- The bytes of a field that names no type and no attribute. -/
def Field.render (index : Value → ℕ) : Field → Bytes
  | bytes bs => bs
  | operand v _ => Varint.encode (index v)
  | _ => []

/-! ### Fields that are not operands -/

/-- No operand, and no panic. -/
def Field.Plain : Field → Prop
  | operand _ _ => False
  | stop (.panic _) => False
  | _ => True

/-- Every field is plain. -/
def AllPlain (fs : List Field) : Prop := ∀ f ∈ fs, f.Plain

section Plain

variable {m : Module} {version : BytecodeVersion} {op : Operation} {fs gs : List Field} {f : Field}

/-- No fields are plain. -/
@[simp] theorem allPlain_nil : AllPlain [] := fun _ hf => absurd hf List.not_mem_nil

/-- Fields are plain one by one. -/
@[simp] theorem allPlain_cons : AllPlain (f :: fs) ↔ f.Plain ∧ AllPlain fs := List.forall_mem_cons

/-- Fields in a row are plain when both parts are. -/
@[simp] theorem allPlain_append : AllPlain (fs ++ gs) ↔ AllPlain fs ∧ AllPlain gs :=
  List.forall_mem_append

@[simp] theorem plain_bytes {bs : Bytes} : (Field.bytes bs).Plain := trivial

@[simp] theorem plain_varint {n : ℕ} : (Field.varint n).Plain := trivial

@[simp] theorem plain_flags {bits : List Bool} : (Operation.flags bits).Plain := trivial

@[simp] theorem plain_resultCount : op.resultCount.Plain := trivial

@[simp] theorem plain_attr {a : Attribute} : (Field.attr a).Plain := trivial

@[simp] theorem plain_fail {e : WriteError} : (Field.fail e).Plain := trivial

/-- The version check is plain. -/
@[simp] theorem allPlain_requireVersion {subject : Subject} {required : BytecodeVersion} :
    AllPlain (Field.requireVersion subject required version) := by
  unfold Field.requireVersion
  split <;> simp

/-- The result types are plain. -/
@[simp] theorem allPlain_resultTypeFields : AllPlain op.resultTypeFields := by
  intro f hf
  obtain ⟨ty, -, rfl⟩ := List.mem_map.mp hf
  trivial

/-- An attribute is plain. -/
@[simp] theorem allPlain_inlineAttr {name : String} : AllPlain (op.inlineAttr name) := by
  unfold Operation.inlineAttr
  split <;> simp

/-- An optional attribute is plain. -/
@[simp] theorem allPlain_optionalAttr {name : String} : AllPlain (op.optionalAttr name) := by
  unfold Operation.optionalAttr
  split <;> simp

/-- An attribute with a default is plain. -/
@[simp] theorem allPlain_inlineAttrOr {name : String} {default : ℕ} :
    AllPlain (op.inlineAttrOr name default) := by
  unfold Operation.inlineAttrOr
  split <;> simp

/-- The bounds flags are plain. -/
theorem allPlain_inboundsFields {values : List Bool} :
    AllPlain (op.inboundsFields version values) := by
  refine allPlain_append.mpr ⟨?_, ?_⟩
  · split <;> simp
  · split <;> simp

/-- The bounds flags of a group are plain. -/
@[simp] theorem allPlain_inbounds {group : ℕ} : AllPlain (op.inbounds version group) := by
  have hfail : ∀ e, AllPlain [.fail e] := fun e => by simp
  simp only [Operation.inbounds]
  split
  · exact hfail _
  · split
    · exact allPlain_inboundsFields
    · split
      · split
        · exact allPlain_inboundsFields
        · exact hfail _
      · exact hfail _
    · exact hfail _

/-- The requirement checks are plain. -/
@[simp] theorem allPlain_requirementFields : AllPlain (requirementFields version op) := by
  refine allPlain_append.mpr ⟨allPlain_requireVersion, ?_⟩
  intro f hf
  obtain ⟨p, -, hf⟩ := List.mem_flatMap.mp hf
  split at hf
  · exact allPlain_requireVersion f hf
  · cases hf

/-- The operands of fields in a row. -/
theorem encodedOperands_append : encodedOperands (fs ++ gs) =
    encodedOperands fs ++ encodedOperands gs := List.filterMap_append

/-- Plain fields write no operand. -/
theorem AllPlain.encodedOperands (h : AllPlain fs) : encodedOperands fs = [] := by
  refine List.filterMap_eq_nil_iff.mpr fun f hf => ?_
  have hplain := h f hf
  cases f with
  | operand v missing => exact hplain.elim
  | _ => rfl

/-- The field stops the writer without an error. -/
def Field.Panics (f : Field) : Prop := ∃ p, f = .stop (.panic p)

/-- Plain fields do not panic. -/
theorem AllPlain.not_panics (h : AllPlain fs) : ∀ f ∈ fs, ¬f.Panics := by
  rintro f hf ⟨p, rfl⟩
  exact h _ hf

end Plain

/-! ### Where the groups of an operation lie -/

namespace Operation

variable {op : Operation}

/-- A size that is not negative is the number it names. -/
theorem asUsize_of_nonneg {size : Int32} (h : 0 ≤ size.toInt) :
    (asUsize size : ℤ) = size.toInt := by
  have hwide : size.toInt64.toInt = size.toInt := Int32.toInt_toInt64 size
  have hnat : (size.toInt64.toUInt64.toNat : ℤ) = size.toInt64.toInt := by
    have hmsb : 0 ≤ size.toInt64.toBitVec.toInt := by
      show 0 ≤ size.toInt64.toInt
      rw [hwide]
      exact h
    show (size.toInt64.toBitVec.toNat : ℤ) = size.toInt64.toBitVec.toInt
    have hlt := size.toInt64.toBitVec.isLt
    rw [BitVec.toInt_eq_toNat_cond] at hmsb ⊢
    split at hmsb
    · rw [if_pos ‹_›]
    · omega
  rw [asUsize, hnat, hwide]

/-- Group sizes are not negative. -/
theorem Segmented.groupSize_nonneg (h : op.Segmented) (group : ℕ) :
    0 ≤ (op.groupSize group).toInt := by
  by_cases hlt : group < op.opcode.segments.length
  -- the sizes say what is there, and a missing size says nothing is
  · have harity := h.arity group _ (List.getElem?_eq_getElem hlt)
    cases hkind : op.opcode.segments[group] with
    | one =>
      rw [hkind] at harity
      rw [show op.groupSize group = 1 from harity]
      decide
    | variadic =>
      rw [hkind] at harity
      exact Int32.le_iff_toInt_le.mp harity
    | optional bit =>
      rw [hkind] at harity
      rcases harity with hsize | hsize
      · rw [hsize]
        decide
      · rw [hsize]
        decide
  -- a group without a size is empty
  · have hnone : op.operandSegmentSizes[group]? = none :=
      List.getElem?_eq_none (h.length_le.trans (not_lt.mp hlt))
    rw [groupSize, hnone]
    decide

/-- The offset of the next group. -/
theorem operandGroupOffset_succ (group : ℕ) :
    op.operandGroupOffset (group + 1) = op.operandGroupOffset group +
      asUsize (op.groupSize group) := by
  unfold operandGroupOffset groupSize
  rw [List.take_add_one, List.map_append, List.sum_append]
  cases op.operandSegmentSizes[group]? with
  | none => simp [show asUsize 0 = 0 by decide]
  | some size => simp

/-- All sizes together are the number of operands. -/
theorem Segmented.sum_sizes (h : op.Segmented) :
    (op.operandSegmentSizes.map asUsize).sum = op.operands.length := by
  have hall : ∀ size ∈ op.operandSegmentSizes, (asUsize size : ℤ) = size.toInt := by
    intro size hsize
    obtain ⟨group, hgroup⟩ := List.mem_iff_getElem?.mp hsize
    have hnonneg := h.groupSize_nonneg group
    rw [groupSize, hgroup] at hnonneg
    exact asUsize_of_nonneg hnonneg
  have hsum : ((op.operandSegmentSizes.map asUsize).sum : ℤ) =
      (op.operandSegmentSizes.map Int32.toInt).sum := by
    rw [Nat.cast_list_sum, List.map_map]
    exact congrArg List.sum (List.map_congr_left hall)
  exact_mod_cast hsum.trans h.total

/-- Groups start within the operands. -/
theorem Segmented.offset_le (h : op.Segmented) (group : ℕ) :
    op.operandGroupOffset group ≤ op.operands.length := by
  rw [← h.sum_sizes]
  exact ((List.take_sublist _ _).map _).sum_le_sum fun _ _ => Nat.zero_le _

/-- The groups cover the operands. -/
theorem Segmented.offset_end (h : op.Segmented) :
    op.operandGroupOffset op.opcode.segments.length = op.operands.length := by
  rw [← h.sum_sizes, operandGroupOffset, List.take_of_length_le h.length_le]

/-- The number of operands is a `usize`, as is every offset. -/
theorem Segmented.offset_lt (h : op.Segmented) (group : ℕ) :
    op.operandGroupOffset group < 2 ^ 64 := by
  have hsize : ∀ n ∈ op.operandSegmentSizes.map asUsize, n ≤ 2 ^ 31 := by
    intro n hn
    obtain ⟨size, hmem, rfl⟩ := List.mem_map.mp hn
    obtain ⟨g, hg⟩ := List.mem_iff_getElem?.mp hmem
    -- the sizes are checked, so none is negative and the conversion keeps it
    have hnonneg := h.groupSize_nonneg g
    rw [groupSize, hg] at hnonneg
    have heq := asUsize_of_nonneg hnonneg
    have hlt := Int32.toInt_lt size
    simp only [Option.getD_some] at heq
    omega
  have hsum := List.sum_le_card_nsmul _ _ hsize
  -- no operation has more than five groups
  have hfive : op.opcode.segments.length ≤ 5 := by
    cases op.opcode <;> decide
  have hle := h.offset_le group
  have hlength := h.length_le
  rw [h.sum_sizes, List.length_map, smul_eq_mul] at hsum
  omega

/-- A group ends before the operands do. -/
theorem Segmented.group_le (h : op.Segmented) (group : ℕ) :
    asUsize (op.groupSize group) ≤ op.operands.length - op.operandGroupOffset group := by
  have hnext := h.offset_le (group + 1)
  rw [operandGroupOffset_succ] at hnext
  omega

/-- The groups from a number on are the operands from its offset on. -/
theorem segmentsFrom_flatten (kinds : List SegmentKind) (group : ℕ) :
    (op.segmentsFrom kinds group).flatten =
      (op.operands.drop (op.operandGroupOffset group)).take
        (op.operandGroupOffset (group + kinds.length) - op.operandGroupOffset group) := by
  induction kinds generalizing group with
  | nil => simp [segmentsFrom]
  | cons kind kinds ih =>
    have hnext := op.operandGroupOffset_succ group
    have hmono : op.operandGroupOffset (group + 1) ≤
        op.operandGroupOffset (group + 1 + kinds.length) := by
      clear ih
      -- the offset only grows along the groups
      induction kinds with
      | nil => exact le_rfl
      | cons _ kinds ih =>
        refine ih.trans ?_
        rw [List.length_cons, ← Nat.add_assoc, operandGroupOffset_succ]
        exact Nat.le_add_right _ _
    show op.segment group ++ (op.segmentsFrom kinds (group + 1)).flatten = _
    rw [ih, segment, List.length_cons, show group + (kinds.length + 1) =
      group + 1 + kinds.length by omega,
      show op.operandGroupOffset (group + 1 + kinds.length) - op.operandGroupOffset group =
        asUsize (op.groupSize group) + (op.operandGroupOffset (group + 1 + kinds.length) -
          op.operandGroupOffset (group + 1)) by omega, List.take_add, List.drop_drop, hnext]

/-- **The groups of an operation are its operands.** -/
theorem Segmented.segments_flatten (h : op.Segmented) : op.segments.flatten = op.operands := by
  have hzero : op.operandGroupOffset 0 = 0 := rfl
  rw [segments, segmentsFrom_flatten, Nat.zero_add, h.offset_end, hzero, List.drop_zero,
    Nat.sub_zero, List.take_length]

end Operation

/-! ### What a group writes -/

/-- The bytes of a segment's size, where its kind has them. -/
def SegmentKind.sizeBytes (size : ℕ) : SegmentKind → Bytes
  | variadic => Varint.encode size
  | _ => []

/-- The fields of one group: its operands, with their number before them where it is not known. -/
structure GroupBody (op : Operation) (kind : SegmentKind) (group : ℕ) (fs : List Field) : Prop where
  operands : encodedOperands fs = op.segment group
  safe : ∀ f ∈ fs, ¬f.Panics
  render : ∀ index : Value → ℕ, fs.flatMap (Field.render index) =
    kind.sizeBytes (op.segment group).length ++
      (op.segment group).flatMap fun v => Varint.encode (index v)

section GroupBody

variable {op : Operation} {group : ℕ}

/-- Fields that are the operands `vs`, whatever their errors. -/
structure OperandBody (vs : List Value) (fs : List Field) : Prop where
  operands : encodedOperands fs = vs
  safe : ∀ f ∈ fs, ¬f.Panics
  render : ∀ index : Value → ℕ, fs.flatMap (Field.render index) =
    vs.flatMap fun v => Varint.encode (index v)

/-- Operands with their own errors write the operands. -/
theorem operandBody_map {vs : List (Value × ℕ)} (missing : Value × ℕ → WriteError) :
    OperandBody (vs.map Prod.fst) (vs.map fun p => Field.operand p.1 (missing p)) := by
  refine ⟨?_, ?_, ?_⟩
  · rw [encodedOperands, List.filterMap_map]
    exact List.filterMap_eq_map (f := Prod.fst) ▸ rfl
  · rintro f hf ⟨p, rfl⟩
    obtain ⟨q, -, hq⟩ := List.mem_map.mp hf
    cases hq
  · intro index
    rw [List.flatMap_map, List.flatMap_map]
    rfl

/-- Operand fields write their operands. -/
theorem operandBody_operandFields (vs : List Value) : OperandBody vs (op.operandFields vs) := by
  refine ⟨?_, ?_, ?_⟩
  · rw [encodedOperands, Operation.operandFields, List.filterMap_map]
    exact List.filterMap_some
  · rintro f hf ⟨p, rfl⟩
    obtain ⟨q, -, hq⟩ := List.mem_map.mp hf
    cases hq
  · intro index
    rw [Operation.operandFields, List.flatMap_map]
    rfl

/-- No fields write no operands. -/
theorem operandBody_nil : OperandBody [] [] := @operandBody_map [] fun _ => .negativeIndexCount

/-- A range of the operands writes that range. -/
theorem operandBody_operandsFrom {offset size : ℕ} {missing : Value → ℕ → WriteError}
    (h : size ≤ op.operands.length - offset) :
    OperandBody ((op.operands.drop offset).take size) (op.operandsFrom offset size missing) := by
  have hbody : OperandBody (((op.operands.drop offset).take size).zipIdx.map Prod.fst) _ :=
    operandBody_map fun p => missing p.1 p.2
  rw [List.zipIdx_map_fst] at hbody
  rw [Operation.operandsFrom, if_pos h, List.append_nil]
  exact hbody

/-- A segment has the size of its group. -/
theorem length_segment (h : op.Segmented) :
    (op.segment group).length = Operation.asUsize (op.groupSize group) := by
  rw [Operation.segment, List.length_take, List.length_drop]
  exact Nat.min_eq_left (h.group_le group)

/-- The fields of a segment without a size are its operands. -/
theorem groupBody_of_operandBody {kind : SegmentKind} {fs : List Field}
    (h : OperandBody (op.segment group) fs) (hkind : kind ≠ .variadic) :
    GroupBody op kind group fs := by
  refine ⟨h.operands, h.safe, fun index => ?_⟩
  rw [h.render]
  cases kind with
  | variadic => exact absurd rfl hkind
  | _ => rfl

/-- A group with its size. -/
theorem groupBody_variadic {fs : List Field} (hseg : op.Segmented)
    (h : OperandBody (op.segment group) fs) :
    GroupBody op .variadic group (.varint (Operation.asUsize (op.groupSize group)) :: fs) := by
  refine ⟨h.operands, List.forall_mem_cons.mpr ⟨?_, h.safe⟩, fun index => ?_⟩
  · rintro ⟨p, hp⟩
    cases hp
  · rw [List.flatMap_cons, h.render, length_segment hseg]
    rfl

/-- The fields of a variadic segment are its size and its operands. -/
theorem groupBody_variadicOperandGroup (h : op.Segmented) :
    GroupBody op .variadic group (op.variadicOperandGroup group) := by
  unfold Operation.variadicOperandGroup
  rw [if_pos (h.offset_lt group)]
  exact groupBody_variadic h (operandBody_operandsFrom (h.group_le group))

/-- A group of one operand. -/
theorem operandBody_operandGroup (h : op.Segmented) (hsize : op.groupSize group = 1) :
    OperandBody (op.segment group) (op.operandGroup group) := by
  have hle := h.group_le group
  rw [hsize] at hle
  unfold Operation.operandGroup Operation.segment
  rw [if_pos (h.offset_lt group), hsize]
  exact operandBody_operandsFrom hle

/-- The fields of an optional segment are its operand, if it has one. -/
theorem operandBody_optionalOperandGroup (h : op.Segmented)
    (hsize : op.groupSize group = 0 ∨ op.groupSize group = 1) :
    OperandBody (op.segment group) (op.optionalOperandGroup group) := by
  unfold Operation.optionalOperandGroup Operation.hasOperandGroup
  rcases hsize with hsize | hsize
  · have hnil : op.segment group = [] := by
      rw [Operation.segment, hsize]
      exact List.take_zero
    rw [hsize, hnil]
    exact operandBody_nil
  · have hbody := operandBody_operandGroup h hsize
    rw [hsize]
    exact hbody

end GroupBody

/-! ### All groups of an operation -/

/-- The fields of the groups from a number on. -/
inductive WritesGroups (op : Operation) : List SegmentKind → ℕ → List Field → Prop where
  | nil (group : ℕ) : WritesGroups op [] group []
  | cons {kind : SegmentKind} {kinds : List SegmentKind} {group : ℕ} {fs rest : List Field}
      (hbody : GroupBody op kind group fs) (hrest : WritesGroups op kinds (group + 1) rest) :
      WritesGroups op (kind :: kinds) group (fs ++ rest)

/-- What the flags word says of the optional groups from a number on. -/
def FlagsSay (op : Operation) (word : ℕ) : List SegmentKind → ℕ → Prop
  | [], _ => True
  | .optional bit :: kinds, group =>
    word.testBit bit = op.hasOperandGroup group ∧ FlagsSay op word kinds (group + 1)
  | _ :: kinds, group => FlagsSay op word kinds (group + 1)

section WritesGroups

variable {op : Operation} {kinds : List SegmentKind} {group : ℕ} {fs : List Field}

/-- The operands that are written are the segments, in order. -/
theorem WritesGroups.operands (h : WritesGroups op kinds group fs) :
    encodedOperands fs = (op.segmentsFrom kinds group).flatten := by
  induction h with
  | nil => rfl
  | cons hbody _ ih => rw [encodedOperands_append, hbody.operands, ih]; rfl

/-- Written groups do not panic. -/
theorem WritesGroups.safe (h : WritesGroups op kinds group fs) : ∀ f ∈ fs, ¬f.Panics := by
  induction h with
  | nil => exact fun _ hf => absurd hf List.not_mem_nil
  | cons hbody _ ih => exact List.forall_mem_append.mpr ⟨hbody.safe, ih⟩

/-- Indices are read back. -/
theorem readIndices_render (index : Value → ℕ) (vs : List Value) (rest : Bytes) :
    readIndices vs.length ((vs.flatMap fun v => Varint.encode (index v)) ++ rest) =
      some (vs.map index, rest) := by
  induction vs with
  | nil => rfl
  | cons v vs ih =>
    rw [List.flatMap_cons, List.append_assoc, List.length_cons, readIndices, Varint.decode_encode]
    show (do let (indices, bs) ← readIndices _ _; _) = _
    rw [ih]
    rfl

/-- The size of a group is read from where it stands. -/
theorem readSize_sizeBytes (hseg : op.Segmented) {kind : SegmentKind} {word : ℕ}
    (hkind : op.opcode.segments[group]? = some kind)
    (hflag : ∀ bit, kind = .optional bit → word.testBit bit = op.hasOperandGroup group)
    (rest : Bytes) :
    kind.readSize word (kind.sizeBytes (op.segment group).length ++ rest) =
      some ((op.segment group).length, rest) := by
  have harity := hseg.arity group kind hkind
  have hlength : (op.segment group).length = Operation.asUsize (op.groupSize group) :=
    length_segment hseg
  cases kind with
  | one =>
    rw [hlength, show op.groupSize group = 1 from harity]
    rfl
  | variadic => exact Varint.decode_encode _ _
  | optional bit =>
    rw [SegmentKind.readSize, hflag bit rfl, hlength]
    unfold Operation.hasOperandGroup
    -- the bit of the word is set exactly when the group has its operand
    rcases harity with hsize | hsize
    · rw [hsize]
      rfl
    · rw [hsize]
      rfl

/-- **The groups are read back.** -/
theorem WritesGroups.read (hseg : op.Segmented) {word : ℕ} (h : WritesGroups op kinds group fs)
    (hkinds : ∀ i, kinds[i]? = op.opcode.segments[group + i]?)
      (hflags : FlagsSay op word kinds group)
    (index : Value → ℕ) (rest : Bytes) :
    readGroups word kinds (fs.flatMap (Field.render index) ++ rest) =
      some ((op.segmentsFrom kinds group).map (List.map index), rest) := by
  induction h with
  | nil => rfl
  | @cons kind kinds group fs fs' hbody _ ih =>
    have hkind : op.opcode.segments[group]? = some kind := (hkinds 0).symm
    have hrest : FlagsSay op word kinds (group + 1) := by
      cases kind with
      | optional bit => exact hflags.2
      | _ => exact hflags
    have hflag : ∀ bit, kind = .optional bit → word.testBit bit = op.hasOperandGroup group := by
      rintro bit rfl
      exact hflags.1
    rw [List.flatMap_append, hbody.render, List.append_assoc, List.append_assoc, readGroups,
      readSize_sizeBytes hseg hkind hflag]
    show (do let (indices, bs) ← readIndices _ _; _) = _
    rw [readIndices_render]
    show (do let (groups, bs) ← readGroups word kinds _; _) = _
    rw [ih (fun i => by rw [Nat.add_right_comm, Nat.add_assoc]; exact hkinds (i + 1)) hrest]
    rfl

end WritesGroups

/-! ### Operation by operation -/

namespace Operation

variable (op : Operation) (version : BytecodeVersion)

/-- The fields of a group of a kind. -/
def groupField (group : ℕ) : SegmentKind → List Field
  | .one => op.operandGroup group
  | .variadic => op.variadicOperandGroup group
  | .optional _ => op.optionalOperandGroup group

/-- The fields of all groups. -/
def groupFields : List SegmentKind → ℕ → List Field
  | [], _ => []
  | kind :: kinds, group => op.groupField group kind ++ groupFields kinds (group + 1)

/-- The bits of the flags word. -/
def segmentFlags : List Bool :=
  match op.opcode with
  | .print => [op.hasOperandGroup 1]
  | .atomicCAS => [op.hasOperandGroup 3, op.hasOperandGroup 4]
  | .atomicRMW => [op.hasOperandGroup 2, op.hasOperandGroup 3]
  | .atomicRedViewTko => [op.hasOperandGroup 3]
  | .loadPtrTko => [op.hasAttr "memory_scope", op.hasAttr "optimization_hints",
      op.hasOperandGroup 1,
      op.hasOperandGroup 2, op.hasOperandGroup 3]
  | .loadViewTko => [op.hasAttr "memory_scope", op.hasAttr "optimization_hints",
      op.hasOperandGroup 2, op.boolTrue "valid_check"]
  | .storePtrTko => [op.hasAttr "memory_scope", op.hasAttr "optimization_hints",
      op.hasOperandGroup 2, op.hasOperandGroup 3]
  | .storeViewTko => [op.hasAttr "memory_scope", op.hasAttr "optimization_hints",
      op.hasOperandGroup 3]
  | .multimemLoadReduceViewTko => [op.hasAttr "memory_scope", op.hasOperandGroup 2]
  | .multimemReduceViewTko => [op.hasOperandGroup 3]
  | .multimemStoreViewTko => [op.hasAttr "memory_scope", op.hasOperandGroup 3]
  | _ => []

/-- What stands before the flags word: the result types, and their number where it can vary. -/
def segmentHead : List Field :=
  match op.opcode with
  | .atomicCAS | .atomicRMW | .loadPtrTko | .storePtrTko => op.resultTypeFields
  | _ => op.resultCount :: op.resultTypeFields

/-- What stands between the flags word and the groups. -/
def segmentAttrs : List Field :=
  let ordered := op.inlineAttr "memory_ordering_semantics" ++ op.inlineAttr "memory_scope"
  let memory := op.inlineAttr "memory_ordering_semantics" ++ op.optionalAttr "memory_scope" ++
    op.optionalAttr "optimization_hints"
  match op.opcode with
  | .print => op.inlineAttr "str"
  | .atomicCAS => ordered
  | .atomicRMW => ordered ++ op.inlineAttr "mode"
  | .atomicRedViewTko => ordered ++ op.inlineAttr "mode" ++ op.inbounds version 1
  | .loadPtrTko | .storePtrTko => memory
  | .loadViewTko =>
    memory ++ op.inbounds version 1 ++ if op.boolTrue "valid_check" then [.bytes [1]] else []
  | .storeViewTko => memory ++ op.inbounds version 2
  | .multimemLoadReduceViewTko =>
    op.inlineAttr "memory_ordering_semantics" ++ op.optionalAttr "memory_scope" ++
      op.inlineAttrOr "reduction" 0 ++ op.inbounds version 1
  | .multimemReduceViewTko => ordered ++ op.inlineAttrOr "reduction" 0 ++ op.inbounds version 2
  | .multimemStoreViewTko =>
    op.inlineAttr "memory_ordering_semantics" ++ op.optionalAttr "memory_scope" ++
      op.inbounds version 2
  | _ => []

/-- A view over a tensor has no flags word. -/
def flagsFields : List Field :=
  if op.opcode = .makeTensorView then [] else [flags op.segmentFlags]

end Operation

section Opcodes

variable {m : Module} {version : BytecodeVersion} {op : Operation}

/-- The fields of all groups write all groups. -/
theorem writesGroups_groupFields (h : op.Segmented) {kinds : List SegmentKind} {group : ℕ}
    (hkinds : ∀ i, kinds[i]? = op.opcode.segments[group + i]?) :
    WritesGroups op kinds group (op.groupFields kinds group) := by
  induction kinds generalizing group with
  | nil => exact .nil group
  | cons kind kinds ih =>
    have harity := h.arity group kind (hkinds 0).symm
    refine .cons ?_ (ih fun i => ?_)
    · cases kind with
      | one => exact groupBody_of_operandBody (operandBody_operandGroup h harity) (by decide)
      | variadic => exact groupBody_variadicOperandGroup h
      | optional bit =>
        exact groupBody_of_operandBody (operandBody_optionalOperandGroup h harity) (by simp)
    · rw [Nat.add_right_comm, Nat.add_assoc]
      exact hkinds (i + 1)

/-- The bits of the optional groups are where the format has them. -/
theorem flagsSay_segmentFlags :
    FlagsSay op (Operation.flagsWord op.segmentFlags) op.opcode.segments 0 := by
  unfold Operation.segmentFlags Opcode.segments
  cases op.opcode <;>
    simp only [FlagsSay, flagsWord_testBit, List.getElem?_cons_zero, List.getElem?_cons_succ,
      Option.getD_some, and_self]

/-- Every operation but `print` writes its groups last, one after the other. -/
theorem opcodeFields_segmented (hseg : op.opcode.segments ≠ []) (hprint : op.opcode ≠ .print) :
    opcodeFields m version op = op.segmentHead ++ op.flagsFields ++ op.segmentAttrs version ++
      op.groupFields op.opcode.segments 0 := by
  unfold opcodeFields Operation.segmentHead Operation.flagsFields Operation.segmentAttrs
    Operation.segmentFlags
  cases hop : op.opcode <;> simp only [hop, Opcode.segments, ne_eq, not_true_eq_false] at hseg
  all_goals
    first
    | exact absurd hop hprint
    | simp [hop, Opcode.segments, Operation.groupFields, Operation.groupField, atomicAttrs,
        memoryAttrs,
        multimemFields, Operation.optionalOperandGroup, Operation.optionalAttr]

/-- The sizes of a `print` are its arguments and its token. -/
theorem printOperandGroups_segmented (h : op.Segmented) (hop : op.opcode = .print) :
    printOperandGroups m op =
      .ok (Operation.asUsize (op.groupSize 0), op.hasOperandGroup 1) := by
  have hnonneg : ¬op.groupSize 0 < 0 := by
    rw [Int32.lt_iff_toInt_lt]
    exact not_lt.mpr (h.groupSize_nonneg 0)
  have hle : Operation.asUsize (op.groupSize 0) ≤ op.operands.length := h.group_le 0
  simp only [printOperandGroups]
  rw [if_pos (h.given hop), if_neg hnonneg, Nat.min_eq_left hle]

/-- The token of a `print` stands behind its arguments. -/
theorem operandBody_printToken (h : op.Segmented) (hop : op.opcode = .print) :
    OperandBody (op.segment 1) (if op.hasOperandGroup 1 then
      op.operandsFrom (Operation.asUsize (op.groupSize 0)) 1 fun v _ => .operandNotFound v op.opcode
      else []) := by
  have harity := h.arity 1 (.optional 0) (by rw [hop]; rfl)
  have hoffset : op.operandGroupOffset 1 = Operation.asUsize (op.groupSize 0) := by
    rw [Operation.operandGroupOffset_succ]
    exact Nat.zero_add _
  have hle := h.group_le 1
  rw [hoffset] at hle
  unfold Operation.segment Operation.hasOperandGroup
  rw [hoffset]
  rcases harity with hsize | hsize
  · rw [hsize]
    exact operandBody_nil
  · rw [hsize] at hle ⊢
    rw [if_pos (by decide)]
    exact operandBody_operandsFrom hle

/-- The fields of `print` have the segments of any other operation. -/
theorem opcodeFields_print (h : op.Segmented) (hop : op.opcode = .print) :
    ∃ groups, opcodeFields m version op = op.segmentHead ++ op.flagsFields ++
      op.segmentAttrs version ++ groups ∧ WritesGroups op op.opcode.segments 0 groups := by
  have hargs : OperandBody (op.segment 0)
      (op.operandFields (op.operands.take (Operation.asUsize (op.groupSize 0)))) :=
    operandBody_operandFields _
  have htoken : GroupBody op (.optional 0) 1 _ :=
    groupBody_of_operandBody (operandBody_printToken h hop) (by decide)
  have hgroups : WritesGroups op Opcode.print.segments 0 _ :=
    .cons (groupBody_variadic h hargs) (.cons htoken (.nil 2))
  rw [← hop] at hgroups
  refine ⟨_, ?_, hgroups⟩
  unfold opcodeFields printFields Operation.segmentHead Operation.flagsFields
    Operation.segmentAttrs Operation.segmentFlags
  simp only [hop, printOperandGroups_segmented h hop]
  simp

/-- **The groups come last, behind the flags and the attributes.** -/
theorem opcodeFields_groups (h : op.Segmented) :
    ∃ groups, opcodeFields m version op = op.segmentHead ++ op.flagsFields ++
      op.segmentAttrs version ++ groups ∧ WritesGroups op op.opcode.segments 0 groups := by
  by_cases hprint : op.opcode = .print
  · exact opcodeFields_print h hprint
  · refine ⟨_, opcodeFields_segmented h.segmented hprint, writesGroups_groupFields h fun i => ?_⟩
    rw [Nat.zero_add]

/-- The head is plain. -/
theorem allPlain_segmentHead : AllPlain op.segmentHead := by
  unfold Operation.segmentHead
  split <;> simp

/-- The flags are plain. -/
theorem allPlain_flagsFields : AllPlain op.flagsFields := by
  unfold Operation.flagsFields
  split <;> simp

/-- The attributes are plain. -/
theorem allPlain_segmentAttrs : AllPlain (op.segmentAttrs version) := by
  unfold Operation.segmentAttrs
  cases op.opcode <;> simp
  split <;> simp

end Opcodes

/-! ### The result -/

/-- The body of an operation lets its groups be read back, whatever the numbers of its operands. -/
structure SegmentsRecovered (m : Module) (version : BytecodeVersion) (op : Operation) : Prop where
  /-- The groups are the operands, cut in order. -/
  partition : op.segments.flatten = op.operands
  once : encodedOperands (opFields m version op) = op.operands
  inBounds : ∀ f ∈ opFields m version op, ¬f.Panics
  /-- The flags word stands behind the result types; it and the bytes of the groups tell them
all. -/
  read : ∃ groups, opFields m version op = requirementFields version op ++ op.segmentHead ++
      op.flagsFields ++ op.segmentAttrs version ++ groups ∧
    AllPlain (op.segmentAttrs version) ∧
    ∀ (index : Value → ℕ) (rest : Bytes),
      readGroups (Operation.flagsWord op.segmentFlags) op.opcode.segments
        (groups.flatMap (Field.render index) ++ rest) =
          some (op.segments.map (List.map index), rest)

/-- **Every group of operands is read back.** -/
theorem segments_recovered (m : Module) (version : BytecodeVersion) {op : Operation}
    (h : op.Segmented) : SegmentsRecovered m version op := by
  obtain ⟨groups, hfields, hgroups⟩ := @opcodeFields_groups m version op h
  have hbefore : AllPlain (requirementFields version op ++ op.segmentHead ++ op.flagsFields ++
      op.segmentAttrs version) := by
    simp only [allPlain_append]
    exact ⟨⟨⟨allPlain_requirementFields, allPlain_segmentHead⟩, allPlain_flagsFields⟩,
      allPlain_segmentAttrs⟩
  have hall : opFields m version op = requirementFields version op ++ op.segmentHead ++
      op.flagsFields ++ op.segmentAttrs version ++ groups := by
    rw [opFields, hfields]
    simp only [List.append_assoc]
  refine ⟨h.segments_flatten, ?_, ?_, groups, hall, allPlain_segmentAttrs, ?_⟩
  · rw [hall, encodedOperands_append, hbefore.encodedOperands, hgroups.operands, List.nil_append]
    exact h.segments_flatten
  · rw [hall]
    exact List.forall_mem_append.mpr ⟨hbefore.not_panics, hgroups.safe⟩
  · intro index rest
    exact hgroups.read h (fun i => by rw [Nat.zero_add]) flagsSay_segmentFlags index rest

/-- A load from a view with two indices and a token. -/
def loadWithToken : Operation where
  id := 0
  opcode := .loadViewTko
  operands := [0, 1, 2, 3]
  resultTypes := [.tile ⟨[8], .scalar .f32⟩, .token]
  attributes := [("memory_ordering_semantics", .integer 0 (.scalar .i32)),
    ("operandSegmentSizes", .array [.integer 1 (.scalar .i32), .integer 2 (.scalar .i32),
      .integer 1 (.scalar .i32)])]
  regions := []
  location := .unknown

/-- The operation of the example has its segments. -/
theorem segmented_loadWithToken : loadWithToken.Segmented where
  segmented := by decide
  length_le := by decide
  arity := by
    intro group kind hkind
    rcases group with _ | _ | _ | group
    · cases hkind
      rfl
    · cases hkind
      show (0 : Int32) ≤ loadWithToken.groupSize 1
      decide
    · cases hkind
      exact .inr rfl
    · cases hkind
  total := by decide
  given := by decide

/-- The segments of the example are recovered. -/
theorem segments_recovered_loadWithToken :
    loadWithToken.segments = [[0], [1, 2], [3]] ∧
      SegmentsRecovered addModule .v13_5 loadWithToken :=
  ⟨by decide, segments_recovered addModule .v13_5 segmented_loadWithToken⟩

end CudaOxide.TileIr
