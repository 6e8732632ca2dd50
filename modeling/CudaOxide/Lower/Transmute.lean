import CudaOxide.Lib.BitFields
import CudaOxide.Lower.ByteFaithful

namespace CudaOxide.Lower

open Lib LlvmType

/-!
# Transmutes

How Rust's `transmute` is lowered (`cast.rs`): scalars by casts in registers, pointers through their
generic address, and aggregates by a store and a load.

* `emitTransmute`, `emitTransmuteViaMemory` — the operations that are emitted.
* `stored`, `load`, `TransmuteOp.run` — what LLVM's operations do with a value.
* `image` — the memory image that Rust gives a value: a bool is a byte, a pointer its generic
  address.
* `runAll_scalar`, `runAll_viaMemory` — what the emitted operations do.
* `transmute_spec` — a transmute keeps the image, and is undone by the one back.
-/

/-! ### What is emitted -/

/-- An LLVM operation of a transmute. -/
inductive TransmuteOp where
  | zext (width : ℕ)
  | trunc (width : ℕ)
  | addrSpaceCast (source destination : ℕ)
  | ptrToInt (width : ℕ)
  /-- to a generic pointer -/
  | intToPtr
  | bitcast (ty : LlvmType)
  /-- a stack slot, the store and the load, all at one alignment -/
  | storeLoad (storage loaded : LlvmType) (align : ℕ)
  deriving DecidableEq

namespace LlvmType

mutual
/-- `llvm_type_contains_pointer_in_address_space` -/
def containsPointerIn (space : ℕ) : LlvmType → Bool
  | ptr a => a == space
  | array e _ | vector e _ _ => containsPointerIn space e
  | struct fs _ => anyContainsPointerIn space fs
  | _ => false

/-- Some field contains a pointer of the space. -/
def anyContainsPointerIn (space : ℕ) : List LlvmType → Bool
  | [] => false
  | f :: fs => containsPointerIn space f || anyContainsPointerIn space fs
end

/-- An array or a struct. -/
def isAggregate : LlvmType → Bool
  | array .. | struct .. => true
  | _ => false

/-- An integer type. -/
def isInt : LlvmType → Bool
  | int _ => true
  | _ => false

/-- The address space of a pointer type. -/
def pointerSpace : LlvmType → Option ℕ
  | ptr a => some a
  | _ => none

/-- `scalar_bit_width` -/
def scalarBitWidth : LlvmType → Option ℕ
  | int w => some w
  | half => some 16
  | float => some 32
  | double | ptr _ => some 64
  | t => (sizeAlign t).bind fun s => (checked (s.1 * 8)).bind fun bits =>
    if bits < 2 ^ 32 then some bits else none

end LlvmType

/-- `emit_ptr_to_int` -/
def emitPtrToInt (space width : ℕ) : List TransmuteOp :=
  if space = generic then [.ptrToInt width] else [.addrSpaceCast space generic, .ptrToInt width]

/-- `emit_int_to_ptr` -/
def emitIntToPtr (space : ℕ) : List TransmuteOp :=
  if space = generic then [.intToPtr] else [.intToPtr, .addrSpaceCast generic space]

/-- `emit_transmute_via_memory` -/
def emitTransmuteViaMemory (src dst : LlvmType) : Option (List TransmuteOp) :=
  (sizeAlign src).bind fun s => (sizeAlign dst).bind fun d =>
    if s.1 ≠ d.1 then none
    else if src.isAggregate && src != dst && !isByteFaithful src then none
    else if 2 ^ 32 ≤ max s.2 d.2 then none
    else some ((if src = int 1 then [.zext 8] else []) ++
      .storeLoad (if src = int 1 then int 8 else src) (if dst = int 1 then int 8 else dst)
        (max s.2 d.2) ::
      if dst = int 1 then [.trunc 1] else [])

/-- The casts of `emit_transmute` between scalars of one width. -/
def emitEqualWidth (src dst : LlvmType) (bits : ℕ) : List TransmuteOp :=
  match src.pointerSpace, dst.pointerSpace with
  | some s, some d => if s ≠ d then [.addrSpaceCast s d] else [.bitcast dst]
  | some s, none => if dst.isInt then emitPtrToInt s bits else emitPtrToInt s bits ++ [.bitcast dst]
  | none, some d => if src.isInt then emitIntToPtr d else .bitcast (int bits) :: emitIntToPtr d
  | none, none => [.bitcast dst]

/-- The width of the integer that a pointer is transmuted to at once. -/
def pointerToInt : LlvmType → LlvmType → Option (ℕ × ℕ)
  | ptr a, int w => some (a, w)
  | _, _ => none

/-- The casts of `emit_transmute` between two scalars.  A bool becomes a byte and a byte a bool;
where the widths differ else, the value goes through memory. -/
def emitScalars (src dst : LlvmType) : Option (List TransmuteOp) :=
  src.scalarBitWidth.bind fun s => dst.scalarBitWidth.bind fun d =>
    if s = d then some (emitEqualWidth src dst s)
    else if src = int 1 ∧ dst = int 8 then some [.zext 8]
    else if src = int 8 ∧ dst = int 1 then some [.trunc 1]
    else if containsPointerIn shared src || containsPointerIn shared dst then none
    else emitTransmuteViaMemory src dst

/-- `emit_transmute` -/
def emitTransmute (src dst : LlvmType) : Option (List TransmuteOp) :=
  match pointerToInt src dst with
  -- the sizes of the two are not compared
  | some (a, w) => some (emitPtrToInt a w)
  | none => (sizeAlign src).bind fun s => (sizeAlign dst).bind fun d =>
    if s.1 ≠ d.1 then none
    else if src.isAggregate || dst.isAggregate then
      if containsPointerIn shared src || containsPointerIn shared dst then none
      else emitTransmuteViaMemory src dst
    else emitScalars src dst

/-! ### Values -/

/-- The scalars of a value, each with its number or with bits that are not specified. -/
abbrev Value := List (Option ℕ)

/-- The casts between address spaces: which pointers a cast is defined on, and that the pointer it
gives is one to the same place, with the same generic address. -/
structure AddressSpaces where
  cast : ℕ → ℕ → ℕ → ℕ
  castable : ℕ → ℕ → ℕ → Prop
  cast_lt : ∀ {s d p}, castable s d p → cast s d p < 2 ^ 64
  castable_back : ∀ {s d p}, castable s d p → castable d s (cast s d p)
  cast_back : ∀ {s d p}, castable s d p → cast d s (cast s d p) = p
  generic_cast : ∀ {s d p}, castable s d p →
    (if d = generic then cast s d p else cast d generic (cast s d p)) =
    if s = generic then p else cast s generic p

/-- The generic address of a pointer. -/
def AddressSpaces.address (sp : AddressSpaces) (space p : ℕ) : ℕ :=
  if space = generic then p else sp.cast space generic p

namespace LlvmType

/-- The bits of a scalar in a register. -/
def width : LlvmType → ℕ
  | int w => w
  | half => 16
  | float => 32
  | double | ptr _ => 64
  | _ => 0

/-- The number that Rust sees in a scalar. -/
def rustNumber (sp : AddressSpaces) : LlvmType → ℕ → ℕ
  | ptr a, p => sp.address a p
  | _, n => n

/-- The bits that a store leaves behind: those of the numbers. -/
def stored (t : LlvmType) (v : Value) : ℕ → Option Bool :=
  BitFields.bit (List.zipWith (fun l x => ⟨8 * l.1, width l.2, x⟩) (allocLeaves t) v)

/-- The scalars that are read from memory. -/
def load (t : LlvmType) (mem : ℕ → Option Bool) : Value :=
  (allocLeaves t).map fun l => BitFields.readBits (width l.2) fun j => mem (8 * l.1 + j)

/-- The bits that Rust has in memory for a value: each scalar takes whole bytes, and padding is not
specified. -/
def image (sp : AddressSpaces) (t : LlvmType) (v : Value) : ℕ → Option Bool :=
  BitFields.bit (List.zipWith (fun l x => ⟨8 * l.1, 8 * storeSize l.2, x.map (rustNumber sp l.2)⟩)
    (allocLeaves t) v)

/-- The value has a number for each scalar. -/
def Defined (t : LlvmType) (v : Value) : Prop :=
  List.Forall₂ (fun l x => ∃ n, x = some n ∧ n < 2 ^ width l.2) (allocLeaves t) v

end LlvmType

namespace TransmuteOp

/-- What an operation does. -/
def run (sp : AddressSpaces) : TransmuteOp → Value → Value
  | zext _, v | bitcast _, v => v
  | trunc w, v | ptrToInt w, v => v.map (Option.map (· % 2 ^ w))
  | intToPtr, v => v.map (Option.map (· % 2 ^ 64))
  | addrSpaceCast s d, v => v.map (Option.map (sp.cast s d))
  | storeLoad storage loaded _, v => load loaded (stored storage v)

/-- The operations run one after the other. -/
def runAll (sp : AddressSpaces) (ops : List TransmuteOp) (v : Value) : Value :=
  ops.foldl (fun v op => op.run sp v) v

end TransmuteOp

open TransmuteOp

/-- Each bit of a destination's scalar is specified, and is the one that the source has there. -/
def SameImage (sp : AddressSpaces) (src dst : LlvmType) (v w : Value) : Prop :=
  ∀ l ∈ allocLeaves dst, ∀ i, 8 * l.1 ≤ i → i < 8 * (l.1 + storeSize l.2) →
    ∃ b, image sp dst w i = some b ∧ image sp src v i = some b

/-- A scalar of Rust: a bool, an integer that fills its allocation, a float or a pointer. -/
def RustScalar : LlvmType → Prop
  | int w => w = 1 ∨ (8 ∣ w ∧ intAlign ((w + 7) / 8) ∣ (w + 7) / 8)
  | half | float | double | ptr _ => True
  | _ => False

/-- Every leaf is a scalar that a Rust type has. -/
def RustType (t : LlvmType) : Prop := ∀ l ∈ allocLeaves t, RustScalar l.2

/-- The pointers of a type are generic.  This leaves out more than the pointers that keep bits of
their own in memory: an aggregate with a pointer in another space, transmuted to its own type, comes
back. -/
def GenericPointers (t : LlvmType) : Prop := ∀ l ∈ allocLeaves t, ∀ a, l.2 = ptr a → a = generic

/-- The address space that a scalar is a pointer in; a number counts as a generic address. -/
def space (t : LlvmType) : ℕ := t.pointerSpace.getD generic

/-- A value that is one of the destination's too: where that has a bool, the byte is zero or one,
and a pointer is one to a place that its address space has. -/
structure ValidAt (sp : AddressSpaces) (src dst : LlvmType) (v : Value) : Prop where
  bool : ∀ l ∈ allocLeaves dst, l.2 = int 1 → ∀ j, 1 ≤ j → j < 8 →
    image sp src v (8 * l.1 + j) = some false
  castable : src.isAggregate = false → dst.isAggregate = false → space src ≠ space dst →
    ∀ n, v = [some n] → sp.castable (space src) (space dst) n

/-! ### Values in memory -/

section Memory

variable {sp : AddressSpaces} {t src dst : LlvmType} {v : Value} {l : Leaf} {ls : List Leaf}
  {mem : ℕ → Option Bool} {i k n : ℕ} {x : Option ℕ}

/-- A scalar other than `i1` fills its bytes. -/
theorem RustScalar.width_eq (h : RustScalar t) (hne : t ≠ int 1) : width t = 8 * storeSize t := by
  cases t with
  | int w =>
    obtain rfl | ⟨hdvd, -⟩ := h
    · exact absurd rfl hne
    · show w = 8 * ((w + 7) / 8)
      omega
  | half | float | double | ptr => rfl
  | array | vector | struct | unsized => exact absurd h id

/-- A scalar fits its bytes. -/
theorem RustScalar.width_le (h : RustScalar t) : width t ≤ 8 * storeSize t := by
  by_cases hbool : t = int 1
  · subst hbool
    decide
  · exact (h.width_eq hbool).le

/-- A Rust type has whole integers only. -/
theorem RustType.wholeIntegers (h : RustType t) : WholeIntegers t := by
  intro l hl w hw
  have hrust := h l hl
  rw [hw] at hrust
  obtain rfl | ⟨-, hdvd⟩ := hrust
  · decide
  · exact hdvd

/-- Fields of leaves that are apart are apart. -/
private theorem pairwise_zipWith {g : Leaf → Option ℕ → BitFields.Field}
    (hstart : ∀ l x, (g l x).start = 8 * l.1)
    (hlen : ∀ l ∈ ls, ∀ x, (g l x).length ≤ 8 * (alloc l.2).1) (hpair : ls.Pairwise AllocBefore) :
    (List.zipWith g ls v).Pairwise BitFields.Field.Before := by
  induction ls generalizing v with
  | nil => exact .nil
  | cons l ls ih =>
    cases v with
    | nil => exact .nil
    | cons x v =>
      obtain ⟨hl, hpair⟩ := List.pairwise_cons.mp hpair
      refine List.pairwise_cons.mpr ⟨?_, ih (fun m hm => hlen m (List.mem_cons_of_mem _ hm)) hpair⟩
      intro f hf
      obtain ⟨k, hk⟩ := List.getElem?_of_mem hf
      obtain ⟨m, y, hm, -, rfl⟩ := List.getElem?_zipWith_eq_some.mp hk
      have hle : l.1 + (alloc l.2).1 ≤ m.1 := hl m (List.mem_of_getElem? hm)
      have hlength := hlen l (List.mem_cons_self ..) x
      show (g l x).start + (g l x).length ≤ (g m y).start
      rw [hstart, hstart]
      omega

/-- **The bits of a scalar** that is stored. -/
theorem stored_eq (ht : RustType t) (hl : (allocLeaves t)[k]? = some l) (hx : v[k]? = some x)
    (hlow : 8 * l.1 ≤ i) (hhigh : i < 8 * l.1 + width l.2) :
    stored t v i = x.map (·.testBit (i - 8 * l.1)) := by
  have hpair :
    (List.zipWith (fun l x => (⟨8 * l.1, width l.2, x⟩ : BitFields.Field)) (allocLeaves t)
      v).Pairwise BitFields.Field.Before := by
    refine pairwise_zipWith (fun _ _ => rfl) (fun l hl x => ?_) (allocLeaves_ordered t)
    have hle := (ht l hl).width_le
    have hstore := storeSize_le_alloc l.2
    show width l.2 ≤ 8 * (alloc l.2).1
    omega
  exact BitFields.bit_of_mem hpair
    (List.mem_of_getElem? (List.getElem?_zipWith_eq_some.mpr ⟨l, x, hl, hx, rfl⟩)) ⟨hlow, hhigh⟩

/-- **The bits of a scalar** in the image. -/
theorem image_eq (hl : (allocLeaves t)[k]? = some l) (hx : v[k]? = some (some n))
    (hlow : 8 * l.1 ≤ i) (hhigh : i < 8 * (l.1 + storeSize l.2)) :
    image sp t v i = some ((rustNumber sp l.2 n).testBit (i - 8 * l.1)) := by
  have hpair : (List.zipWith (fun l x =>
      (⟨8 * l.1, 8 * storeSize l.2, x.map (rustNumber sp l.2)⟩ : BitFields.Field)) (allocLeaves t)
      v).Pairwise BitFields.Field.Before := by
    refine pairwise_zipWith (fun _ _ => rfl) (fun l _ x => ?_) (allocLeaves_ordered t)
    exact Nat.mul_le_mul_left 8 (storeSize_le_alloc l.2)
  refine BitFields.bit_of_mem hpair
    (List.mem_of_getElem? (List.getElem?_zipWith_eq_some.mpr ⟨l, some n, hl, hx, rfl⟩)) ⟨hlow, ?_⟩
  show i < 8 * l.1 + 8 * storeSize l.2
  omega

/-- A defined value has a number in range at every leaf. -/
theorem LlvmType.Defined.getElem? (hv : Defined t v) (hl : (allocLeaves t)[k]? = some l) :
    ∃ n, v[k]? = some (some n) ∧ n < 2 ^ width l.2 := by
  unfold Defined at hv
  generalize allocLeaves t = ls at hv hl
  induction hv generalizing k with
  | nil => cases hl
  | cons hx _ ih =>
    cases k with
    | zero =>
      cases hl
      obtain ⟨n, rfl, hn⟩ := hx
      exact ⟨n, rfl, hn⟩
    | succ k => exact ih hl

/-- A value that is stored and loaded at its type is the same. -/
theorem load_stored (ht : RustType t) (hv : Defined t v) : load t (stored t v) = v := by
  apply List.ext_getElem?
  intro k
  rw [load, List.getElem?_map]
  obtain hnone | ⟨l, hl⟩ := Option.eq_none_or_eq_some (allocLeaves t)[k]?
  · have hlen : v.length = (allocLeaves t).length := hv.length_eq.symm
    rw [List.getElem?_eq_none_iff] at hnone
    rw [List.getElem?_eq_none (by omega), List.getElem?_eq_none (by omega)]
    rfl
  · obtain ⟨n, hn, hlt⟩ := hv.getElem? hl
    rw [hl, hn, Option.map_some, Option.some.injEq, BitFields.readBits_eq_some_iff]
    refine ⟨hlt, fun j hj => ?_⟩
    rw [stored_eq ht hl hn (Nat.le_add_right _ _) (by omega), Nat.add_sub_cancel_left,
      Option.map_some]

/-- A pointer of the generic space is its own address. -/
theorem rustNumber_of_generic (h : ∀ a, t = ptr a → a = generic) : rustNumber sp t n = n := by
  cases t with
  | ptr a => exact if_pos (h a rfl)
  | _ => rfl

/-- **Each bit of a faithful type is stored**, as Rust has it. -/
theorem exists_stored (ht : RustType t) (hfaithful : isByteFaithful t = true)
    (hg : GenericPointers t)
    (hv : Defined t v) (hi : i < 8 * (alloc t).1) :
    ∃ b, stored t v i = some b ∧ image sp t v i = some b := by
  obtain ⟨l, hl, hne⟩ := (covered_iff hfaithful).mpr ht.wholeIntegers (i / 8) (by omega)
  have hmem : l ∈ (allocLeaves t).filter (Holds · (i / 8)) := by
    rw [hl]
    exact List.mem_singleton_self _
  obtain ⟨hmem, hholds⟩ := List.mem_filter.mp hmem
  obtain ⟨hlow, hhigh⟩ := of_decide_eq_true hholds
  obtain ⟨k, hk⟩ := List.getElem?_of_mem hmem
  obtain ⟨n, hn, -⟩ := hv.getElem? hk
  have hwidth := (ht l hmem).width_eq hne
  refine ⟨n.testBit (i - 8 * l.1), ?_, ?_⟩
  · rw [stored_eq ht hk hn (by omega) (by omega), Option.map_some]
  · rw [image_eq hk hn (by omega) (by omega), rustNumber_of_generic (hg l hmem)]

/-- **A value that is loaded** has the bits of the memory, where the byte of a bool is zero or
one. -/
theorem load_spec (ht : RustType t) (hg : GenericPointers t)
    (hmem : ∀ l ∈ allocLeaves t, ∀ i, 8 * l.1 ≤ i → i < 8 * (l.1 + storeSize l.2) →
      ∃ b, mem i = some b ∧ (8 * l.1 + width l.2 ≤ i → b = false)) :
    Defined t (load t mem) ∧ ∀ l ∈ allocLeaves t, ∀ i, 8 * l.1 ≤ i → i < 8 * (l.1 + storeSize l.2) →
      image sp t (load t mem) i = mem i := by
  have hread : ∀ l ∈ allocLeaves t, ∃ n,
      (BitFields.readBits (width l.2) fun j => mem (8 * l.1 + j)) = some n := by
    intro l hl
    refine BitFields.exists_readBits fun j hj => ?_
    have hle := (ht l hl).width_le
    obtain ⟨b, hb, -⟩ := hmem l hl (8 * l.1 + j) (Nat.le_add_right _ _) (by omega)
    exact ⟨b, hb⟩
  constructor
  · unfold Defined load
    rw [List.forall₂_map_right_iff, List.forall₂_same]
    intro l hl
    obtain ⟨n, hn⟩ := hread l hl
    exact ⟨n, hn, (BitFields.readBits_eq_some_iff.mp hn).1⟩
  · intro l hl i hlow hhigh
    obtain ⟨k, hk⟩ := List.getElem?_of_mem hl
    obtain ⟨n, hn⟩ := hread l hl
    obtain ⟨hlt, hbits⟩ := BitFields.readBits_eq_some_iff.mp hn
    have hx : (load t mem)[k]? = some (some n) := by
      rw [load, List.getElem?_map, hk, Option.map_some, hn]
    rw [image_eq hk hx hlow hhigh, rustNumber_of_generic (hg l hl)]
    obtain ⟨b, hb, hfalse⟩ := hmem l hl i hlow hhigh
    by_cases hin : i < 8 * l.1 + width l.2
    · have hbit := hbits (i - 8 * l.1) (by omega)
      rw [Nat.add_sub_cancel' hlow] at hbit
      rw [hbit]
    · have hpow : n < 2 ^ (i - 8 * l.1) :=
        hlt.trans_le (Nat.pow_le_pow_right (by decide) (by omega))
      rw [hb, hfalse (by omega), Nat.testBit_lt_two_pow hpow]

/-- A leaf of a defined value shows bits at every place of its bytes. -/
theorem image_isSome (hv : Defined t v) (hl : l ∈ allocLeaves t) (hlow : 8 * l.1 ≤ i)
    (hhigh : i < 8 * (l.1 + storeSize l.2)) : ∃ b, image sp t v i = some b := by
  obtain ⟨k, hk⟩ := List.getElem?_of_mem hl
  obtain ⟨n, hn, -⟩ := hv.getElem? hk
  exact ⟨_, image_eq hk hn hlow hhigh⟩

end Memory

/-! ### Through memory -/

section ThroughMemory

variable {sp : AddressSpaces} {t src dst : LlvmType} {v : Value} {ops : List TransmuteOp} {n : ℕ}

/-- A scalar is its only leaf. -/
theorem allocLeaves_scalar (h : t.isAggregate = false) : allocLeaves t = [(0, t)] := by
  cases t with
  | array | struct => cases h
  | _ => rfl

/-- A scalar is no aggregate. -/
theorem RustScalar.isAggregate (h : RustScalar t) : t.isAggregate = false := by
  cases t with
  | array | struct => exact absurd h id
  | _ => rfl

/-- A scalar is a Rust type. -/
theorem RustScalar.rustType (h : RustScalar t) : RustType t := by
  intro l hl
  rw [allocLeaves_scalar h.isAggregate] at hl
  obtain rfl := List.mem_singleton.mp hl
  exact h

/-- A byte is a Rust type. -/
theorem rustType_byte : RustType (int 8) := RustScalar.rustType (.inr (by decide))

/-- An integer has no named-space pointers. -/
theorem genericPointers_int (w : ℕ) : GenericPointers (int w) := by
  intro l hl a ha
  obtain rfl := List.mem_singleton.mp hl
  cases ha

/-- A Rust type that is no aggregate is a scalar. -/
theorem RustType.scalar (ht : RustType t) (h : t.isAggregate = false) : RustScalar t := by
  refine ht (0, t) ?_
  rw [allocLeaves_scalar h]
  exact List.mem_singleton_self _

/-- A scalar other than `i1` is byte-faithful. -/
theorem RustScalar.isByteFaithful (h : RustScalar t) (hne : t ≠ int 1) :
    t.isByteFaithful = true := by
  cases t with
  | int w =>
    obtain rfl | ⟨hdvd, -⟩ := h
    · exact absurd rfl hne
    · exact beq_iff_eq.mpr (Nat.mod_eq_zero_of_dvd hdvd)
  | half | float | double | ptr => rfl
  | array | vector | struct | unsized => exact absurd h id

/-- A defined scalar is one number in range. -/
theorem exists_of_defined (hv : Defined t v) (h : t.isAggregate = false) :
    ∃ n, v = [some n] ∧ n < 2 ^ width t := by
  unfold Defined at hv
  rw [allocLeaves_scalar h] at hv
  obtain _ | ⟨⟨n, rfl, hn⟩, hnil⟩ := hv
  cases hnil
  exact ⟨n, rfl, hn⟩

/-- A number in range is a defined scalar. -/
theorem defined_scalar (h : t.isAggregate = false) (hn : n < 2 ^ width t) : Defined t [some n] := by
  unfold Defined
  rw [allocLeaves_scalar h]
  exact .cons ⟨n, rfl, hn⟩ .nil

/-- The bits of a store are those of the load, whose value is one of the destination's. -/
theorem load_stored_spec (hsrc : RustType src) (hdst : RustType dst) (hgs : GenericPointers src)
    (hgd : GenericPointers dst) (hsize : (alloc src).1 = (alloc dst).1) (hv : Defined src v)
    (hok : src = dst ∨ src.isByteFaithful = true)
    (hbool : ∀ l ∈ allocLeaves dst, l.2 = int 1 → ∀ j, 1 ≤ j → j < 8 →
      image sp src v (8 * l.1 + j) = some false) :
    Defined dst (load dst (stored src v)) ∧ SameImage sp src dst v (load dst (stored src v)) := by
  obtain rfl | hfaithful := hok
  · rw [load_stored hsrc hv]
    refine ⟨hv, fun l hl i hlow hhigh => ?_⟩
    obtain ⟨b, hb⟩ := image_isSome hv hl hlow hhigh
    exact ⟨b, hb, hb⟩
  -- each bit of a scalar of the destination is one of the source's allocation
  have hbits : ∀ l ∈ allocLeaves dst, ∀ i, 8 * l.1 ≤ i → i < 8 * (l.1 + storeSize l.2) →
      ∃ b, stored src v i = some b ∧ image sp src v i = some b := by
    intro l hl i hlow hhigh
    have hend := allocLeaf_end hl
    have hstore := storeSize_le_alloc l.2
    exact exists_stored hsrc hfaithful hgs hv (by omega)
  have hmem : ∀ l ∈ allocLeaves dst, ∀ i, 8 * l.1 ≤ i → i < 8 * (l.1 + storeSize l.2) →
      ∃ b, stored src v i = some b ∧ (8 * l.1 + width l.2 ≤ i → b = false) := by
    intro l hl i hlow hhigh
    obtain ⟨b, hb, hib⟩ := hbits l hl i hlow hhigh
    refine ⟨b, hb, fun hup => ?_⟩
    by_cases hone : l.2 = int 1
    · have hstore : storeSize l.2 = 1 := by rw [hone]; rfl
      have hwidth : width l.2 = 1 := by rw [hone]; rfl
      have hfalse := hbool l hl hone (i - 8 * l.1) (by omega) (by omega)
      rw [Nat.add_sub_cancel' hlow, hib] at hfalse
      exact Option.some.inj hfalse
    · have hwidth := (hdst l hl).width_eq hone
      omega
  obtain ⟨hdef, himage⟩ := load_spec hdst hgd hmem
  refine ⟨hdef, fun l hl i hlow hhigh => ?_⟩
  obtain ⟨b, hb, hib⟩ := hbits l hl i hlow hhigh
  exact ⟨b, by rw [himage l hl i hlow hhigh, hb], hib⟩

/-- A bool and a byte have one image. -/
theorem image_bool (sp : AddressSpaces) (n : ℕ) :
    image sp (int 1) [some n] = image sp (int 8) [some n] := rfl

/-- A byte whose high bits are clear is a bool. -/
theorem lt_two_of_image (hn : n < 2 ^ 8)
    (h : ∀ j, 1 ≤ j → j < 8 → image sp (int 8) [some n] j = some false) : n < 2 := by
  have hbits : ∀ j, 1 ≤ j → n.testBit j = false := by
    intro j hj
    by_cases hlt : j < 8
    · have hbit := h j hj hlt
      have hvalue : image sp (int 8) [some n] j = some (n.testBit (j - 8 * 0)) :=
        image_eq (k := 0) (l := (0, int 8)) rfl rfl (Nat.zero_le _) hlt
      rw [hbit] at hvalue
      exact (Option.some.inj hvalue).symm
    · exact Nat.testBit_lt_two_pow (hn.trans_le (Nat.pow_le_pow_right (by decide) (by omega)))
  simpa using Nat.lt_pow_two_of_testBit n hbits

/-- **A transmute through memory** keeps the image. -/
theorem runAll_viaMemory (hsrc : RustType src) (hdst : RustType dst) (hgs : GenericPointers src)
    (hgd : GenericPointers dst) (hv : Defined src v)
    (hbool : ∀ l ∈ allocLeaves dst, l.2 = int 1 → ∀ j, 1 ≤ j → j < 8 →
      image sp src v (8 * l.1 + j) = some false)
    (hagg : src.isAggregate = true ∨ dst.isAggregate = true)
    (h : emitTransmuteViaMemory src dst = some ops) :
    Defined dst (runAll sp ops v) ∧ SameImage sp src dst v (runAll sp ops v) := by
  unfold emitTransmuteViaMemory at h
  -- what the code refuses first: sizes that differ, shared pointers, leaves that memory would
  -- change
  obtain ⟨⟨ss, as⟩, hs, h⟩ := Option.bind_eq_some_iff.mp h
  obtain ⟨⟨sd, ad⟩, hd, h⟩ := Option.bind_eq_some_iff.mp h
  split at h
  · cases h
  rename_i hsize
  rw [not_not] at hsize
  split at h
  · cases h
  rename_i hguard
  split at h
  · cases h
  cases h
  have hsize : (alloc src).1 = (alloc dst).1 := by
    rw [sizeAlign_alloc hs hsrc.wholeIntegers, sizeAlign_alloc hd hdst.wholeIntegers]
    exact hsize
  by_cases hone : src = int 1
  · -- a bool is stored as a byte
    subst hone
    have hne : dst ≠ int 1 := by
      rintro rfl
      obtain h | h := hagg <;> cases h
    obtain ⟨n, rfl, hn⟩ := exists_of_defined hv rfl
    rw [if_pos rfl, if_pos rfl, if_neg hne, if_neg hne]
    exact load_stored_spec rustType_byte hdst (genericPointers_int 8) hgd hsize
      (defined_scalar rfl (hn.trans_le (by decide))) (.inr rfl) hbool
  -- the value is stored as it is, or its type is byte-faithful
  have hok : src = dst ∨ src.isByteFaithful = true := by
    by_cases heq : src = dst
    · exact .inl heq
    right
    cases hsagg : src.isAggregate with
    | false => exact (hsrc.scalar hsagg).isByteFaithful hone
    | true =>
      rw [hsagg, Bool.true_and, Bool.and_eq_true, bne_iff_ne, not_and] at hguard
      simpa using hguard heq
  by_cases hdone : dst = int 1
  · -- a bool is loaded as a byte
    subst hdone
    have hfaithful : src.isByteFaithful = true := hok.resolve_left hone
    have hnone : ∀ l ∈ allocLeaves (int 8), l.2 = int 1 → ∀ j, 1 ≤ j → j < 8 →
        image sp src v (8 * l.1 + j) = some false := by
      intro l hl hl1
      obtain rfl := List.mem_singleton.mp hl
      cases hl1
    obtain ⟨hdef, hsame⟩ := load_stored_spec hsrc rustType_byte hgs (genericPointers_int 8) hsize hv
      (.inr hfaithful) hnone
    obtain ⟨n, hload, hn⟩ := exists_of_defined hdef rfl
    -- the high bits of the byte are those of a bool, so they are clear
    have hlt : n < 2 := by
      refine @lt_two_of_image sp n hn fun j hj hj8 => ?_
      obtain ⟨b, hb, hib⟩ := hsame (0, int 8) (List.mem_singleton_self _) j (Nat.zero_le _) hj8
      have hfalse := hbool (0, int 1) (List.mem_singleton_self _) rfl j hj hj8
      rw [Nat.mul_zero, Nat.zero_add, hib] at hfalse
      rw [← hload, hb, hfalse]
    rw [if_neg hone, if_neg hone, if_pos rfl, if_pos rfl]
    show Defined (int 1) ((load (int 8) (stored src v)).map (Option.map (· % 2 ^ 1))) ∧
      SameImage sp src
      (int 1) v ((load (int 8) (stored src v)).map (Option.map (· % 2 ^ 1)))
    rw [hload] at hsame ⊢
    rw [List.map_singleton, Option.map_some, Nat.mod_eq_of_lt (by omega)]
    refine ⟨defined_scalar rfl hlt, fun l hl i hlow hhigh => ?_⟩
    obtain rfl := List.mem_singleton.mp hl
    rw [image_bool]
    exact hsame (0, int 8) (List.mem_singleton_self _) i hlow hhigh
  · rw [if_neg hone, if_neg hone, if_neg hdone, if_neg hdone]
    exact load_stored_spec hsrc hdst hgs hgd hsize hv hok hbool

end ThroughMemory

/-! ### In registers -/

section Scalars

variable {sp : AddressSpaces} {t src dst : LlvmType} {ops back : List TransmuteOp}
  {n s d a w bits : ℕ}

/-- A pointer in another address space. -/
def AddressSpaces.castTo (sp : AddressSpaces) (s d p : ℕ) : ℕ := if s = d then p else sp.cast s d p

/-- A cast between spaces keeps the address. -/
theorem address_castTo (h : s ≠ d → sp.castable s d n) :
    sp.address d (sp.castTo s d n) = sp.address s n := by
  unfold AddressSpaces.castTo
  split
  · rename_i heq
    rw [heq]
  · rename_i hne
    exact sp.generic_cast (h hne)

/-- A cast between spaces stays in range. -/
theorem castTo_lt (hn : n < 2 ^ 64) (h : s ≠ d → sp.castable s d n) : sp.castTo s d n < 2 ^ 64 := by
  unfold AddressSpaces.castTo
  split
  · exact hn
  · rename_i hne
    exact sp.cast_lt (h hne)

/-- A cast between spaces can be undone. -/
theorem castable_castTo (h : s ≠ d → sp.castable s d n) :
    d ≠ s → sp.castable d s (sp.castTo s d n) := by
  intro hne
  unfold AddressSpaces.castTo
  rw [if_neg hne.symm]
  exact sp.castable_back (h hne.symm)

/-- Casting back gives the pointer. -/
theorem castTo_castTo (h : s ≠ d → sp.castable s d n) : sp.castTo d s (sp.castTo s d n) = n := by
  unfold AddressSpaces.castTo
  by_cases heq : s = d
  · rw [if_pos heq.symm, if_pos heq]
  · rw [if_neg (Ne.symm heq), if_neg heq, sp.cast_back (h heq)]

/-- The number of a value is its address in its space. -/
theorem rustNumber_eq (t : LlvmType) (n : ℕ) : rustNumber sp t n = sp.address (space t) n := by
  cases t with
  | ptr a => rfl
  | _ => exact (if_pos rfl).symm

/-- Operations in a row run in a row. -/
theorem runAll_append (ops ops' : List TransmuteOp) (v : Value) :
    runAll sp (ops ++ ops') v = runAll sp ops' (runAll sp ops v) := List.foldl_append ..

/-- What the pointer-to-integer part computes. -/
theorem runAll_emitPtrToInt (hn : n < 2 ^ 64) (h : a ≠ generic → sp.castable a generic n) :
    runAll sp (emitPtrToInt a 64) [some n] = [some (sp.castTo a generic n)] := by
  have hlt := castTo_lt hn h
  unfold emitPtrToInt AddressSpaces.castTo at *
  split
  · show [some (n % 2 ^ 64)] = _
    rw [Nat.mod_eq_of_lt hn]
  · rename_i hne
    rw [if_neg hne] at hlt
    show [some (sp.cast a generic n % 2 ^ 64)] = _
    rw [Nat.mod_eq_of_lt hlt]

/-- What the integer-to-pointer part computes. -/
theorem runAll_emitIntToPtr (hn : n < 2 ^ 64) :
    runAll sp (emitIntToPtr d) [some n] = [some (sp.castTo generic d n)] := by
  unfold emitIntToPtr AddressSpaces.castTo
  split
  · rename_i heq
    rw [if_pos heq.symm]
    show [some (n % 2 ^ 64)] = _
    rw [Nat.mod_eq_of_lt hn]
  · rename_i hne
    rw [if_neg (Ne.symm hne)]
    show [some (sp.cast generic d (n % 2 ^ 64))] = _
    rw [Nat.mod_eq_of_lt hn]

/-- A type with a pointer space is that pointer. -/
theorem pointerSpace_eq_some (h : t.pointerSpace = some a) : t = ptr a := by
  cases t with
  | ptr b =>
    cases h
    rfl
  | _ => cases h

/-- The casts between scalars of one width take a pointer to the destination's address space. -/
theorem runAll_equalWidth (hn : n < 2 ^ width src) (hs : width src = bits) (hd : width dst = bits)
    (h : space src ≠ space dst → sp.castable (space src) (space dst) n) :
    runAll sp (emitEqualWidth src dst bits) [some n] =
      [some (sp.castTo (space src) (space dst) n)] := by
  unfold emitEqualWidth
  obtain hsp | ⟨a, hsp⟩ := Option.eq_none_or_eq_some src.pointerSpace
  · obtain hdp | ⟨b, hdp⟩ := Option.eq_none_or_eq_some dst.pointerSpace
    · -- two numbers
      rw [hsp, hdp]
      unfold space AddressSpaces.castTo
      rw [hsp, hdp, if_pos rfl]
      rfl
    · -- a generic address becomes a pointer
      obtain rfl := pointerSpace_eq_some hdp
      have hn : n < 2 ^ 64 := by rwa [hs, ← hd] at hn
      have hspace : space src = generic := by rw [space, hsp]; rfl
      rw [hsp, hdp, hspace]
      dsimp only
      split
      · exact runAll_emitIntToPtr hn
      · exact runAll_emitIntToPtr hn
  · obtain rfl := pointerSpace_eq_some hsp
    obtain rfl : 64 = bits := hs
    obtain hdp | ⟨b, hdp⟩ := Option.eq_none_or_eq_some dst.pointerSpace
    · -- a pointer becomes its generic address
      have hspace : space dst = generic := by rw [space, hdp]; rfl
      rw [hspace] at h ⊢
      rw [hsp, hdp]
      dsimp only
      split
      · exact runAll_emitPtrToInt hn h
      · have hrun : runAll sp (emitPtrToInt a 64) [some n] = [some (sp.castTo a generic n)] :=
          runAll_emitPtrToInt hn h
        rw [runAll_append, hrun]
        rfl
    · -- two pointers
      obtain rfl := pointerSpace_eq_some hdp
      rw [hsp, hdp]
      dsimp only
      show runAll sp (if a ≠ b then _ else _) [some n] = [some (if a = b then n else sp.cast a b n)]
      by_cases heq : a = b
      · rw [if_neg (not_not_intro heq), if_pos heq]
        rfl
      · rw [if_pos heq, if_neg heq]
        rfl

/-- A scalar has a layout of its store size. -/
theorem RustScalar.sizeAlign (h : RustScalar t) : ∃ a, t.sizeAlign = some (storeSize t, a) := by
  cases t with
  | int | half | float | double | ptr => exact ⟨_, rfl⟩
  | array | vector | struct | unsized => exact absurd h id

/-- The bit width of a scalar. -/
theorem RustScalar.scalarBitWidth (h : RustScalar t) : t.scalarBitWidth = some (width t) := by
  cases t with
  | int | half | float | double | ptr => rfl
  | array | vector | struct | unsized => exact absurd h id

/-- The scalar of one byte other than `i1` is a byte. -/
theorem RustScalar.eq_int8 (h : RustScalar t) (hne : t ≠ int 1) (hsize : storeSize t = 1) :
    t = int 8 := by
  have hwidth := h.width_eq hne
  rw [hsize] at hwidth
  cases t with
  | int w => exact congrArg int hwidth
  | half | float | double | ptr => cases hwidth
  | array | vector | struct | unsized => exact absurd h id

/-- Scalars of one size have one width, but for a bool and a byte. -/
theorem width_cases (hs : RustScalar src) (hd : RustScalar dst)
    (hsize : storeSize src = storeSize dst) :
    width src = width dst ∨ (src = int 1 ∧ dst = int 8) ∨ (src = int 8 ∧ dst = int 1) := by
  by_cases hs1 : src = int 1
  · by_cases hd1 : dst = int 1
    · exact .inl (by rw [hs1, hd1])
    · rw [hs1] at hsize
      exact .inr (.inl ⟨hs1, hd.eq_int8 hd1 hsize.symm⟩)
  · by_cases hd1 : dst = int 1
    · rw [hd1] at hsize
      exact .inr (.inr ⟨hs.eq_int8 hs1 hsize, hd1⟩)
    · exact .inl (by rw [hs.width_eq hs1, hd.width_eq hd1, hsize])

/-- **A transmute of scalars** takes a pointer to the destination's address space. -/
theorem runAll_scalar (hs : RustScalar src) (hd : RustScalar dst)
    (hsize : storeSize src = storeSize dst)
    (hn : n < 2 ^ width src) (hbool : dst = int 1 → n < 2)
    (hcast : space src ≠ space dst → sp.castable (space src) (space dst) n)
    (h : emitTransmute src dst = some ops) :
    runAll sp ops [some n] = [some (sp.castTo (space src) (space dst) n)] := by
  unfold emitTransmute at h
  split at h
  · rename_i a w hpair
    cases h
    -- a pointer becomes an integer of its size
    have hw : src = ptr a ∧ dst = int w := by
      unfold pointerToInt at hpair
      split at hpair
      · cases hpair
        exact ⟨rfl, rfl⟩
      · cases hpair
    obtain ⟨rfl, rfl⟩ := hw
    have hbytes : 8 = (w + 7) / 8 := hsize
    obtain rfl : w = 64 := by
      obtain rfl | ⟨hdvd, -⟩ := hd <;> omega
    exact runAll_emitPtrToInt hn hcast
  · obtain ⟨as, hsa⟩ := hs.sizeAlign
    obtain ⟨ad, hda⟩ := hd.sizeAlign
    rw [hsa, hda, Option.bind_some, Option.bind_some, if_neg (not_not_intro hsize), hs.isAggregate,
      hd.isAggregate, Bool.or_false, if_neg Bool.false_ne_true, emitScalars, hs.scalarBitWidth,
      hd.scalarBitWidth, Option.bind_some, Option.bind_some] at h
    by_cases hw : width src = width dst
    · rw [if_pos hw] at h
      cases h
      exact runAll_equalWidth hn rfl hw.symm hcast
    · rw [if_neg hw] at h
      obtain ⟨rfl, rfl⟩ | ⟨rfl, rfl⟩ := (width_cases hs hd hsize).resolve_left hw
      · rw [if_pos ⟨rfl, rfl⟩] at h
        cases h
        rfl
      · rw [if_neg (by decide), if_pos ⟨rfl, rfl⟩] at h
        cases h
        show [some (n % 2 ^ 1)] = [some n]
        rw [pow_one, Nat.mod_eq_of_lt (hbool rfl)]

/-- What a scalar is taken to is a number of the destination. -/
theorem castTo_lt_width (hs : RustScalar src) (hd : RustScalar dst)
    (hsize : storeSize src = storeSize dst)
    (hn : n < 2 ^ width src) (hbool : dst = int 1 → n < 2)
    (hcast : space src ≠ space dst → sp.castable (space src) (space dst) n) :
    sp.castTo (space src) (space dst) n < 2 ^ width dst := by
  obtain hw | ⟨rfl, rfl⟩ | ⟨rfl, rfl⟩ := width_cases hs hd hsize
  · by_cases heq : space src = space dst
    · rw [AddressSpaces.castTo, if_pos heq, ← hw]
      exact hn
    · -- one of the two is a pointer
      have h64 : width dst = 64 := by
        obtain hsp | ⟨a, hsp⟩ := Option.eq_none_or_eq_some src.pointerSpace
        · obtain hdp | ⟨b, hdp⟩ := Option.eq_none_or_eq_some dst.pointerSpace
          · rw [space, space, hsp, hdp] at heq
            exact absurd rfl heq
          · rw [pointerSpace_eq_some hdp]
            rfl
        · rw [← hw, pointerSpace_eq_some hsp]
          rfl
      rw [hw, h64] at hn
      rw [h64]
      exact castTo_lt hn hcast
  · exact hn.trans_le (by decide)
  · exact hbool rfl

/-- Two scalars of one size have one image when the address is the same. -/
theorem sameImage_scalar (hs : RustScalar src) (hd : RustScalar dst)
    (hsize : storeSize src = storeSize dst)
    (hcast : space src ≠ space dst → sp.castable (space src) (space dst) n) :
    SameImage sp src dst [some n] [some (sp.castTo (space src) (space dst) n)] := by
  intro l hl i hlow hhigh
  rw [allocLeaves_scalar hd.isAggregate] at hl
  obtain rfl := List.mem_singleton.mp hl
  have hsrc : (allocLeaves src)[0]? = some (0, src) := by
    rw [allocLeaves_scalar hs.isAggregate]
    rfl
  have hdst : (allocLeaves dst)[0]? = some (0, dst) := by
    rw [allocLeaves_scalar hd.isAggregate]
    rfl
  refine ⟨_, image_eq hdst rfl hlow hhigh, ?_⟩
  rw [image_eq hsrc rfl hlow (by rw [hsize]; exact hhigh), rustNumber_eq, rustNumber_eq,
    address_castTo hcast]

end Scalars

/-! ### Transmutes -/

section Transmute

variable {sp : AddressSpaces} {src dst : LlvmType} {v : Value} {ops : List TransmuteOp}

/-- The scalars of a transmute have one size. -/
theorem storeSize_eq (hs : RustScalar src) (hd : RustScalar dst)
    (hsize : (alloc src).1 = (alloc dst).1)
    (hsrc : RustType src) (hdst : RustType dst) : storeSize src = storeSize dst := by
  obtain ⟨a, ha⟩ := hs.sizeAlign
  obtain ⟨b, hb⟩ := hd.sizeAlign
  rw [sizeAlign_alloc ha hsrc.wholeIntegers, sizeAlign_alloc hb hdst.wholeIntegers] at hsize
  exact hsize

/-- **A transmute keeps the memory image**: between types of one size, whose pointers are generic
where one of the two is an aggregate, each bit of a scalar of the result is specified and is the
source's; and a scalar is transmuted back to itself. -/
theorem transmute_spec (sp : AddressSpaces) (hsrc : RustType src) (hdst : RustType dst)
    (hsize : (alloc src).1 = (alloc dst).1)
    (hgeneric : src.isAggregate = true ∨ dst.isAggregate = true →
      GenericPointers src ∧ GenericPointers dst)
    (h : emitTransmute src dst = some ops) (hv : Defined src v) (hvalid : ValidAt sp src dst v) :
    Defined dst (runAll sp ops v) ∧ SameImage sp src dst v (runAll sp ops v) ∧
      (src.isAggregate = false → dst.isAggregate = false → ∀ back,
        emitTransmute dst src = some back →
        runAll sp back (runAll sp ops v) = v) := by
  by_cases hagg : src.isAggregate = true ∨ dst.isAggregate = true
  -- the scalar route needs two widths, and an aggregate has none
  · have hmemory : emitTransmuteViaMemory src dst = some ops := by
      unfold emitTransmute at h
      split at h
      · rename_i a w hpair
        unfold pointerToInt at hpair
        split at hpair
        · obtain hagg | hagg := hagg <;> cases hagg
        · cases hpair
      · obtain ⟨s, -, h⟩ := Option.bind_eq_some_iff.mp h
        obtain ⟨d, -, h⟩ := Option.bind_eq_some_iff.mp h
        split at h
        · cases h
        rw [if_pos (by rwa [Bool.or_eq_true])] at h
        split at h
        · cases h
        · exact h
    obtain ⟨hgs, hgd⟩ := hgeneric hagg
    obtain ⟨hdef, hsame⟩ := runAll_viaMemory hsrc hdst hgs hgd hv hvalid.bool hagg hmemory
    -- the way back is about scalars
    refine ⟨hdef, hsame, fun hs hd => ?_⟩
    rw [hs, hd] at hagg
    simp at hagg
  · rw [not_or, Bool.not_eq_true, Bool.not_eq_true] at hagg
    obtain ⟨hsagg, hdagg⟩ := hagg
    have hs := hsrc.scalar hsagg
    have hd := hdst.scalar hdagg
    have hstore := storeSize_eq hs hd hsize hsrc hdst
    obtain ⟨n, rfl, hn⟩ := exists_of_defined hv hsagg
    have hcast : space src ≠ space dst → sp.castable (space src) (space dst) n :=
      fun hne => hvalid.castable hsagg hdagg hne n rfl
    -- a bool at the destination was one at the source or a byte of 0 or 1
    have hbool : dst = int 1 → n < 2 := by
      rintro rfl
      by_cases hs1 : src = int 1
      · subst hs1
        exact hn
      · obtain rfl := hs.eq_int8 hs1 hstore
        refine @lt_two_of_image sp n hn fun j hj hj8 => ?_
        have hfalse := hvalid.bool (0, int 1) (List.mem_singleton_self _) rfl j hj hj8
        rwa [Nat.mul_zero, Nat.zero_add] at hfalse
    rw [runAll_scalar hs hd hstore hn hbool hcast h]
    have hlt := castTo_lt_width hs hd hstore hn hbool hcast
    refine ⟨defined_scalar hdagg hlt, sameImage_scalar hs hd hstore hcast, fun _ _ back hback => ?_⟩
    have hboolback : src = int 1 → sp.castTo (space src) (space dst) n < 2 := by
      rintro rfl
      have hone : dst = int 1 ∨ dst = int 8 :=
        or_iff_not_imp_left.mpr fun hne => hd.eq_int8 hne hstore.symm
      obtain rfl | rfl := hone <;> exact hn
    rw [runAll_scalar hd hs hstore.symm hlt hboolback (castable_castTo hcast) hback,
      castTo_castTo hcast]

/-- Address spaces as windows of the generic one, of `2 ^ 32` bytes each. -/
def AddressSpaces.windows : AddressSpaces where
  cast s d p := p + s * 2 ^ 32 - d * 2 ^ 32
  castable s d p := p + s * 2 ^ 32 < 2 ^ 64 ∧ d * 2 ^ 32 ≤ p + s * 2 ^ 32
  cast_lt h := by omega
  castable_back h := by omega
  cast_back h := by omega
  generic_cast h := by
    unfold Lower.generic
    split <;> split <;> omega

/-- A shared pointer that is transmuted to a double and back, and a slice, whose generic pointer and
length go through memory to four words. -/
theorem transmute_spec_pointers :
    (∃ ops back, emitTransmute (ptr shared) double = some ops ∧
      emitTransmute double (ptr shared) = some back ∧
      Defined double (runAll .windows ops [some 40]) ∧
      SameImage .windows (ptr shared) double [some 40] (runAll .windows ops [some 40]) ∧
      runAll .windows back (runAll .windows ops [some 40]) = [some 40]) ∧
    ∃ ops, emitTransmute (struct [ptr generic, int 64] false) (array (int 32) 4) = some ops ∧
      Defined (array (int 32) 4) (runAll .windows ops [some 40, some 7]) ∧
      SameImage .windows (struct [ptr generic, int 64] false) (array (int 32) 4) [some 40, some 7]
        (runAll .windows ops [some 40, some 7]) := by
  constructor
  -- a shared pointer as a float: its own bits
  · have hsrc : RustType (ptr shared) := RustScalar.rustType trivial
    have hdst : RustType double := RustScalar.rustType trivial
    have hvalid : ValidAt .windows (ptr shared) double [some 40] := by
      constructor
      · intro l hl hl1
        obtain rfl := List.mem_singleton.mp hl
        cases hl1
      · intro _ _ _ n hn
        cases hn
        exact ⟨by decide, by decide⟩
    obtain ⟨hdef, hsame, hback⟩ := transmute_spec .windows hsrc hdst rfl
      (fun hagg => by obtain hagg | hagg := hagg <;> cases hagg) rfl
        (defined_scalar rfl (by decide)) hvalid
    exact ⟨_, _, rfl, rfl, hdef, hsame, hback rfl rfl _ rfl⟩
  -- a slice of words as four words: both of its words
  · have hslice : allocLeaves (struct [ptr generic, int 64] false) =
      [(0, ptr generic), (8, int 64)] := rfl
    have hwords : allocLeaves (array (int 32) 4) = [(0, int 32), (4, int 32), (8, int 32),
      (12, int 32)] := rfl
    have hsrc : RustType (struct [ptr generic, int 64] false) := by
      rw [RustType, hslice]
      simp [RustScalar, intAlign]
    have hdst : RustType (array (int 32) 4) := by
      rw [RustType, hwords]
      simp [RustScalar, intAlign]
    have hgeneric : GenericPointers (struct [ptr generic, int 64] false) ∧
        GenericPointers (array (int 32) 4) := by
      rw [GenericPointers, GenericPointers, hslice, hwords]
      simp
    have hv : Defined (struct [ptr generic, int 64] false) [some 40, some 7] := by
      rw [Defined, hslice]
      exact .cons ⟨40, rfl, by decide⟩ (.cons ⟨7, rfl, by decide⟩ .nil)
    have hvalid : ValidAt .windows (struct [ptr generic, int 64] false) (array (int 32) 4)
        [some 40, some 7] := by
      refine ⟨?_, fun h => by cases h⟩
      rw [hwords]
      simp
    obtain ⟨hdef, hsame, -⟩ := transmute_spec .windows hsrc hdst rfl
      (fun _ => hgeneric) rfl hv hvalid
    exact ⟨_, rfl, hdef, hsame⟩

/-- A byte of two becomes a bool, an integer of 128 bits is made of a pointer, and a struct shows
the place that its pointer has in its address space. -/
theorem transmute_fails :
    (emitTransmute (int 8) (int 1) = some [.trunc 1] ∧
      ¬SameImage .windows (int 8) (int 1) [some 2] (runAll .windows [.trunc 1] [some 2])) ∧
    (emitTransmute (ptr 0) (int 128) = some [.ptrToInt 128] ∧
      ¬SameImage .windows (ptr 0) (int 128) [some 2] (runAll .windows [.ptrToInt 128] [some 2])) ∧
    (emitTransmute (struct [ptr 5] false) (int 64) =
      some [.storeLoad (struct [ptr 5] false) (int 64) 8] ∧
      ¬SameImage .windows (struct [ptr 5] false) (int 64) [some 2]
        (runAll .windows [.storeLoad (struct [ptr 5] false) (int 64) 8] [some 2])) := by
  refine ⟨⟨rfl, fun h => ?_⟩, ⟨rfl, fun h => ?_⟩, ⟨rfl, fun h => ?_⟩⟩
  · obtain ⟨b, hb, hb'⟩ := h (0, int 1) (List.mem_singleton_self _) 1 (by decide) (by decide)
    have hne : image .windows (int 1) (runAll .windows [.trunc 1] [some 2]) 1 ≠
        image .windows (int 8) [some 2] 1 := by decide
    exact hne (hb.trans hb'.symm)
  · obtain ⟨b, hb, hb'⟩ := h (0, int 128) (List.mem_singleton_self _) 64 (by decide) (by decide)
    have hnone : image .windows (ptr 0) [some 2] 64 = none := by decide
    rw [hnone] at hb'
    cases hb'
  · -- the generic address has a bit for the window
    obtain ⟨b, hb, hb'⟩ := h (0, int 64) (List.mem_singleton_self _) 32 (by decide) (by decide)
    have hne : image .windows (int 64)
        (runAll .windows [.storeLoad (struct [ptr 5] false) (int 64) 8] [some 2]) 32 ≠
        image .windows (struct [ptr 5] false) [some 2] 32 := by decide +kernel
    exact hne (hb.trans hb'.symm)

end Transmute

end CudaOxide.Lower
