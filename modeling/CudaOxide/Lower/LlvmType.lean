import CudaOxide.Lib.Sequential

namespace CudaOxide.Lower

open Lib

/-!
# Layouts of LLVM types

The types that MIR values are lowered to, with the sizes and alignments that the lowering computes
for them (`mir-lower/src/convert/types/layout.rs`).

* `LlvmType`, `LlvmType.induct` — the types, and induction over them.
* `sizeAlign`, `naturalStructLayout` — `llvm_type_size_align` and the walk over the fields of a
  struct.
* `leaves` — the scalars of a type with their byte offsets.
* `leaves_ordered`, `leaf_within` — scalars do not overlap and lie in the type.
-/

/-- The LLVM types that the conversion produces. -/
inductive LlvmType where
  | int (width : ℕ)
  | half
  | float
  | double
  | ptr (addressSpace : ℕ)
  | array (elem : LlvmType) (size : ℕ)
  | vector (elem : LlvmType) (numElements : ℕ) (scalable : Bool)
  | struct (fields : List LlvmType) (packed : Bool)
  /-- a type without a size, such as `void` -/
  | unsized
  deriving Repr, Inhabited

/-- `address_space::GENERIC` and `address_space::SHARED` -/
def generic : ℕ := 0

/-- The CUDA shared address space. -/
def shared : ℕ := 3

namespace LlvmType

/-! ### Equality and induction -/

mutual

/-- Equality of types, decided. -/
def eqb : LlvmType → LlvmType → Bool
  | int w, int w' => w == w'
  | half, half => true
  | float, float => true
  | double, double => true
  | ptr a, ptr a' => a == a'
  | array e n, array e' n' => eqb e e' && n == n'
  | vector e n s, vector e' n' s' => eqb e e' && n == n' && s == s'
  | struct fs p, struct fs' p' => eqbs fs fs' && p == p'
  | unsized, unsized => true
  | _, _ => false

/-- Equality of lists of types, decided. -/
def eqbs : List LlvmType → List LlvmType → Bool
  | [], [] => true
  | f :: fs, f' :: fs' => eqb f f' && eqbs fs fs'
  | _, _ => false
end

mutual

/-- The decision is right for a type. -/
theorem eqb_iff : ∀ t u : LlvmType, eqb t u = true ↔ t = u
  | int w, u => by cases u <;> simp [eqb]
  | half, u => by cases u <;> simp [eqb]
  | float, u => by cases u <;> simp [eqb]
  | double, u => by cases u <;> simp [eqb]
  | ptr a, u => by cases u <;> simp [eqb]
  | array e n, u => by cases u <;> simp [eqb, eqb_iff e]
  | vector e n s, u => by cases u <;> simp [eqb, eqb_iff e, and_assoc]
  | struct fs p, u => by cases u <;> simp [eqb, eqbs_iff fs]
  | unsized, u => by cases u <;> simp [eqb]

/-- The decision is right for a list of types. -/
theorem eqbs_iff : ∀ ts us : List LlvmType, eqbs ts us = true ↔ ts = us
  | [], us => by cases us <;> simp [eqbs]
  | t :: ts, us => by cases us <;> simp [eqbs, eqb_iff t, eqbs_iff ts]
end

instance : DecidableEq LlvmType := fun t u => decidable_of_iff (eqb t u = true) (eqb_iff t u)

mutual
/-- Induction over types, with the fields of a struct at hand. -/
theorem induct {P : LlvmType → Prop} (int : ∀ w, P (int w)) (half : P half) (float : P float)
    (double : P double) (ptr : ∀ a, P (ptr a)) (array : ∀ e n, P e → P (array e n))
    (vector : ∀ e n s, P e → P (vector e n s))
    (struct : ∀ fs p, (∀ f ∈ fs, P f) → P (struct fs p)) (unsized : P unsized) : ∀ t, P t
  | .int w => int w
  | .half => half
  | .float => float
  | .double => double
  | .ptr a => ptr a
  | .array e n =>
    array e n (induct int half float double ptr array vector struct unsized e)
  | .vector e n s =>
    vector e n s (induct int half float double ptr array vector struct unsized e)
  | .struct fs p =>
    struct fs p (inducts int half float double ptr array vector struct unsized fs)
  | .unsized => unsized

/-- Induction over a type, with the hypothesis for every field of a struct. -/
theorem inducts {P : LlvmType → Prop} (int : ∀ w, P (.int w)) (half : P .half) (float : P .float)
    (double : P .double) (ptr : ∀ a, P (.ptr a)) (array : ∀ e n, P e → P (.array e n))
    (vector : ∀ e n s, P e → P (.vector e n s))
    (struct : ∀ fs p, (∀ f ∈ fs, P f) → P (.struct fs p)) (unsized : P .unsized) :
    ∀ fs : List LlvmType, ∀ f ∈ fs, P f
  | [] => List.forall_mem_nil P
  | f :: fs => List.forall_mem_cons.mpr
    ⟨induct int half float double ptr array vector struct unsized f,
      inducts int half float double ptr array vector struct unsized fs⟩
end

/-! ### Sizes -/

/-- The next power of two from the size in bytes on, sixteen at most. -/
def intAlign (size : ℕ) : ℕ :=
  if size ≤ 1 then 1 else if size ≤ 2 then 2 else if size ≤ 4 then 4 else if size ≤ 8 then 8 else 16

/-- The element widths that a vector may have, in bits. -/
def elementBits : LlvmType → Option ℕ
  | int w => some w
  | half => some 16
  | float => some 32
  | double | ptr _ => some 64
  | _ => none

/-- A `u64`. -/
def checked (n : ℕ) : Option ℕ := if n < 2 ^ 64 then some n else none

/-- The alignment of a vector, for the widths that the data layouts define. -/
def vectorSizeAlign (totalBits : ℕ) : Option (ℕ × ℕ) :=
  if totalBits = 16 then some (2, 2)
  else if totalBits = 32 then some (4, 4)
  else if totalBits = 64 then some (8, 8)
  else if totalBits = 128 then some (16, 16)
  else none

/-- `natural_struct_layout`: the end, the size and the alignment.  The walk never decreases, so its
end is checked for all of its additions.  The source rounds an end up with an unchecked product,
which panics or wraps where it reaches `2 ^ 64`; here such fields have no layout. -/
def naturalStructLayout (items : List Sequential.Item) : Option (ℕ × ℕ × ℕ) :=
  let align := Sequential.widest items
  let size := Sequential.alignUp (Sequential.finish 0 items) align
  if size < 2 ^ 64 then some (Sequential.finish 0 items, size, align) else none

mutual
/-- `llvm_type_size_align` -/
def sizeAlign : LlvmType → Option (ℕ × ℕ)
  | int w => some ((w + 7) / 8, intAlign ((w + 7) / 8))
  | half => some (2, 2)
  | float => some (4, 4)
  | double => some (8, 8)
  | ptr _ => some (8, 8)
  | array e n => (sizeAlign e).bind fun i => (checked (i.1 * n)).map fun size => (size, max i.2 1)
  | vector e n scalable =>
    if scalable then none
    else (elementBits e).bind fun bits => (checked (bits * n)).bind vectorSizeAlign
  | struct fs packed => (sizeAligns fs).bind fun items =>
    if packed then (checked (Sequential.total items)).map fun size => (size, 1)
    else (naturalStructLayout items).map fun l => (l.2.1, l.2.2)
  | unsized => none

/-- The size and alignment of each field, if each has them. -/
def sizeAligns : List LlvmType → Option (List Sequential.Item)
  | [] => some []
  | f :: fs => (sizeAlign f).bind fun i => (sizeAligns fs).map fun items => i :: items
end

/-- The fields as items in a row: a packed struct drops their alignments. -/
def rowOf (packed : Bool) (items : List Sequential.Item) : List Sequential.Item :=
  if packed then items.map fun i => (i.1, 1) else items

/-- The size of a sized type. -/
def size (t : LlvmType) : ℕ := ((sizeAlign t).map Prod.fst).getD 0

/-- The offsets of the fields of a struct. -/
def fieldOffsets (fs : List LlvmType) (packed : Bool) : List ℕ :=
  Sequential.offsets 0 (rowOf packed ((sizeAligns fs).getD []))

/-! ### Scalars -/

/-- A scalar and its byte offset. -/
abbrev Leaf := ℕ × LlvmType

/-- A leaf moved by an offset. -/
def shift (o : ℕ) (l : Leaf) : Leaf := (o + l.1, l.2)

mutual
/-- The scalars of a type.  A vector of pointers has its pointers, any other vector counts as
one. -/
def leaves : LlvmType → List Leaf
  | array e n => (List.range n).flatMap fun i => (leaves e).map (shift (i * size e))
  | vector (ptr a) n _ => (List.range n).map fun i => (i * 8, ptr a)
  | struct fs packed => leavesAt fs (fieldOffsets fs packed)
  | t => [(0, t)]

/-- The leaves of the fields at their offsets. -/
def leavesAt : List LlvmType → List ℕ → List Leaf
  | f :: fs, o :: os => (leaves f).map (shift o) ++ leavesAt fs os
  | _, _ => []
end

/-! ### Facts about sizes -/

section Sizes

variable {t : LlvmType} {fs : List LlvmType} {s a n : ℕ}

/-- `checked` succeeds exactly below `2^64`. -/
theorem checked_eq_some {m : ℕ} : checked n = some m ↔ n < 2 ^ 64 ∧ n = m := by
  unfold checked
  split
  · simp_all
  · simp_all

/-- An integer is aligned to 1 to 16 bytes. -/
theorem one_le_intAlign (size : ℕ) : 1 ≤ intAlign size ∧ intAlign size ≤ 16 := by
  unfold intAlign
  split <;> try omega
  split <;> try omega
  split <;> try omega
  split <;> omega

/-- Every field of a sized struct is sized. -/
theorem sizeAligns_eq_some {items : List Sequential.Item} :
    sizeAligns fs = some items ↔ List.Forall₂ (fun f i => sizeAlign f = some i) fs items := by
  induction fs generalizing items with
  | nil =>
    rw [List.forall₂_nil_left_iff]
    exact Option.some_inj.trans eq_comm
  | cons f fs ih =>
    simp only [sizeAligns, Option.bind_eq_some_iff, Option.map_eq_some_iff]
    constructor
    · rintro ⟨i, hi, items', hitems, rfl⟩
      exact .cons hi (ih.mp hitems)
    · rintro (_ | ⟨hi, hitems⟩)
      exact ⟨_, hi, _, ih.mpr hitems, rfl⟩

/-- Each item is the layout of a field. -/
theorem exists_of_forall₂ {items : List Sequential.Item} {i : Sequential.Item}
    (h : List.Forall₂ (fun f i => sizeAlign f = some i) fs items) (hi : i ∈ items) :
    ∃ f ∈ fs, sizeAlign f = some i := by
  induction h with
  | nil => cases hi
  | cons hf _ ih =>
    obtain rfl | hi := List.mem_cons.mp hi
    · exact ⟨_, List.mem_cons_self .., hf⟩
    · obtain ⟨f, hmem, hfi⟩ := ih hi
      exact ⟨f, List.mem_cons_of_mem _ hmem, hfi⟩

/-- The row of a packed struct has alignments 1. -/
private theorem forall_one (items : List Sequential.Item) :
    ∀ i ∈ items.map fun i => (i.1, 1), i.2 ≤ 1 := by
  intro i hi
  obtain ⟨j, -, rfl⟩ := List.mem_map.mp hi
  exact le_refl 1

/-- The layout of an array comes from its element. -/
theorem sizeAlign_array {e : LlvmType} (h : sizeAlign (.array e n) = some (s, a)) :
    ∃ se ae, sizeAlign e = some (se, ae) ∧ s = se * n ∧ a = max ae 1 := by
  simp only [sizeAlign, Option.bind_eq_some_iff, Option.map_eq_some_iff] at h
  obtain ⟨⟨se, ae⟩, he, m, hm, heq⟩ := h
  obtain ⟨-, rfl⟩ := checked_eq_some.mp hm
  cases heq
  exact ⟨se, ae, he, rfl, rfl⟩

/-- The size of a struct is that of its fields in a row, rounded up to its alignment. -/
theorem sizeAlign_struct {packed : Bool} (h : sizeAlign (.struct fs packed) = some (s, a)) :
    ∃ items, sizeAligns fs = some items ∧
      a = Sequential.widest (rowOf packed items) ∧
      s = Sequential.alignUp (Sequential.finish 0 (rowOf packed items)) a := by
  simp only [sizeAlign, Option.bind_eq_some_iff] at h
  obtain ⟨items, hitems, h⟩ := h
  refine ⟨items, hitems, ?_⟩
  cases packed with
  | false =>
    obtain ⟨l, hl, heq⟩ := Option.map_eq_some_iff.mp h
    unfold naturalStructLayout at hl
    dsimp only at hl
    split at hl
    · cases hl
      cases heq
      exact ⟨rfl, rfl⟩
    · cases hl
  | true =>
    obtain ⟨m, hm, heq⟩ := Option.map_eq_some_iff.mp h
    obtain ⟨-, rfl⟩ := checked_eq_some.mp hm
    cases heq
    have hone : Sequential.widest (items.map fun i => (i.1, 1)) = 1 :=
      le_antisymm (Sequential.widest_le (le_refl 1) (forall_one items)) Sequential.one_le_widest
    show 1 = Sequential.widest (items.map fun i => (i.1, 1)) ∧
      Sequential.total items =
        Sequential.alignUp (Sequential.finish 0 (items.map fun i => (i.1, 1))) 1
    rw [hone, Sequential.alignUp_one, Sequential.finish_packed, Nat.zero_add]
    exact ⟨rfl, rfl⟩

/-- Alignments are between one and sixteen. -/
theorem align_bounds (h : sizeAlign t = some (s, a)) : 1 ≤ a ∧ a ≤ 16 := by
  induction t using induct generalizing s a with
  | int w =>
    cases h
    exact one_le_intAlign _
  | half | float | double | ptr =>
    cases h
    decide
  | array e n ih =>
    obtain ⟨se, ae, he, -, rfl⟩ := sizeAlign_array h
    have := ih he
    omega
  | vector e n scalable ih =>
    simp only [sizeAlign, Option.ite_none_left_eq_some, Option.bind_eq_some_iff] at h
    obtain ⟨-, bits, -, total, -, hv⟩ := h
    unfold vectorSizeAlign at hv
    split at hv
    · cases hv
      decide
    split at hv
    · cases hv
      decide
    split at hv
    · cases hv
      decide
    split at hv
    · cases hv
      decide
    · cases hv
  | struct fs packed ih =>
    obtain ⟨items, hitems, rfl, -⟩ := sizeAlign_struct h
    refine ⟨Sequential.one_le_widest, Sequential.widest_le (by decide) ?_⟩
    intro i hi
    cases packed with
    | false =>
      obtain ⟨f, hf, hfi⟩ := exists_of_forall₂ (sizeAligns_eq_some.mp hitems) hi
      exact (ih f hf hfi).2
    | true => exact (forall_one items i hi).trans (by decide)
  | unsized => cases h

end Sizes

/-! ### Facts about scalars -/

section Leaves

variable {t : LlvmType} {fs : List LlvmType} {os : List ℕ} {l : Leaf} {s a n : ℕ} {packed : Bool}

/-- The scalars of fields at given offsets. -/
theorem mem_leavesAt : l ∈ leavesAt fs os ↔
    ∃ (k : ℕ) (f : LlvmType) (o : ℕ), fs[k]? = some f ∧ os[k]? = some o ∧ ∃ l' ∈ leaves f,
      l = shift o l' := by
  induction fs generalizing os with
  | nil => simp [leavesAt]
  | cons f fs ih =>
    cases os with
    | nil => simp [leavesAt]
    | cons o os =>
      rw [leavesAt, List.mem_append, List.mem_map, ih]
      constructor
      · rintro (⟨l', hl', rfl⟩ | ⟨k, g, o', hg, ho', hl⟩)
        · exact ⟨0, f, o, rfl, rfl, l', hl', rfl⟩
        · exact ⟨k + 1, g, o', hg, ho', hl⟩
      · rintro ⟨k, g, o', hg, ho', l', hl', rfl⟩
        cases k with
        | zero =>
          cases hg
          cases ho'
          exact .inl ⟨l', hl', rfl⟩
        | succ k => exact .inr ⟨k, g, o', hg, ho', l', hl', rfl⟩

/-- A leaf of a struct is a leaf of a field, moved by the offset of the field. -/
theorem mem_leaves_struct : l ∈ leaves (.struct fs packed) ↔
    ∃ (k : ℕ) (f : LlvmType) (o : ℕ), fs[k]? = some f ∧ (fieldOffsets fs packed)[k]? = some o ∧
      ∃ l' ∈ leaves f, l = shift o l' := by
  rw [leaves]
  exact mem_leavesAt

/-- A leaf of an array is a leaf of its element, moved by whole elements. -/
theorem mem_leaves_array {e : LlvmType} : l ∈ leaves (.array e n) ↔
    ∃ i < n, ∃ l' ∈ leaves e, l = shift (i * size e) l' := by
  simp only [leaves, List.mem_flatMap, List.mem_range, List.mem_map]
  constructor
  · rintro ⟨i, hi, l', hl', rfl⟩
    exact ⟨i, hi, l', hl', rfl⟩
  · rintro ⟨i, hi, l', hl', rfl⟩
    exact ⟨i, hi, l', hl', rfl⟩

/-- The size of a type that has a layout. -/
theorem size_eq (h : sizeAlign t = some (s, a)) : size t = s := by
  unfold size
  rw [h]
  rfl

/-- The field of a struct that an item is the layout of. -/
theorem getElem?_items {items : List Sequential.Item} {f : LlvmType} {k : ℕ}
    (hitems : sizeAligns fs = some items) (hf : fs[k]? = some f) :
    ∃ i, sizeAlign f = some i ∧ items[k]? = some i := by
  have hall := sizeAligns_eq_some.mp hitems
  clear hitems
  induction hall generalizing k with
  | nil => cases hf
  | cons hfi _ ih =>
    cases k with
    | zero =>
      cases hf
      exact ⟨_, hfi, rfl⟩
    | succ k => exact ih hf

/-- Packing changes no size. -/
theorem getElem?_rowOf (packed : Bool) {items : List Sequential.Item} {i : Sequential.Item} {k : ℕ}
    (hi : items[k]? = some i) : ∃ j, (rowOf packed items)[k]? = some j ∧ j.1 = i.1 := by
  cases packed with
  | false => exact ⟨i, hi, rfl⟩
  | true =>
    refine ⟨(i.1, 1), ?_, rfl⟩
    show (items.map fun i => (i.1, 1))[k]? = _
    rw [List.getElem?_map, hi]
    rfl

/-- A field of a sized struct ends before the struct does. -/
theorem field_within {f : LlvmType} {o k : ℕ} (h : sizeAlign (.struct fs packed) = some (s, a))
    (hf : fs[k]? = some f) (ho : (fieldOffsets fs packed)[k]? = some o) :
    ∃ sf af, sizeAlign f = some (sf, af) ∧ o + sf ≤ s := by
  obtain ⟨items, hitems, -, rfl⟩ := sizeAlign_struct h
  obtain ⟨i, hfi, hi⟩ := getElem?_items hitems hf
  obtain ⟨j, hj, hji⟩ := getElem?_rowOf packed hi
  unfold fieldOffsets at ho
  rw [hitems, Option.getD_some] at ho
  refine ⟨i.1, i.2, hfi, ?_⟩
  have hend := Sequential.offset_add_size_le ho hj
  have hup := Sequential.le_alignUp (n := Sequential.finish 0 (rowOf packed items)) (a := a)
  omega

/-- A field ends before the later ones start. -/
theorem fields_ordered {f : LlvmType} {o o' k k' : ℕ}
    (h : sizeAlign (.struct fs packed) = some (s, a)) (hk : k < k') (hf : fs[k]? = some f)
    (ho : (fieldOffsets fs packed)[k]? = some o) (ho' : (fieldOffsets fs packed)[k']? = some o') :
    o + size f ≤ o' := by
  obtain ⟨items, hitems, -, -⟩ := sizeAlign_struct h
  obtain ⟨i, hfi, hi⟩ := getElem?_items hitems hf
  obtain ⟨j, hj, hji⟩ := getElem?_rowOf packed hi
  unfold fieldOffsets at ho ho'
  rw [hitems, Option.getD_some] at ho ho'
  rw [size_eq hfi, ← hji]
  exact Sequential.offsets_ordered hk ho hj ho'

/-- The pointers of a sized vector of them. -/
theorem vector_ptr_size {b : ℕ} {scalable : Bool}
    (h : sizeAlign (.vector (.ptr b) n scalable) = some (s, a)) : s = 8 * n := by
  simp only [sizeAlign, Option.ite_none_left_eq_some, Option.bind_eq_some_iff] at h
  obtain ⟨-, bits, hbits, total, htotal, hv⟩ := h
  cases hbits
  obtain ⟨-, rfl⟩ := checked_eq_some.mp htotal
  unfold vectorSizeAlign at hv
  split at hv
  · omega
  split at hv
  · omega
  split at hv
  · cases hv
    omega
  split at hv
  · cases hv
    omega
  · cases hv

/-- **Scalars lie in their type.** -/
theorem leaf_within (h : sizeAlign t = some (s, a)) (hl : l ∈ leaves t) :
    ∃ sl al, sizeAlign l.2 = some (sl, al) ∧ l.1 + sl ≤ s := by
  induction t using induct generalizing s a l with
  | int | half | float | double | ptr =>
    obtain rfl := List.mem_singleton.mp hl
    exact ⟨s, a, h, by omega⟩
  | unsized => cases h
  | array e n ih =>
    obtain ⟨se, ae, he, rfl, -⟩ := sizeAlign_array h
    obtain ⟨i, hi, l', hl', rfl⟩ := mem_leaves_array.mp hl
    obtain ⟨sl, al, hsl, hle⟩ := ih he hl'
    refine ⟨sl, al, hsl, ?_⟩
    show i * size e + l'.1 + sl ≤ se * n
    have hmul : (i + 1) * se ≤ n * se := Nat.mul_le_mul_right se hi
    rw [size_eq he, Nat.mul_comm se n]
    rw [Nat.add_mul] at hmul
    omega
  | vector e n scalable ih =>
    by_cases he : ∃ b, e = .ptr b
    · obtain ⟨b, rfl⟩ := he
      obtain ⟨i, hi, rfl⟩ := List.mem_map.mp hl
      rw [List.mem_range] at hi
      refine ⟨8, 8, rfl, ?_⟩
      rw [vector_ptr_size h]
      show i * 8 + 8 ≤ 8 * n
      omega
    · have hone : leaves (.vector e n scalable) = [(0, .vector e n scalable)] := by
        cases e with
        | ptr b => exact absurd ⟨b, rfl⟩ he
        | _ => rfl
      rw [hone] at hl
      obtain rfl := List.mem_singleton.mp hl
      exact ⟨s, a, h, by omega⟩
  | struct fs packed ih =>
    obtain ⟨k, f, o, hf, ho, l', hl', rfl⟩ := mem_leaves_struct.mp hl
    obtain ⟨sf, af, hsf, hle⟩ := field_within h hf ho
    obtain ⟨sl, al, hsl, hle'⟩ := ih f (List.mem_of_getElem? hf) hsf hl'
    refine ⟨sl, al, hsl, ?_⟩
    show o + l'.1 + sl ≤ s
    omega

/-- One scalar ends before the other starts. -/
def Before (l l' : Leaf) : Prop := l.1 + size l.2 ≤ l'.1

/-- Moving two leaves together keeps their order. -/
theorem Before.shift (o : ℕ) {l l' : Leaf} (h : Before l l') : Before (shift o l) (shift o l') := by
  unfold Before LlvmType.shift at *
  dsimp only
  omega

/-- A scalar ends where its type does, or before. -/
theorem leaf_end (h : sizeAlign t = some (s, a)) (hl : l ∈ leaves t) : l.1 + size l.2 ≤ s := by
  obtain ⟨sl, al, hsl, hle⟩ := leaf_within h hl
  rw [size_eq hsl]
  exact hle

/-- The leaves of fields that do not overlap are in order. -/
private theorem leavesAt_ordered (hfs : ∀ f ∈ fs, (leaves f).Pairwise Before)
    (hend : ∀ f ∈ fs, ∀ l ∈ leaves f, l.1 + size l.2 ≤ size f)
    (hos : ∀ (k k' : ℕ) (f : LlvmType) (o o' : ℕ), k < k' → fs[k]? = some f → os[k]? = some o →
      os[k']? = some o' → o + size f ≤ o') : (leavesAt fs os).Pairwise Before := by
  induction fs generalizing os with
  | nil => simp [leavesAt]
  | cons f fs ih =>
    cases os with
    | nil => simp [leavesAt]
    | cons o os =>
      rw [leavesAt, List.pairwise_append]
      refine ⟨?_, ?_, ?_⟩
      · exact List.pairwise_map.mpr ((hfs f (List.mem_cons_self ..)).imp fun h => h.shift o)
      · apply ih (fun g hg => hfs g (List.mem_cons_of_mem _ hg))
          (fun g hg => hend g (List.mem_cons_of_mem _ hg))
        intro k k' g o₁ o₂ hk hg ho₁ ho₂
        exact hos (k + 1) (k' + 1) g o₁ o₂ (by omega) hg ho₁ ho₂
      · intro l₁ hl₁ l₂ hl₂
        obtain ⟨l₁', hl₁', rfl⟩ := List.mem_map.mp hl₁
        obtain ⟨k, g, o', hg, ho', l₂', hl₂', rfl⟩ := mem_leavesAt.mp hl₂
        have h₁ := hend f (List.mem_cons_self ..) l₁' hl₁'
        have h₂ := hos 0 (k + 1) f o o' (by omega) rfl rfl ho'
        show o + l₁'.1 + size l₁'.2 ≤ o' + l₂'.1
        omega

/-- **Scalars do not overlap**: they are listed from the lowest on. -/
theorem leaves_ordered (h : sizeAlign t = some (s, a)) : (leaves t).Pairwise Before := by
  induction t using induct generalizing s a with
  | int | half | float | double | ptr => exact List.pairwise_singleton _ _
  | unsized => cases h
  | array e n ih =>
    -- leaves of one element are in order, and elements stand behind one another
    obtain ⟨se, ae, he, -, -⟩ := sizeAlign_array h
    rw [leaves, List.pairwise_flatMap]
    constructor
    · intro i _
      exact List.pairwise_map.mpr ((ih he).imp fun h => h.shift _)
    · apply List.pairwise_lt_range.imp
      intro i j hij l₁ hl₁ l₂ hl₂
      obtain ⟨l₁', hl₁', rfl⟩ := List.mem_map.mp hl₁
      obtain ⟨l₂', -, rfl⟩ := List.mem_map.mp hl₂
      have hend := leaf_end he hl₁'
      have hmul : (i + 1) * se ≤ j * se := Nat.mul_le_mul_right se hij
      rw [Nat.add_mul] at hmul
      show i * size e + l₁'.1 + size l₁'.2 ≤ j * size e + l₂'.1
      rw [size_eq he]
      omega
  | vector e n scalable ih =>
    -- a vector of pointers has a leaf for each, any other vector is one leaf
    by_cases he : ∃ b, e = .ptr b
    · obtain ⟨b, rfl⟩ := he
      rw [leaves, List.pairwise_map]
      apply List.pairwise_lt_range.imp
      intro i j hij
      show i * 8 + 8 ≤ j * 8
      omega
    · have hone : leaves (.vector e n scalable) = [(0, .vector e n scalable)] := by
        cases e with
        | ptr b => exact absurd ⟨b, rfl⟩ he
        | _ => rfl
      rw [hone]
      exact List.pairwise_singleton _ _
  | struct fs packed ih =>
    have hsized : ∀ f ∈ fs, ∃ sf af, sizeAlign f = some (sf, af) := by
      intro f hf
      obtain ⟨items, hitems, -, -⟩ := sizeAlign_struct h
      obtain ⟨k, hk⟩ := List.getElem?_of_mem hf
      obtain ⟨i, hi, -⟩ := getElem?_items hitems hk
      exact ⟨i.1, i.2, hi⟩
    rw [leaves]
    apply leavesAt_ordered
    -- leaves of one field are in order, and fields do not overlap
    · intro f hf
      obtain ⟨sf, af, hsf⟩ := hsized f hf
      exact ih f hf hsf
    · intro f hf l hl
      obtain ⟨sf, af, hsf⟩ := hsized f hf
      rw [size_eq hsf]
      exact leaf_end hsf hl
    · intro k k' f o o' hk hf ho ho'
      exact fields_ordered h hk hf ho ho'

end Leaves

end LlvmType

end CudaOxide.Lower
