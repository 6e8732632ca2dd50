import CudaOxide.Lower.Storage

namespace CudaOxide.Lower

open Lib

/-!
# Byte-faithful types

Whether a load and a store of a value keep every byte of its allocation, and the type that stores
each bool as a byte (`llvm_type_is_byte_faithful` and `llvm_byte_faithful_twin`).

* `alloc`, `allocLeaves` — the layout that LLVM gives a type: an integer takes its bytes up to the
  next multiple of its alignment.
* `sizeAlign_alloc` — the code computes this layout where no integer has bytes behind its value.
* `Covered` — each byte of the allocation is in one scalar, which is no bool.
* `covered_iff`, `byteFaithfulTwin_spec` — which of the types that are found faithful are covered;
  what the twin keeps.
-/

namespace LlvmType

/-! ### The layout of LLVM -/

/-- The bytes that the value of a scalar takes. -/
def storeSize : LlvmType → ℕ
  | int w => (w + 7) / 8
  | half => 2
  | float => 4
  | double | ptr _ => 8
  | _ => 0

mutual
/-- The size of the allocation and the alignment.  An integer is aligned as the first integer of the
data layout that is not narrower.  A vector whose alignment the data layouts leave open has none
here. -/
def alloc : LlvmType → ℕ × ℕ
  | int w =>
    (Sequential.alignUp ((w + 7) / 8) (intAlign ((w + 7) / 8)), intAlign ((w + 7) / 8))
  | half => (2, 2)
  | float => (4, 4)
  | double => (8, 8)
  | ptr _ => (8, 8)
  | array e n => ((alloc e).1 * n, (alloc e).2)
  | vector e n _ => (((elementBits e).bind fun bits => vectorSizeAlign (bits * n))).getD (0, 1)
  | struct fs packed =>
    (Sequential.alignUp (Sequential.finish 0 (rowOf packed (allocs fs)))
      (Sequential.widest (rowOf packed (allocs fs))), Sequential.widest (rowOf packed (allocs fs)))
  | unsized => (0, 1)

/-- The size and alignment of each field. -/
def allocs : List LlvmType → List Sequential.Item
  | [] => []
  | f :: fs => alloc f :: allocs fs
end

/-- The place of the next field of a struct. -/
def nextField (packed : Bool) (n : ℕ) (f : LlvmType) : ℕ :=
  Sequential.alignUp n (if packed then 1 else (alloc f).2)

mutual
/-- The scalars of a type in the layout of LLVM. -/
def allocLeaves : LlvmType → List Leaf
  | array e n => (List.range n).flatMap fun i => (allocLeaves e).map (shift (i * (alloc e).1))
  | struct fs packed => fieldLeaves fs packed 0
  | t => [(0, t)]
/-- The scalars of fields from an offset on. -/
def fieldLeaves : List LlvmType → Bool → ℕ → List Leaf
  | [], _, _ => []
  | f :: fs, packed, n => (allocLeaves f).map (shift (nextField packed n f)) ++
    fieldLeaves fs packed (nextField packed n f + (alloc f).1)
end

/-- A byte of the value of a scalar. -/
def Holds (l : Leaf) (b : ℕ) : Prop := l.1 ≤ b ∧ b < l.1 + storeSize l.2

instance (l : Leaf) (b : ℕ) : Decidable (Holds l b) :=
  inferInstanceAs (Decidable (l.1 ≤ b ∧ b < l.1 + storeSize l.2))

/-- Each byte of the allocation belongs to one scalar, which is no bool. -/
def Covered (t : LlvmType) : Prop :=
  ∀ b < (alloc t).1, ∃ l, (allocLeaves t).filter (Holds · b) = [l] ∧ l.2 ≠ int 1

/-! ### The twin -/

mutual
/-- `llvm_byte_faithful_twin` -/
def byteFaithfulTwin : LlvmType → Option LlvmType
  | int w => if containsI1 (int w) then some (int 8) else some (int w)
  | array e n =>
    if containsI1 (array e n) then (byteFaithfulTwin e).map fun twin => array twin n
    else some (array e n)
  | struct fs packed =>
    if containsI1 (struct fs packed) then (byteFaithfulTwins fs).map fun twins =>
      struct twins packed
    else some (struct fs packed)
  | vector e n scalable =>
    if containsI1 (vector e n scalable) then none else some (vector e n scalable)
  | t => some t

/-- The twins of all fields, if each has one. -/
def byteFaithfulTwins : List LlvmType → Option (List LlvmType)
  | [] => some []
  | f :: fs => (byteFaithfulTwin f).bind fun twin =>
    (byteFaithfulTwins fs).map fun twins => twin :: twins
end

/-- A bool made a byte. -/
def boolToByte (l : Leaf) : Leaf := (l.1, if l.2 = int 1 then int 8 else l.2)

/-- A type without bools that has the layout of another one, with a byte for each bool. -/
structure IsTwin (twin t : LlvmType) : Prop where
  no_i1 : containsI1 twin = false
  alloc_eq : alloc twin = alloc t
  leaves_eq : allocLeaves twin = (allocLeaves t).map boolToByte

/-! ### Facts about the layout -/

section Layout

variable {t : LlvmType} {fs : List LlvmType} {l l' : Leaf} {packed : Bool} {n s a : ℕ}

/-- The field rows are computed field by field. -/
theorem allocs_eq_map (fs : List LlvmType) : allocs fs = fs.map alloc := by
  induction fs with
  | nil => rfl
  | cons f fs ih =>
    rw [allocs, ih]
    rfl

/-- A row starts with its first field; a packed one has alignment 1. -/
theorem rowOf_allocs_cons (packed : Bool) (f : LlvmType) (fs : List LlvmType) :
    rowOf packed (allocs (f :: fs)) =
      ((alloc f).1, if packed then 1 else (alloc f).2) :: rowOf packed (allocs fs) := by
  cases packed <;> rfl

/-- Every entry of a row has the size of its field. -/
theorem getElem?_rowOf_allocs {k : ℕ} {i : Sequential.Item}
    (hi : (rowOf packed (allocs fs))[k]? = some i) : ∃ f, fs[k]? = some f ∧ i.1 = (alloc f).1 := by
  induction fs generalizing k with
  | nil => cases packed <;> cases hi
  | cons f fs ih =>
    rw [rowOf_allocs_cons] at hi
    cases k with
    | zero =>
      cases hi
      exact ⟨f, rfl, rfl⟩
    | succ k => exact ih hi

/-- A leaf of an array is a leaf of its element, moved by whole elements. -/
theorem mem_allocLeaves_array {e : LlvmType} : l ∈ allocLeaves (array e n) ↔
    ∃ i < n, ∃ l' ∈ allocLeaves e, l = shift (i * (alloc e).1) l' := by
  simp only [allocLeaves, List.mem_flatMap, List.mem_range, List.mem_map]
  constructor
  · rintro ⟨i, hi, l', hl', rfl⟩
    exact ⟨i, hi, l', hl', rfl⟩
  · rintro ⟨i, hi, l', hl', rfl⟩
    exact ⟨i, hi, l', hl', rfl⟩

/-- A leaf of a struct is a leaf of a field, moved by the offset of the field. -/
theorem mem_fieldLeaves : l ∈ fieldLeaves fs packed n ↔
    ∃ (k : ℕ) (f : LlvmType) (o : ℕ), fs[k]? = some f ∧
      (Sequential.offsets n (rowOf packed (allocs fs)))[k]? = some o ∧
      ∃ l' ∈ allocLeaves f, l = shift o l' := by
  induction fs generalizing n with
  | nil => simp [fieldLeaves]
  | cons f fs ih =>
    rw [fieldLeaves, List.mem_append, List.mem_map, ih, rowOf_allocs_cons]
    simp only [Sequential.offsets]
    constructor
    · rintro (⟨l', hl', rfl⟩ | ⟨k, g, o, hg, ho, hl⟩)
      · exact ⟨0, f, nextField packed n f, rfl, rfl, l', hl', rfl⟩
      · exact ⟨k + 1, g, o, hg, ho, hl⟩
    · rintro ⟨k, g, o, hg, ho, l', hl', rfl⟩
      cases k with
      | zero =>
        cases hg
        cases ho
        exact .inl ⟨l', hl', rfl⟩
      | succ k => exact .inr ⟨k, g, o, hg, ho, l', hl', rfl⟩

/-- One scalar's bytes, those behind its value included, end before the other's start. -/
def AllocBefore (l l' : Leaf) : Prop := l.1 + (alloc l.2).1 ≤ l'.1

/-- Moving two leaves together keeps them apart. -/
theorem AllocBefore.shift (o : ℕ) (h : AllocBefore l l') :
    AllocBefore (LlvmType.shift o l) (LlvmType.shift o l') := by
  unfold AllocBefore LlvmType.shift at *
  dsimp only
  omega

/-- The bytes of a scalar are bytes of its type. -/
theorem allocLeaf_end (hl : l ∈ allocLeaves t) : l.1 + (alloc l.2).1 ≤ (alloc t).1 := by
  induction t using induct generalizing l with
  | int | half | float | double | ptr | vector | unsized =>
    obtain rfl := List.mem_singleton.mp hl
    exact (Nat.zero_add _).le
  | array e n ih =>
    obtain ⟨i, hi, l', hl', rfl⟩ := mem_allocLeaves_array.mp hl
    have hle := ih hl'
    have hmul : (i + 1) * (alloc e).1 ≤ n * (alloc e).1 := Nat.mul_le_mul_right _ hi
    show i * (alloc e).1 + l'.1 + (alloc l'.2).1 ≤ (alloc e).1 * n
    rw [Nat.mul_comm (alloc e).1 n]
    rw [Nat.add_mul] at hmul
    omega
  | struct fs packed ih =>
    rw [allocLeaves] at hl
    obtain ⟨k, f, o, hf, ho, l', hl', rfl⟩ := mem_fieldLeaves.mp hl
    have hlen : k < (rowOf packed (allocs fs)).length := by
      have hlt := (List.getElem?_eq_some_iff.mp ho).1
      rwa [Sequential.length_offsets] at hlt
    have hi := List.getElem?_eq_getElem hlen
    obtain ⟨g, hg, hsize⟩ := getElem?_rowOf_allocs hi
    obtain rfl := Option.some.inj (hf.symm.trans hg)
    have hend := Sequential.offset_add_size_le ho hi
    have hle := ih f (List.mem_of_getElem? hf) hl'
    have hup : Sequential.finish 0 (rowOf packed (allocs fs)) ≤ (alloc (struct fs packed)).1 :=
      Sequential.le_alignUp
    show o + l'.1 + (alloc l'.2).1 ≤ _
    omega

/-- The leaves of a struct are in order when those of its fields are. -/
private theorem fieldLeaves_ordered (hfs : ∀ f ∈ fs, (allocLeaves f).Pairwise AllocBefore) :
    (fieldLeaves fs packed n).Pairwise AllocBefore := by
  induction fs generalizing n with
  | nil => exact .nil
  | cons f fs ih =>
    rw [fieldLeaves, List.pairwise_append]
    refine ⟨?_, ih fun g hg => hfs g (List.mem_cons_of_mem _ hg), ?_⟩
    · exact List.pairwise_map.mpr ((hfs f (List.mem_cons_self ..)).imp fun h => h.shift _)
    · intro l₁ hl₁ l₂ hl₂
      obtain ⟨l₁', hl₁', rfl⟩ := List.mem_map.mp hl₁
      obtain ⟨k, g, o, -, ho, l₂', -, rfl⟩ := mem_fieldLeaves.mp hl₂
      have hend := allocLeaf_end hl₁'
      have hle := Sequential.le_offset ho
      show nextField packed n f + l₁'.1 + (alloc l₁'.2).1 ≤ o + l₂'.1
      omega

/-- **Scalars do not overlap** in the layout of LLVM. -/
theorem allocLeaves_ordered (t : LlvmType) : (allocLeaves t).Pairwise AllocBefore := by
  induction t using induct with
  | int | half | float | double | ptr | vector | unsized => exact List.pairwise_singleton _ _
  | array e n ih =>
    rw [allocLeaves, List.pairwise_flatMap]
    constructor
    · intro i _
      exact List.pairwise_map.mpr (ih.imp fun h => h.shift _)
    · apply List.pairwise_lt_range.imp
      intro i j hij l₁ hl₁ l₂ hl₂
      obtain ⟨l₁', hl₁', rfl⟩ := List.mem_map.mp hl₁
      obtain ⟨l₂', -, rfl⟩ := List.mem_map.mp hl₂
      have hend := allocLeaf_end hl₁'
      have hmul : (i + 1) * (alloc e).1 ≤ j * (alloc e).1 := Nat.mul_le_mul_right _ hij
      rw [Nat.add_mul] at hmul
      show i * (alloc e).1 + l₁'.1 + (alloc l₁'.2).1 ≤ j * (alloc e).1 + l₂'.1
      omega
  | struct fs packed ih => exact fieldLeaves_ordered ih

/-- Two scalars are the same or one is before the other. -/
theorem allocLeaves_cases (hl : l ∈ allocLeaves t) (hl' : l' ∈ allocLeaves t) :
    l = l' ∨ AllocBefore l l' ∨ AllocBefore l' l := by
  have hpair : (allocLeaves t).Pairwise fun l l' => l = l' ∨ AllocBefore l l' ∨ AllocBefore l' l :=
    (allocLeaves_ordered t).imp fun h => .inr (.inl h)
  have hflip : (allocLeaves t).Pairwise (flip fun l l' => l = l' ∨ AllocBefore l l' ∨
    AllocBefore l' l) :=
    (allocLeaves_ordered t).imp fun h => .inr (.inr h)
  exact List.Pairwise.forall_of_forall_of_flip (fun x _ => .inl rfl) hpair hflip hl hl'

end Layout

/-! ### What the code computes of it -/

/-- No integer has bytes behind its value: its bytes are a multiple of its alignment. -/
def WholeIntegers (t : LlvmType) : Prop :=
  ∀ l ∈ allocLeaves t, ∀ w, l.2 = int w → intAlign ((w + 7) / 8) ∣ (w + 7) / 8

section Computed

variable {t e f : LlvmType} {fs : List LlvmType} {items : List Sequential.Item}
  {packed : Bool} {n s a : ℕ}

/-- The element of an array of whole integers is one of whole integers. -/
theorem WholeIntegers.elem (h : WholeIntegers (array e n)) (hn : 0 < n) : WholeIntegers e := by
  intro l hl w hw
  refine h (shift (0 * (alloc e).1) l) ?_ w hw
  exact mem_allocLeaves_array.mpr ⟨0, hn, l, hl, rfl⟩

/-- The fields of a struct of whole integers are ones of whole integers. -/
theorem WholeIntegers.field (h : WholeIntegers (struct fs packed)) (hf : f ∈ fs) :
    WholeIntegers f := by
  intro l hl w hw
  obtain ⟨k, hk⟩ := List.getElem?_of_mem hf
  have hlen : k < (Sequential.offsets 0 (rowOf packed (allocs fs))).length := by
    have hlt := (List.getElem?_eq_some_iff.mp hk).1
    rw [Sequential.length_offsets, rowOf, allocs_eq_map]
    split <;> simpa using hlt
  have hmem : shift (Sequential.offsets 0 (rowOf packed (allocs fs)))[k] l ∈
      allocLeaves (struct fs packed) := by
    rw [allocLeaves, mem_fieldLeaves]
    exact ⟨k, f, _, hk, List.getElem?_eq_getElem hlen, l, hl, rfl⟩
  exact h _ hmem w hw

/-- A vector is allocated as it is sized. -/
private theorem alloc_vector {scalable : Bool} (h : sizeAlign (vector e n scalable) = some (s, a)) :
    alloc (vector e n scalable) = (s, a) := by
  simp only [sizeAlign, Option.ite_none_left_eq_some, Option.bind_eq_some_iff] at h
  obtain ⟨-, bits, hbits, total, htotal, hv⟩ := h
  obtain ⟨-, rfl⟩ := checked_eq_some.mp htotal
  rw [alloc, hbits, Option.bind_some, hv, Option.getD_some]

/-- The alignments of the allocated row are those of the sized row. -/
private theorem map_snd_rowOf (hitems : List.Forall₂ (fun f i => sizeAlign f = some i) fs items)
    (h : ∀ f ∈ fs, ∀ s a, sizeAlign f = some (s, a) → (alloc f).2 = a) :
    (rowOf packed (allocs fs)).map Prod.snd = (rowOf packed items).map Prod.snd := by
  induction hitems with
  | nil => rfl
  | @cons f i fs items hf _ ih =>
    have hrest := ih fun g hg => h g (List.mem_cons_of_mem _ hg)
    have hone := h f (List.mem_cons_self ..) i.1 i.2 hf
    rw [rowOf_allocs_cons, List.map_cons, hrest, hone]
    cases packed <;> rfl

/-- The code knows the alignment of each type that it gives a size. -/
theorem sizeAlign_align (h : sizeAlign t = some (s, a)) : (alloc t).2 = a := by
  induction t using induct generalizing s a with
  | int | half | float | double | ptr =>
    cases h
    rfl
  | array e n ih =>
    obtain ⟨se, ae, he, -, rfl⟩ := sizeAlign_array h
    have hpos := (align_bounds he).1
    show (alloc e).2 = _
    rw [ih he, max_eq_left hpos]
  | vector e n scalable => rw [alloc_vector h]
  | struct fs packed ih =>
    obtain ⟨items, hitems, rfl, -⟩ := sizeAlign_struct h
    exact Sequential.widest_congr (map_snd_rowOf (sizeAligns_eq_some.mp hitems)
      fun f hf s a => ih f hf)
  | unsized => cases h

/-- Fields that are allocated as they are sized have the same rows. -/
private theorem allocs_eq (hitems : List.Forall₂ (fun f i => sizeAlign f = some i) fs items)
    (h : ∀ f ∈ fs, ∀ s a, sizeAlign f = some (s, a) → alloc f = (s, a)) : allocs fs = items := by
  induction hitems with
  | nil => rfl
  | @cons f i fs items hf _ ih =>
    rw [allocs, ih fun g hg => h g (List.mem_cons_of_mem _ hg),
      h f (List.mem_cons_self ..) i.1 i.2 hf]

/-- **The code computes LLVM's layout** of a type whose integers have no bytes behind their
values. -/
theorem sizeAlign_alloc (h : sizeAlign t = some (s, a)) (hwhole : WholeIntegers t) :
    alloc t = (s, a) := by
  induction t using induct generalizing s a with
  | int w =>
    cases h
    have hdvd := hwhole _ (List.mem_singleton_self _) w rfl
    rw [alloc, Sequential.alignUp_of_dvd hdvd (one_le_intAlign _).1]
  | half | float | double | ptr =>
    cases h
    rfl
  | array e n ih =>
    have halign := sizeAlign_align h
    obtain ⟨se, ae, he, rfl, -⟩ := sizeAlign_array h
    refine Prod.ext ?_ halign
    show (alloc e).1 * n = se * n
    obtain rfl | hn := Nat.eq_zero_or_pos n
    · rfl
    · rw [ih he (hwhole.elem hn)]
  | vector e n scalable => exact alloc_vector h
  | struct fs packed ih =>
    obtain ⟨items, hitems, rfl, rfl⟩ := sizeAlign_struct h
    rw [alloc, allocs_eq (sizeAligns_eq_some.mp hitems) fun f hf s a hfa =>
      ih f hf hfa (hwhole.field hf)]
  | unsized => cases h

end Computed

/-! ### Which bytes are covered -/

section Faithful

variable {t : LlvmType} {fs : List LlvmType} {l l' : Leaf} {packed : Bool} {b n w : ℕ}

/-- A moved leaf holds a byte that is moved along. -/
theorem holds_shift {o : ℕ} (hob : o ≤ b) : Holds (shift o l) b ↔ Holds l (b - o) := by
  unfold Holds shift
  dsimp only
  omega

/-- Every field is byte-faithful. -/
theorem allByteFaithful_iff : allByteFaithful fs = true ↔ ∀ f ∈ fs, isByteFaithful f = true := by
  induction fs with
  | nil => simp [allByteFaithful]
  | cons f fs ih => simp [allByteFaithful, ih]

/-- The fields of a byte-faithful struct are byte-faithful. -/
theorem isByteFaithful_struct (h : isByteFaithful (struct fs packed) = true) :
    ∀ f ∈ fs, isByteFaithful f = true := by
  rw [isByteFaithful, Bool.and_eq_true, allByteFaithful_iff] at h
  exact h.1

/-- The allocation of a scalar has the bytes of its value at least. -/
theorem storeSize_le_alloc (t : LlvmType) : storeSize t ≤ (alloc t).1 := by
  cases t with
  | int => exact Sequential.le_alignUp
  | half | float | double | ptr => exact le_refl _
  | array | vector | struct | unsized => exact Nat.zero_le _

/-- Without gaps a row ends at the sum of its sizes. -/
private theorem finish_of_noGaps {items : List Sequential.Item} (h : noGaps n items = true) :
    Sequential.finish n items = n + Sequential.total items := by
  induction items generalizing n with
  | nil => rfl
  | cons i items ih =>
    rw [noGaps, Bool.and_eq_true, beq_iff_eq] at h
    rw [Sequential.finish, h.1, ih h.2, Sequential.total_cons, Nat.add_assoc]

/-- A faithful struct has no gap between its fields and none behind them. -/
theorem tight_of_isByteFaithful (h : isByteFaithful (struct fs packed) = true)
    (hwhole : WholeIntegers (struct fs packed)) :
    Sequential.finish 0 (rowOf packed (allocs fs)) = 0 + Sequential.total
      (rowOf packed (allocs fs)) ∧
      (alloc (struct fs packed)).1 = Sequential.total (rowOf packed (allocs fs)) := by
  rw [isByteFaithful, Bool.and_eq_true, Bool.or_eq_true] at h
  cases packed with
  | true =>
    have hwidest : Sequential.widest (rowOf true (allocs fs)) = 1 := by
      refine le_antisymm (Sequential.widest_le (le_refl 1) ?_) Sequential.one_le_widest
      intro i hi
      obtain ⟨j, -, rfl⟩ := List.mem_map.mp hi
      exact le_refl 1
    have htotal : Sequential.total (rowOf true (allocs fs)) = Sequential.total (allocs fs) := by
      simp [Sequential.total, rowOf, Function.comp_def]
    have hfinish : Sequential.finish 0 (rowOf true (allocs fs)) =
        0 + Sequential.total (rowOf true (allocs fs)) := by
      rw [htotal]
      exact Sequential.finish_packed
    refine ⟨hfinish, ?_⟩
    rw [alloc, hwidest, Sequential.alignUp_one, hfinish, Nat.zero_add]
  | false =>
    obtain h | h := h.2
    · cases h
    obtain hnone | ⟨items, hitems⟩ := Option.eq_none_or_eq_some (sizeAligns fs)
    · rw [hnone] at h
      cases h
    · rw [hitems] at h
      simp only [Bool.and_eq_true, beq_iff_eq] at h
      have hallocs : allocs fs = items :=
        allocs_eq (sizeAligns_eq_some.mp hitems) fun f hf s a hfa =>
          sizeAlign_alloc hfa (hwhole.field hf)
      have hfinish := finish_of_noGaps h.1
      show Sequential.finish 0 (allocs fs) = 0 + Sequential.total (allocs fs) ∧
        Sequential.alignUp (Sequential.finish 0 (allocs fs)) (Sequential.widest (allocs fs)) =
          Sequential.total (allocs fs)
      rw [hallocs]
      refine ⟨hfinish, ?_⟩
      rw [hfinish, Nat.zero_add]
      exact h.2

/-- Each byte of a faithful type without bytes behind its integers is in a scalar. -/
theorem exists_holds (h : isByteFaithful t = true) (hwhole : WholeIntegers t)
    (hb : b < (alloc t).1) :
    ∃ l ∈ allocLeaves t, Holds l b ∧ l.2 ≠ int 1 := by
  induction t using induct generalizing b with
  | int w =>
    refine ⟨(0, int w), List.mem_singleton_self _, ⟨Nat.zero_le _, ?_⟩, ?_⟩
    · have hdvd := hwhole _ (List.mem_singleton_self _) w rfl
      rw [alloc, Sequential.alignUp_of_dvd hdvd (one_le_intAlign _).1] at hb
      show b < 0 + (w + 7) / 8
      omega
    · intro hw
      cases hw
      cases h
  | half | float | double | ptr =>
    refine ⟨_, List.mem_singleton_self _, ⟨Nat.zero_le _, ?_⟩, nofun⟩
    rw [Nat.zero_add]
    exact hb
  | vector | unsized => cases h
  | array e n ih =>
    have hb : b < (alloc e).1 * n := hb
    have hn : 0 < n := Nat.pos_of_mul_pos_left (Nat.zero_lt_of_lt hb)
    have hsize : 0 < (alloc e).1 := Nat.pos_of_mul_pos_right (Nat.zero_lt_of_lt hb)
    -- the element that the byte is in
    obtain ⟨l, hl, hholds, hne⟩ := ih h (hwhole.elem hn) (Nat.mod_lt b hsize)
    refine ⟨shift (b / (alloc e).1 * (alloc e).1) l, ?_, ?_, hne⟩
    · rw [mem_allocLeaves_array]
      exact ⟨b / (alloc e).1, Nat.div_lt_of_lt_mul hb, l, hl, rfl⟩
    · rw [holds_shift (Nat.div_mul_le_self b _)]
      rwa [Nat.mod_eq_sub_div_mul] at hholds
  | struct fs packed ih =>
    obtain ⟨hfinish, hsize⟩ := tight_of_isByteFaithful h hwhole
    rw [hsize] at hb
    -- the field that the byte is in
    obtain ⟨k, i, o, hi, ho, hle, hlt⟩ :=
      Sequential.exists_item_of_tight hfinish (Nat.zero_le b) (by omega)
    obtain ⟨f, hf, hif⟩ := getElem?_rowOf_allocs hi
    have hmem := List.mem_of_getElem? hf
    obtain ⟨l, hl, hholds, hne⟩ :=
      ih f hmem (isByteFaithful_struct h f hmem) (hwhole.field hmem)
        (show b - o < (alloc f).1 by omega)
    refine ⟨shift o l, ?_, (holds_shift hle).mpr hholds, hne⟩
    rw [allocLeaves, mem_fieldLeaves]
    exact ⟨k, f, o, hf, ho, l, hl, rfl⟩

/-- A list that satisfies the predicate at one place only filters to that place. -/
private theorem filter_eq_singleton {α : Type} {p : α → Bool} {xs : List α} {x : α}
    (hpair : xs.Pairwise fun y z => ¬(p y = true ∧ p z = true)) (hx : x ∈ xs) (hp : p x = true) :
    xs.filter p = [x] := by
  induction xs with
  | nil => cases hx
  | cons y xs ih =>
    obtain ⟨hy, hpair⟩ := List.pairwise_cons.mp hpair
    obtain rfl | hx := List.mem_cons.mp hx
    · rw [List.filter_cons_of_pos hp, List.filter_eq_nil_iff.mpr fun z hz hpz => hy z hz ⟨hp, hpz⟩]
    · rw [List.filter_cons_of_neg fun hpy => hy x hx ⟨hpy, hp⟩, ih hpair hx]

/-- **Which of the types that are found faithful are covered**: those whose integers have no bytes
behind their values. -/
theorem covered_iff (h : isByteFaithful t = true) : Covered t ↔ WholeIntegers t := by
  constructor
  · intro hcovered l hl w hw
    by_contra hndvd
    have hpos := (one_le_intAlign ((w + 7) / 8)).1
    have hbehind : storeSize l.2 < (alloc l.2).1 := by
      have hne : Sequential.alignUp ((w + 7) / 8) (intAlign ((w + 7) / 8)) ≠ (w + 7) / 8 :=
        fun heq => hndvd ((Sequential.alignUp_eq_self_iff hpos).mp heq)
      have hle : (w + 7) / 8 ≤ Sequential.alignUp ((w + 7) / 8) (intAlign ((w + 7) / 8)) :=
        Sequential.le_alignUp
      rw [hw]
      show (w + 7) / 8 < Sequential.alignUp ((w + 7) / 8) (intAlign ((w + 7) / 8))
      omega
    have hend := allocLeaf_end hl
    -- the byte behind the value is in no scalar
    obtain ⟨l', hl', -⟩ := hcovered (l.1 + storeSize l.2) (by omega)
    have hmem : l' ∈ (allocLeaves t).filter (Holds · (l.1 + storeSize l.2)) := by
      rw [hl']
      exact List.mem_singleton_self _
    obtain ⟨hl', hholds⟩ := List.mem_filter.mp hmem
    obtain ⟨hlow, hhigh⟩ := of_decide_eq_true hholds
    have hstore := storeSize_le_alloc l'.2
    obtain rfl | hbefore | hbefore := allocLeaves_cases hl hl'
    · omega
    · have hle : l.1 + (alloc l.2).1 ≤ l'.1 := hbefore
      omega
    · have hle : l'.1 + (alloc l'.2).1 ≤ l.1 := hbefore
      omega
  · intro hwhole b hb
    obtain ⟨l, hl, hholds, hne⟩ := exists_holds h hwhole hb
    refine ⟨l, filter_eq_singleton ?_ hl (decide_eq_true hholds), hne⟩
    refine (allocLeaves_ordered t).imp_of_mem ?_
    rintro l₁ l₂ hl₁ - hbefore ⟨h₁, h₂⟩
    have hle : l₁.1 + (alloc l₁.2).1 ≤ l₂.1 := hbefore
    have hstore := storeSize_le_alloc l₁.2
    have h₁ := (of_decide_eq_true h₁).2
    have h₂ := (of_decide_eq_true h₂).1
    omega

end Faithful

/-! ### What the twin keeps -/

section Twin

variable {t u : LlvmType} {fs us : List LlvmType} {l : Leaf} {packed : Bool} {n : ℕ}

/-- No field contains an `i1`. -/
private theorem anyContainsI1_eq_false : anyContainsI1 fs = false ↔
    ∀ f ∈ fs, containsI1 f = false := by
  induction fs with
  | nil => simp [anyContainsI1]
  | cons f fs ih => simp [anyContainsI1, ih]

/-- A type that holds no bool has no scalar that is one. -/
theorem ne_i1_of_containsI1 (h : containsI1 t = false) (hl : l ∈ allocLeaves t) : l.2 ≠ int 1 := by
  induction t using induct generalizing l with
  | int w =>
    obtain rfl := List.mem_singleton.mp hl
    intro hw
    cases hw
    cases h
  | half | float | double | ptr | vector | unsized =>
    obtain rfl := List.mem_singleton.mp hl
    nofun
  | array e n ih =>
    obtain ⟨i, -, l', hl', rfl⟩ := mem_allocLeaves_array.mp hl
    have hne := ih h hl'
    exact hne
  | struct fs packed ih =>
    rw [allocLeaves] at hl
    obtain ⟨k, f, o, hf, -, l', hl', rfl⟩ := mem_fieldLeaves.mp hl
    have hmem := List.mem_of_getElem? hf
    have hne := ih f hmem (anyContainsI1_eq_false.mp h f hmem) hl'
    exact hne

/-- A type without `i1` is its own twin. -/
theorem isTwin_self (h : containsI1 t = false) : IsTwin t t where
  no_i1 := h
  alloc_eq := rfl
  leaves_eq := by
    have hkeep : ∀ l ∈ allocLeaves t, boolToByte l = l :=
      fun l hl => Prod.ext rfl (if_neg (ne_i1_of_containsI1 h hl))
    rw [List.map_congr_left hkeep, List.map_id']

/-- Arrays of twins are twins. -/
theorem IsTwin.array (h : IsTwin u t) (n : ℕ) : IsTwin (.array u n) (.array t n) where
  no_i1 := h.no_i1
  alloc_eq := by rw [alloc, alloc, h.alloc_eq]
  leaves_eq := by
    simp only [allocLeaves, h.alloc_eq, h.leaves_eq, List.map_flatMap, List.map_map]
    rfl

/-- Twins contain no `i1`. -/
private theorem no_i1_of_twins (h : List.Forall₂ IsTwin us fs) : anyContainsI1 us = false := by
  induction h with
  | nil => rfl
  | cons h _ ih => rw [anyContainsI1, h.no_i1, ih, Bool.false_or]

/-- Twins are allocated alike. -/
private theorem allocs_of_twins (h : List.Forall₂ IsTwin us fs) : allocs us = allocs fs := by
  induction h with
  | nil => rfl
  | cons h _ ih => rw [allocs, allocs, h.alloc_eq, ih]

/-- The leaves of twin structs differ by bool and byte only. -/
private theorem fieldLeaves_of_twins (h : List.Forall₂ IsTwin us fs) :
    fieldLeaves us packed n = (fieldLeaves fs packed n).map boolToByte := by
  induction h generalizing n with
  | nil => rfl
  | cons h _ ih =>
    simp only [fieldLeaves, nextField, h.alloc_eq, h.leaves_eq, ih, List.map_append, List.map_map]
    rfl

/-- Structs of twins are twins. -/
theorem IsTwin.struct (h : List.Forall₂ IsTwin us fs) (packed : Bool) :
    IsTwin (.struct us packed) (.struct fs packed) where
  no_i1 := no_i1_of_twins h
  alloc_eq := by rw [alloc, alloc, allocs_of_twins h]
  leaves_eq := fieldLeaves_of_twins h

mutual

/-- What `byteFaithfulTwin` returns is a twin. -/
private theorem isTwin_of_twin : ∀ t u : LlvmType, byteFaithfulTwin t = some u → IsTwin u t
  | int w, u, h => by
    rw [byteFaithfulTwin] at h
    split at h
    · rename_i hbool
      cases h
      rw [containsI1, beq_iff_eq] at hbool
      subst hbool
      exact ⟨rfl, rfl, rfl⟩
    · rename_i hbool
      cases h
      exact isTwin_self (Bool.eq_false_of_not_eq_true hbool)
  | half, u, h | float, u, h | double, u, h | ptr _, u, h | unsized, u, h => by
    cases h
    exact isTwin_self rfl
  | vector e n scalable, u, h => by
    rw [byteFaithfulTwin] at h
    split at h
    · cases h
    · rename_i hbool
      cases h
      exact isTwin_self (Bool.eq_false_of_not_eq_true hbool)
  | array e n, u, h => by
    rw [byteFaithfulTwin] at h
    split at h
    · obtain ⟨twin, htwin, rfl⟩ := Option.map_eq_some_iff.mp h
      exact (isTwin_of_twin e twin htwin).array n
    · rename_i hbool
      cases h
      exact isTwin_self (Bool.eq_false_of_not_eq_true hbool)
  | struct fs packed, u, h => by
    rw [byteFaithfulTwin] at h
    split at h
    · obtain ⟨twins, htwins, rfl⟩ := Option.map_eq_some_iff.mp h
      exact .struct (forall₂_isTwin fs twins htwins) packed
    · rename_i hbool
      cases h
      exact isTwin_self (Bool.eq_false_of_not_eq_true hbool)

/-- What `byteFaithfulTwins` returns are twins, field by field. -/
private theorem forall₂_isTwin : ∀ fs us : List LlvmType, byteFaithfulTwins fs = some us →
    List.Forall₂ IsTwin us fs
  | [], us, h => by
    cases h
    exact .nil
  | f :: fs, us, h => by
    obtain ⟨twin, htwin, h⟩ := Option.bind_eq_some_iff.mp h
    obtain ⟨twins, htwins, rfl⟩ := Option.map_eq_some_iff.mp h
    exact .cons (isTwin_of_twin f twin htwin) (forall₂_isTwin fs twins htwins)
end

/-- **The twin** has the layout of the type, with a byte for each bool. -/
theorem isTwin_byteFaithfulTwin (h : byteFaithfulTwin t = some u) :
    IsTwin u t := isTwin_of_twin t u h

end Twin

/-- **Faithfulness and the twin.**  A type that is found faithful is covered if and only if its
integers have no bytes behind their values; the twin keeps the layout. -/
theorem byteFaithful_spec (t : LlvmType) :
    (isByteFaithful t = true → (Covered t ↔ WholeIntegers t)) ∧
      ∀ twin, byteFaithfulTwin t = some twin → IsTwin twin t :=
  ⟨covered_iff, fun _ => isTwin_byteFaithfulTwin⟩

/-- An integer of three bytes is found faithful, and the fourth byte of its allocation is not
covered. -/
theorem byteFaithful_int24 : isByteFaithful (int 24) = true ∧ ¬Covered (int 24) := by
  refine ⟨rfl, ?_⟩
  rw [covered_iff rfl]
  intro h
  have hdvd := h (0, int 24) (List.mem_singleton_self _) 24 rfl
  revert hdvd
  decide

end LlvmType

end CudaOxide.Lower
