import CudaOxide.Lower.LlvmType

namespace CudaOxide.Lower

open Lib

/-!
# Physical storage of payloads

What a payload is stored as: shared pointers become generic ones and bools become bytes
(`target_stable_storage.rs`, `enum_payload_storage.rs`), and which bytes of it are pointers
(`pointer_storage.rs`).

* `rewriteStorage`, `enumPayloadStorageType` — the storage type of a value type.
* `storage_sizeAlign`, `storage_leaves` — it has the same layout, with each scalar replaced.
* `collectPointerStorage`, `analyzePointerOverlap` — the pointers of a type, and how a type may
  overlap the storage that is already there.
* `collectPointerStorage_eq` — the pointers are exactly the pointer scalars.
-/

/-! ### Predicates -/

namespace LlvmType

mutual
/-- `llvm_type_contains_i1` -/
def containsI1 : LlvmType → Bool
  | int w => w == 1
  | array e _ | vector e _ _ => containsI1 e
  | struct fs _ => anyContainsI1 fs
  | _ => false

/-- Some field contains an `i1`. -/
def anyContainsI1 : List LlvmType → Bool
  | [] => false
  | f :: fs => containsI1 f || anyContainsI1 fs
end

mutual
/-- `llvm_type_contains_pointer` -/
def containsPointer : LlvmType → Bool
  | ptr _ => true
  | array e _ | vector e _ _ => containsPointer e
  | struct fs _ => anyContainsPointer fs
  | _ => false

/-- Some field contains a pointer. -/
def anyContainsPointer : List LlvmType → Bool
  | [] => false
  | f :: fs => containsPointer f || anyContainsPointer fs
end

mutual
/-- `is_zero_sized_type` -/
def isZeroSized : LlvmType → Bool
  | array e n => n == 0 || isZeroSized e
  | struct fs _ => allZeroSized fs
  | _ => false

/-- Every field is zero-sized. -/
def allZeroSized : List LlvmType → Bool
  | [] => true
  | f :: fs => isZeroSized f && allZeroSized fs
end

mutual
/-- A type of size zero has no scalars. -/
theorem leaves_of_isZeroSized : ∀ t : LlvmType, isZeroSized t = true → leaves t = []
  | int _, h | half, h | float, h | double, h | ptr _, h | vector .., h | unsized, h => by cases h
  | array e n, h => by
    rw [isZeroSized, Bool.or_eq_true, beq_iff_eq] at h
    rw [leaves, List.flatMap_eq_nil_iff]
    intro i hi
    obtain rfl | h := h
    · cases hi
    · rw [leaves_of_isZeroSized e h]
      rfl
  | struct fs packed, h => leavesAt_of_allZeroSized fs h _

/-- Zero-sized fields have no leaves. -/
private theorem leavesAt_of_allZeroSized : ∀ fs : List LlvmType, allZeroSized fs = true → ∀ os,
    leavesAt fs os = []
  | [], _, _ => rfl
  | f :: fs, h, os => by
    rw [allZeroSized, Bool.and_eq_true] at h
    cases os with
    | nil => rfl
    | cons o os =>
      rw [leavesAt, leaves_of_isZeroSized f h.1, leavesAt_of_allZeroSized fs h.2]
      rfl
end

/-- No gap before any of the items, from the end of what stands before them. -/
def noGaps : ℕ → List Sequential.Item → Bool
  | _, [] => true
  | n, i :: items => Sequential.alignUp n i.2 == n && noGaps (n + i.1) items

mutual
/-- `llvm_type_is_byte_faithful` -/
def isByteFaithful : LlvmType → Bool
  | int w => w % 8 == 0
  | half | float | double | ptr _ => true
  | array e _ => isByteFaithful e
  | struct fs packed => allByteFaithful fs && (packed ||
    match sizeAligns fs with
    | none => false
    | some items => noGaps 0 items &&
      Sequential.alignUp (Sequential.total items) (Sequential.widest items) ==
        Sequential.total items)
  | _ => false

/-- Every field is byte-faithful. -/
def allByteFaithful : List LlvmType → Bool
  | [] => true
  | f :: fs => isByteFaithful f && allByteFaithful fs
end

end LlvmType

open LlvmType

/-! ### Storage types -/

/-- `MAX_ENUM_PAYLOAD_ARRAY_REWRITE_LEAVES` -/
def maxArrayRewriteLeaves : ℕ := 16

/-- `StorageRewrite`: the rewritten type with its counts of shared pointer leaves. -/
structure StorageRewrite where
  ty : LlvmType
  sharedPointerLeaves : ℕ
  arraySharedPointerLeaves : ℕ

mutual
/-- `rewrite_storage_type`, with bools made bytes. -/
def rewriteStorage : LlvmType → Option StorageRewrite
  | int w => some ⟨if w = 1 then int 8 else int w, 0, 0⟩
  | ptr a => some (if a = shared then ⟨ptr generic, 1, 0⟩ else ⟨ptr a, 0, 0⟩)
  | array e n => (rewriteStorage e).bind fun r =>
    (checked (r.sharedPointerLeaves * n)).map fun k => ⟨array r.ty n, k, k⟩
  | vector e n scalable => (rewriteStorage e).bind fun r =>
    if r.ty ≠ e ∨ r.sharedPointerLeaves ≠ 0 then none else some ⟨vector e n scalable, 0, 0⟩
  | struct fs packed => (rewriteStorages fs).map fun r => ⟨struct r.1 packed, r.2.1, r.2.2⟩
  | t => some ⟨t, 0, 0⟩

/-- The rewrites of all fields, their counts added with checks. -/
def rewriteStorages : List LlvmType → Option (List LlvmType × ℕ × ℕ)
  | [] => some ([], 0, 0)
  | f :: fs => (rewriteStorage f).bind fun r => (rewriteStorages fs).bind fun rs =>
    (checked (r.sharedPointerLeaves + rs.2.1)).bind fun k =>
      (checked (r.arraySharedPointerLeaves + rs.2.2)).map fun ka => (r.ty :: rs.1, k, ka)
end

/-- `enum_payload_storage_type` -/
def enumPayloadStorageType (t : LlvmType) : Option LlvmType :=
  (rewriteStorage t).bind fun r =>
    if maxArrayRewriteLeaves < r.arraySharedPointerLeaves then none else some r.ty

/-- What a scalar is stored as. -/
def storedScalar : LlvmType → LlvmType
  | int w => if w = 1 then int 8 else int w
  | ptr a => if a = shared then ptr generic else ptr a
  | t => t

/-- Pointers are stored as pointers, and nothing else is. -/
theorem storedScalar_eq_ptr {t : LlvmType} {a : ℕ} (h : storedScalar t = ptr a) :
    ∃ b, t = ptr b := by
  cases t with
  | ptr b => exact ⟨b, rfl⟩
  | int w =>
    rw [storedScalar] at h
    split at h <;> cases h
  | _ => cases h

mutual

/-- A rewrite keeps size and alignment. -/
private theorem rewrite_sizeAlign : ∀ (t : LlvmType) (r : StorageRewrite),
    rewriteStorage t = some r → sizeAlign r.ty = sizeAlign t
  | int w, r, h => by
    cases h
    split
    · subst w
      rfl
    · rfl
  | ptr a, r, h => by
    cases h
    split <;> rfl
  | half, r, h | float, r, h | double, r, h | unsized, r, h => by
    cases h
    rfl
  | array e n, r, h => by
    simp only [rewriteStorage, Option.bind_eq_some_iff, Option.map_eq_some_iff] at h
    obtain ⟨re, he, k, -, rfl⟩ := h
    simp only [sizeAlign, rewrite_sizeAlign e re he]
  | vector e n scalable, r, h => by
    simp only [rewriteStorage, Option.bind_eq_some_iff] at h
    obtain ⟨re, -, h⟩ := h
    split at h
    · cases h
    · cases h
      rfl
  | struct fs packed, r, h => by
    simp only [rewriteStorage, Option.map_eq_some_iff] at h
    obtain ⟨rs, hrs, rfl⟩ := h
    simp only [sizeAlign, rewrites_sizeAligns fs rs hrs]

/-- Rewrites of all fields keep sizes and alignments. -/
private theorem rewrites_sizeAligns : ∀ (fs : List LlvmType) (rs : List LlvmType × ℕ × ℕ),
    rewriteStorages fs = some rs → sizeAligns rs.1 = sizeAligns fs
  | [], rs, h => by
    cases h
    rfl
  | f :: fs, rs, h => by
    simp only [rewriteStorages, Option.bind_eq_some_iff, Option.map_eq_some_iff] at h
    obtain ⟨rf, hf, rfs, hfs, k, -, ka, -, rfl⟩ := h
    simp only [sizeAligns, rewrite_sizeAlign f rf hf, rewrites_sizeAligns fs rfs hfs]
end

/-- The storage type of a scalar in its place. -/
def storedLeaf (l : Leaf) : Leaf := (l.1, storedScalar l.2)

mutual

/-- A rewrite changes the leaves one by one. -/
private theorem rewrite_leaves : ∀ (t : LlvmType) (r : StorageRewrite),
    rewriteStorage t = some r → leaves r.ty = (leaves t).map storedLeaf
  | int w, r, h => by
    cases h
    split
    · subst w
      rfl
    · rename_i hw
      simp [leaves, storedLeaf, storedScalar, hw]
  | ptr a, r, h => by
    cases h
    split
    · subst a
      rfl
    · rename_i ha
      simp [leaves, storedLeaf, storedScalar, ha]
  | half, r, h | float, r, h | double, r, h | unsized, r, h => by
    cases h
    rfl
  | array e n, r, h => by
    simp only [rewriteStorage, Option.bind_eq_some_iff, Option.map_eq_some_iff] at h
    obtain ⟨re, he, k, -, rfl⟩ := h
    have hsize : size re.ty = size e := by
      unfold size
      rw [rewrite_sizeAlign e re he]
    simp only [leaves, rewrite_leaves e re he, hsize, List.map_flatMap, List.map_map]
    rfl
  | vector e n scalable, r, h => by
    simp only [rewriteStorage, Option.bind_eq_some_iff] at h
    obtain ⟨re, he, h⟩ := h
    split at h
    · cases h
    rename_i hsame
    rw [not_or, not_not, not_not] at hsame
    cases h
    cases e with
    | ptr a =>
      -- a shared pointer would have been counted
      have ha : a ≠ shared := by
        intro ha
        subst ha
        cases he
        exact absurd hsame.2 (by decide)
      simp [leaves, storedLeaf, storedScalar, ha]
    | _ => rfl
  | struct fs packed, r, h => by
    simp only [rewriteStorage, Option.map_eq_some_iff] at h
    obtain ⟨rs, hrs, rfl⟩ := h
    have hoffsets : fieldOffsets rs.1 packed = fieldOffsets fs packed := by
      unfold fieldOffsets
      rw [rewrites_sizeAligns fs rs hrs]
    simp only [leaves, hoffsets, rewrites_leaves fs rs hrs]

/-- Rewrites of all fields change the leaves one by one. -/
private theorem rewrites_leaves : ∀ (fs : List LlvmType) (rs : List LlvmType × ℕ × ℕ),
    rewriteStorages fs = some rs → ∀ os, leavesAt rs.1 os = (leavesAt fs os).map storedLeaf
  | [], rs, h => by
    cases h
    intro os
    rfl
  | f :: fs, rs, h => by
    simp only [rewriteStorages, Option.bind_eq_some_iff, Option.map_eq_some_iff] at h
    obtain ⟨rf, hf, rfs, hfs, k, -, ka, -, rfl⟩ := h
    intro os
    cases os with
    | nil => rfl
    | cons o os =>
      simp only [leavesAt, rewrite_leaves f rf hf, rewrites_leaves fs rfs hfs os, List.map_append,
        List.map_map]
      rfl
end

section Storage

variable {t u : LlvmType}

/-- A storage type is a rewrite. -/
private theorem storage_spec (h : enumPayloadStorageType t = some u) :
    ∃ r, rewriteStorage t = some r ∧ r.ty = u := by
  obtain ⟨r, hr, h⟩ := Option.bind_eq_some_iff.mp h
  split at h
  · cases h
  · exact ⟨r, hr, Option.some.inj h⟩

/-- **Storage keeps the size and the alignment.** -/
theorem storage_sizeAlign (h : enumPayloadStorageType t = some u) : sizeAlign u = sizeAlign t := by
  obtain ⟨r, hr, rfl⟩ := storage_spec h
  exact rewrite_sizeAlign t r hr

/-- **Storage keeps the scalars in their places.** -/
theorem storage_leaves (h : enumPayloadStorageType t = some u) :
    leaves u = (leaves t).map storedLeaf := by
  obtain ⟨r, hr, rfl⟩ := storage_spec h
  exact rewrite_leaves t r hr

end Storage

/-! ### Pointers in storage -/

/-- `LlvmPointerStorage`: a pointer of a type at its offset. -/
structure PointerStorage where
  offset : ℕ
  size : ℕ
  addressSpace : ℕ
  deriving DecidableEq, Repr

/-- Why pointer leaves are not collected. -/
inductive OverlapRejection where
  | overArrayLeafBound (required : ℕ)
  | provenanceLoss
  deriving DecidableEq, Repr

mutual

/-- `count_pointer_leaves`, with checked counts. -/
def countPointerLeaves : LlvmType → Option ℕ
  | ptr _ => some 1
  | array e n => (countPointerLeaves e).bind fun k => checked (k * n)
  | struct fs _ => sumPointerLeaves fs
  | _ => some 0

/-- The pointer leaves of all fields. -/
def sumPointerLeaves : List LlvmType → Option ℕ
  | [] => some 0
  | f :: fs => (countPointerLeaves f).bind fun k =>
    (sumPointerLeaves fs).bind fun ks => checked (k + ks)
end

mutual
/-- The pointers that arrays expand to. -/
def countArrayPointerLeaves : LlvmType → Option ℕ
  | array e n => (countPointerLeaves e).bind fun k => checked (k * n)
  | struct fs _ => sumArrayPointerLeaves fs
  | _ => some 0

/-- The pointer leaves below arrays, of all fields. -/
def sumArrayPointerLeaves : List LlvmType → Option ℕ
  | [] => some 0
  | f :: fs => (countArrayPointerLeaves f).bind fun k =>
    (sumArrayPointerLeaves fs).bind fun ks => checked (k + ks)
end

/-- All of a list of results, or none. -/
def sequence {α : Type} : List (Option α) → Option (List α)
  | [] => some []
  | x :: xs => x.bind fun a => (sequence xs).map (a :: ·)

mutual
/-- `collect` of `collect_llvm_pointer_storage`: the pointers of a type from a base offset on. -/
def collect : LlvmType → ℕ → Option (List PointerStorage)
  | ptr a, base => some [⟨base, 8, a⟩]
  | array e n, base =>
    if !containsPointer e then some []
    else (sizeAlign e).bind fun i => (sequence ((List.range n).map fun index =>
      (checked (i.1 * index)).bind fun o => (checked (base + o)).bind (collect e))).map List.flatten
  -- a vector of pointers is not represented
  | vector e _ _, _ => if containsPointer e then none else some []
  | struct fs packed, base => collectFields packed fs base 0
  | _, _ => some []

/-- The pointers of the fields, each at its offset from `base`. -/
def collectFields (packed : Bool) : List LlvmType → ℕ → ℕ → Option (List PointerStorage)
  | [], _, _ => some []
  | f :: fs, base, stop => (sizeAlign f).bind fun i =>
    (checked (if packed then stop else Sequential.alignUp stop i.2)).bind fun o =>
      ((checked (base + o)).bind (collect f)).bind fun here =>
        (checked (o + i.1)).bind fun stop' =>
          (collectFields packed fs base stop').map fun rest => here ++ rest
end

/-- `collect_llvm_pointer_storage` -/
def collectPointerStorage (t : LlvmType) (base : ℕ) :
    Except OverlapRejection (List PointerStorage) :=
  match countArrayPointerLeaves t with
  | none => .error .provenanceLoss
  | some required =>
    if maxArrayRewriteLeaves < required then .error (.overArrayLeafBound required)
    else
      match collect t base with
      | none => .error .provenanceLoss
      | some out => .ok out

/-- A claim of the storage of an enum: the offset, the size and the type. -/
structure Claim where
  offset : ℕ
  size : ℕ
  ty : LlvmType
  deriving DecidableEq, Repr

namespace Claim

/-- The byte behind a claim. -/
def stop (c : Claim) : ℕ := c.offset + c.size

/-- The claim has bytes among those of a range. -/
def Meets (c : Claim) (offset size : ℕ) : Prop := offset < c.stop ∧ c.offset < offset + size

instance (c : Claim) (offset size : ℕ) : Decidable (c.Meets offset size) :=
  inferInstanceAs (Decidable (_ ∧ _))

end Claim

/-- The pointers of claims that meet a range. -/
def existingPointers (offset size : ℕ) : List Claim → Except OverlapRejection (List PointerStorage)
  | [] => .ok []
  | c :: cs => do
    let regions ← collectPointerStorage c.ty c.offset
    let rest ← existingPointers offset size cs
    return regions.filter (fun r => r.offset < offset + size && offset < r.offset + r.size) ++ rest

/-- The pointers that need a slot of their own. -/
def extraPointers (existing : List PointerStorage) (colliding : List Claim) :
    List PointerStorage → Except OverlapRejection (List PointerStorage)
  | [] => .ok []
  | leaf :: leaves =>
    if leaf ∈ existing then extraPointers existing colliding leaves
    else if colliding.any fun c => c.Meets leaf.offset leaf.size then .error .provenanceLoss
    else (extraPointers existing colliding leaves).map (leaf :: ·)

/-- `analyze_pointer_overlap` -/
def analyzePointerOverlap (offset size : ℕ) (ty : LlvmType) (colliding : List Claim) :
    Except OverlapRejection (List PointerStorage) := do
  let incoming ← collectPointerStorage ty offset
  let existing ← existingPointers offset size colliding
  if existing.all fun leaf => leaf ∈ incoming then extraPointers existing colliding incoming
  else .error .provenanceLoss

/-! ### The pointers are the pointer scalars -/

/-- A scalar that is a pointer, from a base offset on. -/
def asPointer (base : ℕ) (l : Leaf) : Option PointerStorage :=
  match l.2 with
  | ptr a => some ⟨base + l.1, 8, a⟩
  | _ => none

/-- The pointers among the leaves of a type at an offset. -/
def pointersAt (t : LlvmType) (base : ℕ) : List PointerStorage :=
  (leaves t).filterMap (asPointer base)

/-- The scalar that a pointer is. -/
def PointerStorage.asLeaf (q : PointerStorage) : Leaf := (q.offset, ptr q.addressSpace)

/-- The pointers of a type are its pointer scalars. -/
theorem mem_pointersAt {t : LlvmType} {base : ℕ} {q : PointerStorage} : q ∈ pointersAt t base ↔
    q.size = 8 ∧ ∃ l ∈ leaves t, shift base l = q.asLeaf := by
  obtain ⟨o, s, a⟩ := q
  unfold pointersAt
  rw [List.mem_filterMap]
  constructor
  · rintro ⟨l, hl, hq⟩
    unfold asPointer at hq
    split at hq
    · rename_i b hb
      cases hq
      refine ⟨rfl, l, hl, ?_⟩
      unfold shift PointerStorage.asLeaf
      rw [hb]
    · cases hq
  · rintro ⟨rfl, l, hl, hq⟩
    obtain ⟨ho, ht⟩ := Prod.mk.inj hq
    refine ⟨l, hl, ?_⟩
    unfold asPointer
    rw [ht, ho]

/-- The pointers of storage, by the scalars that are stored. -/
theorem mem_pointersAt_storage {t u : LlvmType} (h : enumPayloadStorageType t = some u) {base : ℕ}
    {q : PointerStorage} : q ∈ pointersAt u base ↔
      q.size = 8 ∧ ∃ l ∈ leaves t, shift base (storedLeaf l) = q.asLeaf := by
  rw [mem_pointersAt, storage_leaves h]
  simp only [List.mem_map, exists_exists_and_eq_and]

/-- The pointer of a moved leaf. -/
@[simp] theorem asPointer_shift (base o : ℕ) (l : Leaf) :
    asPointer base (shift o l) = asPointer (base + o) l := by
  unfold asPointer shift
  dsimp only
  cases l.2 with
  | ptr a => simp [Nat.add_assoc]
  | _ => rfl

mutual
/-- A type without pointers has none among its scalars. -/
theorem no_pointers : ∀ t : LlvmType, containsPointer t = false → ∀ base,
    pointersAt t base = []
  | ptr _, h => by cases h
  | int _, _ | half, _ | float, _ | double, _ | unsized, _ => fun _ => rfl
  | array e n, h => fun base => by
    have he := no_pointers e h
    unfold pointersAt at he ⊢
    rw [leaves, List.filterMap_flatMap, List.flatMap_eq_nil_iff]
    intro i _
    rw [List.filterMap_map]
    show (leaves e).filterMap (fun l => asPointer base (shift (i * size e) l)) = []
    simp only [asPointer_shift, he]
  | vector e n scalable, h => fun base => by
    cases e with
    | ptr a => cases h
    | _ => rfl
  | struct fs packed, h => fun base => no_pointersAt fs h base _

/-- Fields without pointers have no pointer leaves. -/
private theorem no_pointersAt : ∀ fs : List LlvmType, anyContainsPointer fs = false → ∀ base os,
    (leavesAt fs os).filterMap (asPointer base) = []
  | [], _, _, _ => rfl
  | f :: fs, h, base, os => by
    simp only [anyContainsPointer, Bool.or_eq_false_iff] at h
    cases os with
    | nil => rfl
    | cons o os =>
      have hf := no_pointers f h.1 (base + o)
      unfold pointersAt at hf
      rw [leavesAt, List.filterMap_append, no_pointersAt fs h.2 base os, List.append_nil,
        List.filterMap_map]
      show (leaves f).filterMap (fun l => asPointer base (shift o l)) = []
      simp only [asPointer_shift, hf]
end

/-- A sequence of successes is the map of its results. -/
private theorem sequence_map_eq_some {α β : Type} {f : α → Option β} {g : α → β} {xs : List α}
    {ys : List β} (h : sequence (xs.map f) = some ys) (hfg : ∀ x y, f x = some y → y = g x) :
    ys = xs.map g := by
  induction xs generalizing ys with
  | nil =>
    cases h
    rfl
  | cons x xs ih =>
    simp only [List.map_cons, sequence, Option.bind_eq_some_iff, Option.map_eq_some_iff] at h
    obtain ⟨y, hy, ys', hys', rfl⟩ := h
    rw [List.map_cons, ← hfg x y hy, ← ih hys']

mutual

/-- The collected pointers of a type are those of its leaves. -/
private theorem collect_pointersAt : ∀ (t : LlvmType) (base : ℕ) (out : List PointerStorage),
    collect t base = some out → out = pointersAt t base
  | ptr a, base, out, h => by
    cases h
    rfl
  | int _, _, _, h | half, _, _, h | float, _, _, h | double, _, _, h | unsized, _, _, h => by
    cases h
    rfl
  | array e n, base, out, h => by
    rw [collect] at h
    split at h
    · rename_i hnone
      cases h
      rw [no_pointers (array e n) (by simpa [containsPointer] using hnone)]
    · obtain ⟨i, hi, h⟩ := Option.bind_eq_some_iff.mp h
      obtain ⟨outs, houts, rfl⟩ := Option.map_eq_some_iff.mp h
      have hcopy : ∀ index here,
          ((checked (i.1 * index)).bind fun o => (checked (base + o)).bind (collect e)) =
            some here →
            here = pointersAt e (base + index * size e) := by
        intro index here hhere
        obtain ⟨o, ho, hhere⟩ := Option.bind_eq_some_iff.mp hhere
        obtain ⟨b, hb, hhere⟩ := Option.bind_eq_some_iff.mp hhere
        obtain ⟨-, rfl⟩ := checked_eq_some.mp ho
        obtain ⟨-, rfl⟩ := checked_eq_some.mp hb
        rw [collect_pointersAt e _ here hhere, size_eq hi, Nat.mul_comm]
      rw [sequence_map_eq_some houts hcopy, pointersAt, leaves, List.filterMap_flatMap,
        List.flatMap_def]
      congr 1
      apply List.map_congr_left
      intro index _
      rw [List.filterMap_map]
      show pointersAt e (base + index * size e) =
        (leaves e).filterMap fun l => asPointer base (shift (index * size e) l)
      simp only [asPointer_shift]
      rfl
  | vector e n scalable, base, out, h => by
    rw [collect] at h
    split at h
    · cases h
    · rename_i hnone
      cases h
      rw [no_pointers (vector e n scalable) (by simpa [containsPointer] using hnone)]
  -- the fields are collected at the offsets of the sized row
  | struct fs packed, base, out, h => by
    rw [collect] at h
    obtain ⟨items, hitems, rfl⟩ := collectFields_pointersAt packed fs base 0 out h
    unfold pointersAt leaves fieldOffsets
    rw [hitems]
    rfl

/-- The collected pointers of fields are those of their leaves. -/
private theorem collectFields_pointersAt (packed : Bool) : ∀ (fs : List LlvmType) (base stop : ℕ)
    (out : List PointerStorage), collectFields packed fs base stop = some out →
    ∃ items, sizeAligns fs = some items ∧ out = (leavesAt fs (Sequential.offsets stop
      (rowOf packed items))).filterMap (asPointer base)
  | [], base, stop, out, h => by
    cases h
    exact ⟨[], rfl, rfl⟩
  | f :: fs, base, stop, out, h => by
    simp only [collectFields, Option.bind_eq_some_iff, Option.map_eq_some_iff] at h
    obtain ⟨i, hi, o, ho, here, ⟨b, hb, hhere⟩, stop', hstop, rest, hrest, rfl⟩ := h
    obtain ⟨-, rfl⟩ := checked_eq_some.mp ho
    obtain ⟨-, rfl⟩ := checked_eq_some.mp hb
    obtain ⟨-, rfl⟩ := checked_eq_some.mp hstop
    obtain ⟨items, hitems, hout⟩ := collectFields_pointersAt packed fs base _ rest hrest
    refine ⟨i :: items, by simp only [sizeAligns, hi, hitems, Option.bind_some, Option.map_some],
      ?_⟩
    have hhead : ∀ o : ℕ, (leaves f).filterMap (asPointer (base + o)) =
        ((leaves f).map (shift o)).filterMap (asPointer base) := by
      intro o
      rw [List.filterMap_map]
      show _ = (leaves f).filterMap fun l => asPointer base (shift o l)
      simp only [asPointer_shift]
    rw [collect_pointersAt f _ here hhere, hout, pointersAt, hhead, ← List.filterMap_append]
    cases packed with
    | true =>
      show _ = (leavesAt (f :: fs) (Sequential.alignUp stop 1 :: Sequential.offsets
        (Sequential.alignUp stop 1 + i.1) (rowOf true items))).filterMap (asPointer base)
      rw [Sequential.alignUp_one]
      rfl
    | false => rfl
end

/-- **The pointers of storage are its pointer scalars.** -/
theorem collectPointerStorage_eq {t : LlvmType} {base : ℕ} {out : List PointerStorage}
    (h : collectPointerStorage t base = .ok out) : out = pointersAt t base := by
  unfold collectPointerStorage at h
  split at h
  · cases h
  split at h
  · cases h
  split at h
  · cases h
  · rename_i hcollect
    cases h
    exact collect_pointersAt t base _ hcollect

end CudaOxide.Lower
