import CudaOxide.Lower.EnumSlots

namespace CudaOxide.Lower

open Lib LlvmType

/-!
# Claims on the bytes of an enum

What the first phase of `build_enum_slot_map` keeps, one field after the other, in whatever order
they come.

* `Placement.Spec` — claims do not overlap and lie in the enum, fields and leaves have claims with
  their storage at their offsets, and the pointers in the claims are the pointers of the payloads.
* `place_spec` — one field keeps it: a bool, a field at a claim of its own or at a shared one
  (`shared_spec`, `own_spec`), leaf by leaf (`decomposed_spec`), or through memory (`memory_spec`).
* `placeFields_spec` — so does the loop.
-/

/-! ### What is claimed -/

/-- The claims have no bytes in common. -/
def Claim.Apart (c c' : Claim) : Prop := c.stop ≤ c'.offset ∨ c'.stop ≤ c.offset

/-- A claim of bytes of the enum, as many as its type has. -/
def Claim.Fits (totalSize : ℕ) (c : Claim) : Prop :=
  c.stop ≤ totalSize ∧ ∃ a, sizeAlign c.ty = some (c.size, a)

/-- The pointers in the claims. -/
def claimPointers (claims : List Claim) : List PointerStorage :=
  claims.flatMap fun c => pointersAt c.ty c.offset

/-- The pointers in the storage of a field; those of an uninhabited variant do not count. -/
def PayloadField.pointers (f : PayloadField) : List PointerStorage :=
  if f.isInhabited then
    ((enumPayloadStorageType f.llvmTy).map fun storage => pointersAt storage f.offset).getD []
  else []

/-- A claim at an offset with the storage of a type. -/
def HoldsAt (claims : List Claim) (claim offset : ℕ) (ty : LlvmType) : Prop :=
  ∃ storage size, enumPayloadStorageType ty = some storage ∧
    claims[claim]? = some ⟨offset, size, storage⟩

/-- Each leaf that has a size is placed at a claim with its storage at its offset, and nothing else
is. -/
structure LeavesPlaced (claims : List Claim) (leaves : List PayloadLeaf) (placed : List LeafClaim) :
    Prop where
  all : ∀ leaf ∈ leaves, size leaf.ty ≠ 0 → ∃ claim, (leaf.path, claim) ∈ placed ∧
    HoldsAt claims claim leaf.offset leaf.ty
  only : ∀ x ∈ placed, ∃ leaf ∈ leaves, leaf.path = x.1 ∧ HoldsAt claims x.2 leaf.offset leaf.ty

/-- What holds of the claims once some fields are placed. -/
structure Placement.Spec (totalSize : ℕ) (carrier : List Claim) (done : List PayloadField)
    (p : Placement) : Prop where
  fits : ∀ c ∈ p.claims, c.Fits totalSize
  pos : ∀ c ∈ p.claims.tail, 0 < c.size
  apart : p.claims.Pairwise Claim.Apart
  first : carrier <+: p.claims
  field : ∀ flat claim, p.claimOfField flat = some claim →
    ∃ f ∈ done, f.flat = flat ∧ HoldsAt p.claims claim f.offset f.llvmTy
  leaf : ∀ flat placed, p.leafPlacementOfField flat = some placed →
    ∃ f ∈ done, f.flat = flat ∧ ∃ leaves, collectPayloadLeaves f.mirTy f.offset [] = some leaves ∧
      LeavesPlaced p.claims leaves placed
  pointers : ∀ q, q ∈ claimPointers p.claims ↔ q ∈ claimPointers carrier ∨ ∃ f ∈ done,
    q ∈ f.pointers

section Claims

variable {claims extra : List Claim} {c c' : Claim} {claim offset : ℕ} {ty : LlvmType}

/-- Being apart is symmetric. -/
theorem Claim.Apart.symm (h : c.Apart c') : c'.Apart c := Or.symm h

/-- Ranges that do not meet have no bytes in common. -/
theorem Claim.apart_of_not_meets {size : ℕ} (h : ¬c.Meets offset size) :
    c.Apart ⟨offset, size, ty⟩ := by
  unfold Claim.Meets at h
  unfold Claim.Apart Claim.stop at *
  dsimp only
  omega

/-- So do ranges inside them. -/
theorem Claim.Apart.within (h : c.Apart c') {d : Claim} (hlo : c'.offset ≤ d.offset)
    (hhi : d.stop ≤ c'.stop) : c.Apart d := by
  unfold Claim.Apart at *
  omega

/-- A pointer is claimed when it is part of a claim. -/
theorem mem_claimPointers {q : PointerStorage} :
    q ∈ claimPointers claims ↔ ∃ c ∈ claims, q ∈ pointersAt c.ty c.offset := List.mem_flatMap

/-- The pointers of two claim lists are listed one behind the other. -/
@[simp] theorem claimPointers_append (claims extra : List Claim) :
    claimPointers (claims ++ extra) = claimPointers claims ++ claimPointers extra :=
      List.flatMap_append

/-- More claims do not change what an earlier one holds. -/
theorem HoldsAt.append (h : HoldsAt claims claim offset ty) (extra : List Claim) :
    HoldsAt (claims ++ extra) claim offset ty := by
  obtain ⟨storage, size, hst, hc⟩ := h
  have hlt := (List.getElem?_eq_some_iff.mp hc).1
  exact ⟨storage, size, hst, (List.getElem?_append_left hlt).trans hc⟩

/-- More claims do not change where leaves are placed. -/
theorem LeavesPlaced.append {leaves : List PayloadLeaf} {placed : List LeafClaim}
    (h : LeavesPlaced claims leaves placed) (extra : List Claim) :
    LeavesPlaced (claims ++ extra) leaves placed := by
  constructor
  · intro leaf hleaf hsize
    obtain ⟨claim, hmem, hat⟩ := h.all leaf hleaf hsize
    exact ⟨claim, hmem, hat.append extra⟩
  · intro x hx
    obtain ⟨leaf, hleaf, hpath, hat⟩ := h.only x hx
    exact ⟨leaf, hleaf, hpath, hat.append extra⟩

end Claims

namespace Placement.Spec

variable {totalSize : ℕ} {carrier : List Claim} {done : List PayloadField} {p : Placement}
  {f : PayloadField}

/-- **One more field.**  Its claims are put on bytes that no claim has, and its pointers are in them
or in those that were there. -/
theorem step (h : p.Spec totalSize carrier done) (f : PayloadField) {extra : List Claim}
    {p' : Placement} (hclaims : p'.claims = p.claims ++ extra)
    (hfits : ∀ c ∈ extra, 0 < c.size ∧ c.Fits totalSize) (hextra : extra.Pairwise Claim.Apart)
    (hapart : ∀ c ∈ p.claims, ∀ c' ∈ extra, c.Apart c')
    (hfield : ∀ flat claim, p'.claimOfField flat = some claim → p.claimOfField flat = some claim ∨
      f.flat = flat ∧ HoldsAt p'.claims claim f.offset f.llvmTy)
    (hleaf : ∀ flat placed, p'.leafPlacementOfField flat = some placed →
      p.leafPlacementOfField flat = some placed ∨
        f.flat = flat ∧ ∃ leaves, collectPayloadLeaves f.mirTy f.offset [] = some leaves ∧
          LeavesPlaced p'.claims leaves placed)
    (hin : ∀ q ∈ claimPointers extra, q ∈ f.pointers)
    (hout : ∀ q ∈ f.pointers, q ∈ claimPointers p.claims ∨ q ∈ claimPointers extra) :
    p'.Spec totalSize carrier (f :: done) := by
  -- the claims grow by `extra`; each part is looked at for the old claims and the new ones
  refine ⟨?_, ?_, ?_, ?_, ?_, ?_, ?_⟩
  · rw [hclaims]
    intro c hc
    exact (List.mem_append.mp hc).elim (h.fits c) fun hc => (hfits c hc).2
  · rw [hclaims]
    intro c hc
    cases hold : p.claims with
    | nil =>
      rw [hold] at hc
      exact (hfits c (List.mem_of_mem_tail hc)).1
    | cons d ds =>
      rw [hold] at hc
      obtain hc | hc := List.mem_append.mp hc
      · exact h.pos c (by rwa [hold])
      · exact (hfits c hc).1
  · rw [hclaims]
    exact List.pairwise_append.mpr ⟨h.apart, hextra, hapart⟩
  · rw [hclaims]
    exact h.first.trans (List.prefix_append _ _)
  -- a field that is in a slot was placed before or is this one
  · intro flat claim hc
    obtain hold | ⟨hflat, hat⟩ := hfield flat claim hc
    · obtain ⟨g, hg, hflat, hat⟩ := h.field flat claim hold
      rw [hclaims]
      exact ⟨g, List.mem_cons_of_mem _ hg, hflat, hat.append extra⟩
    · exact ⟨f, List.mem_cons_self .., hflat, hat⟩
  · intro flat placed hp
    obtain hold | ⟨hflat, hat⟩ := hleaf flat placed hp
    · obtain ⟨g, hg, hflat, leaves, hleaves, hat⟩ := h.leaf flat placed hold
      rw [hclaims]
      exact ⟨g, List.mem_cons_of_mem _ hg, hflat, leaves, hleaves, hat.append extra⟩
    · exact ⟨f, List.mem_cons_self .., hflat, hat⟩
  -- the pointers are those of the carrier, of this field and of the fields before
  · intro q
    rw [hclaims, claimPointers_append, List.mem_append, h.pointers q, List.exists_mem_cons_iff]
    constructor
    · rintro ((hc | hd) | he)
      · exact .inl hc
      · exact .inr (.inr hd)
      · exact .inr (.inl (hin q he))
    · rintro (hc | hf | hd)
      · exact .inl (.inl hc)
      · exact (hout q hf).imp_left (h.pointers q).mp
      · exact .inl (.inr hd)

/-- A field that adds no claim and gets no slot. -/
theorem skip (h : p.Spec totalSize carrier done) (hptr : ∀ q ∈ f.pointers,
    q ∈ claimPointers p.claims) :
    p.Spec totalSize carrier (f :: done) := by
  refine h.step f (List.append_nil _).symm (List.forall_mem_nil _) .nil ?_ (fun _ _ hc => .inl hc)
    (fun _ _ hp => .inl hp) ?_ (fun q hq => .inl (hptr q hq))
  · intro c _ c' hc'
    cases hc'
  · intro q hq
    cases hq

end Placement.Spec

/-! ### One field -/

namespace PayloadField

variable {totalSize size : ℕ} {carrier : List Claim} {done : List PayloadField} {p p' : Placement}
  {f : PayloadField} {storage : LlvmType} {align : ℕ}

/-- What is known of a field that the loop places. -/
structure Placeable (f : PayloadField) (totalSize : ℕ) (storage : LlvmType) (size align : ℕ) :
    Prop where
  inhabited : f.isInhabited = true
  converted : convertType f.mirTy = some f.llvmTy
  stored : enumPayloadStorageType f.llvmTy = some storage
  sized : sizeAlign storage = some (size, align)
  pos : 0 < size
  within : f.offset + size ≤ totalSize

namespace Placeable

variable (hf : f.Placeable totalSize storage size align)

include hf

/-- The pointers of a field are those of its storage. -/
theorem pointers_eq : f.pointers = pointersAt storage f.offset := by
  unfold PayloadField.pointers
  rw [hf.inhabited, hf.stored]
  rfl

/-- A pointer of a field is a leaf of eight bytes. -/
theorem mem_pointers {q : PointerStorage} : q ∈ f.pointers ↔
    q.size = 8 ∧ ∃ l ∈ leaves f.llvmTy, shift f.offset (storedLeaf l) = q.asLeaf := by
  rw [hf.pointers_eq, mem_pointersAt_storage hf.stored]

/-- A field has its size and alignment. -/
theorem sized' : sizeAlign f.llvmTy = some (size, align) := by
  rw [← storage_sizeAlign hf.stored, hf.sized]

/-- A bool has its byte, or finds it. -/
theorem placeBool_spec (hbool : f.llvmTy = int 1) (h : f.placeBool size p = .ok p')
    (hs : p.Spec totalSize carrier done) : p'.Spec totalSize carrier (f :: done) := by
  have hnone : ∀ q, q ∉ f.pointers := by
    intro q hq
    obtain ⟨-, l, hl, heq⟩ := hf.mem_pointers.mp hq
    rw [hbool] at hl
    obtain rfl := List.mem_singleton.mp hl
    cases congrArg Prod.snd heq
  have hsize : size = 1 := by
    have := hf.sized'
    rw [hbool] at this
    cases this
    rfl
  unfold PayloadField.placeBool at h
  dsimp only at h
  split at h
  · rename_i hfree
    rw [List.isEmpty_iff, List.filter_eq_nil_iff] at hfree
    cases h
    refine hs.step f rfl ?_ (List.pairwise_singleton _ _) ?_ (fun _ _ hc => .inl hc)
      (fun _ _ hp => .inl hp) ?_ (fun q hq => absurd hq (hnone q))
    · intro c hc
      obtain rfl := List.mem_singleton.mp hc
      have := hf.within
      refine ⟨one_pos, ?_, 1, rfl⟩
      show f.offset + 1 ≤ totalSize
      omega
    · intro c hc c' hc'
      obtain rfl := List.mem_singleton.mp hc'
      apply Claim.apart_of_not_meets
      rw [← hsize]
      simpa using hfree c hc
    · intro q hq
      cases hq
  · split at h
    · cases h
      exact hs.skip fun q hq => absurd hq (hnone q)
    · cases h

/-- A field at a claim of its type, or at one of its own. -/
theorem shared_spec {claim : ℕ} (hat : p.claims[claim]? = some ⟨f.offset, size, storage⟩)
    (hs : p.Spec totalSize carrier done) {slots : ℕ → Option ℕ}
    (hslots : slots = p.claimOfField ∨ slots = Function.update p.claimOfField f.flat (some claim)) :
    Placement.Spec totalSize carrier (f :: done) { p with claimOfField := slots } := by
  have hmem := List.mem_of_getElem? hat
  refine hs.step f (List.append_nil _).symm (List.forall_mem_nil _) .nil ?_ ?_
    (fun _ _ hp => .inl hp) ?_ ?_
  · intro c _ c' hc'
    cases hc'
  · intro flat c hc
    dsimp only at hc
    obtain rfl | rfl := hslots
    · exact .inl hc
    · by_cases hflat : flat = f.flat
      · subst hflat
        rw [Function.update_self, Option.some.injEq] at hc
        subst hc
        exact .inr ⟨rfl, storage, size, hf.stored, hat⟩
      · rw [Function.update_of_ne hflat] at hc
        exact .inl hc
  · intro q hq
    cases hq
  · intro q hq
    left
    rw [hf.pointers_eq] at hq
    exact mem_claimPointers.mpr ⟨_, hmem, hq⟩

/-- A field on bytes that no claim has. -/
theorem own_spec (hfree : ∀ c ∈ p.claims, ¬c.Meets f.offset size)
    (hs : p.Spec totalSize carrier done) {slots : ℕ → Option ℕ}
    (hslots : slots = p.claimOfField ∨
      slots = Function.update p.claimOfField f.flat (some p.claims.length)) :
    Placement.Spec totalSize carrier (f :: done)
      { p with claims := p.claims ++ [⟨f.offset, size, storage⟩], claimOfField := slots } := by
  refine hs.step f rfl ?_ (List.pairwise_singleton _ _) ?_ ?_ (fun _ _ hp => .inl hp) ?_ ?_
  · intro c hc
    obtain rfl := List.mem_singleton.mp hc
    exact ⟨hf.pos, hf.within, align, hf.sized⟩
  · intro c hc c' hc'
    obtain rfl := List.mem_singleton.mp hc'
    exact Claim.apart_of_not_meets (hfree c hc)
  · intro flat c hc
    dsimp only at hc
    obtain rfl | rfl := hslots
    · exact .inl hc
    · by_cases hflat : flat = f.flat
      · subst hflat
        rw [Function.update_self, Option.some.injEq] at hc
        subst hc
        exact .inr ⟨rfl, storage, size, hf.stored, List.getElem?_concat_length⟩
      · rw [Function.update_of_ne hflat] at hc
        exact .inl hc
  · intro q hq
    rw [hf.pointers_eq]
    obtain ⟨c, hc, hq⟩ := mem_claimPointers.mp hq
    obtain rfl := List.mem_singleton.mp hc
    exact hq
  · intro q hq
    right
    rw [hf.pointers_eq] at hq
    exact mem_claimPointers.mpr ⟨⟨f.offset, size, storage⟩, List.mem_singleton_self _, hq⟩

end Placeable

end PayloadField

/-! ### Leaf by leaf -/

section Leaves

variable {claims fresh fresh' : List Claim} {leaves : List PayloadLeaf} {placed : List LeafClaim}

/-- The claim of a leaf on bytes that no claim has. -/
structure FreshFor (claims : List Claim) (leaf : PayloadLeaf) (c : Claim) : Prop where
  offset : c.offset = leaf.offset
  stored : enumPayloadStorageType leaf.ty = some c.ty
  sized : ∃ a, sizeAlign c.ty = some (c.size, a)
  pos : c.size ≠ 0
  free : ∀ d ∈ claims, ¬d.Meets c.offset c.size

/-- A fresh claim has the size of its leaf. -/
theorem FreshFor.size_eq {leaf : PayloadLeaf} {c : Claim} (h : FreshFor claims leaf c) :
    size leaf.ty = c.size := by
  obtain ⟨a, ha⟩ := h.sized
  rw [storage_sizeAlign h.stored] at ha
  exact LlvmType.size_eq ha

/-- A fresh claim ends with its leaf. -/
theorem FreshFor.stop_eq {leaf : PayloadLeaf} {c : Claim} (h : FreshFor claims leaf c) :
    c.stop = leaf.stop := by
  unfold Claim.stop PayloadLeaf.stop
  rw [h.offset, h.size_eq]

/-- What one leaf adds: nothing, a claim that is there, or a fresh one. -/
private theorem placeLeaves_cons {leaf : PayloadLeaf}
    (h : placeLeaves claims (leaf :: leaves) fresh = some (placed, fresh')) :
    (∃ l, sizeAlign leaf.ty = some l) ∧
      ((size leaf.ty = 0 ∧ placeLeaves claims leaves fresh = some (placed, fresh')) ∨
        (∃ claim rest, size leaf.ty ≠ 0 ∧ placed = (leaf.path, claim) :: rest ∧
          HoldsAt claims claim leaf.offset leaf.ty ∧
          placeLeaves claims leaves fresh = some (rest, fresh')) ∨
        ∃ c rest, FreshFor claims leaf c ∧ placed = (leaf.path,
          claims.length + fresh.length) :: rest ∧
          placeLeaves claims leaves (fresh ++ [c]) = some (rest, fresh')) := by
  rw [placeLeaves] at h
  obtain ⟨storage, hst, h⟩ := Option.bind_eq_some_iff.mp h
  obtain ⟨l, hl, h⟩ := Option.bind_eq_some_iff.mp h
  have hsized : sizeAlign leaf.ty = some l := (storage_sizeAlign hst).symm.trans hl
  have hsize : size leaf.ty = l.1 := size_eq hsized
  refine ⟨⟨l, hsized⟩, ?_⟩
  split at h
  · rename_i hzero
    exact .inl ⟨hsize.trans hzero, h⟩
  rename_i hpos
  right
  split at h
  · cases h
  split at h
  · rename_i claim hfind
    left
    obtain ⟨r, hr, heq⟩ := Option.map_eq_some_iff.mp h
    cases heq
    obtain ⟨hlt, hclaim, -⟩ := List.findIdx?_eq_some_iff_getElem.mp hfind
    refine ⟨claim, r.1, by rwa [hsize], rfl, ⟨storage, l.1, hst, ?_⟩, hr⟩
    rw [List.getElem?_eq_getElem hlt, eq_of_beq hclaim]
  · right
    split at h
    · cases h
    rename_i hfree
    obtain ⟨r, hr, heq⟩ := Option.map_eq_some_iff.mp h
    cases heq
    refine ⟨⟨leaf.offset, l.1, storage⟩, r.1, ⟨rfl, hst, ⟨l.2, hl⟩, hpos, ?_⟩, rfl, hr⟩
    intro d hd hmeets
    exact hfree (List.any_eq_true.mpr ⟨d, hd, decide_eq_true hmeets⟩)

/-- The fresh claims are those of some of the leaves, and each leaf is placed. -/
theorem placeLeaves_spec (h : placeLeaves claims leaves fresh = some (placed, fresh')) :
    (∀ leaf ∈ leaves, ∃ l, sizeAlign leaf.ty = some l) ∧
      LeavesPlaced (claims ++ fresh') leaves placed ∧
      ∃ added, fresh' = fresh ++ added ∧ (∀ c ∈ added, ∃ leaf ∈ leaves, FreshFor claims leaf c) ∧
        (leaves.Pairwise PayloadLeaf.Apart → added.Pairwise Claim.Apart) := by
  induction leaves generalizing fresh placed with
  | nil =>
    cases h
    refine ⟨List.forall_mem_nil _, ⟨List.forall_mem_nil _, List.forall_mem_nil _⟩, [],
      (List.append_nil _).symm, List.forall_mem_nil _, fun _ => .nil⟩
  | cons leaf leaves ih =>
    obtain ⟨hst, hcase⟩ := placeLeaves_cons h
    obtain ⟨hzero, h'⟩ | ⟨claim, rest, hsize, rfl, hat, h'⟩ | ⟨c, rest, hc, rfl, h'⟩ := hcase
    -- a leaf without a size is in no claim
    · obtain ⟨hstored, hplaced, added, hadded, hfresh, hpair⟩ := ih h'
      refine ⟨List.forall_mem_cons.mpr ⟨hst, hstored⟩, ⟨?_, ?_⟩, added, hadded, ?_, ?_⟩
      · intro x hx hne
        obtain rfl | hx := List.mem_cons.mp hx
        · exact absurd hzero hne
        · exact hplaced.all x hx hne
      · intro x hx
        obtain ⟨l, hl, hpath, hat⟩ := hplaced.only x hx
        exact ⟨l, List.mem_cons_of_mem _ hl, hpath, hat⟩
      · intro c hc
        obtain ⟨l, hl, hfor⟩ := hfresh c hc
        exact ⟨l, List.mem_cons_of_mem _ hl, hfor⟩
      · intro hp
        exact hpair (List.pairwise_cons.mp hp).2
    -- a leaf that shares a claim adds none
    · obtain ⟨hstored, hplaced, added, hadded, hfresh, hpair⟩ := ih h'
      refine ⟨List.forall_mem_cons.mpr ⟨hst, hstored⟩, ⟨?_, ?_⟩, added, hadded, ?_, ?_⟩
      · intro x hx hne
        obtain rfl | hx := List.mem_cons.mp hx
        · exact ⟨claim, List.mem_cons_self .., hat.append fresh'⟩
        · obtain ⟨k, hk, hat⟩ := hplaced.all x hx hne
          exact ⟨k, List.mem_cons_of_mem _ hk, hat⟩
      · intro x hx
        obtain rfl | hx := List.mem_cons.mp hx
        · exact ⟨leaf, List.mem_cons_self .., rfl, hat.append fresh'⟩
        · obtain ⟨l, hl, hpath, hat⟩ := hplaced.only x hx
          exact ⟨l, List.mem_cons_of_mem _ hl, hpath, hat⟩
      · intro c hc
        obtain ⟨l, hl, hfor⟩ := hfresh c hc
        exact ⟨l, List.mem_cons_of_mem _ hl, hfor⟩
      · intro hp
        exact hpair (List.pairwise_cons.mp hp).2
    -- a leaf that meets nothing gets a claim of its own
    · obtain ⟨hstored, hplaced, added, hadded, hfresh, hpair⟩ := ih h'
      rw [List.append_assoc, List.singleton_append] at hadded
      have hat : HoldsAt (claims ++ fresh') (claims.length + fresh.length) leaf.offset leaf.ty := by
        refine ⟨c.ty, c.size, hc.stored, ?_⟩
        rw [hadded, ← List.append_assoc, ← hc.offset, List.getElem?_append_right (by simp)]
        simp
      refine ⟨List.forall_mem_cons.mpr ⟨hst, hstored⟩, ⟨?_, ?_⟩, c :: added, hadded, ?_, ?_⟩
      · intro x hx hne
        obtain rfl | hx := List.mem_cons.mp hx
        · exact ⟨_, List.mem_cons_self .., hat⟩
        · obtain ⟨k, hk, hat⟩ := hplaced.all x hx hne
          exact ⟨k, List.mem_cons_of_mem _ hk, hat⟩
      · intro x hx
        obtain rfl | hx := List.mem_cons.mp hx
        · exact ⟨leaf, List.mem_cons_self .., rfl, hat⟩
        · obtain ⟨l, hl, hpath, hat⟩ := hplaced.only x hx
          exact ⟨l, List.mem_cons_of_mem _ hl, hpath, hat⟩
      · intro d hd
        obtain rfl | hd := List.mem_cons.mp hd
        · exact ⟨leaf, List.mem_cons_self .., hc⟩
        · obtain ⟨l, hl, hfor⟩ := hfresh d hd
          exact ⟨l, List.mem_cons_of_mem _ hl, hfor⟩
      · intro hp
        obtain ⟨hleaf, hp⟩ := List.pairwise_cons.mp hp
        refine List.pairwise_cons.mpr ⟨?_, hpair hp⟩
        intro d hd
        obtain ⟨l, hl, hfor⟩ := hfresh d hd
        have := hleaf l hl
        unfold PayloadLeaf.Apart at this
        unfold Claim.Apart
        rw [hc.stop_eq, hfor.stop_eq, hc.offset, hfor.offset]
        exact this

end Leaves

namespace PayloadField.Placeable

variable {totalSize size align : ℕ} {carrier : List Claim} {done : List PayloadField}
  {p p' : Placement} {f : PayloadField} {storage : LlvmType}

/-- **A field leaf by leaf.** -/
theorem decomposed_spec (hf : f.Placeable totalSize storage size align)
    {placed : List LeafClaim} {fresh : List Claim}
    (h : tryDecomposeAggregatePayload f.mirTy storage f.offset p.claims = some (placed, fresh))
    (hs : p.Spec totalSize carrier done) :
    Placement.Spec totalSize carrier (f :: done)
      { p with
        claims := p.claims ++ fresh
        leafPlacementOfField := Function.update p.leafPlacementOfField f.flat (some placed) } := by
  unfold tryDecomposeAggregatePayload at h
  split at h
  · cases h
  rename_i hmir
  split at h
  · cases h
  obtain ⟨ls, hls, h⟩ := Option.bind_eq_some_iff.mp h
  obtain ⟨hstored, hplaced, added, hadded, hfresh, hpair⟩ := placeLeaves_spec h
  rw [List.nil_append] at hadded
  subst hadded
  obtain ⟨hwithin, hapart⟩ := collect_apart hls hf.converted hf.sized'
  refine hs.step f rfl ?_ (hpair hapart) ?_ (fun _ _ hc => .inl hc) ?_ ?_ ?_
  · intro c hc
    obtain ⟨l, hl, hfor⟩ := hfresh c hc
    refine ⟨Nat.pos_of_ne_zero hfor.pos, ?_, hfor.sized⟩
    rw [hfor.stop_eq]
    have := hwithin l hl
    have := hf.within
    omega
  · intro c hc c' hc'
    obtain ⟨l, -, hfor⟩ := hfresh c' hc'
    exact Claim.apart_of_not_meets (hfor.free c hc)
  · intro flat ps hps
    dsimp only at hps
    by_cases hflat : flat = f.flat
    · subst hflat
      rw [Function.update_self, Option.some.injEq] at hps
      subst hps
      exact .inr ⟨rfl, ls, hls, hplaced⟩
    · rw [Function.update_of_ne hflat] at hps
      exact .inl hps
  · intro q hq
    obtain ⟨c, hc, hq⟩ := mem_claimPointers.mp hq
    obtain ⟨leaf, hleaf, hfor⟩ := hfresh c hc
    obtain ⟨h8, l, hl, heq⟩ := (mem_pointersAt_storage hfor.stored).mp hq
    have hscalar : q.asLeaf ∈ payloadScalars f.mirTy f.offset := by
      rw [mem_payloadScalars_of_collect hls]
      refine ⟨leaf, hleaf, List.mem_map.mpr ⟨l, hl, ?_⟩⟩
      rw [← heq, hfor.offset]
    obtain ⟨l', hl', heq'⟩ := scalar_mem_leaves hf.converted hscalar
    exact hf.mem_pointers.mpr ⟨h8, l', hl', heq'.symm⟩
  · intro q hq
    obtain ⟨h8, l, hl, heq⟩ := hf.mem_pointers.mp hq
    have hptr : ∃ a, l.2 = ptr a := storedScalar_eq_ptr (congrArg Prod.snd heq)
    have hscalar : shift f.offset (storedLeaf l) ∈ payloadScalars f.mirTy f.offset :=
      pointer_mem_scalars hf.converted hl hptr
    rw [heq, mem_payloadScalars_of_collect hls] at hscalar
    obtain ⟨leaf, hleaf, hin⟩ := hscalar
    obtain ⟨l₀, hl₀, heq₀⟩ := List.mem_map.mp hin
    -- the leaf has the bytes of the pointer
    have hsize : LlvmType.size leaf.ty ≠ 0 := by
      obtain ⟨k, hk⟩ := hstored leaf hleaf
      obtain ⟨a, ha⟩ := storedScalar_eq_ptr (congrArg Prod.snd heq₀)
      have hend := leaf_end hk hl₀
      rw [ha, show LlvmType.size (ptr a) = 8 from rfl] at hend
      rw [size_eq hk]
      omega
    obtain ⟨claim, -, st, sz, hst, hat⟩ := hplaced.all leaf hleaf hsize
    have hmem : q ∈ claimPointers (p.claims ++ fresh) :=
      mem_claimPointers.mpr ⟨_, List.mem_of_getElem? hat,
        (mem_pointersAt_storage hst).mpr ⟨h8, l₀, hl₀, heq₀⟩⟩
    rw [claimPointers_append, List.mem_append] at hmem
    exact hmem

end PayloadField.Placeable

/-! ### Through memory -/

section Overlap

variable {offset size : ℕ} {storage : LlvmType} {colliding : List Claim}
  {existing incoming extra : List PointerStorage}

/-- The pointers that are added come from the leaf and meet no colliding claim. -/
private theorem extraPointers_spec (h : extraPointers existing colliding incoming = .ok extra) :
    (∀ q ∈ incoming, q ∈ existing ∨ q ∈ extra) ∧ extra.Sublist incoming ∧
      ∀ q ∈ extra, ∀ c ∈ colliding, ¬c.Meets q.offset q.size := by
  induction incoming generalizing extra with
  | nil =>
    cases h
    exact ⟨List.forall_mem_nil _, .slnil, List.forall_mem_nil _⟩
  | cons q incoming ih =>
    rw [extraPointers] at h
    split at h
    · rename_i hold
      obtain ⟨hall, hsub, hfree⟩ := ih h
      exact ⟨List.forall_mem_cons.mpr ⟨.inl hold, hall⟩, hsub.cons q, hfree⟩
    · split at h
      · cases h
      rename_i hfree
      obtain ⟨rest, hrest, rfl⟩ : ∃ rest, extraPointers existing colliding incoming = .ok rest ∧
          q :: rest = extra := by
        cases hr : extraPointers existing colliding incoming with
        | error e =>
          rw [hr] at h
          cases h
        | ok rest =>
          rw [hr] at h
          cases h
          exact ⟨rest, rfl, rfl⟩
      obtain ⟨hall, hsub, hrestfree⟩ := ih hrest
      refine ⟨?_, hsub.cons_cons q, ?_⟩
      · intro x hx
        obtain rfl | hx := List.mem_cons.mp hx
        · exact .inr (List.mem_cons_self ..)
        · exact (hall x hx).imp_right (List.mem_cons_of_mem _)
      · intro x hx c hc hmeets
        obtain rfl | hx := List.mem_cons.mp hx
        · exact hfree (List.any_eq_true.mpr ⟨c, hc, decide_eq_true hmeets⟩)
        · exact hrestfree x hx c hc hmeets

/-- The pointers that are there already are claimed. -/
private theorem existingPointers_spec (h : existingPointers offset size colliding = .ok existing) :
    ∀ q ∈ existing, q ∈ claimPointers colliding := by
  induction colliding generalizing existing with
  | nil =>
    cases h
    exact List.forall_mem_nil _
  | cons c cs ih =>
    rw [existingPointers] at h
    cases hregions : collectPointerStorage c.ty c.offset with
    | error e =>
      rw [hregions] at h
      cases h
    | ok regions =>
      cases hrest : existingPointers offset size cs with
      | error e =>
        rw [hregions, hrest] at h
        cases h
      | ok rest =>
        rw [hregions, hrest] at h
        cases h
        intro q hq
        rw [mem_claimPointers]
        obtain hq | hq := List.mem_append.mp hq
        · rw [collectPointerStorage_eq hregions] at hq
          exact ⟨c, List.mem_cons_self .., List.mem_of_mem_filter hq⟩
        · obtain ⟨d, hd, hq⟩ := mem_claimPointers.mp (ih hrest q hq)
          exact ⟨d, List.mem_cons_of_mem _ hd, hq⟩

/-- The pointers of a type over other storage are there, or on bytes that none of it has. -/
theorem analyzePointerOverlap_spec
    (h : analyzePointerOverlap offset size storage colliding = .ok extra) :
    (∀ q ∈ pointersAt storage offset, q ∈ claimPointers colliding ∨ q ∈ extra) ∧
      extra.Sublist (pointersAt storage offset) ∧
      ∀ q ∈ extra, ∀ c ∈ colliding, ¬c.Meets q.offset q.size := by
  unfold analyzePointerOverlap at h
  cases hin : collectPointerStorage storage offset with
  | error e =>
    rw [hin] at h
    cases h
  | ok incoming =>
    cases hex : existingPointers offset size colliding with
    | error e =>
      rw [hin, hex] at h
      cases h
    | ok existing =>
      rw [hin, hex] at h
      obtain ⟨-, h⟩ : (existing.all fun leaf => leaf ∈ incoming) = true ∧
          extraPointers existing colliding incoming = .ok extra := by
        by_cases hall : (existing.all fun leaf => decide (leaf ∈ incoming)) = true
        · refine ⟨hall, ?_⟩
          rw [← h]
          exact (if_pos hall).symm
        · have : (Except.error .provenanceLoss : Except OverlapRejection (List PointerStorage)) =
              .ok extra := (if_neg hall).symm.trans h
          cases this
      obtain ⟨hall, hsub, hfree⟩ := extraPointers_spec h
      rw [collectPointerStorage_eq hin] at hall hsub
      exact ⟨fun q hq => (hall q hq).imp_left (existingPointers_spec hex q), hsub, hfree⟩

/-- The pointers of a sized type do not overlap. -/
theorem pointersAt_pairwise {s a : ℕ} (h : sizeAlign storage = some (s, a)) :
    (pointersAt storage offset).Pairwise fun q q' => q.offset + q.size ≤ q'.offset := by
  unfold pointersAt
  rw [List.pairwise_filterMap]
  apply (leaves_ordered h).imp
  intro l l' hbefore q hq q' hq'
  unfold asPointer at hq hq'
  split at hq
  · rename_i b hb
    cases hq
    split at hq'
    · cases hq'
      unfold Before at hbefore
      rw [hb, show LlvmType.size (ptr b) = 8 from rfl] at hbefore
      dsimp only
      omega
    · cases hq'
  · cases hq

/-- They lie in the type. -/
theorem pointersAt_within {s a : ℕ} (h : sizeAlign storage = some (s, a)) {q : PointerStorage}
    (hq : q ∈ pointersAt storage offset) :
    q.size = 8 ∧ offset ≤ q.offset ∧ q.offset + q.size ≤ offset + s := by
  obtain ⟨h8, l, hl, heq⟩ := mem_pointersAt.mp hq
  obtain ⟨ho, ht⟩ := Prod.mk.inj heq
  have hend := leaf_end h hl
  rw [ht, show LlvmType.size (ptr q.addressSpace) = 8 from rfl] at hend
  omega

end Overlap

namespace PayloadField.Placeable

variable {totalSize size align : ℕ} {carrier : List Claim} {done : List PayloadField}
  {p p' : Placement} {f : PayloadField} {storage : LlvmType}

/-- The pointers of a field that goes through memory. -/
private theorem extraPointerClaims_spec {colliding extra : List Claim}
    (h : f.extraPointerClaims storage size colliding = .ok extra) :
    ∃ qs : List PointerStorage, extra = qs.map (fun q => ⟨q.offset, q.size, ptr q.addressSpace⟩) ∧
      (∀ q ∈ pointersAt storage f.offset, q ∈ claimPointers colliding ∨ q ∈ qs) ∧
      qs.Sublist (pointersAt storage f.offset) ∧
      ∀ q ∈ qs, ∀ c ∈ colliding, ¬c.Meets q.offset q.size := by
  unfold PayloadField.extraPointerClaims at h
  split at h
  · split at h
    · rename_i qs hqs
      cases h
      exact ⟨qs, rfl, analyzePointerOverlap_spec hqs⟩
    · cases h
    · cases h
  · rename_i hnone
    rw [Bool.or_eq_true, not_or, Bool.not_eq_true] at hnone
    cases h
    refine ⟨[], rfl, ?_, List.nil_sublist _, List.forall_mem_nil _⟩
    rw [no_pointers storage hnone.1]
    exact List.forall_mem_nil _

/-- **A field through memory.** -/
theorem memory_spec (hf : f.Placeable totalSize storage size align) {extra : List Claim}
    (h : f.extraPointerClaims storage size (p.claims.filter (·.Meets f.offset size)) = .ok extra)
    (hs : p.Spec totalSize carrier done) :
    Placement.Spec totalSize carrier (f :: done) { p with claims := p.claims ++ extra } := by
  obtain ⟨qs, rfl, hall, hsub, hfree⟩ := extraPointerClaims_spec h
  have hbounds := fun q (hq : q ∈ qs) => pointersAt_within hf.sized (hsub.subset hq)
  -- the bytes of the field are claimed already; what is added are its pointers
  refine hs.step f rfl ?_ ?_ ?_ (fun _ _ hc => .inl hc) (fun _ _ hp => .inl hp) ?_ ?_
  · intro c hc
    obtain ⟨q, hq, rfl⟩ := List.mem_map.mp hc
    obtain ⟨h8, -, hhi⟩ := hbounds q hq
    have := hf.within
    refine ⟨?_, ?_, 8, ?_⟩
    · show 0 < q.size
      omega
    · show q.offset + q.size ≤ totalSize
      omega
    · show sizeAlign (ptr q.addressSpace) = some (q.size, 8)
      rw [h8]
      rfl
  · rw [List.pairwise_map]
    exact ((pointersAt_pairwise hf.sized).sublist hsub).imp .inl
  -- a claim that meets the field has no pointer there, every other one is apart from all of it
  · intro c hc c' hc'
    obtain ⟨q, hq, rfl⟩ := List.mem_map.mp hc'
    by_cases hmeets : c.Meets f.offset size
    · apply Claim.apart_of_not_meets
      exact hfree q hq c (List.mem_filter.mpr ⟨hc, decide_eq_true hmeets⟩)
    · obtain ⟨-, hlo, hhi⟩ := hbounds q hq
      have hapart : c.Apart ⟨f.offset, size, storage⟩ := Claim.apart_of_not_meets hmeets
      exact hapart.within hlo hhi
  · intro q hq
    obtain ⟨c, hc, hq⟩ := mem_claimPointers.mp hq
    obtain ⟨r, hr, rfl⟩ := List.mem_map.mp hc
    obtain ⟨h8, -, -⟩ := hbounds r hr
    have : q = r := by
      obtain rfl := List.mem_singleton.mp hq
      cases r
      cases h8
      rfl
    rw [this, hf.pointers_eq]
    exact hsub.subset hr
  · intro q hq
    rw [hf.pointers_eq] at hq
    -- a pointer of the field was claimed before or is claimed now
    obtain hold | hnew := hall q hq
    · left
      obtain ⟨c, hc, hq⟩ := mem_claimPointers.mp hold
      exact mem_claimPointers.mpr ⟨c, (List.mem_filter.mp hc).1, hq⟩
    · right
      obtain ⟨h8, -, -⟩ := hbounds q hnew
      refine mem_claimPointers.mpr ⟨_, List.mem_map_of_mem hnew, ?_⟩
      refine List.mem_singleton.mpr ?_
      cases q
      cases h8
      rfl

/-- A field with storage, whatever claims its bytes. -/
theorem placeStorage_spec (hf : f.Placeable totalSize storage size align)
    (h : f.placeStorage storage size p = .ok p') (hs : p.Spec totalSize carrier done) :
    p'.Spec totalSize carrier (f :: done) := by
  have hslotted : ∀ claim, (if containsI1 f.llvmTy then p.claimOfField
      else Function.update p.claimOfField f.flat (some claim)) = p.claimOfField ∨
      (if containsI1 f.llvmTy then p.claimOfField
        else Function.update p.claimOfField f.flat (some claim)) =
          Function.update p.claimOfField f.flat (some claim) := by
    intro claim
    split
    · exact .inl rfl
    · exact .inr rfl
  unfold PayloadField.placeStorage at h
  dsimp only at h
  split at h
  · rename_i claim hfind
    cases h
    obtain ⟨hlt, hclaim, -⟩ := List.findIdx?_eq_some_iff_getElem.mp hfind
    rw [Bool.and_eq_true, beq_iff_eq, beq_iff_eq] at hclaim
    have hat : p.claims[claim]? = some ⟨f.offset, size, storage⟩ := by
      obtain ⟨-, a, ha⟩ := hs.fits _ (List.getElem_mem hlt)
      rw [hclaim.2, hf.sized] at ha
      rw [List.getElem?_eq_getElem hlt, ← hclaim.1, ← hclaim.2]
      cases ha
      rfl
    exact hf.shared_spec hat hs (hslotted claim)
  · split at h
    · rename_i hfree
      rw [List.isEmpty_iff, List.filter_eq_nil_iff] at hfree
      cases h
      exact hf.own_spec (fun c hc => by simpa using hfree c hc) hs (hslotted _)
    · unfold PayloadField.placeColliding at h
      split at h
      · rename_i d hd
        cases h
        exact hf.decomposed_spec hd hs
      · obtain ⟨extra, hextra, h⟩ := Run.bind_eq_ok.mp h
        obtain ⟨-, -, h⟩ := Run.bind_eq_ok.mp h
        cases h
        exact hf.memory_spec hextra hs

end PayloadField.Placeable

section Fields

variable {totalSize : ℕ} {carrier : List Claim} {done fs : List PayloadField} {p p' : Placement}
  {f : PayloadField}

/-- What storage a field has. -/
theorem storage_eq_ok {s : Stored} (h : f.storage = .ok s) :
    enumPayloadStorageType f.llvmTy = some s.ty ∧ sizeAlign s.ty = some (s.size, s.align) ∧
      s.size = f.rustSize := by
  unfold PayloadField.storage at h
  obtain ⟨ty, hty, h⟩ := Run.bind_eq_ok.mp h
  obtain ⟨l, hl, h⟩ := Run.bind_eq_ok.mp h
  obtain ⟨_, hsize, h⟩ := Run.bind_eq_ok.mp h
  rw [Run.reject_eq_ok, not_not] at hsize
  cases h
  exact ⟨Run.okOr_eq_ok.mp hty, Run.okOr_eq_ok.mp hl, hsize⟩

/-- **One field keeps the claims in order.** -/
theorem place_spec (hconv : convertType f.mirTy = some f.llvmTy) (h : f.place totalSize p = .ok p')
    (hs : p.Spec totalSize carrier done) : p'.Spec totalSize carrier (f :: done) := by
  unfold PayloadField.place at h
  split at h
  · rename_i hdead
    cases h
    apply hs.skip
    intro q hq
    unfold PayloadField.pointers at hq
    rw [Bool.not_eq_true'] at hdead
    rw [hdead] at hq
    cases hq
  rename_i hlive
  obtain ⟨s, hstorage, h⟩ := Run.bind_eq_ok.mp h
  obtain ⟨hstored, hsized, -⟩ := storage_eq_ok hstorage
  split at h
  · rename_i hzero
    cases h
    apply hs.skip
    intro q hq
    unfold PayloadField.pointers at hq
    rw [if_pos (by simpa using hlive), hstored] at hq
    exfalso
    obtain hzero | hzero := hzero
    · obtain ⟨h8, hlo, hhi⟩ := pointersAt_within hsized hq
      omega
    · obtain ⟨-, l, hl, -⟩ := (mem_pointersAt_storage hstored).mp hq
      rw [leaves_of_isZeroSized _ hzero] at hl
      cases hl
  rename_i hpos
  rw [not_or] at hpos
  obtain ⟨_, hbounds, h⟩ := Run.bind_eq_ok.mp h
  rw [Run.reject_eq_ok, Nat.not_lt] at hbounds
  obtain ⟨-, -, h⟩ := Run.bind_eq_ok.mp h
  have hf : f.Placeable totalSize s.ty s.size s.align :=
    ⟨by simpa using hlive, hconv, hstored, hsized, Nat.pos_of_ne_zero hpos.1, hbounds⟩
  split at h
  · rename_i hbool
    exact hf.placeBool_spec hbool h hs
  · obtain ⟨-, -, h⟩ := Run.bind_eq_ok.mp h
    exact hf.placeStorage_spec h hs

/-- **The whole loop does**, in any order of the fields. -/
theorem placeFields_spec (hconv : ∀ f ∈ fs, convertType f.mirTy = some f.llvmTy)
    (h : placeFields totalSize fs p = .ok p') (hs : p.Spec totalSize carrier done) :
    p'.Spec totalSize carrier (fs.reverse ++ done) := by
  induction fs generalizing p done with
  | nil =>
    cases h
    exact hs
  | cons f fs ih =>
    obtain ⟨r, hr, h⟩ := Run.bind_eq_ok.mp h
    have hrest := ih (fun g hg => hconv g (List.mem_cons_of_mem _ hg)) h
      (place_spec (hconv f (List.mem_cons_self ..)) hr hs)
    rwa [List.reverse_cons, List.append_assoc, List.singleton_append]

end Fields

end CudaOxide.Lower
