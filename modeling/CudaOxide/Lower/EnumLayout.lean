import CudaOxide.Lower.EnumPlacement

namespace CudaOxide.Lower

open Lib LlvmType

/-!
# The layout of a lowered enum

The struct of an enum has a slot for each claim and fillers between them.  Only its size is checked;
that each slot stands at its claim follows from it.

* `Emission.Spec`, `emit_spec` — claims and fillers cover the bytes of the enum.
* `structOf_slotAt` — every slot stands at its claim.
* `mem_pointersAt_structOf` — the pointers of the struct are those of the claims.
* `EnumSlotMap.KeepsLayout`, `EnumType.Separate` — what is asked of a slot map, and the condition on
  the layout under which it holds.
-/

/-! ### Sizes -/

/-- The bytes of the fields, without gaps. -/
def width (fields : List LlvmType) : ℕ := (fields.map size).sum

/-- The widths of two field lists are added. -/
@[simp] theorem width_append (fs gs : List LlvmType) : width (fs ++ gs) = width fs + width gs := by
  simp [width]

/-- The width of one field is its size. -/
@[simp] theorem width_singleton (t : LlvmType) : width [t] = size t := by
  simp [width]

section Sizes

variable {offset n abiAlign s a : ℕ} {t : LlvmType}

/-- An alignment is its own integer's. -/
theorem intAlign_align (h : sizeAlign t = some (s, a)) : intAlign a = a := by
  induction t using LlvmType.induct generalizing s a with
  | int w =>
    cases h
    unfold intAlign
    split_ifs <;> first | rfl | omega
  | half | float | double | ptr =>
    cases h
    rfl
  | array e n ih =>
    obtain ⟨se, ae, he, -, rfl⟩ := sizeAlign_array h
    rw [max_eq_left (align_bounds he).1]
    exact ih he
  | vector e n scalable ih =>
    simp only [sizeAlign, Option.ite_none_left_eq_some, Option.bind_eq_some_iff] at h
    obtain ⟨-, bits, -, total, -, hv⟩ := h
    unfold vectorSizeAlign at hv
    split_ifs at hv <;> cases hv <;> rfl
  | struct fs packed ih =>
    obtain ⟨items, hitems, rfl, -⟩ := sizeAlign_struct h
    apply Sequential.widest_induction (P := fun a => intAlign a = a) rfl
    intro i hi
    cases packed with
    | false =>
      obtain ⟨f, hf, hfi⟩ := exists_of_forall₂ (sizeAligns_eq_some.mp hitems) hi
      exact ih f hf hfi
    | true =>
      obtain ⟨j, -, rfl⟩ := List.mem_map.mp hi
      rfl
  | unsized => cases h

/-- The size of an array in range. -/
private theorem size_array {i : ℕ × ℕ} (ht : sizeAlign t = some i) (h : i.1 * n < 2 ^ 64) :
    size (array t n) = i.1 * n := by
  unfold size
  rw [sizeAlign, ht, Option.bind_some, checked_eq_some.mpr ⟨h, rfl⟩]
  rfl

/-- A filler covers its gap. -/
theorem size_filler (h : n < 2 ^ 64) : size (makeEnumFillerType offset n abiAlign) = n := by
  unfold makeEnumFillerType
  split
  · rename_i w hw
    have hcond := List.find?_some hw
    have hmem := List.mem_of_find?_eq_some hw
    rw [decide_eq_true_eq] at hcond
    have hdiv : n / w * w = n := Nat.div_mul_cancel (Nat.dvd_of_mod_eq_zero hcond.1)
    have hbytes : (w * 8 + 7) / 8 = w := by omega
    split
    · rename_i heq
      rw [show size (int (w * 8)) = (w * 8 + 7) / 8 from rfl, hbytes, heq]
    · have hle : (w * 8 + 7) / 8 * (n / w) = n := by rw [hbytes, Nat.mul_comm, hdiv]
      rw [size_array (t := int (w * 8)) rfl (by rwa [hle]), hle]
  · have hle : (8 + 7) / 8 * n = n := Nat.one_mul n
    show size (array (int 8) n) = n
    rw [size_array (t := int 8) rfl (by rwa [hle]), hle]

/-- A filler has no pointers. -/
theorem containsPointer_filler :
    containsPointer (makeEnumFillerType offset n abiAlign) = false := by
  unfold makeEnumFillerType
  split
  · split <;> rfl
  · rfl

end Sizes

/-! ### Emission -/

/-- Claims and fillers cover the bytes so far, each claim at its offset. -/
structure Emission.Spec (abiAlign : ℕ) (done : List (Claim × ℕ)) (s : Emission) : Prop where
  width_eq : width s.llvmFields = s.currentOffset
  slot : ∀ x ∈ done, s.llvmFields[s.slotOfClaim x.2]? = some x.1.ty ∧
    width (s.llvmFields.take (s.slotOfClaim x.2)) = x.1.offset
  field : ∀ (k : ℕ) (ty : LlvmType), s.llvmFields[k]? = some ty →
    (∃ offset n, ty = makeEnumFillerType offset n abiAlign) ∨ ∃ x ∈ done, s.slotOfClaim x.2 = k

/-- Padding ends where it is asked to. -/
theorem Emission.padTo_currentOffset {s : Emission} {abiAlign offset : ℕ}
    (h : s.currentOffset ≤ offset) : (s.padTo abiAlign offset).currentOffset = offset := by
  unfold Emission.padTo
  split
  · rfl
  · omega

namespace Emission.Spec

variable {abiAlign offset : ℕ} {done rest : List (Claim × ℕ)} {s : Emission} {x : Claim × ℕ}

/-- A new field at the end moves no claim that is placed. -/
private theorem keep {ty : LlvmType} (h : s.Spec abiAlign done) (hx : x ∈ done) :
    (s.llvmFields ++ [ty])[s.slotOfClaim x.2]? = some x.1.ty ∧
      width ((s.llvmFields ++ [ty]).take (s.slotOfClaim x.2)) = x.1.offset := by
  obtain ⟨hty, hwidth⟩ := h.slot x hx
  have hlt := (List.getElem?_eq_some_iff.mp hty).1
  rw [List.getElem?_append_left hlt, List.take_append_of_le_length hlt.le]
  exact ⟨hty, hwidth⟩

/-- `padTo` keeps what is known of the fields emitted so far. -/
theorem padTo (h : s.Spec abiAlign done) (hoffset : offset < 2 ^ 64) :
    (s.padTo abiAlign offset).Spec abiAlign done := by
  unfold Emission.padTo
  split
  · refine ⟨?_, fun x hx => h.keep hx, ?_⟩
    · show width (s.llvmFields ++ [_]) = offset
      rw [width_append, width_singleton, size_filler (by omega), h.width_eq]
      omega
    · intro k ty hk
      by_cases hlt : k < s.llvmFields.length
      · rw [List.getElem?_append_left hlt] at hk
        exact h.field k ty hk
      · rw [List.getElem?_append_right (by omega)] at hk
        exact .inl ⟨_, _, List.mem_singleton.mp (List.mem_of_getElem? hk)⟩
  · exact h

/-- The next claim has the next slot. -/
theorem push (h : s.Spec abiAlign done) (hat : s.currentOffset = x.1.offset)
    (hsize : size x.1.ty = x.1.size) (hnew : ∀ y ∈ done, y.2 ≠ x.2) :
    (s.push x.2 x.1).Spec abiAlign (x :: done) := by
  unfold Emission.push
  refine ⟨?_, ?_, ?_⟩
  · show width (s.llvmFields ++ [x.1.ty]) = s.currentOffset + x.1.size
    rw [width_append, width_singleton, h.width_eq, hsize]
  · intro y hy
    dsimp only
    obtain rfl | hy := List.mem_cons.mp hy
    · rw [Function.update_self, List.take_left, h.width_eq]
      exact ⟨List.getElem?_concat_length, hat⟩
    · rw [Function.update_of_ne (hnew y hy)]
      exact h.keep hy
  · intro k ty hk
    dsimp only at hk ⊢
    by_cases hlt : k < s.llvmFields.length
    · rw [List.getElem?_append_left hlt] at hk
      obtain hfill | ⟨y, hy, hslot⟩ := h.field k ty hk
      · exact .inl hfill
      · right
        refine ⟨y, List.mem_cons_of_mem _ hy, ?_⟩
        rw [Function.update_of_ne (hnew y hy), hslot]
    · have hlen := (List.getElem?_eq_some_iff.mp hk).1
      rw [List.length_append, List.length_singleton] at hlen
      right
      refine ⟨x, List.mem_cons_self .., ?_⟩
      rw [Function.update_self]
      omega

/-- **The claims in their order.** -/
theorem foldl (h : s.Spec abiAlign done) (hstart : ∀ x ∈ rest, s.currentOffset ≤ x.1.offset)
    (horder : rest.Pairwise fun x y => x.1.stop ≤ y.1.offset)
    (hfits : ∀ x ∈ rest, size x.1.ty = x.1.size ∧ x.1.stop < 2 ^ 64)
    (hnew : (rest.map Prod.snd).Nodup) (hfresh : ∀ x ∈ rest, ∀ y ∈ done, y.2 ≠ x.2) :
    (rest.foldl (fun s x => (s.padTo abiAlign x.1.offset).push x.2 x.1) s).Spec abiAlign
        (rest.reverse ++ done) ∧
      ∀ total, s.currentOffset ≤ total → (∀ x ∈ rest, x.1.stop ≤ total) →
        (rest.foldl (fun s x => (s.padTo abiAlign x.1.offset).push x.2 x.1) s).currentOffset ≤
          total := by
  induction rest generalizing s done with
  | nil => exact ⟨h, fun total hle _ => hle⟩
  | cons x rest ih =>
    obtain ⟨hx, horder⟩ := List.pairwise_cons.mp horder
    obtain ⟨⟨hsize, hstop⟩, hfits⟩ := List.forall_mem_cons.mp hfits
    obtain ⟨hnotin, hnew⟩ := List.nodup_cons.mp hnew
    have hle := hstart x (List.mem_cons_self ..)
    have hcur : (s.padTo abiAlign x.1.offset).currentOffset = x.1.offset := padTo_currentOffset hle
    unfold Claim.stop at hstop hx
    have hpad : (s.padTo abiAlign x.1.offset).Spec abiAlign done := h.padTo (by omega)
    have hpush := hpad.push hcur hsize (hfresh x (List.mem_cons_self ..))
    have hend : ((s.padTo abiAlign x.1.offset).push x.2 x.1).currentOffset =
        x.1.offset + x.1.size := by
      show (s.padTo abiAlign x.1.offset).currentOffset + x.1.size = _
      rw [hcur]
    obtain ⟨hspec, hbound⟩ := ih hpush (by rwa [hend]) horder hfits hnew (by
      intro y hy z hz
      obtain rfl | hz := List.mem_cons.mp hz
      · intro heq
        exact hnotin (List.mem_map.mpr ⟨y, hy, heq.symm⟩)
      · exact hfresh y (List.mem_cons_of_mem _ hy) z hz)
    rw [List.reverse_cons, List.append_assoc, List.singleton_append, List.foldl_cons]
    refine ⟨hspec, ?_⟩
    intro total _ hall
    obtain ⟨hxt, hall⟩ := List.forall_mem_cons.mp hall
    exact hbound total (by rw [hend]; exact hxt) hall

end Emission.Spec

section Emit

variable {totalSize : ℕ} {carrier : List Claim} {done : List PayloadField} {p : Placement}

instance : Std.Total Emitted where
  total x y := by
    unfold Emitted
    omega

instance : IsTrans (Claim × ℕ) Emitted where
  trans x y z := by
    unfold Emitted
    omega

/-- A claim and its index. -/
private theorem mem_emitOrder {claims : List Claim} {x : Claim × ℕ} :
    x ∈ emitOrder claims ↔ claims[x.2]? = some x.1 := by
  unfold emitOrder
  rw [List.mem_insertionSort, List.mem_zipIdx_iff_getElem?]

/-- No claim is emitted twice. -/
private theorem nodup_emitOrder {claims : List Claim} :
    ((emitOrder claims).map Prod.snd).Nodup := by
  have hperm : ((emitOrder claims).map Prod.snd).Perm (claims.zipIdx.map Prod.snd) :=
    (List.perm_insertionSort Emitted _).map Prod.snd
  rw [hperm.nodup_iff, List.zipIdx_map_snd]
  exact List.nodup_range'

/-- In the order of emission each claim ends before the next ones start. -/
private theorem emitOrder_pairwise (hs : p.Spec totalSize carrier done) :
    (emitOrder p.claims).Pairwise fun x y => x.1.stop ≤ y.1.offset := by
  have hsorted : (emitOrder p.claims).Pairwise Emitted := List.pairwise_insertionSort Emitted _
  have hindex : (emitOrder p.claims).Pairwise fun x y => x.2 ≠ y.2 :=
    List.pairwise_map.mp nodup_emitOrder
  apply (hsorted.and hindex).imp_of_mem
  intro x y hx hy hxy
  rw [mem_emitOrder] at hx hy
  obtain ⟨hlex, hne⟩ := hxy
  have hapart : x.1.Apart y.1 := by
    obtain ⟨hx', hx⟩ := List.getElem?_eq_some_iff.mp hx
    obtain ⟨hy', hy⟩ := List.getElem?_eq_some_iff.mp hy
    rw [← hx, ← hy]
    obtain hlt | hlt := Nat.lt_or_gt_of_ne hne
    · exact List.pairwise_iff_getElem.mp hs.apart x.2 y.2 hx' hy' hlt
    · exact (List.pairwise_iff_getElem.mp hs.apart y.2 x.2 hy' hx' hlt).symm
  unfold Claim.Apart Claim.stop at *
  obtain hlt | ⟨heq, hle⟩ := hlex
  · omega
  · -- two claims at one offset: the later one is not the carrier, so it has bytes
    have hpos : 0 < y.1.size := by
      apply hs.pos
      obtain ⟨hy', hy⟩ := List.getElem?_eq_some_iff.mp hy
      cases hc : p.claims with
      | nil =>
        rw [hc] at hy'
        simp at hy'
      | cons c cs =>
        obtain ⟨k, hk⟩ : ∃ k, y.2 = k + 1 := ⟨y.2 - 1, by omega⟩
        have : (c :: cs)[y.2]? = some y.1 := by
          rw [← hc, List.getElem?_eq_getElem hy', hy]
        rw [hk, List.getElem?_cons_succ] at this
        exact List.mem_of_getElem? this
    omega

/-- **Claims and fillers cover the enum.** -/
theorem emit_spec (abiAlign : ℕ) (hs : p.Spec totalSize carrier done)
    (htotal : totalSize < 2 ^ 64) :
    (emit abiAlign totalSize p.claims).Spec abiAlign (emitOrder p.claims).reverse ∧
      width (emit abiAlign totalSize p.claims).llvmFields = totalSize := by
  have hmem := fun x (hx : x ∈ emitOrder p.claims) => List.mem_of_getElem? (mem_emitOrder.mp hx)
  have hstart : Emission.start.Spec abiAlign [] := by
    refine ⟨rfl, List.forall_mem_nil _, ?_⟩
    intro k ty hk
    cases hk
  obtain ⟨hspec, hbound⟩ := hstart.foldl (fun _ _ => Nat.zero_le _) (emitOrder_pairwise hs) (by
      intro x hx
      obtain ⟨hstop, a, ha⟩ := hs.fits x.1 (hmem x hx)
      exact ⟨size_eq ha, hstop.trans_lt htotal⟩) nodup_emitOrder (fun _ _ _ hy => by cases hy)
  rw [List.append_nil] at hspec
  have hend := hbound totalSize (Nat.zero_le _) fun x hx => (hs.fits x.1 (hmem x hx)).1
  have hpad := hspec.padTo htotal
  exact ⟨hpad, hpad.width_eq.trans (Emission.padTo_currentOffset hend)⟩

end Emit

/-! ### The struct -/

/-- A slot of a struct, where it starts, and its type. -/
def SlotAt (fields : List LlvmType) (slot offset : ℕ) (ty : LlvmType) : Prop :=
  fields[slot]? = some ty ∧ (LlvmType.fieldOffsets fields false)[slot]? = some offset

/-- The alignment of the anchor. -/
def anchorAlign (abiAlign : ℕ) : ℕ := intAlign (min (max abiAlign 1) 16)

section Struct

variable {e : EnumType} {carrier claims : List Claim} {done : List PayloadField} {p : Placement}
  {out : List LlvmType × (ℕ → ℕ)} {items : List Sequential.Item} {fields : List LlvmType}

/-- The total of a row is the width of its fields. -/
private theorem total_eq_width (h : sizeAligns fields = some items) :
    Sequential.total items = width fields := by
  have hall := sizeAligns_eq_some.mp h
  clear h
  induction hall with
  | nil => rfl
  | cons hf _ ih =>
    rw [Sequential.total_cons, ih, ← size_eq hf]
    exact List.sum_cons.symm

/-- The bytes before an item are those of the fields before it. -/
private theorem total_take (h : sizeAligns fields = some items) (k : ℕ) :
    Sequential.total (items.take k) = width (fields.take k) :=
  total_eq_width (sizeAligns_eq_some.mpr (List.forall₂_take k (sizeAligns_eq_some.mp h)))

/-- An anchor has no bytes and its own alignment. -/
private theorem sizeAlign_anchor (r : ℕ) :
    sizeAlign (alignmentAnchorType r) = some (0, anchorAlign r) := by
  have hbytes : (min (max r 1) 16 * 8 + 7) / 8 = min (max r 1) 16 := by omega
  unfold alignmentAnchorType anchorAlign
  rw [sizeAlign]
  show (checked ((min (max r 1) 16 * 8 + 7) / 8 * 0)).map
    (fun size => (size, max (intAlign ((min (max r 1) 16 * 8 + 7) / 8)) 1)) = _
  rw [hbytes, Nat.mul_zero, max_eq_left (one_le_intAlign _).1]
  rfl

/-- A small integer is aligned to at least its size. -/
private theorem le_intAlign {n : ℕ} (h : n ≤ 16) : n ≤ intAlign n := by
  unfold intAlign
  split_ifs <;> omega

/-- The fields of a struct together have an alignment up to sixteen that is its own integer's. -/
private theorem widest_items (h : sizeAligns fields = some items) :
    intAlign (Sequential.widest items) = Sequential.widest items ∧
      Sequential.widest items ≤ 16 := by
  have hmem := fun i (hi : i ∈ items) => exists_of_forall₂ (sizeAligns_eq_some.mp h) hi
  constructor
  · apply Sequential.widest_induction (P := fun a => intAlign a = a) rfl
    intro i hi
    obtain ⟨f, -, hf⟩ := hmem i hi
    exact intAlign_align hf
  · apply Sequential.widest_le (by decide)
    intro i hi
    obtain ⟨f, -, hf⟩ := hmem i hi
    exact (align_bounds hf).2

/-- What the struct of the claims is. -/
structure StructSpec (e : EnumType) (claims : List Claim) (out : List LlvmType × (ℕ → ℕ)) :
    Prop where
  slot : ∀ (claim : ℕ) (c : Claim), claims[claim]? = some c →
    SlotAt out.1 (out.2 claim) c.offset c.ty
  field : ∀ (k : ℕ) (ty : LlvmType), out.1[k]? = some ty →
    containsPointer ty = false ∨ ∃ claim c, claims[claim]? = some c ∧ out.2 claim = k
  size : ∃ items, sizeAligns out.1 = some items ∧ Sequential.finish 0 items = e.totalSize ∧
    Sequential.widest items = anchorAlign e.abiAlign ∧ e.totalSize < 2 ^ 64

/-- **Every slot stands at its claim**: the size that is checked leaves no room for a gap. -/
theorem structOf_spec (hs : p.Spec e.totalSize carrier done) (h : e.structOf p.claims = .ok out) :
    StructSpec e p.claims out := by
  unfold EnumType.structOf at h
  obtain ⟨l, hl, h⟩ := Run.bind_eq_ok.mp h
  obtain ⟨items, hitems, hl⟩ := Option.bind_eq_some_iff.mp (Run.okOr_eq_ok.mp hl)
  obtain ⟨_, hsize, h⟩ := Run.bind_eq_ok.mp h
  obtain ⟨_, halign, h⟩ := Run.bind_eq_ok.mp h
  rw [Run.reject_eq_ok, not_not] at hsize
  rw [Run.reject_eq_ok, Nat.not_lt] at halign
  unfold naturalStructLayout at hl
  dsimp only at hl
  split at hl
  swap
  · cases hl
  rename_i hlt
  cases hl
  dsimp only at hsize halign h
  rw [hsize] at hlt
  obtain ⟨hspec, hwidth⟩ := emit_spec e.abiAlign hs hlt
  -- no gap: the sizes add up to the size of the struct
  have htotal := (total_eq_width hitems).trans hwidth
  have hfinish : Sequential.finish 0 items = e.totalSize := by
    have hle := Sequential.add_total_le_finish 0 items
    have hup := Sequential.le_alignUp (n := Sequential.finish 0 items)
      (a := Sequential.widest items)
    omega
  have hslot : ∀ (claim : ℕ) (c : Claim), p.claims[claim]? = some c →
      SlotAt (emit e.abiAlign e.totalSize p.claims).llvmFields
        ((emit e.abiAlign e.totalSize p.claims).slotOfClaim claim) c.offset c.ty := by
    intro claim c hc
    obtain ⟨hty, hbefore⟩ := hspec.slot (c, claim) (List.mem_reverse.mpr (mem_emitOrder.mpr hc))
    refine ⟨hty, ?_⟩
    obtain ⟨i, -, hi⟩ := getElem?_items hitems hty
    have hklt := (List.getElem?_eq_some_iff.mp hi).1
    have hgapless : Sequential.finish 0 items = 0 + Sequential.total items := by omega
    have htight := Sequential.offsets_eq_of_tight hgapless hklt
    rw [total_take hitems, Nat.zero_add] at htight
    unfold LlvmType.fieldOffsets
    rw [hitems]
    exact htight.trans (congrArg some hbefore)
  have hfield : ∀ (k : ℕ) (ty : LlvmType),
      (emit e.abiAlign e.totalSize p.claims).llvmFields[k]? = some ty → containsPointer ty = false ∨
        ∃ claim c, p.claims[claim]? = some c ∧
          (emit e.abiAlign e.totalSize p.claims).slotOfClaim claim = k := by
    intro k ty hk
    obtain ⟨o, n, rfl⟩ | ⟨x, hx, hslot⟩ := hspec.field k ty hk
    · exact .inl containsPointer_filler
    · exact .inr ⟨x.2, x.1, mem_emitOrder.mp (List.mem_reverse.mp hx), hslot⟩
  obtain ⟨hself, hsixteen⟩ := widest_items hitems
  have hone : 1 ≤ Sequential.widest items := Sequential.one_le_widest
  split at h
  · rename_i hless
    cases h
    have hmax : max (max e.abiAlign 1) 1 = max e.abiAlign 1 := by omega
    have hanchor : sizeAlign (alignmentAnchorType (max e.abiAlign 1)) =
        some (0, anchorAlign e.abiAlign) := by
      rw [sizeAlign_anchor]
      unfold anchorAlign
      rw [hmax]
    have hitems' : sizeAligns (alignmentAnchorType (max e.abiAlign 1) ::
        (emit e.abiAlign e.totalSize p.claims).llvmFields) =
          some ((0, anchorAlign e.abiAlign) :: items) := by
      rw [sizeAligns, hanchor, Option.bind_some, hitems]
      rfl
    refine ⟨?_, ?_, _, hitems', ?_, ?_, hlt⟩
    · intro claim c hc
      obtain ⟨hty, hoffset⟩ := hslot claim c hc
      refine ⟨hty, ?_⟩
      unfold LlvmType.fieldOffsets at hoffset ⊢
      rw [hitems] at hoffset
      rw [hitems']
      show (Sequential.alignUp 0 (anchorAlign e.abiAlign) ::
        Sequential.offsets (Sequential.alignUp 0 (anchorAlign e.abiAlign) + 0) items)[_ + 1]? = _
      rw [Sequential.alignUp_zero_left, List.getElem?_cons_succ]
      exact hoffset
    · intro k ty hk
      cases k with
      | zero =>
        cases hk
        exact .inl rfl
      | succ k =>
        obtain hnone | ⟨claim, c, hc, hslot⟩ := hfield k ty hk
        · exact .inl hnone
        · exact .inr ⟨claim, c, hc, congrArg (· + 1) hslot⟩
    · show Sequential.finish (Sequential.alignUp 0 (anchorAlign e.abiAlign) + 0) items = _
      rw [Sequential.alignUp_zero_left]
      exact hfinish
    · show max (anchorAlign e.abiAlign) (Sequential.widest items) = anchorAlign e.abiAlign
      apply max_eq_left
      have := le_intAlign (n := min (max e.abiAlign 1) 16) (by omega)
      unfold anchorAlign
      omega
  · rename_i hsame
    cases h
    refine ⟨hslot, hfield, items, hitems, hfinish, ?_, hlt⟩
    have heq : max e.abiAlign 1 = Sequential.widest items := by omega
    unfold anchorAlign
    rw [heq, min_eq_left hsixteen, hself]

end Struct

/-! ### The pointers of the struct -/

section Pointers

variable {e : EnumType} {claims : List Claim} {out : List LlvmType × (ℕ → ℕ)} {q : PointerStorage}

/-- **The pointers of the struct are those of the claims.** -/
theorem StructSpec.mem_pointersAt (h : StructSpec e claims out) :
    q ∈ pointersAt (struct out.1 false) 0 ↔ q ∈ claimPointers claims := by
  rw [Lower.mem_pointersAt, mem_claimPointers]
  constructor
  · rintro ⟨h8, l, hl, heq⟩
    obtain ⟨k, f, o, hf, ho, l', hl', rfl⟩ := mem_leaves_struct.mp hl
    have hq : q ∈ pointersAt f o := by
      refine Lower.mem_pointersAt.mpr ⟨h8, l', hl', ?_⟩
      rw [← heq]
      show (o + l'.1, l'.2) = (0 + (o + l'.1), l'.2)
      rw [Nat.zero_add]
    obtain hnone | ⟨claim, c, hc, rfl⟩ := h.field k f hf
    · rw [no_pointers f hnone] at hq
      cases hq
    · obtain ⟨hty, hoffset⟩ := h.slot claim c hc
      rw [hf, Option.some.injEq] at hty
      rw [ho, Option.some.injEq] at hoffset
      subst hty hoffset
      exact ⟨c, List.mem_of_getElem? hc, hq⟩
  · rintro ⟨c, hc, hq⟩
    obtain ⟨h8, l, hl, heq⟩ := Lower.mem_pointersAt.mp hq
    obtain ⟨claim, hclaim⟩ := List.getElem?_of_mem hc
    obtain ⟨hty, hoffset⟩ := h.slot claim c hclaim
    refine ⟨h8, shift c.offset l, mem_leaves_struct.mpr ⟨_, _, _, hty, hoffset, l, hl, rfl⟩, ?_⟩
    rw [← heq]
    show (0 + (c.offset + l.1), l.2) = (c.offset + l.1, l.2)
    rw [Nat.zero_add]

/-- The struct has rustc's size exactly where its alignment divides it. -/
theorem StructSpec.size_iff (h : StructSpec e claims out) :
    (∃ a, sizeAlign (struct out.1 false) = some (e.totalSize, a) ∧
      (e.abiAlign.isPowerOfTwo → a = min (max e.abiAlign 1) 16)) ↔
        anchorAlign e.abiAlign ∣ e.totalSize := by
  obtain ⟨items, hitems, hfinish, hwidest, hlt⟩ := h.size
  have hpos : 0 < anchorAlign e.abiAlign := (one_le_intAlign _).1
  constructor
  · rintro ⟨a, ha, -⟩
    obtain ⟨items', hitems', rfl, hsize⟩ := sizeAlign_struct ha
    rw [hitems, Option.some.injEq] at hitems'
    subst hitems'
    change e.totalSize = Sequential.alignUp (Sequential.finish 0 items)
      (Sequential.widest items) at hsize
    rw [hfinish, hwidest] at hsize
    exact (Sequential.alignUp_eq_self_iff hpos).mp hsize.symm
  · intro hdvd
    refine ⟨anchorAlign e.abiAlign, ?_, ?_⟩
    · rw [sizeAlign, hitems, Option.bind_some, if_neg Bool.false_ne_true]
      unfold naturalStructLayout
      dsimp only
      rw [hfinish, hwidest, Sequential.alignUp_of_dvd hdvd hpos, if_pos hlt]
      rfl
    · rintro ⟨k, hk⟩
      unfold anchorAlign
      rw [hk]
      by_cases hk4 : k ≤ 4
      · interval_cases k <;> rfl
      · have hpow : 2 ^ 5 ≤ 2 ^ k := Nat.pow_le_pow_right (by decide) (by omega)
        rw [max_eq_left (by omega), min_eq_right (by omega)]
        rfl

end Pointers

/-! ### The slot map -/

/-- A scalar and a pointer have a byte in common. -/
def Overlap (l : Leaf) (q : PointerStorage) : Prop :=
  max l.1 q.offset < min (l.1 + size l.2) (q.offset + q.size)

instance (l : Leaf) (q : PointerStorage) : Decidable (Overlap l q) :=
  inferInstanceAs (Decidable (_ < _))

/-- A slot has the storage of a type. -/
def EnumSlotMap.Stores (m : EnumSlotMap) (slot offset : ℕ) (ty : LlvmType) : Prop :=
  ∃ storage, enumPayloadStorageType ty = some storage ∧ SlotAt m.llvmFields slot offset storage

/-- Claims, fields, leaves and pointers have their slots where rustc put them. -/
structure EnumSlotMap.KeepsSlots (m : EnumSlotMap) (e : EnumType) : Prop where
  /-- the claims do not overlap, and each has its slot -/
  claims : ∀ r, e.place = .ok r → r.placement.claims.Pairwise Claim.Apart ∧
    ∀ c ∈ r.placement.claims, ∃ slot, SlotAt m.llvmFields slot c.offset c.ty
  carrier : ∀ slot, m.carrierSlot = some slot → ∃ ty, m.carrierLlvmTy = some ty ∧
    SlotAt m.llvmFields slot e.tagOffset ty
  /-- the slot of a field, its own or a shared one -/
  field : ∀ (flat slot : ℕ), m.fieldSlots[flat]? = some (some slot) → ∃ offset ty,
    e.allFieldOffsets[flat]? = some offset ∧ m.fieldLlvmTypes[flat]? = some ty ∧
      m.Stores slot offset ty
  /-- the slots of a field that is taken apart -/
  leaf : ∀ (flat : ℕ) (slots : List (List ℕ × ℕ)), m.fieldLeafSlots[flat]? = some (some slots) →
    ∃ mirTy offset leaves, e.allFieldTypes[flat]? = some mirTy ∧
      e.allFieldOffsets[flat]? = some offset ∧ rustcLeaves mirTy offset [] = some leaves ∧
      (∀ leaf ∈ leaves, size leaf.ty ≠ 0 → ∃ slot, (leaf.path, slot) ∈ slots ∧
        m.Stores slot leaf.offset leaf.ty) ∧
      ∀ x ∈ slots, ∃ leaf ∈ leaves, leaf.path = x.1 ∧ m.Stores x.2 leaf.offset leaf.ty
  pointers : ∀ f ∈ e.payloadFields m.fieldLlvmTypes, ∀ q ∈ f.pointers,
    q ∈ pointersAt m.llvmStructTy 0

/-- What is asked of the slot map of an enum: the slots, the size and the alignment, and no other
scalar over a pointer. -/
structure EnumSlotMap.KeepsLayout (m : EnumSlotMap) (e : EnumType) :
    Prop extends m.KeepsSlots e where
  size : ∃ a, sizeAlign m.llvmStructTy = some (e.totalSize, a) ∧
    (e.abiAlign.isPowerOfTwo → a = min (max e.abiAlign 1) 16)
  apart : ∀ f ∈ e.payloadFields m.fieldLlvmTypes, f.isInhabited = true →
    ∀ l ∈ payloadScalars f.mirTy f.offset, containsPointer l.2 = false →
      ∀ q ∈ pointersAt m.llvmStructTy 0, ¬Overlap l q

namespace EnumType

variable (e : EnumType)

/-- The pointer that the carrier of a niche is, if it is one. -/
def carrierPointers : List PointerStorage :=
  if e.carrierKind = .pointer then [⟨e.tagOffset, 8, e.carrierAddressSpace⟩] else []

/-- The pointers that rustc's layout puts into the enum: those of its payloads, and of its
carrier. -/
def pointers (types : List LlvmType) : List PointerStorage :=
  e.carrierPointers ++ (e.payloadFields types).flatMap PayloadField.pointers

/-- rustc's layout puts no other scalar over a pointer, and the size is a multiple of the alignment
that LLVM can give. -/
structure Separate : Prop where
  aligned : anchorAlign e.abiAlign ∣ e.totalSize
  apart : ∀ types, convertTypes e.allFieldTypes = some types →
    ∀ f ∈ e.payloadFields types, f.isInhabited = true → ∀ l ∈ payloadScalars f.mirTy f.offset,
      containsPointer l.2 = false → ∀ q ∈ e.pointers types, ¬Overlap l q

end EnumType

section SlotMap

variable {e : EnumType} {r : Placed} {m : EnumSlotMap} {types : List LlvmType} {f : PayloadField}

/-- What the flat vectors say of a field. -/
theorem mem_payloadFields (h : f ∈ e.payloadFields types) :
    e.allFieldTypes[f.flat]? = some f.mirTy ∧ types[f.flat]? = some f.llvmTy ∧
      e.allFieldOffsets[f.flat]? = some f.offset := by
  unfold EnumType.payloadFields at h
  simp only [List.mem_filterMap, Option.bind_eq_some_iff, Option.map_eq_some_iff] at h
  obtain ⟨flat, -, mirTy, hmir, llvmTy, hllvm, offset, hoffset, rustSize, -, rfl⟩ := h
  exact ⟨hmir, hllvm, hoffset⟩

/-- The carrier claim is in bounds and sits at the tag. -/
private theorem carrierClaim_some {t : LlvmType} {carrier : List Claim}
    (h : e.carrierClaim (some t) = .ok carrier) :
    ∃ l, sizeAlign t = some l ∧ e.tagOffset + l.1 ≤ e.totalSize ∧
      carrier = [⟨e.tagOffset, l.1, t⟩] := by
  obtain ⟨l, hl, h⟩ := Run.bind_eq_ok.mp h
  obtain ⟨_, hplace, h⟩ := Run.bind_eq_ok.mp h
  rw [Run.reject_eq_ok, not_or, not_or, Nat.not_lt] at hplace
  cases h
  exact ⟨l, Run.okOr_eq_ok.mp hl, hplace.2.2, rfl⟩

/-- The carrier is a pointer where its kind says so, and else there is none or it is an integer. -/
private theorem carrierTy_spec {ty : Option LlvmType} (h : e.carrierTy = .ok ty) :
    (ty = none ∧ e.carrierKind = .none) ∨ (∃ w, ty = some (int w) ∧ e.carrierKind = .integer) ∨
      (ty = some (ptr e.carrierAddressSpace) ∧ e.carrierKind = .pointer) := by
  unfold EnumType.carrierTy at h
  cases hk : e.carrierKind with
  | none =>
    rw [hk] at h
    cases h
    exact .inl ⟨rfl, rfl⟩
  | integer =>
    rw [hk] at h
    right
    left
    dsimp only at h
    split at h
    · obtain ⟨converted, -, h⟩ := Run.bind_eq_ok.mp h
      obtain ⟨_, hint, h⟩ := Run.bind_eq_ok.mp h
      rw [Run.reject_eq_ok, not_not] at hint
      cases h
      exact ⟨_, congrArg some hint, rfl⟩
    · cases h
      exact ⟨_, rfl, rfl⟩
  | pointer =>
    rw [hk] at h
    cases h
    exact .inr (.inr ⟨rfl, rfl⟩)

/-- The claim of the carrier. -/
private theorem carrier_spec {ty : Option LlvmType} {carrier : List Claim}
    (hty : e.carrierTy = .ok ty)
    (h : e.carrierClaim ty = .ok carrier) :
    (∀ c ∈ carrier, c.Fits e.totalSize) ∧ carrier.length ≤ 1 ∧
      (∀ t, ty = some t → ∃ c, carrier[0]? = some c ∧ c.offset = e.tagOffset ∧ c.ty = t) ∧
      claimPointers carrier = e.carrierPointers := by
  have hsome : ∀ t, ty = some t → ∃ l : ℕ × ℕ, sizeAlign t = some l ∧
      e.tagOffset + l.1 ≤ e.totalSize ∧ carrier = [⟨e.tagOffset, l.1, t⟩] := by
    rintro t rfl
    exact carrierClaim_some h
  have hptr : claimPointers carrier = e.carrierPointers := by
    unfold EnumType.carrierPointers
    obtain ⟨rfl, hk⟩ | ⟨w, hw, hk⟩ | ⟨hp, hk⟩ := carrierTy_spec hty
    · cases h
      rw [hk]
      rfl
    · obtain ⟨l, -, -, rfl⟩ := hsome _ hw
      rw [hk]
      rfl
    · obtain ⟨l, -, -, rfl⟩ := hsome _ hp
      rw [hk]
      rfl
  cases hc : ty with
  | none =>
    subst hc
    cases h
    refine ⟨List.forall_mem_nil _, Nat.zero_le 1, ?_, hptr⟩
    intro t ht
    cases ht
  | some t =>
    obtain ⟨l, hl, hle, rfl⟩ := hsome t hc
    refine ⟨?_, le_refl 1, ?_, hptr⟩
    · intro c hc
      obtain rfl := List.mem_singleton.mp hc
      exact ⟨hle, l.2, hl⟩
    · intro u hu
      cases hu
      exact ⟨_, rfl, rfl, rfl⟩

/-- **What the first phase returns.** -/
theorem EnumType.place_spec (h : e.place = .ok r) :
    ∃ carrier done, convertTypes e.allFieldTypes = some r.types ∧
      r.placement.Spec e.totalSize carrier done ∧
      (∀ f, f ∈ done ↔ f ∈ e.payloadFields r.types) ∧ claimPointers carrier = e.carrierPointers ∧
      ∀ t, r.carrierTy = some t →
        ∃ c, r.placement.claims[0]? = some c ∧ c.offset = e.tagOffset ∧ c.ty = t := by
  unfold EnumType.place at h
  -- the checks that come first place nothing
  obtain ⟨_, -, h⟩ := Run.bind_eq_ok.mp h
  obtain ⟨_, -, h⟩ := Run.bind_eq_ok.mp h
  obtain ⟨_, -, h⟩ := Run.bind_eq_ok.mp h
  obtain ⟨carrierTy, hty, h⟩ := Run.bind_eq_ok.mp h
  obtain ⟨types, htypes, h⟩ := Run.bind_eq_ok.mp h
  obtain ⟨_, -, h⟩ := Run.bind_eq_ok.mp h
  obtain ⟨carrier, hcarrier, h⟩ := Run.bind_eq_ok.mp h
  obtain ⟨placement, hplace, h⟩ := Run.bind_eq_ok.mp h
  cases h
  rw [Run.okOr_eq_ok] at htypes
  obtain ⟨hfits, hlen, hfirst, hptr⟩ := carrier_spec hty hcarrier
  -- at the start only the carrier is placed
  have hstart : Placement.Spec e.totalSize carrier [] ⟨carrier, fun _ => none, fun _ => none⟩ := by
    refine ⟨hfits, ?_, ?_, List.prefix_refl _, ?_, ?_, ?_⟩
    · intro c hc
      have : carrier.tail = [] := by
        rw [← List.length_eq_zero_iff, List.length_tail]
        omega
      dsimp only at hc
      rw [this] at hc
      cases hc
    -- the carrier is one claim at most
    · obtain _ | ⟨c, _ | ⟨d, cs⟩⟩ := carrier
      · exact .nil
      · exact List.pairwise_singleton _ _
      · simp at hlen
    · intro flat claim hc
      cases hc
    · intro flat placed hp
      cases hp
    · intro q
      simp
  -- the fields that are placed are the payload fields, with their converted types
  have hconv : ∀ f ∈ (e.payloadFields types).insertionSort PayloadField.Precedes,
      convertType f.mirTy = some f.llvmTy := by
    intro f hf
    obtain ⟨hmir, hllvm, -⟩ := mem_payloadFields ((List.mem_insertionSort _).mp hf)
    obtain ⟨ty, hty, hat⟩ := (getElem?_convertTypes htypes).1 _ _ hmir
    rw [hllvm, Option.some.injEq] at hat
    rw [hty, hat]
  have hspec := placeFields_spec hconv hplace hstart
  rw [List.append_nil] at hspec
  refine ⟨carrier, _, htypes, hspec, ?_, hptr, ?_⟩
  · intro f
    rw [List.mem_reverse, List.mem_insertionSort]
  · intro t ht
    obtain ⟨c, hc, hoffset, hct⟩ := hfirst t ht
    obtain ⟨rest, hrest⟩ := hspec.first
    refine ⟨c, ?_, hoffset, hct⟩
    rw [← hrest, List.getElem?_append_left (List.getElem?_eq_some_iff.mp hc).1]
    exact hc

end SlotMap

section SlotMap

variable {e : EnumType} {m : EnumSlotMap}

/-- What a slot map is made of. -/
private theorem buildEnumSlotMap_spec (h : buildEnumSlotMap e = .ok m) :
    ∃ r carrier done out, e.place = .ok r ∧ convertTypes e.allFieldTypes = some r.types ∧
      r.placement.Spec e.totalSize carrier done ∧ (∀ f, f ∈ done ↔ f ∈ e.payloadFields r.types) ∧
      claimPointers carrier = e.carrierPointers ∧
      (∀ t, r.carrierTy = some t →
        ∃ c, r.placement.claims[0]? = some c ∧ c.offset = e.tagOffset ∧ c.ty = t) ∧
      StructSpec e r.placement.claims out ∧
      m = { llvmFields := out.1
            carrierSlot := r.carrierTy.map fun _ => out.2 0
            carrierLlvmTy := r.carrierTy
            fieldSlots := (List.range r.types.length).map fun flat =>
              (r.placement.claimOfField flat).map out.2
            fieldLeafSlots := (List.range r.types.length).map fun flat =>
              (r.placement.leafPlacementOfField flat).map fun ls => ls.map fun l => (l.1, out.2 l.2)
            fieldOffsets := e.allFieldOffsets
            fieldLlvmTypes := r.types } := by
  unfold buildEnumSlotMap at h
  obtain ⟨r, hr, h⟩ := Run.bind_eq_ok.mp h
  obtain ⟨out, hout, h⟩ := Run.bind_eq_ok.mp h
  cases h
  obtain ⟨carrier, done, htypes, hspec, hdone, hcarrier, hfirst⟩ := EnumType.place_spec hr
  exact ⟨r, carrier, done, out, hr, htypes, hspec, hdone, hcarrier, hfirst,
    structOf_spec hspec hout, rfl⟩

/-- The pointers of the struct are those of the layout. -/
theorem mem_pointersAt_slotMap (h : buildEnumSlotMap e = .ok m) {q : PointerStorage} :
    q ∈ pointersAt m.llvmStructTy 0 ↔ q ∈ e.pointers m.fieldLlvmTypes := by
  obtain ⟨r, carrier, done, out, -, -, hspec, hdone, hcarrier, -, hstruct, rfl⟩ :=
    buildEnumSlotMap_spec h
  show q ∈ pointersAt (struct out.1 false) 0 ↔ q ∈ e.pointers r.types
  rw [hstruct.mem_pointersAt, hspec.pointers, hcarrier]
  unfold EnumType.pointers
  rw [List.mem_append, List.mem_flatMap]
  simp only [hdone]

/-- Reading a mapped range. -/
private theorem getElem?_map_range {α : Type} {n flat : ℕ} {g : ℕ → α} {a : α}
    (h : ((List.range n).map g)[flat]? = some a) : g flat = a := by
  rw [List.getElem?_map, Option.map_eq_some_iff] at h
  obtain ⟨i, hi, rfl⟩ := h
  obtain ⟨hlt, hi⟩ := List.getElem?_eq_some_iff.mp hi
  rw [List.getElem_range] at hi
  rw [hi]

/-- **Everything has its slot where rustc put it**, whatever the order of variants and fields. -/
theorem buildEnumSlotMap_keepsSlots (h : buildEnumSlotMap e = .ok m) : m.KeepsSlots e := by
  have hmem := fun q => mem_pointersAt_slotMap h (q := q)
  obtain ⟨r, carrier, done, out, hr, -, hspec, hdone, -, hfirst, hstruct, rfl⟩ :=
    buildEnumSlotMap_spec h
  have hstores : ∀ claim offset ty, HoldsAt r.placement.claims claim offset ty →
      ∃ storage, enumPayloadStorageType ty = some storage ∧
        SlotAt out.1 (out.2 claim) offset storage := by
    rintro claim offset ty ⟨storage, size, hst, hc⟩
    exact ⟨storage, hst, hstruct.slot claim _ hc⟩
  refine ⟨?_, ?_, ?_, ?_, ?_⟩
  · intro r' hr'
    rw [hr] at hr'
    -- the claims stand apart, and each has its slot
    cases hr'
    refine ⟨hspec.apart, ?_⟩
    intro c hc
    obtain ⟨claim, hclaim⟩ := List.getElem?_of_mem hc
    exact ⟨_, hstruct.slot claim c hclaim⟩
  -- the tag is in the slot of the carrier
  · intro slot hslot
    obtain ⟨t, ht, rfl⟩ := Option.map_eq_some_iff.mp hslot
    obtain ⟨c, hc, hoffset, rfl⟩ := hfirst t ht
    refine ⟨c.ty, ht, ?_⟩
    rw [← hoffset]
    exact hstruct.slot 0 c hc
  -- a payload field is in the slot of its claim
  · intro flat slot hslot
    obtain ⟨claim, hclaim, rfl⟩ := Option.map_eq_some_iff.mp (getElem?_map_range hslot)
    obtain ⟨f, hf, rfl, hat⟩ := hspec.field flat claim hclaim
    obtain ⟨-, hllvm, hoffset⟩ := mem_payloadFields ((hdone f).mp hf)
    exact ⟨f.offset, f.llvmTy, hoffset, hllvm, hstores claim _ _ hat⟩
  -- a decomposed field is in the slots of its leaves
  · intro flat slots hslots
    obtain ⟨placed, hplaced, rfl⟩ := Option.map_eq_some_iff.mp (getElem?_map_range hslots)
    obtain ⟨f, hf, rfl, leaves, hleaves, hat⟩ := hspec.leaf flat placed hplaced
    obtain ⟨hmir, -, hoffset⟩ := mem_payloadFields ((hdone f).mp hf)
    refine ⟨f.mirTy, f.offset, leaves, hmir, hoffset, collect_rustcLeaves hleaves, ?_, ?_⟩
    · intro leaf hleaf hsize
      obtain ⟨claim, hmem, hat⟩ := hat.all leaf hleaf hsize
      exact ⟨out.2 claim, List.mem_map.mpr ⟨_, hmem, rfl⟩, hstores claim _ _ hat⟩
    · intro x hx
      obtain ⟨y, hy, rfl⟩ := List.mem_map.mp hx
      obtain ⟨leaf, hleaf, hpath, hat⟩ := hat.only y hy
      exact ⟨leaf, hleaf, hpath, hstores y.2 _ _ hat⟩
  -- every pointer of a field is a pointer of the slots
  · intro f hf q hq
    refine (hmem q).mpr (List.mem_append_right _ ?_)
    exact List.mem_flatMap.mpr ⟨f, hf, hq⟩

/-- **The slot map keeps rustc's layout exactly where that puts no other scalar over a pointer.** -/
theorem keepsLayout_iff (h : buildEnumSlotMap e = .ok m) : m.KeepsLayout e ↔ e.Separate := by
  have hslots := buildEnumSlotMap_keepsSlots h
  have hmem := fun q => mem_pointersAt_slotMap h (q := q)
  obtain ⟨r, -, -, out, -, htypes, -, -, -, -, hstruct, rfl⟩ := buildEnumSlotMap_spec h
  constructor
  · intro hkeeps
    refine ⟨hstruct.size_iff.mp hkeeps.size, ?_⟩
    intro types htypes' f hf hlive l hl hother q hq
    rw [htypes, Option.some.injEq] at htypes'
    subst htypes'
    exact hkeeps.apart f hf hlive l hl hother q ((hmem q).mpr hq)
  · intro hsep
    refine ⟨hslots, hstruct.size_iff.mpr hsep.aligned, ?_⟩
    intro f hf hlive l hl hother q hq
    exact hsep.apart r.types htypes f hf hlive l hl hother q ((hmem q).mp hq)

/-- `Option<(u64, &T)>`: the pointer of the pair is the carrier, and its integer has a slot of its
own. -/
def pairEnum : EnumType where
  discriminantTy := .leaf ⟨some (int 64), false, none⟩
  allFieldTypes :=
    [.aggregate [.leaf ⟨some (int 64), false, none⟩, .leaf ⟨some (ptr generic), false, none⟩]
    ⟨[0, 1], [0, 8], 16⟩]
  allFieldOffsets := [0]
  allFieldSizes := [16]
  variantFieldCounts := [0, 1]
  variantInhabited := [1, 1]
  tagOffset := 8
  totalSize := 16
  abiAlign := 8
  layoutKind := some .niche
  carrierKind := .pointer
  carrierWidth := 64
  carrierAddressSpace := generic

/-- The slot map of `pairEnum`. -/
def pairSlots : EnumSlotMap where
  llvmFields := [int 64, ptr generic]
  carrierSlot := some 1
  carrierLlvmTy := some (ptr generic)
  fieldSlots := [none]
  fieldLeafSlots := [some [([0], 0), ([1], 1)]]
  fieldOffsets := [0]
  fieldLlvmTypes := [struct [int 64, ptr generic] false]

/-- A pair of disjoint payloads keeps the layout. -/
theorem keepsLayout_iff_pair : buildEnumSlotMap pairEnum = .ok pairSlots ∧ pairEnum.Separate ∧
    pairSlots.KeepsLayout pairEnum := by
  have hbuild : buildEnumSlotMap pairEnum = .ok pairSlots := by decide
  have hsep : pairEnum.Separate := by
    refine ⟨by decide, ?_⟩
    intro types htypes
    have heq : convertTypes pairEnum.allFieldTypes = some [struct [int 64, ptr generic] false] := by
      decide
    rw [heq, Option.some.injEq] at htypes
    subst htypes
    intro f hf
    obtain rfl := List.mem_singleton.mp hf
    decide
  exact ⟨hbuild, hsep, (keepsLayout_iff hbuild).mpr hsep⟩

/-- `enum { A(f32), B([u32; 4]), C(*const u8) }` with a 32-bit tag: the array goes through memory,
and the pointer then has its own slot over two words of the array. -/
def tornEnum : EnumType where
  discriminantTy := .leaf ⟨some (int 32), false, none⟩
  allFieldTypes := [.leaf ⟨some float, false, none⟩, .leaf ⟨some (array (int 32) 4), false, none⟩,
    .leaf ⟨some (ptr generic), false, none⟩]
  allFieldOffsets := [4, 4, 8]
  allFieldSizes := [4, 16, 8]
  variantFieldCounts := [1, 1, 1]
  variantInhabited := [1, 1, 1]
  tagOffset := 0
  totalSize := 24
  abiAlign := 8
  layoutKind := some .direct
  carrierKind := .integer
  carrierWidth := 32
  carrierAddressSpace := 0

/-- The slot map of `tornEnum`. -/
def tornSlots : EnumSlotMap where
  llvmFields := [int 32, float, ptr generic, int 64]
  carrierSlot := some 0
  carrierLlvmTy := some (int 32)
  fieldSlots := [some 1, none, some 2]
  fieldLeafSlots := [none, none, none]
  fieldOffsets := [4, 4, 8]
  fieldLlvmTypes := [float, array (int 32) 4, ptr generic]

/-- A pointer over integer payloads loses the layout. -/
theorem pointer_over_integers :
    buildEnumSlotMap tornEnum = .ok tornSlots ∧ ¬tornSlots.KeepsLayout tornEnum := by
  refine ⟨by decide, ?_⟩
  intro hkeeps
  have hfield : PayloadField.mk 1 (.leaf ⟨some (array (int 32) 4), false, none⟩)
      (array (int 32) 4) 4 16 true ∈ tornEnum.payloadFields tornSlots.fieldLlvmTypes :=
    List.mem_cons_of_mem _ (List.mem_cons_self ..)
  exact hkeeps.apart _ hfield rfl (8, int 32) (by decide) rfl ⟨8, 8, 0⟩ (by decide) (by decide)

end SlotMap

end CudaOxide.Lower
