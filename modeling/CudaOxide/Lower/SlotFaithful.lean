import CudaOxide.Lower.StructSlots

namespace CudaOxide.Lower

open Lib LlvmType

/-!
# When slots stand where rustc put the fields

`build_struct_slot_map` calls a lowering faithful where the struct it chose has rustc's offsets and
size. The verdict is drawn from the natural layout of the struct; where that cannot be computed, it
is given all the same.

* `placeAll_order`, `RespectsOrder` — slots increase in memory order, fields of size zero have none.
* `Reproduces` — the slots start at rustc's offsets and the struct has rustc's size.
* `naturalEnd`, `placeAll_natural` — where the natural layout of the placed fields ends.
* `faithful_iff` — when the verdict is right.
-/

/-! ### What one field does -/

namespace SlotState

variable {layout : RustLayout} {stored : List (Option ℕ)} {types : List LlvmType} {s s' : SlotState}
  {declIdx offset : ℕ} {ty : LlvmType} {items : List Sequential.Item} {rest : List ℕ}

/-- A field does nothing if it has no size; else it takes the next slot, behind padding if there is
an offset to reach. -/
theorem place_cases (h : s.place layout stored types declIdx = some s') :
    ∃ ty, types[declIdx]? = some ty ∧ ((isZeroSized ty = true ∧ s' = s) ∨
      (isZeroSized ty = false ∧ layout.hasExplicitLayout = true ∧ ∃ target advance,
        layout.fieldOffsets[declIdx]? = some target ∧
        ((stored[declIdx]?).getD none).or ((sizeAlign ty).map Prod.fst) = some advance ∧
        (s.padTo target).currentOffset + advance < 2 ^ 64 ∧
        s' = { (s.padTo target).push declIdx ty with
          currentOffset := (s.padTo target).currentOffset + advance }) ∨
      (isZeroSized ty = false ∧ layout.hasExplicitLayout = false ∧ s' = s.push declIdx ty)) := by
  unfold place at h
  obtain ⟨ty, hty, h⟩ := Option.bind_eq_some_iff.mp h
  refine ⟨ty, hty, ?_⟩
  split at h
  · rename_i hzero
    cases h
    exact .inl ⟨hzero, rfl⟩
  rename_i hzero
  rw [Bool.not_eq_true] at hzero
  split at h
  · rename_i hexp
    obtain ⟨target, htarget, h⟩ := Option.bind_eq_some_iff.mp h
    obtain ⟨advance, hadvance, h⟩ := Option.bind_eq_some_iff.mp h
    obtain ⟨stop, hstop, rfl⟩ := Option.map_eq_some_iff.mp h
    obtain ⟨hlt, rfl⟩ := checked_eq_some.mp hstop
    exact .inr (.inl ⟨hzero, hexp, target, advance, htarget, hadvance, hlt, rfl⟩)
  · rename_i hexp
    rw [Bool.not_eq_true] at hexp
    cases h
    exact .inr (.inr ⟨hzero, hexp, rfl⟩)

/-- Padding only adds fields. -/
theorem length_le_padTo (s : SlotState) (offset : ℕ) :
    s.llvmFields.length ≤ (s.padTo offset).llvmFields.length := by
  unfold padTo
  split
  · rw [List.length_append]
    exact Nat.le_add_right _ _
  · exact le_refl _

/-- A push adds a field. -/
theorem length_le_push (s : SlotState) (declIdx : ℕ) (ty : LlvmType) :
    s.llvmFields.length ≤ (s.push declIdx ty).llvmFields.length := by
  show s.llvmFields.length ≤ (s.llvmFields ++ [ty]).length
  rw [List.length_append]
  exact Nat.le_add_right _ _

/-- Padding brings the offset to the requested one. -/
@[simp] theorem padTo_currentOffset (s : SlotState) (offset : ℕ) :
    (s.padTo offset).currentOffset = max s.currentOffset offset := by
  unfold padTo
  split
  · rename_i hlt
    exact (max_eq_right hlt.le).symm
  · rename_i hlt
    exact (max_eq_left (Nat.le_of_not_lt hlt)).symm

/-! ### The order of the slots -/

/-- A new slot is behind all that are laid down. -/
theorem place_slot (h : s.place layout stored types declIdx = some s') {d k : ℕ}
    (hk : s'.declToLlvm d = some k) :
    s.declToLlvm d = some k ∨ (d = declIdx ∧ s.llvmFields.length ≤ k) := by
  have hpush : ∀ r : SlotState, r.declToLlvm = s.declToLlvm →
    s.llvmFields.length ≤ r.llvmFields.length →
      ∀ ty, (r.push declIdx ty).declToLlvm d = some k →
        s.declToLlvm d = some k ∨ (d = declIdx ∧ s.llvmFields.length ≤ k) := by
    intro r hdecl hlen ty hk
    unfold push at hk
    dsimp only at hk
    by_cases hd : d = declIdx
    · subst hd
      rw [Function.update_self, Option.some.injEq] at hk
      exact .inr ⟨rfl, hk ▸ hlen⟩
    · rw [Function.update_of_ne hd, hdecl] at hk
      exact .inl hk
  obtain ⟨ty, -, ⟨-, rfl⟩ | ⟨-, -, target, advance, -, -, -, rfl⟩ | ⟨-, -, rfl⟩⟩ := place_cases h
  · exact .inl hk
  · exact hpush (s.padTo target) (padTo_declToLlvm s target) (length_le_padTo s target) ty hk
  · exact hpush s rfl (le_refl _) ty hk

/-- Placing a field only adds fields. -/
theorem length_le_place (h : s.place layout stored types declIdx = some s') :
    s.llvmFields.length ≤ s'.llvmFields.length := by
  obtain ⟨ty, -, ⟨-, rfl⟩ | ⟨-, -, target, advance, -, -, -, rfl⟩ | ⟨-, -, rfl⟩⟩ := place_cases h
  · exact le_refl _
  · exact (length_le_padTo s target).trans (length_le_push _ declIdx ty)
  · exact length_le_push s declIdx ty

/-- **Slots increase in memory order**, behind those that are laid down; a field of size zero has
none. -/
theorem placeAll_order (h : s.placeAll layout stored types rest = some s') (hs : s.Spec types)
    (hnodup : rest.Nodup) (hfresh : ∀ d ∈ rest, s.declToLlvm d = none) :
    (rest.Pairwise fun d d' => ∀ k k', s'.declToLlvm d = some k →
      s'.declToLlvm d' = some k' → k < k') ∧
      (∀ d ∈ rest, ∀ k, s'.declToLlvm d = some k → s.llvmFields.length ≤ k) ∧
      ∀ d ∈ rest, ∀ ty, types[d]? = some ty → isZeroSized ty = true → s'.declToLlvm d = none := by
  induction rest generalizing s with
  | nil => exact ⟨.nil, fun d hd => absurd hd List.not_mem_nil, fun d hd =>
    absurd hd List.not_mem_nil⟩
  | cons e rest ih =>
    obtain ⟨r, hr, h⟩ := Option.bind_eq_some_iff.mp h
    obtain ⟨hnotin, hnodup⟩ := List.nodup_cons.mp hnodup
    obtain ⟨hspec, hkeep, -⟩ := place_spec hr hs (hfresh e (List.mem_cons_self ..))
    have hfresh' : ∀ d ∈ rest, r.declToLlvm d = none := by
      intro d hd
      have hne : d ≠ e := by
        rintro rfl
        exact hnotin hd
      rw [hkeep d hne]
      exact hfresh d (List.mem_cons_of_mem _ hd)
    obtain ⟨hpair, hbehind, hzero⟩ := ih h hspec hnodup hfresh'
    obtain ⟨-, hkeep', -⟩ := placeAll_spec h hspec hnodup hfresh'
    -- the first field is placed before the others, so its slot is before theirs
    refine ⟨List.pairwise_cons.mpr ⟨?_, hpair⟩, ?_, ?_⟩
    · intro d hd k k' hk hk'
      rw [hkeep' e hnotin] at hk
      obtain ⟨ty, -, hty⟩ := hspec.slot e k hk
      have hlt := (List.getElem?_eq_some_iff.mp hty).1
      have hle := hbehind d hd k' hk'
      omega
    · intro d hd k hk
      obtain rfl | hd := List.mem_cons.mp hd
      · rw [hkeep' d hnotin] at hk
        obtain hold | ⟨-, hle⟩ := place_slot hr hk
        · rw [hfresh d (List.mem_cons_self ..)] at hold
          cases hold
        · exact hle
      · exact (length_le_place hr).trans (hbehind d hd k hk)
    -- a field without a size gets no slot
    · intro d hd ty hty hz
      obtain rfl | hd := List.mem_cons.mp hd
      · rw [hkeep' d hnotin]
        obtain ⟨u, hu, hcases⟩ := place_cases hr
        obtain rfl := Option.some.inj (hty.symm.trans hu)
        obtain ⟨-, rfl⟩ | ⟨hnz, -⟩ | ⟨hnz, -⟩ := hcases
        · exact hfresh d (List.mem_cons_self ..)
        · rw [hz] at hnz
          cases hnz
        · rw [hz] at hnz
          cases hnz
      · exact hzero d hd ty hty hz

end SlotState

/-! ### The natural layout of the placed fields -/

/-- The end of the natural layout, and rustc's cursor, behind one more field. -/
def naturalStep (layout : RustLayout) (stored : List (Option ℕ)) (types : List LlvmType) (c : ℕ × ℕ)
    (declIdx : ℕ) : ℕ × ℕ :=
  let ty := (types[declIdx]?).getD unsized
  let item := (sizeAlign ty).getD (0, 1)
  let target := (layout.fieldOffsets[declIdx]?).getD 0
  if isZeroSized ty then c
  else (Sequential.alignUp (c.1 + (target - c.2)) item.2 + item.1,
    max c.2 target + ((stored[declIdx]?).getD none).getD item.1)

/-- The end of the natural layout of the fields in memory order, with the padding that rustc's
offsets and its size ask for. -/
def naturalEnd (layout : RustLayout) (stored : List (Option ℕ)) (types : List LlvmType) : ℕ :=
  let c := layout.memToDecl.foldl (naturalStep layout stored types) (0, 0)
  c.1 + (layout.totalSize - c.2)

/-- Each field with some size is of a type that the code can size. -/
def AllSized (types : List LlvmType) : Prop :=
  ∀ ty ∈ types, isZeroSized ty = false → ∃ i, sizeAlign ty = some i

/-- The rows of a struct with one more field. -/
theorem sizeAligns_concat {fs : List LlvmType} {f : LlvmType} {items : List Sequential.Item}
    {i : Sequential.Item} (hfs : sizeAligns fs = some items) (hf : sizeAlign f = some i) :
    sizeAligns (fs ++ [f]) = some (items ++ [i]) :=
  sizeAligns_eq_some.mpr (List.rel_append (sizeAligns_eq_some.mp hfs) (.cons hf .nil))

namespace SlotState

variable {layout : RustLayout} {stored : List (Option ℕ)} {types : List LlvmType} {s s' : SlotState}
  {declIdx offset : ℕ} {items : List Sequential.Item} {rest : List ℕ}

/-- Padding moves the end by its size. -/
theorem padTo_natural (hitems : sizeAligns s.llvmFields = some items) (hoffset : offset < 2 ^ 64) :
    ∃ items', sizeAligns (s.padTo offset).llvmFields = some items' ∧
      Sequential.finish 0 items' = Sequential.finish 0 items + (offset - s.currentOffset) := by
  unfold padTo
  split
  · have hpad : sizeAlign (makePaddingType (offset - s.currentOffset)) =
        some (offset - s.currentOffset, 1) := by
      show (checked (1 * (offset - s.currentOffset))).map (fun size => (size, max 1 1)) = _
      rw [Nat.one_mul, checked, if_pos (by omega)]
      rfl
    refine ⟨_, sizeAligns_concat hitems hpad, ?_⟩
    rw [Sequential.finish_concat, Sequential.alignUp_one]
  · rename_i hlt
    refine ⟨items, hitems, ?_⟩
    omega

/-- **One field moves the end of the natural layout** by one step. -/
theorem place_natural (h : s.place layout stored types declIdx = some s')
    (hexp : layout.hasExplicitLayout = true) (hsized : AllSized types)
    (hitems : sizeAligns s.llvmFields = some items) :
    ∃ items', sizeAligns s'.llvmFields = some items' ∧
      (Sequential.finish 0 items', s'.currentOffset) =
      naturalStep layout stored types (Sequential.finish 0 items, s.currentOffset) declIdx := by
  obtain ⟨ty, hty, hcases⟩ := place_cases h
  unfold naturalStep
  rw [hty, Option.getD_some]
  obtain ⟨hzero, rfl⟩ | ⟨hzero, -, target, advance, htarget, hadvance, hlt, rfl⟩ | ⟨-, hnone, -⟩ :=
    hcases
  · exact ⟨items, hitems, (if_pos hzero).symm⟩
  · obtain ⟨i, hi⟩ := hsized ty (List.mem_of_getElem? hty) hzero
    rw [padTo_currentOffset] at hlt
    obtain ⟨padded, hpadded, hend⟩ := padTo_natural hitems (show target < 2 ^ 64 by omega)
    refine ⟨padded ++ [i], sizeAligns_concat hpadded hi, ?_⟩
    have hadvance : ((stored[declIdx]?).getD none).getD i.1 = advance := by
      rw [hi] at hadvance
      obtain hnone | ⟨size, hsize⟩ := Option.eq_none_or_eq_some ((stored[declIdx]?).getD none)
      · rw [hnone] at hadvance ⊢
        exact Option.some.inj hadvance
      · rw [hsize] at hadvance ⊢
        exact Option.some.inj hadvance
    rw [if_neg (by rw [hzero]; exact Bool.false_ne_true), htarget, hi,
      Sequential.finish_concat, hend]
    simp only [Option.getD_some, padTo_currentOffset, hadvance]
  · rw [hexp] at hnone
    cases hnone

/-- Placing all fields follows the natural layout. -/
theorem placeAll_natural (h : s.placeAll layout stored types rest = some s')
    (hexp : layout.hasExplicitLayout = true) (hsized : AllSized types)
    (hitems : sizeAligns s.llvmFields = some items) :
    ∃ items', sizeAligns s'.llvmFields = some items' ∧
      (Sequential.finish 0 items', s'.currentOffset) =
      rest.foldl (naturalStep layout stored types) (Sequential.finish 0 items,
        s.currentOffset) := by
  induction rest generalizing s items with
  | nil =>
    cases h
    exact ⟨items, hitems, rfl⟩
  | cons e rest ih =>
    obtain ⟨r, hr, h⟩ := Option.bind_eq_some_iff.mp h
    obtain ⟨items', hitems', hstep⟩ := place_natural hr hexp hsized hitems
    rw [List.foldl_cons, ← hstep]
    exact ih h hitems'

end SlotState

/-! ### The verdict -/

section Verdict

variable {layout : RustLayout} {stored : List (Option ℕ)} {types : List LlvmType}
  {m : StructSlotMap}
  {s : SlotState} {n : ℕ}

/-- Slots increase in memory order. -/
def RespectsOrder (layout : RustLayout) (declToLlvm : ℕ → Option ℕ) : Prop :=
  layout.memToDecl.Pairwise fun d d' =>
    ∀ k k', declToLlvm d = some k → declToLlvm d' = some k' → k < k'

/-- The struct has rustc's size, and each slot of a field starts at rustc's offset. -/
structure Reproduces (m : StructSlotMap) (layout : RustLayout) : Prop where
  size : ∃ a, sizeAlign m.llvmStructTy = some (layout.totalSize, a)
  offset : ∀ d k, m.declToLlvm d = some k →
    (LlvmType.fieldOffsets m.llvmFields m.packed)[k]? = layout.fieldOffsets[d]?

/-- The layout is known exactly where all slots are sized and end in time. -/
theorem naturalLayoutWalk_isSome_iff {fields : List LlvmType} :
    (naturalLayoutWalk fields).isSome = true ↔
      ∃ items, sizeAligns fields = some items ∧ Sequential.finish 0 items < 2 ^ 64 := by
  rw [Option.isSome_iff_exists]
  unfold naturalLayoutWalk
  simp only [Option.bind_eq_some_iff, Option.map_eq_some_iff, checked_eq_some]
  constructor
  · rintro ⟨w, items, hitems, stop, ⟨hlt, -⟩, -⟩
    exact ⟨items, hitems, hlt⟩
  · rintro ⟨items, hitems, hlt⟩
    exact ⟨_, items, hitems, _, ⟨hlt, rfl⟩, rfl⟩

/-- The slot of a field is at the offset that rustc gave. -/
private theorem offset_of_atRustOffsets {declToLlvm : ℕ → Option ℕ} {offsets : List ℕ}
    {llvmFields : List LlvmType} (h : atRustOffsets layout types.length declToLlvm offsets = true)
    (hspec : SlotsSpec types llvmFields declToLlvm) {d k : ℕ} (hk : declToLlvm d = some k) :
    offsets[k]? = layout.fieldOffsets[d]? := by
  obtain ⟨ty, hty, -⟩ := hspec.slot d k hk
  have hall := List.all_eq_true.mp h d (List.mem_range.mpr (List.getElem?_eq_some_iff.mp hty).1)
  rw [hk] at hall
  exact eq_of_beq hall

/-- Where the natural layout is known, the verdict is right. -/
theorem reproduces_of_walk (hspec : s.Spec types) (hexp : layout.hasExplicitLayout = true)
    (htotal : layout.totalSize < 2 ^ 64) (hwalk : (naturalLayoutWalk s.llvmFields).isSome = true)
    (hflag : (s.toMap layout types.length).byValueLayoutFaithful = true) :
    Reproduces (s.toMap layout types.length) layout := by
  obtain ⟨items, hitems, hlt⟩ := naturalLayoutWalk_isSome_iff.mp hwalk
  have hw : naturalLayoutWalk s.llvmFields =
      some (Sequential.offsets 0 items, Sequential.finish 0 items, Sequential.widest items) := by
    unfold naturalLayoutWalk
    rw [hitems, Option.bind_some, checked, if_pos hlt, Option.map_some]
  -- the map says which of the two layouts the LLVM struct has
  cases hdiv : (s.toMap layout types.length).layoutDiverges with
  | false =>
    have hpacked : (s.toMap layout types.length).packed = false := by
      unfold SlotState.toMap at hdiv ⊢
      dsimp only at hdiv ⊢
      rw [hdiv, Bool.false_and]
    have hnat := hdiv
    unfold SlotState.toMap at hnat
    dsimp only at hnat
    rw [hexp, hw, Bool.true_and, Bool.or_eq_false_iff, Bool.not_eq_false',
      bne_eq_false_iff_eq] at hnat
    refine ⟨⟨Sequential.widest items, ?_⟩, ?_⟩
    · show sizeAlign (struct s.llvmFields (s.toMap layout types.length).packed) = _
      rw [hpacked, sizeAlign, hitems, Option.bind_some, if_neg Bool.false_ne_true,
        naturalStructLayout]
      rw [hnat.2, if_pos htotal, Option.map_some]
    -- natural layout: the offsets were compared with those of rustc
    · intro d k hk
      have hoffset := offset_of_atRustOffsets hnat.1 hspec hk
      show (LlvmType.fieldOffsets s.llvmFields (s.toMap layout types.length).packed)[k]? = _
      rw [hpacked, LlvmType.fieldOffsets, hitems, Option.getD_some]
      exact hoffset
  | true =>
    have hpacked : (s.toMap layout types.length).packed = true := by
      have hor : (!(s.toMap layout types.length).layoutDiverges ||
        (s.toMap layout types.length).packed) = true := hflag
      rwa [hdiv, Bool.not_true, Bool.false_or] at hor
    have hrep := hpacked
    unfold SlotState.toMap at hrep
    dsimp only at hrep
    rw [hitems] at hrep
    simp only [Bool.and_eq_true, beq_iff_eq] at hrep
    obtain ⟨-, hsum, hat⟩ := hrep
    refine ⟨⟨1, ?_⟩, ?_⟩
    · show sizeAlign (struct s.llvmFields (s.toMap layout types.length).packed) = _
      rw [hpacked, sizeAlign, hitems, Option.bind_some, if_pos rfl, hsum, checked, if_pos htotal,
        Option.map_some]
    -- packed layout: the sizes were summed up and compared
    · intro d k hk
      have hoffset := offset_of_atRustOffsets hat hspec hk
      show (LlvmType.fieldOffsets s.llvmFields (s.toMap layout types.length).packed)[k]? = _
      rw [hpacked, LlvmType.fieldOffsets, hitems, Option.getD_some]
      exact hoffset

/-- Where it is not known, the verdict is given all the same. -/
theorem faithful_of_no_walk (hwalk : naturalLayoutWalk s.llvmFields = none) :
    (s.toMap layout n).byValueLayoutFaithful = true ∧ ¬Reproduces (s.toMap layout n) layout := by
  have hpacked : (s.toMap layout n).packed = false := by
    unfold SlotState.toMap
    dsimp only
    rw [hwalk, Bool.and_false, Bool.false_and]
  constructor
  · unfold SlotState.toMap
    dsimp only
    rw [hwalk, Bool.and_false]
    rfl
  · rintro ⟨⟨a, hsize⟩, -⟩
    replace hsize : sizeAlign (struct s.llvmFields (s.toMap layout n).packed) = _ := hsize
    rw [hpacked, sizeAlign] at hsize
    obtain ⟨items, hitems, hsize⟩ := Option.bind_eq_some_iff.mp hsize
    rw [if_neg Bool.false_ne_true] at hsize
    obtain ⟨l, hl, -⟩ := Option.map_eq_some_iff.mp hsize
    unfold naturalStructLayout at hl
    dsimp only at hl
    split at hl
    · rename_i hlt
      have hup : Sequential.finish 0 items ≤
          Sequential.alignUp (Sequential.finish 0 items) (Sequential.widest items) :=
            Sequential.le_alignUp
      have hsome := naturalLayoutWalk_isSome_iff.mpr ⟨items, hitems, by omega⟩
      rw [hwalk] at hsome
      cases hsome
    · cases hl

/-- **When the verdict is right**: each field of some size is sized, and the natural layout ends in
time. -/
theorem faithful_iff (h : buildStructSlotMap layout stored types = some m)
    (hexp : layout.hasExplicitLayout = true) (htotal : layout.totalSize < 2 ^ 64) :
    (m.byValueLayoutFaithful = true → Reproduces m layout) ↔
      AllSized types ∧ naturalEnd layout stored types < 2 ^ 64 := by
  obtain ⟨s, hs, hm, hnodup, hmem⟩ := exists_placed h
  rw [if_pos hexp] at hm
  have hspec : (s.padTo layout.totalSize).Spec types := by
    have hslots := buildStructSlotMap_slots h
    rw [hm] at hslots
    exact hslots
  -- the verdict is right exactly where the natural layout is known
  have hiff : (m.byValueLayoutFaithful = true → Reproduces m layout) ↔
      (naturalLayoutWalk (s.padTo layout.totalSize).llvmFields).isSome = true := by
    rw [hm]
    constructor
    · intro himp
      by_contra hnone
      obtain ⟨hflag, hnot⟩ := faithful_of_no_walk (Option.not_isSome_iff_eq_none.mp hnone)
      exact hnot (himp hflag)
    · exact reproduces_of_walk hspec hexp htotal
  have hend : AllSized types → ∃ items, sizeAligns (s.padTo layout.totalSize).llvmFields =
    some items ∧
      Sequential.finish 0 items = naturalEnd layout stored types := by
    intro hsized
    have hnil : sizeAligns SlotState.start.llvmFields = some [] := rfl
    obtain ⟨items, hitems, hfold⟩ := SlotState.placeAll_natural hs hexp hsized hnil
    obtain ⟨items', hitems', hfinish⟩ := SlotState.padTo_natural hitems htotal
    refine ⟨items', hitems', ?_⟩
    unfold naturalEnd
    rw [hfinish]
    dsimp only
    rw [← show _ = layout.memToDecl.foldl (naturalStep layout stored types) (0, 0) from hfold]
  rw [hiff, naturalLayoutWalk_isSome_iff]
  constructor
  · rintro ⟨items, hitems, hlt⟩
    have hsized : AllSized types := by
      intro ty hty hnz
      obtain ⟨d, hd⟩ := List.getElem?_of_mem hty
      obtain ⟨k, hk⟩ := buildStructSlotMap_has h hd hnz
      obtain ⟨u, hu, hslot⟩ := (buildStructSlotMap_slots h).slot d k hk
      obtain rfl := Option.some.inj (hd.symm.trans hu)
      rw [hm] at hslot
      obtain ⟨i, hi, -⟩ := getElem?_items hitems hslot
      exact ⟨i, hi⟩
    obtain ⟨items', hitems', hfinish⟩ := hend hsized
    obtain rfl := Option.some.inj (hitems.symm.trans hitems')
    exact ⟨hsized, hfinish ▸ hlt⟩
  · rintro ⟨hsized, hlt⟩
    obtain ⟨items, hitems, hfinish⟩ := hend hsized
    exact ⟨items, hitems, hfinish ▸ hlt⟩

/-- **The slots of a struct.**  No two fields share one, exactly the fields of size zero have none,
and they increase in memory order; the verdict is right if and only if each field of some size is
sized and the natural layout ends in time. -/
theorem slots_meet_iff (h : buildStructSlotMap layout stored types = some m) :
    (∀ d d' k, m.declToLlvm d = some k → m.declToLlvm d' = some k → d = d') ∧
      (∀ d ty, types[d]? = some ty → (m.declToLlvm d = none ↔ isZeroSized ty = true)) ∧
      RespectsOrder layout m.declToLlvm ∧
      (layout.hasExplicitLayout = true → layout.totalSize < 2 ^ 64 →
        ((m.byValueLayoutFaithful = true → Reproduces m layout) ↔
          AllSized types ∧ naturalEnd layout stored types < 2 ^ 64)) := by
  obtain ⟨s, hs, hm, hnodup, hmem⟩ := exists_placed h
  have hdecl : m.declToLlvm = s.declToLlvm := by
    rw [hm]
    show (if layout.hasExplicitLayout then s.padTo layout.totalSize else s).declToLlvm = _
    split
    · exact SlotState.padTo_declToLlvm s _
    · rfl
  obtain ⟨hpair, -, hzero⟩ :=
    SlotState.placeAll_order hs (SlotState.start_spec types) hnodup fun _ _ => rfl
  refine ⟨(buildStructSlotMap_slots h).inj, ?_, ?_, faithful_iff h⟩
  · intro d ty hty
    constructor
    · intro hnone
      by_contra hnz
      obtain ⟨k, hk⟩ := buildStructSlotMap_has h hty (Bool.eq_false_of_not_eq_true hnz)
      rw [hnone] at hk
      cases hk
    · intro hz
      rw [hdecl]
      exact hzero d ((hmem d).mpr (List.getElem?_eq_some_iff.mp hty).1) ty hty hz
  · rw [RespectsOrder, hdecl]
    exact hpair

/-- `struct Extreme { a: u8, b: i128 }`, which rustc lays out with `b` first: the verdict is that
the LLVM struct reproduces the layout, and it does. -/
theorem slots_meet_iff_extreme :
    ∃ m, buildStructSlotMap ⟨[1, 0], [16, 0], 32⟩ [none, none] [int 8, int 128] = some m ∧
      m.declToLlvm 0 = some 1 ∧ m.declToLlvm 1 = some 0 ∧
      m.byValueLayoutFaithful = true ∧ Reproduces m ⟨[1, 0], [16, 0], 32⟩ := by
  have hbuild : buildStructSlotMap ⟨[1, 0], [16, 0], 32⟩ [none, none] [int 8, int 128] = some _ :=
    rfl
  refine ⟨_, hbuild, rfl, rfl, rfl, ?_⟩
  obtain ⟨-, -, -, hverdict⟩ := slots_meet_iff hbuild
  refine (hverdict rfl (by decide)).mpr ⟨?_, by decide⟩ rfl
  intro ty hty _
  simp only [List.mem_cons, List.not_mem_nil, or_false] at hty
  obtain rfl | rfl := hty
  · exact ⟨_, rfl⟩
  · exact ⟨_, rfl⟩

/-- A byte behind a nested struct of three bytes, which rustc reports the size of, but whose vector
LLVM stores in four. -/
def behindVector : List MirType :=
  [.aggregate [.leaf ⟨some (vector (int 8) 3 false), false, none⟩] ⟨[0], [], 3⟩,
    .leaf ⟨some (int 8), false, none⟩]

/-- The struct has no natural layout that the code knows of, and it is called faithful. -/
theorem behindVector_unknown : ∃ m, slotMapOf behindVector ⟨[0, 1], [0, 3], 4⟩ = some m ∧
    m.byValueLayoutFaithful = true ∧ sizeAlign m.llvmStructTy = none ∧
    ¬Reproduces m ⟨[0, 1], [0, 3], 4⟩ := by
  refine ⟨_, rfl, rfl, rfl, ?_⟩
  rintro ⟨⟨a, hsize⟩, -⟩
  cases hsize

end Verdict

end CudaOxide.Lower
