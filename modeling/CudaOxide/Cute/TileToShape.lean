import CudaOxide.Cute.ComplementFits
import CudaOxide.Cute.Coordinates
import CudaOxide.Cute.Sm100

namespace CudaOxide.Cute

open Lib Strided

/-!
# Tilings of any rank

`tile_to_shape` for an atom of `n` modes and an arbitrary order of the axes
(`algebra/tiling.rs`), in a build with overflow checks: an `i64` overflow panics.

* `rankInOrder` — the number of a copy when the axes of the grid of copies are counted in an order.
* `tileStrides_eq` — the strides that the loop over the order leaves, attached to their axes.
* `checkedCall_axes` — the offset at one number per axis is the sum over the axes.
* `tileToShape_spec` — when a tiling is built, and the bijection that it is.
-/

variable {ε : Type} {atom l : Layout} {modes : List Layout} {target reps strides cs : List ℤ}
  {zs xs ys : List (ℤ × ℤ)} {order : List ℕ} {k p T V : ℤ}

/-! ### Copies and their order -/

/-- Which copy of the atom holds each coordinate; for the extents, how many copies there are. -/
def axisDiv (modes : List Layout) (cs : List ℤ) : List ℤ :=
  List.zipWith (fun m c => c / m.cells) modes cs

/-- The coordinates within the atom. -/
def axisMod (modes : List Layout) (cs : List ℤ) : List ℤ :=
  List.zipWith (fun m c => c % m.cells) modes cs

/-- The number of the copy `idx` in a grid of extents `reps`, the first axis of `order` fastest. -/
def rankInOrder (reps idx : List ℤ) : List ℕ → ℤ
  | [] => 0
  | axis :: order => idx.getD axis 0 + reps.getD axis 1 * rankInOrder reps idx order

/-- The strides that count the copies in an order. -/
def stridesIn (reps repStrides : List ℤ) (running : ℤ) : List ℕ → List ℤ
  | [] => repStrides
  | axis :: order =>
    stridesIn reps (repStrides.set axis running) (running * reps.getD axis 1) order

/-- The axes of a grid in an order. -/
def axesIn (reps strides : List ℤ) (order : List ℕ) : List (ℤ × ℤ) :=
  order.map fun axis => (reps.getD axis 1, strides.getD axis 0)

@[simp] theorem length_stridesIn (reps strides : List ℤ) (p : ℤ) (order : List ℕ) :
    (stridesIn reps strides p order).length = strides.length := by
  induction order generalizing strides p with
  | nil => rfl
  | cons axis order ih => rw [stridesIn, ih, List.length_set]

/-- An axis outside the order keeps its stride. -/
theorem getD_stridesIn_of_notMem {axis : ℕ} (h : axis ∉ order) :
    (stridesIn reps strides p order).getD axis 0 = strides.getD axis 0 := by
  induction order generalizing strides p with
  | nil => rfl
  | cons a order ih =>
    obtain ⟨hne, hnot⟩ := not_or.mp (List.mem_cons.not.mp h)
    rw [stridesIn, ih hnot, List.getD_eq_getElem?_getD, List.getD_eq_getElem?_getD,
      List.getElem?_set_ne (Ne.symm hne)]

/-- The strides of the order continue one another. -/
theorem chain_stridesIn (hnodup : order.Nodup) (hlt : ∀ axis ∈ order, axis < strides.length) :
    Chain p (axesIn reps (stridesIn reps strides p order) order) := by
  induction order generalizing strides p with
  | nil => trivial
  | cons axis order ih =>
    obtain ⟨hnot, hnodup⟩ := List.nodup_cons.mp hnodup
    obtain ⟨haxis, hlt⟩ := List.forall_mem_cons.mp hlt
    refine ⟨?_, ?_⟩
    · show (stridesIn reps (strides.set axis p) _ order).getD axis 0 = p
      rw [getD_stridesIn_of_notMem hnot, List.getD_eq_getElem?_getD, List.getElem?_set_self haxis]
      rfl
    · rw [mul_comm]
      exact ih hnodup fun a ha => by simpa using hlt a ha

/-- The rank of a copy is its offset in the grid. -/
theorem sum_mul_of_chain {idx : List ℤ} (h : Chain p (axesIn reps strides order)) :
    (order.map fun axis => idx.getD axis 0 * strides.getD axis 0).sum =
      p * rankInOrder reps idx order := by
  induction order generalizing p with
  | nil => simp [rankInOrder]
  | cons axis order ih =>
    obtain ⟨hstride, hch⟩ := h
    rw [List.map_cons, List.sum_cons, ih hch, rankInOrder]
    show idx.getD axis 0 * strides.getD axis 0 + _ = _
    rw [show strides.getD axis 0 = p from hstride]
    ring

/-- A list of positions is a list of pairs. -/
theorem map_range_getD {α β γ : Type} (f : α → β → γ) (xs : List α) (ys : List β) (a : α) (b : β)
    (h : xs.length = ys.length) :
    (List.range xs.length).map (fun i => f (xs.getD i a) (ys.getD i b)) = List.zipWith f xs ys := by
  apply List.ext_getElem (by simp [h])
  intro i hi hi'
  have hx : i < xs.length := by simpa using hi
  simp [hx, h ▸ hx]

/-- The grid of the copies, in the order of its axes and in the order of the walk. -/
theorem axesIn_perm (hlen : reps.length = strides.length)
    (horder : order.Perm (List.range reps.length)) :
    (axesIn reps strides order).Perm (reps.zip strides) := by
  have hzip := map_range_getD Prod.mk reps strides 1 0 hlen
  rw [List.zip, ← hzip]
  exact horder.map _

/-- The offset of a copy is its number in the order. -/
theorem rank_eq_sum {idx : List ℤ} (hlen : reps.length = strides.length)
    (hidx : idx.length = strides.length) (horder : order.Perm (List.range reps.length))
    (h : Chain 1 (axesIn reps strides order)) :
    (List.zipWith (· * ·) idx strides).sum = rankInOrder reps idx order := by
  rw [← map_range_getD (· * ·) idx strides 0 0 hidx, hidx, ← hlen]
  calc ((List.range reps.length).map fun axis => idx.getD axis 0 * strides.getD axis 0).sum
      = (order.map fun axis => idx.getD axis 0 * strides.getD axis 0).sum :=
        ((horder.map _).sum_eq).symm
    _ = 1 * rankInOrder reps idx order := sum_mul_of_chain h
    _ = rankInOrder reps idx order := one_mul _

/-- The extents of a valid layout are positive. -/
theorem Layout.Valid.positive (hl : l.Valid) : Positive l.shape.flatten := by
  intro n hn
  have hfst : (l.shape.flatten.zip l.stride.flatten).map Prod.fst = l.shape.flatten :=
    List.map_fst_zip hl.congruent.length_flatten.le
  rw [← hfst] at hn
  obtain ⟨m, hm, rfl⟩ := List.mem_map.mp hn
  exact hl.pos m hm

/-! ### The machine loops -/

/-- A position in range is looked up with any default. -/
theorem getD_eq_of_lt {axis : ℕ} (h : axis < reps.length) :
    reps[axis]? = some (reps.getD axis 1) := by
  simp [h]

/-- **The loop over the order.**  It fails only where the number of copies is not an `i64`. -/
theorem tileStrides_eq {seen : List Bool} (hreps : ∀ r ∈ reps, 0 < r) (hnodup : order.Nodup)
    (hlt : ∀ axis ∈ order, axis < reps.length)
    (hseen : ∀ axis ∈ order, seen[axis]? = some false) (hp : 0 < p) (hpfits : I64.Fits p) :
    tileStrides reps seen strides p order =
      if I64.Fits (p * (order.map fun axis => reps.getD axis 1).prod) then
        .ok (stridesIn reps strides p order)
      else Run.fail ⟨"tile_to_shape: repetition product overflow"⟩ := by
  induction order generalizing seen strides p with
  | nil =>
    rw [List.map_nil, List.prod_nil, mul_one, if_pos hpfits]
    rfl
  | cons axis order ih =>
    obtain ⟨hnot, hnodup⟩ := List.nodup_cons.mp hnodup
    obtain ⟨haxis, hlt⟩ := List.forall_mem_cons.mp hlt
    obtain ⟨hfree, hseen⟩ := List.forall_mem_cons.mp hseen
    have hrep := getD_eq_of_lt haxis
    have hr : 0 < reps.getD axis 1 := hreps _ (List.mem_of_getElem? hrep)
    have hrest : 0 < (order.map fun axis => reps.getD axis 1).prod := by
      refine List.prod_pos fun r hr => ?_
      obtain ⟨a, ha, rfl⟩ := List.mem_map.mp hr
      exact hreps _ (List.mem_of_getElem? (getD_eq_of_lt (hlt a ha)))
    have hnext := mul_pos hp hr
    -- no axis was seen before, so neither index panics
    have hindex : (Run.index seen axis : Run AlgebraError Bool) = .ok false :=
      Run.index_eq_ok.mpr hfree
    have hindexRep : (Run.index reps axis : Run AlgebraError ℤ) = .ok (reps.getD axis 1) :=
      Run.index_eq_ok.mpr hrep
    rw [tileStrides, if_neg (by omega), hindex, List.map_cons, List.prod_cons, ← mul_assoc]
    show (Run.index reps axis >>= fun rep => _) = _
    rw [hindexRep]
    show (Run.okOr (I64.checkedMul p (reps.getD axis 1)) _ >>= fun next => _) = _
    -- a product that overflows now overflows the whole
    by_cases hfits : I64.Fits (p * reps.getD axis 1)
    · rw [I64.checkedMul_of_fits hfits]
      refine ih hnodup hlt (fun a ha => ?_) hnext hfits
      rw [List.getElem?_set_ne (by rintro rfl; exact hnot ha)]
      exact hseen a ha
    · have hover :
        ¬I64.Fits (p * reps.getD axis 1 * (order.map fun axis => reps.getD axis 1).prod) :=
        fun h => hfits (fits_of_mul hnext hrest h).1
      rw [I64.checkedMul, I64.checked, if_neg hfits, if_neg hover]
      rfl

/-- The order does not change how many copies there are. -/
theorem prod_reps_in (horder : order.Perm (List.range reps.length)) :
    (order.map fun axis => reps.getD axis 1).prod = reps.prod := by
  rw [(horder.map _).prod_eq]
  congr 1
  apply List.ext_getElem (by simp)
  intro i hi hi'
  simp [hi']

/-- The checked size of a valid layout whose cells fit. -/
theorem checkedSize_eq (hl : l.Valid) (hfits : I64.Fits l.cells) :
    l.checkedSize = some l.cells := by
  rw [Layout.cells_eq_prod hl.congruent] at hfits ⊢
  exact checkedTupleSize_eq hl.positive hfits

/-- What the checked size returns are the cells. -/
theorem cells_of_checkedSize {n : ℤ} (hl : l.Valid) (h : l.checkedSize = some n) : n = l.cells := by
  rw [Layout.cells_eq_prod hl.congruent]
  exact (checkedTupleSize_ok h).2

/-- The target extends over whole copies of every axis of the atom. -/
def Tiled (modes : List Layout) (target : List ℤ) : Prop :=
  List.Forall₂ (fun m t => 0 < t ∧ m.cells ∣ t) modes target

/-- The targets of a tiling are positive. -/
theorem Tiled.positive (h : Tiled modes target) : Positive target := by
  induction h with
  | nil => exact positive_nil
  | cons hhead _ ih => exact List.forall_mem_cons.mpr ⟨hhead.1, ih⟩

/-- Each factor of a product that fits does. -/
theorem fits_of_prod {ns : List ℤ} (hpos : Positive ns) (h : I64.Fits ns.prod) :
    ∀ n ∈ ns, I64.Fits n := by
  induction ns with
  | nil => exact List.forall_mem_nil _
  | cons n ns ih =>
    obtain ⟨hn, hpos⟩ := List.forall_mem_cons.mp hpos
    obtain ⟨hfirst, hrest⟩ := fits_of_mul hn (Positive.prod_pos hpos) h
    exact List.forall_mem_cons.mpr ⟨hfirst, ih hpos hrest⟩

/-- The repetitions of each axis, where every target fits. -/
theorem tileReps_eq (hvalid : ∀ m ∈ modes, m.Valid) (htarget : Tiled modes target)
    (hfits : ∀ t ∈ target, I64.Fits t) :
    tileReps modes target = .ok (axisDiv modes target) := by
  induction htarget with
  | nil => rfl
  | @cons mode t modes target hhead _ ih =>
    obtain ⟨ht, hdvd⟩ := hhead
    obtain ⟨hm, hvalid⟩ := List.forall_mem_cons.mp hvalid
    obtain ⟨htfits, hfits⟩ := List.forall_mem_cons.mp hfits
    have he := hm.cells_pos
    have hsize := checkedSize_eq hm (fits_of_le he.le (Int.le_of_dvd ht hdvd) htfits)
    have hrem : (I64.rem t mode.cells : Run AlgebraError ℤ) = .ok 0 := by
      rw [I64.rem_of_nonneg ht.le htfits he, Int.emod_eq_zero_of_dvd hdvd]
    rw [tileReps, hsize]
    show ((if t ≤ 0 then .ok true else I64.rem t mode.cells >>= fun r => .ok (decide (r ≠ 0))) >>=
      fun refused => _) = _
    rw [if_neg (by omega), hrem]
    show (I64.div t mode.cells >>= fun rep => _) = _
    rw [I64.div_of_nonneg ht.le htfits he]
    show (tileReps modes target >>= fun rest => _) = _
    rw [ih hvalid hfits]
    rfl

/-- What the loop over the axes returns. -/
theorem tileReps_of_ok (hvalid : ∀ m ∈ modes, m.Valid) (hlen : modes.length = target.length)
    (h : tileReps modes target = .ok reps) : reps = axisDiv modes target := by
  induction modes generalizing target reps with
  | nil =>
    rw [List.eq_nil_of_length_eq_zero hlen.symm] at h
    cases h
    rfl
  | cons mode modes ih =>
    cases target with
    | nil => exact absurd hlen (by simp)
    | cons t target =>
      obtain ⟨hm, hvalid⟩ := List.forall_mem_cons.mp hvalid
      have hsize : mode.checkedSize = some mode.cells := by
        rw [tileReps] at h
        obtain ⟨e, he, -⟩ := Run.bind_eq_ok.mp h
        have he := Run.okOr_eq_ok.mp he
        rwa [cells_of_checkedSize hm he] at he
      obtain ⟨-, -, rest, hrest, rfl⟩ := tileReps_cons_ok hsize hm.cells_pos h
      rw [ih hvalid (Nat.succ.inj hlen) hrest]
      rfl

/-! ### The product with the grid of copies -/

/-- The modes of the grid, each a leaf, with their strides scaled. -/
def copyModes (k : ℤ) (zs : List (ℤ × ℤ)) : List Layout :=
  zs.map fun m => ⟨.leaf m.1, .leaf (m.2 * k)⟩

/-- The modes of the copies are leaves. -/
theorem congruent_copyModes {m : Layout} (hm : m ∈ copyModes k zs) :
    m.shape.Congruent m.stride := by
  obtain ⟨x, -, rfl⟩ := List.mem_map.mp hm
  rfl

/-- Two modes or more make a tuple. -/
theorem layoutFromFlat_of_two (h : 2 ≤ zs.length) :
    layoutFromFlat zs = ⟨.tuple (zs.map fun m => .leaf m.1),
      .tuple (zs.map fun m => .leaf m.2)⟩ := by
  match zs, h with
  | _ :: _ :: _, _ => rfl

/-- The copies composed mode by mode: each stride is scaled. -/
theorem compositionAll_copies (h : ∀ m ∈ zs, 0 < m.2 ∧ I64.Fits (m.2 * copyStride T V)) :
    compositionAll (layoutFromFlat (merged [(V, T)])) (zs.map fun m => .leaf m.1)
      (zs.map fun m => .leaf m.2) = .ok (copyModes (copyStride T V) zs) := by
  induction zs with
  | nil => rfl
  | cons m zs ih =>
    obtain ⟨⟨hpos, hfits⟩, h⟩ := List.forall_mem_cons.mp h
    have hleaf : compositionTree (layoutFromFlat (merged [(V, T)])) (.leaf m.1) (.leaf m.2) =
        .ok ⟨.leaf m.1, .leaf (m.2 * copyStride T V)⟩ := by
      show composeInt _ m.1 m.2 = _
      rw [composeInt_single, if_neg hpos.ne']
      show (I64.mul m.2 (copyStride T V) >>= fun d => _) = _
      rw [I64.mul, I64.exact_of_fits hfits]
      rfl
    show (compositionTree _ (.leaf m.1) (.leaf m.2) >>= fun x => _) = _
    rw [hleaf]
    show (compositionAll _ (zs.map fun m => .leaf m.1) (zs.map fun m => .leaf m.2) >>=
      fun xs => _) = _
    rw [ih h]
    rfl

/-- No mode of a chain reaches further than the chain. -/
theorem bounds_of_chain (hpos : Pos zs) (hp : 0 < p) (h : Chain p zs) :
    ∀ m ∈ zs, 0 < m.2 ∧ m.2 ≤ size zs * p := by
  induction zs generalizing p with
  | nil => exact List.forall_mem_nil _
  | cons m zs ih =>
    obtain ⟨hm, hpos⟩ := pos_cons.mp hpos
    obtain ⟨rfl, hch⟩ := h
    have hspan := mul_pos hm hp
    have hrest := size_pos hpos
    have hsize : size (m :: zs) * m.2 = size zs * (m.1 * m.2) := by
      rw [size_cons]
      ring
    rw [hsize]
    refine List.forall_mem_cons.mpr ⟨⟨hp, ?_⟩, ih hpos hspan hch⟩
    calc m.2 ≤ m.1 * m.2 := le_mul_of_one_le_left hp.le hm
      _ ≤ size zs * (m.1 * m.2) := le_mul_of_one_le_left hspan.le hrest

/-! ### Evaluating a bijection -/

/-- Where a layout enumerates its cells, nothing overflows that the number of cells does not. -/
theorem checkedCall_of_fills {c : IntTuple} (hl : l.Valid) (hf : Fills l.flatModes l.cells)
    (hfits : I64.Fits l.cells) (hc : IsCoord c l.shape)
    (hlt : offsetAt c l.shape l.stride < l.cells) :
    l.checkedCall c = some (offsetAt c l.shape l.stride) := by
  have hmax := hfits.2
  have hsize : I64.Fits l.shape.flatten.prod := by rwa [← Layout.cells_eq_prod hl.congruent]
  have hfwd : Forward l.flatModes := Moving.forward (hf.moving hl.pos)
  exact checkedCrd2idx_eq hl.congruent hl.positive hc
    (offsetFits_of_forward hl.congruent hl.positive hfwd hsize hc (by omega))

/-- A layout that enumerates its cells evaluates each of them. -/
theorem checkedCall_leaf {c : ℤ} (hl : l.Valid) (hf : Fills l.flatModes l.cells)
    (hfits : I64.Fits l.cells) (hc : c ∈ Set.Ico 0 l.cells) :
    l.checkedCall (.leaf c) = some (l.offset c) := by
  have hoff : offsetAt (.leaf c) l.shape l.stride = l.offset c := offsetAt_leaf
  rw [← hoff]
  refine checkedCall_of_fills hl hf hfits ?_ ?_
  · rw [isCoord_leaf, ← Layout.cells_eq_prod hl.congruent]
    exact hc
  · rw [hoff]
    exact (hf.mapsTo hc).2

/-- The size and the last offset of an enumeration are computed without an overflow. -/
theorem cosize_eq (hl : Enumerates l) (hfits : I64.Fits l.cells) :
    (l.cosize : Run ε ℤ) = .ok l.cells := by
  have hpos := hl.valid.cells_pos
  have hsize : (l.size : Run ε ℤ) = .ok l.cells :=
    (checkedTupleSize_spec (checkedSize_eq hl.valid hfits)).2
  have hcall : (l.call (.leaf (l.cells - 1)) : Run ε ℤ) = .ok (l.cells - 1) := by
    have hlast := checkedCall_leaf hl.valid hl.fills hfits
      (⟨by omega, by omega⟩ : l.cells - 1 ∈ Set.Ico 0 l.cells)
    rw [hl.offset_last] at hlast
    exact l.call_of_checkedCall hlast
  show (l.size >>= fun n => _) = _
  rw [hsize]
  show (if l.cells = 0 then .ok 0 else l.call (.leaf (l.cells - 1)) >>= fun o => I64.add o 1) = _
  rw [if_neg hpos.ne', hcall]
  show I64.add (l.cells - 1) 1 = _
  rw [I64.add, sub_add_cancel, I64.exact_of_fits hfits]

/-- **The product with a grid of copies.**  Only the ceiling division of the complement can overflow
where the copies can be counted. -/
theorem logicalProduct_eq (hatom : atom.Valid) (hfills : Fills atom.flatModes atom.cells)
    (hrank : 2 ≤ zs.length) (hgrid : Enumerates (layoutFromFlat zs))
    (hbounds : ∀ m ∈ zs, 0 < m.2 ∧ m.2 ≤ size zs) (hfits : I64.Fits (atom.cells * size zs)) :
    logicalProduct atom (layoutFromFlat zs) =
      if atom.cells = 1 ∨ I64.Fits (atom.cells * size zs + atom.cells) then
        .ok (Layout.fromModes
          [atom, Layout.fromModes (copyModes (copyStride atom.cells (size zs)) zs)])
      else Run.panic .overflow := by
  have hT := hatom.cells_pos
  have hV : 0 < size zs := by
    have := hgrid.valid.cells_pos
    rwa [cells_layoutFromFlat] at this
  obtain ⟨hTfits, hVfits⟩ := fits_of_mul hT hV hfits
  have hsize : (atom.size : Run AlgebraError ℤ) = .ok atom.cells :=
    (checkedTupleSize_spec (checkedSize_eq hatom hTfits)).2
  have hcosize := cosize_eq (ε := AlgebraError) hgrid (by rwa [cells_layoutFromFlat])
  rw [cells_layoutFromFlat] at hcosize
  have hcomp := complement_of_fills hatom hfills hTfits (mul_pos hT hV) hfits
  rw [upDiv_of_dvd hT (Dvd.intro _ rfl), Int.mul_ediv_cancel_left _ hT.ne'] at hcomp
  show (atom.size >>= fun n => _) = _
  rw [hsize]
  show ((layoutFromFlat zs).cosize >>= fun n => _) = _
  rw [hcosize]
  show (I64.mul atom.cells (size zs) >>= fun hi => _) = _
  rw [I64.mul, I64.exact_of_fits hfits]
  show (complement atom (atom.cells * size zs) >>= fun comp => _) = _
  rw [hcomp]
  split
  · have hcopy : ∀ m ∈ zs, 0 < m.2 ∧ I64.Fits (m.2 * copyStride atom.cells (size zs)) := by
      intro m hm
      obtain ⟨hpos, hle⟩ := hbounds m hm
      have hk := copyStride_nonneg (V := size zs) hT.le
      have hkle : copyStride atom.cells (size zs) ≤ atom.cells := by
        unfold copyStride
        split
        · exact hT.le
        · exact le_rfl
      refine ⟨hpos, fits_of_le (mul_nonneg hpos.le hk) ?_ hfits⟩
      rw [mul_comm atom.cells]
      exact mul_le_mul hle hkle hk hV.le
    have hall := compositionAll_copies hcopy
    have hcomposed : composition (layoutFromFlat (merged [(size zs, atom.cells)]))
        (layoutFromFlat zs) =
          .ok (Layout.fromModes (copyModes (copyStride atom.cells (size zs)) zs)) := by
      rw [composition, layoutFromFlat_of_two hrank, compositionTree]
      rw [hall]
      match zs, hrank with
      | _ :: _ :: _, _ => rfl
    show (composition _ _ >>= fun repeated => _) = _
    rw [hcomposed]
    rfl
  · rfl

/-- A product that returns has as many cells as fit an `i64`. -/
theorem fits_of_logicalProduct {lp : Layout} (hatom : atom.Valid)
    (hgrid : Enumerates (layoutFromFlat zs))
      (h : logicalProduct atom (layoutFromFlat zs) = .ok lp) :
    I64.Fits (atom.cells * size zs) := by
  obtain ⟨n, hn, h⟩ := Run.bind_eq_ok.mp h
  obtain ⟨copies, hcopies, h⟩ := Run.bind_eq_ok.mp h
  obtain ⟨hi, hhi, h⟩ := Run.bind_eq_ok.mp h
  have hsize := (Layout.size_implements hatom.congruent).eq_of_ok hn
  have hcosize := (Layout.cosize_implements hgrid.valid).eq_of_ok hcopies
  rw [hgrid.offset_last, sub_add_cancel, cells_layoutFromFlat] at hcosize
  rw [hsize, hcosize, I64.mul, I64.exact_eq_ok] at hhi
  exact hhi.1

/-! ### One number per axis -/

/-- A coordinate within every mode. -/
def WithinAxes (modes : List Layout) (cs : List ℤ) : Prop :=
  List.Forall₂ (fun m c => 0 ≤ c ∧ c < m.cells) modes cs

/-- The offsets of the axes, one number each. -/
def sumAxes (modes : List Layout) (cs : List ℤ) : ℤ := (List.zipWith Layout.offset modes cs).sum

/-- A number per axis stands for a flat coordinate. -/
theorem exists_flat (hvalid : ∀ m ∈ modes, m.Valid) (hcs : WithinAxes modes cs) :
    ∃ c ∈ Set.Ico 0 (size (modes.flatMap Layout.flatModes)),
      eval (modes.flatMap Layout.flatModes) c = sumAxes modes cs := by
  induction hcs with
  | nil => exact ⟨0, ⟨le_rfl, one_pos⟩, rfl⟩
  | @cons mode c modes cs hc _ ih =>
    obtain ⟨hm, hvalid⟩ := List.forall_mem_cons.mp hvalid
    obtain ⟨j, hj, heval⟩ := ih hvalid
    refine ⟨c + size mode.flatModes * j, ?_, ?_⟩
    · rw [List.flatMap_cons, size_append]
      exact mem_Ico_of_digits hc hj
    · rw [List.flatMap_cons, eval_append_pair hm.pos _ hc.1 hc.2, heval]
      rfl

/-- One number per axis is a coordinate, and its offset is the sum over the axes. -/
theorem isCoordAll_axes {ss ds : List IntTuple} (hc : IntTuple.CongruentAll ss ds)
    (hcs : WithinAxes (List.zipWith Layout.mk ss ds) cs) : IsCoordAll (cs.map .leaf) ss ∧
      offsetAtAll (cs.map .leaf) ss ds = sumAxes (List.zipWith Layout.mk ss ds) cs := by
  induction ss generalizing ds cs with
  | nil =>
    rw [List.zipWith_nil_left] at hcs
    cases hcs
    exact ⟨by simp [IsCoordAll], by simp [offsetAtAll, sumAxes]⟩
  | cons s ss ih =>
    cases ds with
    | nil => exact absurd hc IntTuple.not_congruentAll_cons_nil
    | cons d ds =>
      obtain ⟨hs, hss⟩ := IntTuple.congruentAll_cons.mp hc
      cases hcs with
      | @cons _ c _ cs hhead htail =>
        obtain ⟨hcoord, hoff⟩ := ih hss htail
        rw [Layout.cells_eq_prod (l := ⟨s, d⟩) hs] at hhead
        refine ⟨?_, ?_⟩
        · rw [List.map_cons, isCoordAll_cons, isCoord_leaf]
          exact ⟨hhead, hcoord⟩
        · rw [List.map_cons, offsetAtAll, hoff, offsetAt_leaf]
          rfl

/-- The modes of a valid layout are valid. -/
theorem valid_of_mem_modes {m : Layout} (hl : l.Valid) (hm : m ∈ l.modes) : m.Valid := by
  obtain ⟨hc, -, hflat⟩ := modes_spec hl.congruent
  refine ⟨hc m hm, fun x hx => hl.pos x ?_⟩
  rw [← hflat]
  exact List.mem_flatMap.mpr ⟨m, hm, hx⟩

/-- **The offset at one number per axis.** -/
theorem checkedCall_axes (hl : l.Valid) (hf : Fills l.flatModes l.cells) (hfits : I64.Fits l.cells)
    (hrank : 2 ≤ l.rank) (hcs : WithinAxes l.modes cs) :
    l.checkedCall (.tuple (cs.map .leaf)) = some (sumAxes l.modes cs) := by
  obtain ⟨c, hc, heval⟩ := exists_flat (fun m hm => valid_of_mem_modes hl hm) hcs
  rw [(modes_spec hl.congruent).2.2] at hc heval
  have hlt : sumAxes l.modes cs < l.cells := by
    rw [← heval]
    exact (hf.mapsTo hc).2
  obtain ⟨shape, stride⟩ := l
  match shape, stride, hl.congruent with
  | .leaf s, .leaf d, _ => exact absurd hrank (by simp [Layout.rank, IntTuple.rank])
  | .tuple ss, .tuple ds, hcong =>
    obtain ⟨hcoord, hoff⟩ := isCoordAll_axes hcong hcs
    have hsum : offsetAt (.tuple (cs.map .leaf)) (.tuple ss) (.tuple ds) =
        sumAxes (Layout.mk (.tuple ss) (.tuple ds)).modes cs := offsetAt_tuple.trans hoff
    rw [← hsum] at hlt ⊢
    exact checkedCall_of_fills hl hf hfits (isCoord_tuple.mpr hcoord) hlt

/-! ### The axes of a tiling -/

/-- The atom walks each axis first, then the copies of it. -/
def tiles (k : ℤ) (modes : List Layout) (zs : List (ℤ × ℤ)) : List Layout :=
  List.zipWith (fun bm rm => Layout.fromModes [bm, rm]) modes (copyModes k zs)

@[simp] theorem length_copyModes (k : ℤ) (zs : List (ℤ × ℤ)) :
    (copyModes k zs).length = zs.length := List.length_map _

/-- A mode with its copies has one more mode. -/
theorem flatModes_tile {m : Layout} (hm : m.Valid) (r d : ℤ) :
    (Layout.fromModes [m, ⟨.leaf r, .leaf d⟩]).flatModes = m.flatModes ++ [(r, d)] :=
  flatModes_pair hm.congruent rfl

/-- The cells of a mode with its copies. -/
theorem cells_tile {m : Layout} (hm : m.Valid) (r d : ℤ) :
    (Layout.fromModes [m, ⟨.leaf r, .leaf d⟩]).cells = m.cells * r := by
  rw [Layout.cells, flatModes_tile hm, size_append, size_cons, size_nil, mul_one]
  rfl

/-- The offset of a cell is that in the mode and that of its copy. -/
theorem offset_tile {m : Layout} {r c : ℤ} (hm : m.Valid) (h0 : 0 ≤ c) (hc : c < m.cells * r)
    (d : ℤ) : (Layout.fromModes [m, ⟨.leaf r, .leaf d⟩]).offset c =
      m.offset (c % m.cells) + c / m.cells * d := by
  have hq : c / m.cells % r = c / m.cells :=
    Int.emod_eq_of_lt (Int.ediv_nonneg h0 hm.cells_pos.le)
      (Int.ediv_lt_of_lt_mul hm.cells_pos (by rwa [mul_comm]))
  have hlow : eval m.flatModes (c % m.cells) = eval m.flatModes c := eval_emod_size hm.pos c
  rw [Layout.offset, Layout.offset, flatModes_tile hm, eval_append hm.pos, hlow]
  show _ + (c / m.cells % r * d + 0) = _
  rw [hq, add_zero]

/-- One axis after the other: the coordinate in the atom, and the copy. -/
theorem sumAxes_tiles (hvalid : ∀ m ∈ modes, m.Valid) (htarget : Tiled modes target)
    (hstrides : strides.length = modes.length)
    (hcs : List.Forall₂ (fun t c => 0 ≤ c ∧ c < t) target cs) (k : ℤ) :
    WithinAxes (tiles k modes ((axisDiv modes target).zip strides)) cs ∧
      WithinAxes modes (axisMod modes cs) ∧
      sumAxes (tiles k modes ((axisDiv modes target).zip strides)) cs =
        sumAxes modes (axisMod modes cs) +
          k * (List.zipWith (· * ·) (axisDiv modes cs) strides).sum := by
  induction htarget generalizing strides cs with
  | nil =>
    cases hcs
    refine ⟨.nil, .nil, ?_⟩
    simp [tiles, sumAxes, axisDiv]
  | @cons m t modes target hhead _ ih =>
    obtain ⟨hm, hvalid⟩ := List.forall_mem_cons.mp hvalid
    obtain ⟨s, strides, rfl⟩ := List.exists_cons_of_length_eq_add_one hstrides
    cases hcs with
    | @cons _ c _ cs hc hcs =>
      obtain ⟨hin, hmod, hsum⟩ := ih hvalid (Nat.succ.inj hstrides) hcs
      have ht : m.cells * (t / m.cells) = t := Int.mul_ediv_cancel' hhead.2
      have hlt : c < m.cells * (t / m.cells) := by
        rw [ht]
        exact hc.2
      have hcells := cells_tile hm (t / m.cells) (s * k)
      refine ⟨.cons ⟨hc.1, by rwa [hcells]⟩ hin, .cons ⟨Int.emod_nonneg _ hm.cells_pos.ne',
        Int.emod_lt_of_pos _ hm.cells_pos⟩ hmod, ?_⟩
      show (Layout.fromModes [m, ⟨.leaf (t / m.cells), .leaf (s * k)⟩]).offset c +
          sumAxes (tiles k modes ((axisDiv modes target).zip strides)) cs =
        m.offset (c % m.cells) + sumAxes modes (axisMod modes cs) +
          k * (c / m.cells * s + (List.zipWith (· * ·) (axisDiv modes cs) strides).sum)
      rw [hsum, offset_tile hm hc.1 hlt]
      ring

/-- There is one quotient for each mode. -/
theorem length_axisDiv (h : modes.length = cs.length) :
    (axisDiv modes cs).length = modes.length := by
  rw [axisDiv, List.length_zipWith, h, min_self]

/-- The cells of the target are those of all copies. -/
theorem prod_target (htarget : Tiled modes target) :
    target.prod = size (modes.flatMap Layout.flatModes) * (axisDiv modes target).prod := by
  induction htarget with
  | nil => rfl
  | @cons m t modes target hhead _ ih =>
    have ht : m.cells * (t / m.cells) = t := Int.mul_ediv_cancel' hhead.2
    rw [List.prod_cons, ih, List.flatMap_cons, size_append]
    show _ = size m.flatModes * _ * (t / m.cells * (axisDiv modes target).prod)
    calc t * (size (modes.flatMap Layout.flatModes) * (axisDiv modes target).prod)
        = m.cells * (t / m.cells) *
            (size (modes.flatMap Layout.flatModes) * (axisDiv modes target).prod) := by rw [ht]
      _ = size m.flatModes * size (modes.flatMap Layout.flatModes) *
            (t / m.cells * (axisDiv modes target).prod) := by
          rw [Layout.cells]
          ring

/-- The repetitions are positive. -/
theorem axisDiv_pos (hvalid : ∀ m ∈ modes, m.Valid) (htarget : Tiled modes target) :
    ∀ r ∈ axisDiv modes target, 0 < r := by
  induction htarget with
  | nil => exact List.forall_mem_nil _
  | cons hhead _ ih =>
    obtain ⟨hm, hvalid⟩ := List.forall_mem_cons.mp hvalid
    exact List.forall_mem_cons.mpr
      ⟨Int.ediv_pos_of_pos_of_dvd hhead.1 hm.cells_pos.le hhead.2, ih hvalid⟩

/-- The tiling holds the modes of the atom and those of the grid. -/
theorem perm_tiles (hc : ∀ m ∈ modes, m.shape.Congruent m.stride) (hlen : zs.length = modes.length)
    (k : ℤ) : ((tiles k modes zs).flatMap Layout.flatModes).Perm
      (modes.flatMap Layout.flatModes ++ scale k zs) := by
  induction modes generalizing zs with
  | nil =>
    rw [List.eq_nil_of_length_eq_zero hlen]
    rfl
  | cons m modes ih =>
    obtain ⟨x, zs, rfl⟩ := List.exists_cons_of_length_eq_add_one hlen
    obtain ⟨hm, hc⟩ := List.forall_mem_cons.mp hc
    have hpair : (Layout.fromModes [m, ⟨.leaf x.1, .leaf (x.2 * k)⟩]).flatModes =
        m.flatModes ++ [(x.1, x.2 * k)] := flatModes_pair hm rfl
    show (Layout.flatModes (Layout.fromModes [m, ⟨.leaf x.1, .leaf (x.2 * k)⟩]) ++
      (tiles k modes zs).flatMap Layout.flatModes).Perm _
    rw [hpair, List.flatMap_cons, List.append_assoc, List.append_assoc]
    have hmove : ((x.1, x.2 * k) :: (modes.flatMap Layout.flatModes ++ scale k zs)).Perm
        (modes.flatMap Layout.flatModes ++ (x.1, x.2 * k) :: scale k zs) := List.perm_middle.symm
    exact (((ih hc (Nat.succ.inj hlen)).append_left [(x.1, x.2 * k)]).trans hmove).append_left _

/-- The tiles are layouts. -/
theorem congruent_of_mem_tiles {m : Layout} (hc : ∀ m ∈ modes, m.shape.Congruent m.stride)
    (hm : m ∈ tiles k modes zs) : m.shape.Congruent m.stride := by
  rw [tiles, ← List.map_uncurry_zip_eq_zipWith] at hm
  obtain ⟨⟨bm, rm⟩, hpair, rfl⟩ := List.mem_map.mp hm
  obtain ⟨hbm, hrm⟩ := List.of_mem_zip hpair
  have hall : ∀ x ∈ [bm, rm], x.shape.Congruent x.stride := by
    simp [hc bm hbm, congruent_copyModes hrm]
  exact (flatModes_tuple hall).1

/-- The grid of copies as the source builds it. -/
theorem new_grid (hlen : reps.length = strides.length) (htwo : 2 ≤ reps.length) :
    (Layout.new (.tuple (reps.map .leaf)) (.tuple (strides.map .leaf)) : Run ε Layout) =
      .ok (layoutFromFlat (reps.zip strides)) := by
  have hfst : (reps.zip strides).map (fun m => IntTuple.leaf m.1) = reps.map .leaf := by
    conv_rhs => rw [← List.map_fst_zip hlen.le, List.map_map]
    rfl
  have hsnd : (reps.zip strides).map (fun m => IntTuple.leaf m.2) = strides.map .leaf := by
    conv_rhs => rw [← List.map_snd_zip hlen.ge, List.map_map]
    rfl
  have hzip : 2 ≤ (reps.zip strides).length := by
    rwa [List.length_zip, ← hlen, min_self]
  have hflat := layoutFromFlat_of_two hzip
  rw [hfst, hsnd] at hflat
  have hcong := congruent_layoutFromFlat (reps.zip strides)
  rw [hflat] at hcong ⊢
  rw [Layout.new, Run.assert, if_pos hcong]
  rfl

/-- The number of a copy in the grid is below the number of copies. -/
theorem rank_mem {idx : List ℤ} (h : ∀ axis ∈ order,
    0 ≤ idx.getD axis 0 ∧ idx.getD axis 0 < reps.getD axis 1) :
    rankInOrder reps idx order ∈ Set.Ico 0 (order.map fun axis => reps.getD axis 1).prod := by
  induction order with
  | nil => exact ⟨le_rfl, one_pos⟩
  | cons axis order ih =>
    obtain ⟨hfirst, h⟩ := List.forall_mem_cons.mp h
    exact mem_Ico_of_digits hfirst (ih h)

/-- A coordinate of the target lies in one of the copies. -/
theorem axisDiv_within (hvalid : ∀ m ∈ modes, m.Valid) (htarget : Tiled modes target)
    (hcs : List.Forall₂ (fun t c => 0 ≤ c ∧ c < t) target cs) {axis : ℕ}
    (hlt : axis < (axisDiv modes target).length) :
    0 ≤ (axisDiv modes cs).getD axis 0 ∧
      (axisDiv modes cs).getD axis 0 < (axisDiv modes target).getD axis 1 := by
  induction htarget generalizing cs axis with
  | nil => exact absurd hlt (by simp [axisDiv])
  | @cons m t modes target hhead _ ih =>
    cases hcs with
    | @cons _ c _ cs hc hcs =>
      obtain ⟨hm, hvalid⟩ := List.forall_mem_cons.mp hvalid
      cases axis with
      | succ axis => exact ih hvalid hcs (Nat.succ_lt_succ_iff.mp hlt)
      | zero =>
        refine ⟨Int.ediv_nonneg hc.1 hm.cells_pos.le, Int.ediv_lt_of_lt_mul hm.cells_pos ?_⟩
        show c < t / m.cells * m.cells
        rw [Int.ediv_mul_cancel hhead.2]
        exact hc.2

/-! ### The tiling -/

/-- How often each axis of the atom is repeated, and the strides of the repetitions. -/
def copyGrid (atom : Layout) (target : List ℤ) (order : List ℕ) : List (ℤ × ℤ) :=
  (axisDiv atom.modes target).zip
    (stridesIn (axisDiv atom.modes target) (List.replicate atom.modes.length 0) 1 order)

/-- The layout that a tiling is. -/
def tilingOf (atom : Layout) (target : List ℤ) (order : List ℕ) : Layout :=
  Layout.fromModes (tiles (copyStride atom.cells (axisDiv atom.modes target).prod) atom.modes
    (copyGrid atom target order))

section Tiling

variable (hatom : atom.Valid) (htarget : Tiled atom.modes target)
  (horder : order.Perm (List.range atom.rank))

include hatom in

/-- An atom has one mode for each of its axes. -/
theorem length_modes : atom.modes.length = atom.rank := (modes_spec hatom.congruent).2.1

include hatom htarget

/-- There is one repetition for each axis. -/
theorem length_reps : (axisDiv atom.modes target).length = atom.rank := by
  rw [length_axisDiv htarget.length_eq, length_modes hatom]

/-- The target has the cells of the atom times those of the grid. -/
theorem target_eq : target.prod = atom.cells * (axisDiv atom.modes target).prod := by
  rw [prod_target htarget, (modes_spec hatom.congruent).2.2]
  rfl

/-- Every axis is repeated. -/
theorem reps_pos : ∀ r ∈ axisDiv atom.modes target, 0 < r :=
  axisDiv_pos (fun _ hm => valid_of_mem_modes hatom hm) htarget

/-- The grid is made of positive modes. -/
theorem pos_copyGrid : Pos (copyGrid atom target order) :=
  pos_zip (reps_pos hatom htarget)

/-- There is one stride for each repetition. -/
theorem length_strides : (axisDiv atom.modes target).length =
    (stridesIn (axisDiv atom.modes target) (List.replicate atom.modes.length 0) 1
      order).length := by
  rw [length_reps hatom htarget, length_stridesIn, List.length_replicate, length_modes hatom]

/-- The grid has one mode for each axis. -/
theorem length_copyGrid : (copyGrid atom target order).length = atom.rank := by
  rw [copyGrid, List.length_zip, ← length_strides hatom htarget, min_self,
    length_reps hatom htarget]

/-- Its cells are the product of the repetitions. -/
theorem size_copyGrid : size (copyGrid atom target order) = (axisDiv atom.modes target).prod :=
  size_zip (length_strides hatom htarget)

/-- The tiling has two modes at least. -/
theorem length_tiles (hrank : 2 ≤ atom.rank) (k : ℤ) :
    2 ≤ (tiles k atom.modes (copyGrid atom target order)).length := by
  rw [tiles, List.length_zipWith, length_copyModes, length_copyGrid hatom htarget,
    length_modes hatom, min_self]
  exact hrank

omit htarget in
include horder in
/-- The copies are counted in the order that is asked for. -/
theorem chain_axesIn : Chain 1 (axesIn (axisDiv atom.modes target)
    (stridesIn (axisDiv atom.modes target) (List.replicate atom.modes.length 0) 1 order)
      order) := by
  refine chain_stridesIn (horder.nodup_iff.mpr List.nodup_range) fun axis haxis => ?_
  rw [List.length_replicate, length_modes hatom]
  exact List.mem_range.mp (horder.mem_iff.mp haxis)

include horder

/-- In the order of the axes, the grid is a list of modes in another order. -/
theorem perm_copyGrid : (axesIn (axisDiv atom.modes target)
    (stridesIn (axisDiv atom.modes target) (List.replicate atom.modes.length 0) 1 order) order).Perm
      (copyGrid atom target order) :=
  axesIn_perm (length_strides hatom htarget) (by rwa [length_reps hatom htarget])

/-- Its strides lie within its cells. -/
theorem bounds_copyGrid : ∀ m ∈ copyGrid atom target order,
    0 < m.2 ∧ m.2 ≤ size (copyGrid atom target order) := by
  have hperm := perm_copyGrid hatom htarget horder
  have hpos : Pos (axesIn (axisDiv atom.modes target) _ order) := fun m hm =>
    pos_copyGrid hatom htarget m (hperm.mem_iff.mp hm)
  have hall := bounds_of_chain hpos one_pos (chain_axesIn hatom horder)
  rw [mul_one, size_perm hperm] at hall
  exact fun m hm => hall m (hperm.mem_iff.mpr hm)

/-- So the grid fills the interval of its cells. -/
theorem fills_copyGrid : Fills (copyGrid atom target order) (axisDiv atom.modes target).prod := by
  have hperm := perm_copyGrid hatom htarget horder
  have hpos : Pos (axesIn (axisDiv atom.modes target) _ order) := fun m hm =>
    pos_copyGrid hatom htarget m (hperm.mem_iff.mp hm)
  have hfills := (chain_axesIn hatom horder).fills hpos
  rwa [size_perm hperm, size_copyGrid hatom htarget, fills_perm hpos hperm] at hfills

/-- It enumerates them. -/
theorem enumerates_copyGrid (hrank : 2 ≤ atom.rank) :
    Enumerates (layoutFromFlat (copyGrid atom target order)) := by
  have hne : copyGrid atom target order ≠ [] := by
    rw [← List.length_pos_iff, length_copyGrid hatom htarget]
    omega
  refine ⟨valid_layoutFromFlat (pos_copyGrid hatom htarget), ?_, ?_⟩
  · rw [flatModes_layoutFromFlat hne]
    exact fun m hm => (bounds_copyGrid hatom htarget horder m hm).1.le
  · rw [flatModes_layoutFromFlat hne, cells_layoutFromFlat, size_copyGrid hatom htarget]
    exact fills_copyGrid hatom htarget horder

/-- The strides of the repetitions are found where their number is an `i64`. -/
theorem tileStrides_grid : tileStrides (axisDiv atom.modes target)
    (List.replicate atom.modes.length false) (List.replicate atom.modes.length 0) 1 order =
      if I64.Fits (axisDiv atom.modes target).prod then .ok (stridesIn (axisDiv atom.modes target)
        (List.replicate atom.modes.length 0) 1 order)
      else Run.fail ⟨"tile_to_shape: repetition product overflow"⟩ := by
  have hin : order.Perm (List.range (axisDiv atom.modes target).length) := by
    rwa [length_reps hatom htarget]
  have hfree : ∀ axis ∈ order, (List.replicate atom.modes.length false)[axis]? = some false := by
    intro axis haxis
    rw [length_modes hatom, List.getElem?_replicate,
      if_pos (List.mem_range.mp (horder.mem_iff.mp haxis))]
  rw [tileStrides_eq (reps_pos hatom htarget) (horder.nodup_iff.mpr List.nodup_range)
    (fun axis haxis => List.mem_range.mp (hin.mem_iff.mp haxis)) hfree one_pos (by decide),
    one_mul, prod_reps_in hin]

/-- Once the copies are counted, a tiling is the product with their grid. -/
theorem tileToShape_eq (hrank : 2 ≤ atom.rank)
    (hreps : tileReps atom.modes target = .ok (axisDiv atom.modes target))
    (hcopies : I64.Fits (axisDiv atom.modes target).prod) :
    tileToShape atom target order = logicalProduct atom
      (layoutFromFlat (copyGrid atom target order))
      >>= fun lp => Run.index lp.modes 0 >>= fun block => Run.index lp.modes 1 >>= fun rep =>
        .ok (Layout.fromModes
          (List.zipWith (fun bm rm => Layout.fromModes [bm, rm]) block.modes rep.modes)) := by
  have hlen := length_reps hatom htarget
  have hsame : ¬(target.length ≠ atom.modes.length ∨ order.length ≠ atom.modes.length) := by
    have hmodes := length_modes hatom
    have htargets : atom.modes.length = target.length := htarget.length_eq
    have horders : order.length = atom.rank := by rw [horder.length_eq, List.length_range]
    omega
  rw [tileToShape, Run.reject, if_neg hsame]
  show (tileReps atom.modes target >>= fun reps => _) = _
  rw [hreps]
  show (tileStrides (axisDiv atom.modes target) _ _ 1 order >>= fun repStrides => _) = _
  rw [tileStrides_grid hatom htarget horder, if_pos hcopies]
  show (Layout.new _ _ >>= fun repLayout => _) = _
  rw [new_grid (length_strides hatom htarget) (by rw [hlen]; exact hrank)]
  rfl

/-- **When a tiling is built.** -/
theorem tileToShape_eq_ok (hfills : Fills atom.flatModes atom.cells) (hrank : 2 ≤ atom.rank) :
    tileToShape atom target order = .ok l ↔ (I64.Fits target.prod ∧
      (atom.cells = 1 ∨ I64.Fits (target.prod + atom.cells))) ∧ l = tilingOf atom target order := by
  have hvalid : ∀ m ∈ atom.modes, m.Valid := fun _ hm => valid_of_mem_modes hatom hm
  have hgrid := enumerates_copyGrid hatom htarget horder hrank
  have hsize : size (copyGrid atom target order) = _ := size_copyGrid hatom htarget
  have hzs : 2 ≤ (copyGrid atom target order).length := by rwa [length_copyGrid hatom htarget]
  have hbounds := bounds_copyGrid hatom htarget horder
  -- the last steps only take the product apart
  have hlast : ∀ lp, lp = Layout.fromModes [atom, Layout.fromModes
      (copyModes (copyStride atom.cells (axisDiv atom.modes target).prod)
        (copyGrid atom target order))] →
      (Run.index lp.modes 0 >>= fun block => Run.index lp.modes 1 >>= fun rep =>
        .ok (Layout.fromModes
          (List.zipWith (fun bm rm => Layout.fromModes [bm, rm]) block.modes rep.modes)) :
        Run AlgebraError Layout) = .ok (tilingOf atom target order) := by
    rintro _ rfl
    rw [modes_fromModes le_rfl]
    show Except.ok (Layout.fromModes (List.zipWith (fun bm rm => Layout.fromModes [bm, rm])
      atom.modes (Layout.fromModes (copyModes _ _)).modes)) = _
    rw [modes_fromModes (by rwa [length_copyModes])]
    rfl
  constructor
  · intro h
    obtain ⟨_, _, hrun⟩ := Run.bind_eq_ok.mp h
    obtain ⟨reps, hreps, hrun⟩ := Run.bind_eq_ok.mp hrun
    obtain ⟨strides, hstrides, -⟩ := Run.bind_eq_ok.mp hrun
    obtain rfl := tileReps_of_ok hvalid htarget.length_eq hreps
    have hcopies : I64.Fits (axisDiv atom.modes target).prod := by
      by_contra hover
      rw [tileStrides_grid hatom htarget horder, if_neg hover] at hstrides
      exact Run.fail_ne_ok hstrides
    rw [tileToShape_eq hatom htarget horder hrank hreps hcopies] at h
    obtain ⟨lp, hlp, hend⟩ := Run.bind_eq_ok.mp h
    have hfits := fits_of_logicalProduct hatom hgrid hlp
    rw [logicalProduct_eq hatom hfills hzs hgrid hbounds hfits, hsize,
      ← target_eq hatom htarget] at hlp
    rw [hsize, ← target_eq hatom htarget] at hfits
    split at hlp
    · rename_i hsum
      rw [hlast lp (Except.ok.inj hlp).symm] at hend
      exact ⟨⟨hfits, hsum⟩, (Except.ok.inj hend).symm⟩
    · exact absurd hlp Run.panic_ne_ok
  · rintro ⟨⟨hfits, hsum⟩, rfl⟩
    have hall := fits_of_prod htarget.positive hfits
    have hprod := target_eq hatom htarget
    rw [hprod] at hfits
    have hV : 0 < (axisDiv atom.modes target).prod := List.prod_pos (reps_pos hatom htarget)
    rw [tileToShape_eq hatom htarget horder hrank (tileReps_eq hvalid htarget hall)
      (fits_of_mul hatom.cells_pos hV hfits).2,
      logicalProduct_eq hatom hfills hzs hgrid hbounds (by rwa [hsize]), hsize, ← hprod,
      if_pos hsum]
    exact hlast _ rfl

/-- **A tiling is a bijection.** -/
theorem tilingOf_fills (hfills : Fills atom.flatModes atom.cells) (hrank : 2 ≤ atom.rank) :
    (tilingOf atom target order).Valid ∧ (tilingOf atom target order).cells = target.prod ∧
      Fills (tilingOf atom target order).flatModes target.prod := by
  set n := (axisDiv atom.modes target).prod with hn
  have hcong := (modes_spec hatom.congruent).1
  have hlen : 2 ≤ (tiles (copyStride atom.cells n) atom.modes
    (copyGrid atom target order)).length := length_tiles hatom htarget hrank _
  obtain ⟨hc, hflat⟩ := flatModes_fromModes hlen fun m hm => congruent_of_mem_tiles hcong hm
  have hgrid : (copyGrid atom target order).length = atom.modes.length := by
    rw [length_copyGrid hatom htarget, length_modes hatom]
  have hperm := perm_tiles hcong hgrid (copyStride atom.cells n)
  rw [(modes_spec hatom.congruent).2.2] at hperm
  have hjoin : Pos (atom.flatModes ++ scale (copyStride atom.cells n)
      (copyGrid atom target order)) :=
    pos_append.mpr ⟨hatom.pos, pos_scale _ (pos_copyGrid hatom htarget)⟩
  have hpos : Pos (tilingOf atom target order).flatModes := by
    rw [tilingOf, hflat]
    exact fun m hm => hjoin m (hperm.mem_iff.mp hm)
  have hall : Fills (tilingOf atom target order).flatModes target.prod := by
    have hcopies := fills_copies hatom.pos rfl hfills (size_copyGrid hatom htarget)
      (fills_copyGrid hatom htarget horder)
    rw [target_eq hatom htarget]
    rw [tilingOf, hflat] at hpos ⊢
    exact (fills_perm hpos hperm).mpr hcopies
  exact ⟨⟨hc, hpos⟩, hall.size_eq hpos htarget.positive.prod_pos.le, hall⟩

/-- **A tiling at one coordinate per axis.** -/
theorem checkedCall_tilingOf (hfills : Fills atom.flatModes atom.cells) (hrank : 2 ≤ atom.rank)
    (hfits : I64.Fits target.prod) (hcs : List.Forall₂ (fun t c => 0 ≤ c ∧ c < t) target cs) :
    ∃ o, atom.checkedCall (.tuple ((axisMod atom.modes cs).map .leaf)) = some o ∧
      (tilingOf atom target order).checkedCall (.tuple (cs.map .leaf)) = some (o + atom.cells *
        rankInOrder (axisDiv atom.modes target) (axisDiv atom.modes cs) order) := by
  set reps := axisDiv atom.modes target with hreps
  obtain ⟨hvalid, hcells, hall⟩ := tilingOf_fills hatom htarget horder hfills hrank
  have hV : 0 < reps.prod := List.prod_pos (reps_pos hatom htarget)
  have hprod := target_eq hatom htarget
  have hlen : 2 ≤ (tiles (copyStride atom.cells reps.prod) atom.modes
    (copyGrid atom target order)).length := length_tiles hatom htarget hrank _
  have hmodes : (tilingOf atom target order).modes =
      tiles (copyStride atom.cells reps.prod) atom.modes (copyGrid atom target order) :=
    modes_fromModes hlen
  have hstrides : (stridesIn reps (List.replicate atom.modes.length 0) 1 order).length =
      atom.modes.length := by rw [length_stridesIn, List.length_replicate]
  obtain ⟨hin, hmod, hsum⟩ := sumAxes_tiles (fun m hm => valid_of_mem_modes hatom hm) htarget
    hstrides hcs (copyStride atom.cells reps.prod)
  have hTfits : I64.Fits atom.cells := (fits_of_mul hatom.cells_pos hV (hprod ▸ hfits)).1
  refine ⟨_, checkedCall_axes hatom hfills hTfits hrank hmod, ?_⟩
  have hin' : WithinAxes (tilingOf atom target order).modes cs := by
    rw [hmodes]
    exact hin
  have htiling : 2 ≤ (tilingOf atom target order).rank := by
    rw [← length_modes hvalid, hmodes]
    exact hlen
  rw [checkedCall_axes hvalid (hcells ▸ hall) (hcells ▸ hfits) htiling hin', hmodes]
  have hidx : (axisDiv atom.modes cs).length =
      (stridesIn reps (List.replicate atom.modes.length 0) 1 order).length := by
    rw [hstrides, length_axisDiv (htarget.length_eq.trans hcs.length_eq)]
  have hin : order.Perm (List.range reps.length) := by rwa [length_reps hatom htarget]
  have hrank := rank_eq_sum (length_strides hatom htarget) hidx hin (chain_axesIn hatom horder)
  have hmem := rank_mem fun axis haxis => axisDiv_within
    (fun m hm => valid_of_mem_modes hatom hm) htarget hcs (List.mem_range.mp (hin.mem_iff.mp haxis))
  rw [prod_reps_in hin] at hmem
  have hscale := mul_copyStride (T := atom.cells) hmem.1 hmem.2 dvd_rfl hV
  rw [mul_comm, mul_comm _ atom.cells] at hscale
  refine congrArg some (hsum.trans ?_)
  rw [hrank, hscale]

end Tiling


/-- **Tiling a shape.**  The tiling of a bijection is built exactly where the cells of the target
and those of the atom together are an `i64` (for an atom of one cell: those of the target).  It is a
bijection onto the cells of the target, and the offset at one coordinate per axis is the offset in
the atom and, in whole atoms, the number of the copy in the order of the axes. -/
theorem tileToShape_spec (hatom : atom.Valid) (hfills : Fills atom.flatModes atom.cells)
    (hrank : 2 ≤ atom.rank) (htarget : Tiled atom.modes target)
    (horder : order.Perm (List.range atom.rank)) :
    ((∃ l, tileToShape atom target order = .ok l) ↔ I64.Fits target.prod ∧
      (atom.cells = 1 ∨ I64.Fits (target.prod + atom.cells))) ∧
    ∀ l, tileToShape atom target order = .ok l →
      (l.cells = target.prod ∧ Set.BijOn l.offset (Set.Ico 0 l.cells) (Set.Ico 0 target.prod) ∧
        ∀ c ∈ Set.Ico 0 l.cells, l.checkedCall (.leaf c) = some (l.offset c)) ∧
      ∀ cs, List.Forall₂ (fun t c => 0 ≤ c ∧ c < t) target cs →
        ∃ o, atom.checkedCall (.tuple ((axisMod atom.modes cs).map .leaf)) = some o ∧
          l.checkedCall (.tuple (cs.map .leaf)) = some (o + atom.cells *
            rankInOrder (axisDiv atom.modes target) (axisDiv atom.modes cs) order) := by
  have hok := fun l => tileToShape_eq_ok (l := l) hatom htarget horder hfills hrank
  refine ⟨⟨fun ⟨l, hl⟩ => ((hok l).mp hl).1, fun h => ⟨_, (hok _).mpr ⟨h, rfl⟩⟩⟩, fun l hl => ?_⟩
  obtain ⟨⟨hfits, -⟩, rfl⟩ := (hok l).mp hl
  obtain ⟨hvalid, hcells, hall⟩ := tilingOf_fills hatom htarget horder hfills hrank
  refine ⟨⟨hcells, ?_, ?_⟩, ?_⟩
  · exact hall
  · exact fun c hc => checkedCall_leaf hvalid (hcells ▸ hall) (hcells ▸ hfits) hc
  · exact fun cs hcs => checkedCall_tilingOf hatom htarget horder hfills hrank hfits hcs

/-- A row-major `2 × 3` atom, repeated twice along both axes, the columns first. -/
theorem tileToShape_spec_columnsFirst :
    ∃ l, tileToShape (grid (2, 3) (3, 1)) [4, 6] [1, 0] = .ok l ∧
      l.checkedCall (.tuple [.leaf 3, .leaf 4]) = some 22 := by
  have hatom : Enumerates (grid (2, 3) (3, 1)) := enumerates_grid_rowMajor (by decide) (by decide)
  have htarget : Tiled (grid (2, 3) (3, 1)).modes [4, 6] :=
    .cons (by decide) (.cons (by decide) .nil)
  have horder : [1, 0].Perm (List.range (grid (2, 3) (3, 1)).rank) := by decide
  obtain ⟨hbuilt, hspec⟩ := tileToShape_spec hatom.valid hatom.fills (by decide) htarget horder
  obtain ⟨l, hl⟩ := hbuilt.mpr ⟨by decide, Or.inr (by decide)⟩
  obtain ⟨o, ho, hcall⟩ := (hspec l hl).2 [3, 4]
    (.cons ⟨by decide, by decide⟩ (.cons ⟨by decide, by decide⟩ .nil))
  have ho : some 4 = some o := ho
  rw [← Option.some.inj ho] at hcall
  exact ⟨l, hl, hcall⟩

/-- The cells of this target are an `i64`, but those of the atom cannot be added to them; and a
target of no cells is refused. -/
theorem tileToShape_overflows :
    Enumerates (grid (2, 2) (1, 2)) ∧
      Tiled (grid (2, 2) (1, 2)).modes [4611686018427387902, 2] ∧
      I64.Fits [4611686018427387902, 2].prod ∧
      tileToShape (grid (2, 2) (1, 2)) [4611686018427387902, 2] [0, 1] = Run.panic .overflow ∧
      tileToShape (grid (2, 2) (1, 2)) [0, 2] [0, 1] = Run.fail (notAMultiple 0 2) := by
  refine ⟨enumerates_grid_colMajor (by decide) (by decide),
    .cons (by decide) (.cons (by decide) .nil), by decide, ?_, ?_⟩
  · decide +kernel
  · decide +kernel

end CudaOxide.Cute
