import CudaOxide.Cute.Product
import CudaOxide.Cute.RightInverse
import CudaOxide.Lib.Cut

namespace CudaOxide.Cute

open Lib Strided

/-!
# Thread/value layouts

`make_layout_tv thr val` combines a thread and a value layout into a tile by a raked product,
inverts it, and names the coordinates of the inverse `(thread, value)`
(`algebra/thread_value.rs`).

* `withShape_implements` — renaming the coordinates of a layout that is cut at `T` as `(T, V)`
  keeps its walk.
* `rakedProduct_implements` — the product of two bijections fills the tile, and all its modes
  are split by the number of threads.
* `makeLayoutTv_implements` — the result is a bijection from threads and values onto the tile's
  cells, inverse to the raked product.
-/

variable {a thr val : Layout} {T V : ℤ}

/-! ### The machine functions -/

/-- Replace the flat coordinate of `l` by a coordinate of the given shape. -/
def withShape [Build] (l : Layout) (shape : IntTuple) : Run AlgebraError Layout := do
  let c ← Layout.colMajor shape
  composition l c

/-- The cell counts of a list of modes. -/
def modeSizes [Build] : List Layout → Run AlgebraError (List ℤ)
  | [] => .ok []
  | m :: ms => do
    let s ← m.size
    let rest ← modeSizes ms
    .ok (s :: rest)

/-- The tile shape, and the map from `(thread, value)` to a cell of the tile. -/
def makeLayoutTv [Build] (thr val : Layout) : Run AlgebraError (List ℤ × Layout) := do
  let layoutMn ← rakedProduct thr val
  let tilerMn ← modeSizes layoutMn.modes
  let inv ← rightInverse layoutMn
  let t ← thr.size
  let v ← val.size
  let tv ← withShape inv (.tuple [.leaf t, .leaf v])
  .ok (tilerMn, tv)

/-! ### Naming the coordinates of a walk that is cut -/

/-- The pieces below a cut exist. -/
theorem pieces_below_cut {ms : List (ℤ × ℤ)} {u : ℤ} (hms : ∀ m ∈ ms, 1 < m.1) (hu : 0 < u)
    (h : Cuts u ms) : ∃ ps, pieces u 1 ms = .ok ps := by
  induction ms generalizing u with
  | nil => exact ⟨_, rfl⟩
  | cons m ms ih =>
    obtain ⟨hm, hms⟩ := List.forall_mem_cons.mp hms
    cases ms with
    | nil => exact ⟨_, rfl⟩
    | cons m' ms =>
      have hone : upDiv 1 m.1 = 1 := upDiv_of_le one_pos hm.le
      rw [pieces, if_neg (by omega), upDiv_one, hone]
      by_cases hu1 : u = 1
      · rw [if_pos (Or.inr hu1), hu1]
        exact ih hms one_pos (cuts_one _)
      · rw [if_neg (by omega)]
        have hcut : min m.1 u ∣ u ∧ Cuts (u / min m.1 u) (m' :: ms) := by
          rcases h with ⟨hdvd, h⟩ | hdvd
          · rw [min_eq_left (Int.le_of_dvd hu hdvd)]
            exact ⟨hdvd, h⟩
          · rw [min_eq_right (Int.le_of_dvd (by omega) hdvd), Int.ediv_self hu.ne']
            exact ⟨dvd_rfl, cuts_one _⟩
        have hmin : 0 < min m.1 u := lt_min (by omega) hu
        obtain ⟨ps, hps⟩ := ih hms (Int.ediv_pos_of_pos_of_dvd hu hmin.le hcut.1) hcut.2
        rw [if_neg (not_not.mpr (Int.emod_eq_zero_of_dvd hcut.1)), hps]
        exact ⟨_, rfl⟩

/-- The pieces above a cut exist, and represent their walk. -/
theorem pieces_above_cut {ms : List (ℤ × ℤ)} {n u : ℤ} (hms : ∀ m ∈ ms, 1 < m.1) (hu : 0 < u)
    (h : Cuts u ms) (hsize : n * u = size ms) :
    ∃ ps, pieces n u ms = .ok ps ∧ Representable n u ms := by
  induction ms generalizing u with
  | nil => exact ⟨_, rfl, trivial⟩
  | cons m ms ih =>
    obtain ⟨hm, hms⟩ := List.forall_mem_cons.mp hms
    have hm0 : 0 < m.1 := by omega
    cases ms with
    | nil => exact ⟨_, rfl, trivial⟩
    | cons m' ms =>
      have hpos : Pos (m' :: ms) := fun x hx => by have := hms x hx; omega
      rw [size_cons] at hsize
      rw [pieces, Representable]
      -- either the front mode lies below the cut or the cut lies in it
      by_cases hdvd : m.1 ∣ u
      · -- the front mode lies below the cut
        obtain ⟨k, rfl⟩ := hdvd
        have hk : 0 < k := pos_of_mul_pos_right hu hm0.le
        have hcut : Cuts k (m' :: ms) := by
          rcases h with ⟨_, h⟩ | h
          · rwa [Int.mul_ediv_cancel_left _ hm0.ne'] at h
          · have : k = 1 := by
              have := Int.le_of_dvd hm0 h
              nlinarith
            rw [this]
            exact cuts_one _
        have hle : m.1 ≤ m.1 * k := le_mul_of_one_le_right hm0.le hk
        rw [if_neg (by simp), upDiv_of_le hm0 hle, if_pos (Or.inl rfl),
          upDiv_of_dvd hm0 (Dvd.intro _ rfl), if_pos (Int.mul_emod_right _ _),
          Int.mul_ediv_cancel_left _ hm0.ne']
        refine ih hms hk hcut (mul_left_cancel₀ hm0.ne' ?_)
        rw [← hsize]
        ring
      · -- the cut divides the front mode
        obtain ⟨k, hk⟩ : u ∣ m.1 := (h.resolve_left fun h => hdvd h.1)
        have hk0 : 0 < k := pos_of_mul_pos_right (hk ▸ hm0) hu.le
        have hk1 : k ≠ 1 := fun h1 => hdvd (by rw [hk, h1, mul_one])
        have hk2 : 2 ≤ k := by omega
        have hum : u < m.1 := by rw [hk]; nlinarith
        -- what is left of the front mode and the modes behind it make up the walk
        have hnk : n = k * size (m' :: ms) := by
          refine mul_right_cancel₀ hu.ne' ?_
          rw [hsize, hk]
          ring
        have hsz := size_pos hpos
        have hkn : k ≤ n := by rw [hnk]; nlinarith
        have hnext : upDiv m.1 u = k := by
          rw [upDiv_of_dvd hu ⟨k, hk⟩, hk, Int.mul_ediv_cancel_left _ hu.ne']
        obtain ⟨ps, hps⟩ := pieces_below_cut hms hsz (cuts_size hpos)
        rw [if_neg (by omega), hnext, if_neg (by omega), min_eq_left hkn,
          if_neg (not_not.mpr (Int.emod_eq_zero_of_dvd ⟨_, hnk⟩)), upDiv_of_le hu hum.le, hnk,
          Int.mul_ediv_cancel_left _ hk0.ne', hps,
            if_neg fun h0 => hdvd (Int.dvd_of_emod_eq_zero h0)]
        exact ⟨_, rfl, Or.inl ⟨k, hk⟩⟩

/-- A walk that is cut at `T` and has `T * V` cells, with its coordinates renamed to `(T, V)`. -/
theorem withShape_implements (ha : a.Valid) (hT : 0 < T) (hV : 0 < V)
    (hcells : a.cells = T * V) (hcut : Cuts T (merged a.flatModes)) :
    ∃ r₁ r₂ : Layout, (withShape a (.tuple [.leaf T, .leaf V])).Implements
        (.ok (Layout.fromModes [r₁, r₂])) ∧
      r₁.Valid ∧ r₁.cells = T ∧ r₂.Valid ∧ r₂.cells = V ∧
      ∀ t ∈ Set.Ico 0 T, ∀ v ∈ Set.Ico 0 V, r₁.offset t + r₂.offset v = a.offset (t + T * v) := by
  have hext := merged_one_lt ha.pos
  have hsize : V * T = size (merged a.flatModes) := by
    rw [size_merged ha.pos, mul_comm, ← hcells]
    rfl
  -- the pieces below and above the cut, one for each leaf
  obtain ⟨ps₁, hps₁⟩ := pieces_below_cut hext hT hcut
  obtain ⟨ps₂, hps₂, hrep⟩ := pieces_above_cut hext hT hcut hsize
  have hleaf₁ : composedLeaf a (T, 1) = .ok (layoutFromFlat (finish ps₁)) := by
    rw [composedLeaf, if_neg one_ne_zero, hps₁]
    rfl
  have hleaf₂ : composedLeaf a (V, T) = .ok (layoutFromFlat (finish ps₂)) := by
    rw [composedLeaf, if_neg hT.ne', hps₂]
    rfl
  obtain ⟨hv₁, hc₁⟩ := composedLeaf_spec ha hT zero_le_one hleaf₁
  obtain ⟨hv₂, hc₂⟩ := composedLeaf_spec ha hV hT.le hleaf₂
  refine ⟨_, _, ?_, hv₁, hc₁, hv₂, hc₂, fun t ht v hv => ?_⟩
  -- the shape is composed leaf by leaf, threads first
  · have hrun₁ := composeInt_implements (m := (T, 1)) ha hT zero_le_one
    have hrun₂ := composeInt_implements (m := (V, T)) ha hV hT.le
    rw [hleaf₁] at hrun₁
    rw [hleaf₂] at hrun₂
    have hcol : (Layout.colMajor (.tuple [.leaf T, .leaf V]) : Run AlgebraError _).Implements
        (.ok ⟨.tuple [.leaf T, .leaf V], .tuple [.leaf 1, .leaf T]⟩) := by
      have h := runningStrides_implements (ε := AlgebraError) 1 [T, V]
      have hprod : prefixProducts 1 [T, V] = [1, T] := by simp [prefixProducts]
      rw [hprod] at h
      exact h.bind_ok (.ok _)
    have hall₂ : (compositionAll a [.leaf V] [.leaf T]).Implements
        (.ok [layoutFromFlat (finish ps₂)]) := hrun₂.bind_ok (.ok _)
    have hall : (compositionAll a [.leaf T, .leaf V] [.leaf 1, .leaf T]).Implements
        (.ok [layoutFromFlat (finish ps₁), layoutFromFlat (finish ps₂)]) :=
      hrun₁.bind_ok (hall₂.bind_ok (.ok _))
    exact hcol.bind_ok (hall.bind_ok (.ok _))
  -- a pair of coordinates is one flat coordinate, cut at `T`
  · have htv : T * v < a.cells := by
      rw [hcells]
      exact mul_lt_mul_of_pos_left hv.2 hT
    have h₁ : (layoutFromFlat (finish ps₁)).offset t = a.offset t := by
      obtain ⟨_, _, heval⟩ := finish_spec (pieces_size (merged_pos ha.pos) hT one_pos hps₁).2
      have hlt : t * 1 < size (merged a.flatModes) := by
        rw [← hsize, mul_one]
        nlinarith [ht.2]
      rw [offset_layoutFromFlat, heval, pieces_one_exact hext hT hps₁ t ht.1 ht.2 hlt, mul_one,
        eval_merged ha.pos]
      rfl
    have h₂ : (layoutFromFlat (finish ps₂)).offset v = a.offset (v * T) :=
      (composedLeaf_exact_iff ha hV hT.le hleaf₂).mpr (Or.inr hrep) v hv.1 hv.2
        (by rw [mul_comm]; exact htv)
    have hadd := eval_cut (v := v) (merged_pos ha.pos) hT hcut ht.1 ht.2
    simp only [eval_merged ha.pos] at hadd
    rw [h₁, h₂, mul_comm v T]
    exact hadd.symm

/-! ### The raked product of two bijections -/

/-- `l` reaches each of `0, 1, …, size l - 1` from exactly one coordinate, with nonnegative
strides. -/
structure Enumerates (l : Layout) : Prop where
  valid : l.Valid
  nonneg : Nonneg l.flatModes
  fills : Fills l.flatModes l.cells

/-- Padding adds modes of one cell. -/
theorem padToRank_spec {l : Layout} {n : ℕ} (h : l.shape.Congruent l.stride) (hn : l.rank ≤ n) :
    ∃ ms : List Layout, padToRank l n = Layout.fromModes ms ∧ ms.length = n ∧
      (∀ m ∈ ms, m.shape.Congruent m.stride) ∧
      ms.flatMap Layout.flatModes = l.flatModes ++ List.replicate (n - l.rank) (1, 0) := by
  obtain ⟨hc, hlen, hflat⟩ := modes_spec h
  have hunits : ∀ k, (List.replicate k (Layout.mk (.leaf 1) (.leaf 0))).flatMap
      Layout.flatModes = List.replicate k (1, 0) := fun k => by
    induction k with
    | zero => rfl
    | succ k ih => rw [List.replicate_succ, List.flatMap_cons, ih]; rfl
  refine ⟨_, rfl, ?_, ?_, ?_⟩
  · rw [List.length_append, List.length_replicate, hlen]
    omega
  · intro m hm
    rcases List.mem_append.mp hm with hm | hm
    · exact hc m hm
    · rw [List.eq_of_mem_replicate hm]
      rfl
  · rw [List.flatMap_append, hflat, hunits, hlen]

/-- Padding keeps a layout that enumerates an interval one that does. -/
theorem Enumerates.pad {l p : Layout} (h : Enumerates l) {k : ℕ}
    (hc : p.shape.Congruent p.stride) (hp : p.flatModes = l.flatModes ++ List.replicate k (1, 0)) :
    Enumerates p ∧ p.cells = l.cells := by
  have hsame := SameWalk.append_units h.valid.pos k
  have hcells : p.cells = l.cells := by
    rw [Layout.cells, hp, hsame.size_eq]
    rfl
  have hunit : ∀ m ∈ List.replicate k ((1 : ℤ), (0 : ℤ)), m = (1, 0) := fun m hm =>
    List.eq_of_mem_replicate hm
  refine ⟨⟨⟨hc, ?_⟩, ?_, ?_⟩, hcells⟩
  · rw [hp]
    exact pos_append.mpr ⟨h.valid.pos, fun m hm => by rw [hunit m hm]; exact one_pos⟩
  · rw [hp]
    exact nonneg_append.mpr ⟨h.nonneg, fun m hm => by rw [hunit m hm]⟩
  · rw [hcells, hp]
    exact hsame.fills_iff.mpr h.fills

/-- An enumeration moves in every mode. -/
theorem Enumerates.moving {l : Layout} (h : Enumerates l) : Moving l.flatModes :=
  h.fills.moving h.valid.pos

/-- The last cell has the greatest offset, so the cosize is the size. -/
theorem Enumerates.offset_last {l : Layout} (h : Enumerates l) :
    l.offset (l.cells - 1) = l.cells - 1 := by
  have hpos := h.valid.cells_pos
  obtain ⟨c, hc, hlast⟩ := h.fills.surjOn (⟨by omega, by omega⟩ : l.cells - 1 ∈ Set.Ico 0 l.cells)
  have hle := eval_le_last h.valid.pos h.nonneg hc.2
  have hmem := h.fills.mapsTo (⟨by omega, by omega⟩ : l.cells - 1 ∈ Set.Ico 0 l.cells)
  have h1 : eval l.flatModes (l.cells - 1) < l.cells := hmem.2
  have h2 : l.cells - 1 ≤ eval l.flatModes (l.cells - 1) :=
    calc l.cells - 1 = eval l.flatModes c := hlast.symm
      _ ≤ eval l.flatModes (l.cells - 1) := hle
  show eval l.flatModes (l.cells - 1) = l.cells - 1
  omega

/-- Every mode of an enumeration of `[0, T)` ends within a divisor of `T`. -/
theorem Enumerates.mode_dvd {l : Layout} (h : Enumerates l) {m : ℤ × ℤ} (hm : m ∈ l.flatModes)
    (hext : m.1 ≠ 1) : m.1 * m.2 ∣ l.cells :=
  dvd_cells_of_fills h.valid h.fills hm hext

/-- The stride by which the complement of an enumeration repeats it: `T`, or `0` when there is
a single copy. -/
def copyStride (T V : ℤ) : ℤ := if V = 1 then 0 else T

/-- The copies of a walk that fills `[0, T)`, placed by a walk that fills `[0, V)`. -/
theorem fills_copies {xs ys : List (ℤ × ℤ)} (hx : Pos xs) (hT : size xs = T) (hxs : Fills xs T)
    (hV : size ys = V) (hys : Fills ys V) : Fills (xs ++ scale (copyStride T V) ys) (T * V) := by
  have hbij : Set.BijOn (eval ys) (Set.Ico 0 (size (scale (copyStride T V) ys)))
      (Set.Ico 0 V) := by
    rw [size_scale]
    exact hys
  refine fills_append hx hxs hT hbij fun j hj => ?_
  rw [eval_scale, copyStride]
  split
  · -- there is a single copy, and its only cell is zero
    rename_i hone
    rw [size_scale, hV, hone] at hj
    obtain ⟨h0, h1⟩ : 0 ≤ j ∧ j < 1 := hj
    rw [show j = 0 by omega, eval_zero, mul_zero, mul_zero]
  · rfl

/-- Composing the complement `V:T` with a leaf scales the leaf. -/
theorem composedLeaf_copies (hV : 0 < V) (m : ℤ × ℤ) :
    composedLeaf (layoutFromFlat (merged [(V, T)])) m =
      .ok (layoutFromFlat [(m.1, m.2 * copyStride T V)]) := by
  unfold composedLeaf copyStride
  split
  · rename_i hzero
    rw [hzero, zero_mul]
  · by_cases hV1 : V = 1
    · subst hV1
      rw [if_pos rfl, mul_zero]
      rfl
    · have hmerged : merged [(V, T)] = [(V, T)] := by
        rw [merged, mergeOnto, if_neg hV1]
        rfl
      rw [if_neg hV1, hmerged, flatModes_layoutFromFlat_cons, hmerged]
      rfl

/-- The copies of each mode are scaled. -/
private theorem copies_spec {k : ℤ} {bms rs : List Layout}
    (h : List.Forall₂ (fun b r : Layout => r.shape.Congruent r.stride ∧ r.flatModes =
      b.flatModes.flatMap fun m => (layoutFromFlat [(m.1, m.2 * k)]).flatModes) bms rs) :
    (∀ r ∈ rs, r.shape.Congruent r.stride) ∧
      rs.map Layout.flatModes = bms.map fun b => scale k b.flatModes := by
  have hscale : ∀ ms : List (ℤ × ℤ),
      (ms.flatMap fun m => (layoutFromFlat [(m.1, m.2 * k)]).flatModes) = scale k ms :=
    fun ms => by
      induction ms with
      | nil => rfl
      | cons m ms ih => rw [List.flatMap_cons, ih]; rfl
  induction h with
  | nil => exact ⟨List.forall_mem_nil _, rfl⟩
  | cons hd _ ih =>
    refine ⟨List.forall_mem_cons.mpr ⟨hd.1, ih.1⟩, ?_⟩
    rw [List.map_cons, List.map_cons, ih.2, hd.2, hscale]

/-- The product places `V` copies of an enumeration of `[0, T)`: the second mode is the value
layout with its strides scaled. -/
theorem logicalProduct_implements {ap : Layout} {bms : List Layout} (hb2 : 2 ≤ bms.length)
    (hbc : ∀ m ∈ bms, m.shape.Congruent m.stride) (hap : ap.Valid)
    (hfa : Fills ap.flatModes ap.cells) (heb : Enumerates (Layout.fromModes bms))
    (hT : ap.cells = T) (hV : (Layout.fromModes bms).cells = V) :
    ∃ rs : List Layout, rs.length = bms.length ∧
      (∀ r ∈ rs, r.shape.Congruent r.stride) ∧
      rs.map Layout.flatModes = bms.map (fun b => scale (copyStride T V) b.flatModes) ∧
      (logicalProduct ap (Layout.fromModes bms)).Implements
        (.ok (Layout.fromModes [ap, Layout.fromModes rs])) := by
  obtain ⟨hbcong, hbflat⟩ := flatModes_fromModes hb2 hbc
  have hV0 : 0 < V := hV ▸ heb.valid.cells_pos
  have hleaf : ∀ m ∈ bms.flatMap Layout.flatModes,
      (layoutFromFlat [(m.1, m.2 * copyStride T V)]).shape.Congruent
          (layoutFromFlat [(m.1, m.2 * copyStride T V)]).stride ∧
        (composeInt (layoutFromFlat (merged [(V, T)])) m.1 m.2).Implements
          (.ok (layoutFromFlat [(m.1, m.2 * copyStride T V)])) := fun m hm => by
    rw [← hbflat] at hm
    have hc : (layoutFromFlat (merged [(V, T)])).Valid :=
      valid_layoutFromFlat (merged_pos (by simp [hV0]))
    have h := composeInt_implements hc (heb.valid.pos m hm) (heb.nonneg m hm)
    rw [composedLeaf_copies hV0] at h
    exact ⟨congruent_layoutFromFlat _, h⟩
  obtain ⟨rs, hrun, hrs⟩ := compositionAll_modes hbc hleaf
  have hlen : rs.length = bms.length := hrs.length_eq.symm
  refine ⟨rs, hlen, (copies_spec hrs).1, (copies_spec hrs).2, ?_⟩
  · have hcomp : (composition (layoutFromFlat (merged [(V, T)])) (Layout.fromModes bms)).Implements
        (.ok (Layout.fromModes rs)) := by
      match bms, rs, hlen, hb2, hrun with
      | b :: b' :: bms, r :: r' :: rs, _, _, hrun => exact hrun.bind_ok (.ok _)
    refine (Layout.size_implements hap.congruent).bind_ok ?_
    refine (Layout.cosize_implements heb.valid).bind_ok ?_
    rw [heb.offset_last, sub_add_cancel, hT, hV]
    refine (I64.mul_implements T V).bind_ok ?_
    refine (complement_implements_of_fills hap hT hV0 ?_).bind_ok ?_
    · exact hT ▸ hfa
    · exact hcomp.bind_ok (.ok _)

/-- One axis of a raked product: the copies change fastest. -/
def rakedPair (a r : Layout) : List (ℤ × ℤ) := r.flatModes ++ a.flatModes

/-- What the axes of a raked product hold after coalescing. -/
def rakedModes (pairs : List (List (ℤ × ℤ))) : List Layout :=
  pairs.map fun p => layoutFromFlat (merged p)

/-- Threads and values are paired up axis by axis, unless a product overflows. -/
theorem zipPairs_implements {ams rs : List Layout} (hac : ∀ m ∈ ams, m.shape.Congruent m.stride)
    (hrc : ∀ m ∈ rs, m.shape.Congruent m.stride) :
    (zipPairs false ams rs).Implements
      (.ok (rakedModes (List.zipWith rakedPair ams rs))) := by
  induction ams generalizing rs with
  | nil => exact .ok _
  | cons a ams ih =>
    cases rs with
    | nil => exact .ok _
    | cons r rs =>
      obtain ⟨ha, hac⟩ := List.forall_mem_cons.mp hac
      obtain ⟨hr, hrc⟩ := List.forall_mem_cons.mp hrc
      have hpair := coalesce_implements (ε := AlgebraError) (Layout.fromModes [r, a])
      rw [flatModes_pair hr ha] at hpair
      exact hpair.bind_ok ((ih hac hrc).bind_ok (.ok _))

/-- The axes of the product hold the modes of both layouts. -/
theorem perm_rakedPairs {ams rs : List Layout} (h : rs.length = ams.length) :
    (List.zipWith rakedPair ams rs).flatten.Perm
      (ams.flatMap Layout.flatModes ++ rs.flatMap Layout.flatModes) := by
  induction ams generalizing rs with
  | nil =>
    rw [List.length_eq_zero_iff.mp h]
    rfl
  | cons a ams ih =>
    cases rs with
    | nil => exact absurd h (by simp)
    | cons r rs =>
      have ih := ih (Nat.succ.inj h)
      rw [List.zipWith_cons_cons, List.flatten_cons, List.flatMap_cons, List.flatMap_cons,
        rakedPair]
      set x := ams.flatMap Layout.flatModes
      set y := rs.flatMap Layout.flatModes
      have hswap : (r.flatModes ++ a.flatModes).Perm (a.flatModes ++ r.flatModes) :=
        List.perm_append_comm
      have hmove : (r.flatModes ++ (x ++ y)).Perm (x ++ (r.flatModes ++ y)) := by
        rw [← List.append_assoc, ← List.append_assoc]
        exact List.perm_append_comm.append_right y
      refine (ih.append_left _).trans ((hswap.append_right _).trans ?_)
      rw [List.append_assoc, List.append_assoc]
      exact hmove.append_left a.flatModes

/-- What holds of the modes and is kept by merging holds of the merged ones. -/
theorem mem_rakedModes {pairs : List (List (ℤ × ℤ))} {P : ℤ × ℤ → Prop} (hunit : P (1, 0))
    (hmerge : ∀ s₀ d₀ s, P (s₀, d₀) → P (s, s₀ * d₀) → P (s₀ * s, d₀))
    (h : ∀ m ∈ pairs.flatten, m.1 ≠ 1 → P m) :
    ∀ m ∈ (rakedModes pairs).flatMap Layout.flatModes, P m := by
  intro m hm
  obtain ⟨l, hl, hm⟩ := List.mem_flatMap.mp hm
  obtain ⟨p, hp, rfl⟩ := List.mem_map.mp hl
  have hall : ∀ m ∈ merged p, P m :=
    merged_forall hmerge fun m hm => h m (List.mem_flatten.mpr ⟨p, hp, hm⟩)
  cases hms : merged p with
  | nil =>
    rw [hms, flatModes_layoutFromFlat_nil, List.mem_singleton] at hm
    rwa [hm]
  | cons x xs =>
    rw [hms, flatModes_layoutFromFlat_cons] at hm
    exact hall m (hms ▸ hm)

/-- Merging each axis keeps the walk. -/
theorem sameWalk_rakedModes {pairs : List (List (ℤ × ℤ))} (h : Pos pairs.flatten) :
    SameWalk ((rakedModes pairs).flatMap Layout.flatModes) pairs.flatten := by
  have hpos : ∀ p ∈ pairs, Pos p := fun p hp m hm => h m (List.mem_flatten.mpr ⟨p, hp, hm⟩)
  rw [rakedModes, List.flatMap_map, ← List.flatMap_id']
  refine SameWalk.flatMap fun p hp => ?_
  have hv := valid_layoutFromFlat (merged_pos (hpos p hp))
  refine ⟨hv.pos, hpos p hp, ?_, fun c => ?_⟩
  · rw [← Layout.cells, cells_layoutFromFlat, size_merged (hpos p hp)]
  · rw [← Layout.offset, offset_layoutFromFlat, eval_merged (hpos p hp)]

/-- The axes of a raked product: `ams` are the modes of the threads, `rs` those of the copies of
the values, both padded to the same rank. -/
structure RakedAxes (thr val : Layout) (ams rs : List Layout) : Prop where
  rank : ams.length = max thr.rank val.rank
  length : rs.length = ams.length
  congruent : ∀ m ∈ ams, m.shape.Congruent m.stride
  congruentCopies : ∀ m ∈ rs, m.shape.Congruent m.stride
  product : (logicalProduct (padToRank thr (max thr.rank val.rank))
      (padToRank val (max thr.rank val.rank))).Implements
    (.ok (Layout.fromModes [Layout.fromModes ams, Layout.fromModes rs]))
  pos : Pos (List.zipWith rakedPair ams rs).flatten
  nonneg : Nonneg (List.zipWith rakedPair ams rs).flatten
  fills : Fills (List.zipWith rakedPair ams rs).flatten (thr.cells * val.cells)
  split : ∀ m ∈ (List.zipWith rakedPair ams rs).flatten, m.1 ≠ 1 → SplitBy thr.cells m

/-- Padding an enumeration to a rank of at least two. -/
theorem Enumerates.padToRank {l : Layout} {n : ℕ} (h : Enumerates l) (hn : l.rank ≤ n)
    (htwo : 2 ≤ n) : ∃ ms : List Layout, Cute.padToRank l n = Layout.fromModes ms ∧
      ms.length = n ∧ (∀ m ∈ ms, m.shape.Congruent m.stride) ∧
      Enumerates (Layout.fromModes ms) ∧ (Layout.fromModes ms).cells = l.cells ∧
      (Layout.fromModes ms).flatModes = l.flatModes ++ List.replicate (n - l.rank) (1, 0) := by
  obtain ⟨ms, hpad, hlen, hc, hflat⟩ := padToRank_spec h.valid.congruent hn
  obtain ⟨hcong, hmodes⟩ := flatModes_fromModes (hlen ▸ htwo) hc
  obtain ⟨hpadded, hcells⟩ := h.pad hcong (hmodes.trans hflat)
  exact ⟨ms, hpad, hlen, hc, hpadded, hcells, hmodes.trans hflat⟩

/-- Two enumerations of rank two have their axes paired up. -/
theorem exists_rakedAxes (hthr : Enumerates thr) (hval : Enumerates val)
    (hrank : 2 ≤ max thr.rank val.rank) : ∃ ams rs : List Layout, RakedAxes thr val ams rs := by
  set n := max thr.rank val.rank with hn
  -- both layouts are padded to one rank, and their axes are paired
  obtain ⟨ams, hpa, hla, hac, hea, hca, hfa⟩ :=
    hthr.padToRank (le_max_left thr.rank val.rank) hrank
  obtain ⟨bms, hpb, hlb, hbc, heb, hcb, _⟩ :=
    hval.padToRank (le_max_right thr.rank val.rank) hrank
  have haflat := (flatModes_fromModes (by omega) hac).2
  have hbflat := (flatModes_fromModes (by omega) hbc).2
  obtain ⟨rs, hlr, hrc, hrflat, hlp⟩ :=
    logicalProduct_implements (by omega) hbc hea.valid hea.fills heb hca hcb
  set k := copyStride thr.cells val.cells with hk
  -- the strides of the values are scaled by the step of the threads
  have hrs : rs.flatMap Layout.flatModes = scale k (bms.flatMap Layout.flatModes) := by
    rw [List.flatMap_def, hrflat, scale, List.map_flatMap, List.flatMap_def]
    rfl
  -- what the pairs hold is the threads' modes and the scaled values' modes, in another order
  have hperm : (List.zipWith rakedPair ams rs).flatten.Perm ((Layout.fromModes ams).flatModes ++
      scale k (Layout.fromModes bms).flatModes) := by
    rw [haflat, hbflat, ← hrs]
    exact perm_rakedPairs (by omega)
  have hmem : ∀ m ∈ (List.zipWith rakedPair ams rs).flatten,
      m ∈ (Layout.fromModes ams).flatModes ∨
        ∃ x ∈ (Layout.fromModes bms).flatModes, m = (x.1, x.2 * k) := fun m hm =>
    (List.mem_append.mp (hperm.mem_iff.mp hm)).imp_right fun h => by
      obtain ⟨x, hx, rfl⟩ := List.mem_map.mp h
      exact ⟨x, hx, rfl⟩
  have hk0 : 0 ≤ k := by
    rw [hk, copyStride]
    split
    · exact le_rfl
    · exact hthr.valid.cells_pos.le
  have hpos : Pos (List.zipWith rakedPair ams rs).flatten := fun m hm => by
    rcases List.mem_append.mp (hperm.mem_iff.mp hm) with h | h
    · exact hea.valid.pos m h
    · exact pos_scale k heb.valid.pos m h
  -- so positivity, signs, filling and divisibility come from the two layouts
  refine ⟨ams, rs, hla, by omega, hac, hrc, ?_, hpos, fun m hm => ?_, ?_, fun m hm hext => ?_⟩
  · rw [hpa, hpb]
    exact hlp
  · rcases hmem m hm with h | ⟨x, hx, rfl⟩
    · exact hea.nonneg m h
    · exact mul_nonneg (heb.nonneg x hx) hk0
  · rw [fills_perm hpos hperm]
    exact fills_copies hea.valid.pos hca (hca ▸ hea.fills) hcb (hcb ▸ heb.fills)
  · rcases hmem m hm with h | ⟨x, _, rfl⟩
    · exact Or.inr (Or.inl (hca ▸ hea.mode_dvd h hext))
    · refine Or.inl ?_
      show thr.cells ∣ x.2 * k
      rw [hk, copyStride]
      split
      · rw [mul_zero]
        exact dvd_zero _
      · exact Dvd.intro_left _ rfl

/-- Behind the logical product, a raked product only coalesces the pairs of axes. -/
theorem RakedAxes.rakedProduct_eq {ams rs : List Layout} (h : RakedAxes thr val ams rs)
    (hthr : thr.shape.Congruent thr.stride) (hval : val.shape.Congruent val.stride)
    (hrank : 2 ≤ max thr.rank val.rank) : rakedProduct thr val = (do
      let _ ← logicalProduct (padToRank thr (max thr.rank val.rank))
        (padToRank val (max thr.rank val.rank))
      let zipped ← zipPairs false ams rs
      .ok (Layout.fromModes zipped)) := by
  have hlen := h.rank
  have hcopies := h.length
  unfold rakedProduct zippedProduct
  rw [(modes_spec hthr).2.1, (modes_spec hval).2.1]
  rcases h.product.ok_or_overflow with hlp | hlp
  · show (logicalProduct _ _ >>= _) = _
    rw [hlp]
    simp only [Bind.bind, Except.bind]
    rw [modes_fromModes (by simp)]
    show (if (Layout.fromModes ams).modes.length ≠ max thr.rank val.rank ∨
      (Layout.fromModes rs).modes.length ≠ max thr.rank val.rank then _ else _) = _
    rw [modes_fromModes (by omega), modes_fromModes (by omega), if_neg (by omega)]
  · show (logicalProduct _ _ >>= _) = _
    rw [hlp]
    rfl

/-- **The raked product of two enumerations.**  It fills the tile, and its modes are split by
the number of threads. -/
theorem rakedProduct_implements (hthr : Enumerates thr) (hval : Enumerates val)
    (hrank : 2 ≤ max thr.rank val.rank) :
    ∃ zs : List Layout, 2 ≤ zs.length ∧ (∀ z ∈ zs, z.Valid) ∧
      (rakedProduct thr val).Implements (.ok (Layout.fromModes zs)) ∧
      Nonneg (zs.flatMap Layout.flatModes) ∧
      Fills (zs.flatMap Layout.flatModes) (thr.cells * val.cells) ∧
      ∀ m ∈ zs.flatMap Layout.flatModes, m.1 ≠ 1 → SplitBy thr.cells m := by
  obtain ⟨ams, rs, h⟩ := exists_rakedAxes hthr hval hrank
  have hla := h.rank
  have hlr := h.length
  refine ⟨rakedModes (List.zipWith rakedPair ams rs), ?_, ?_, ?_, ?_, ?_, ?_⟩
  · rw [rakedModes, List.length_map, List.length_zipWith]
    omega
  · intro z hz
    obtain ⟨p, hp, rfl⟩ := List.mem_map.mp hz
    exact valid_layoutFromFlat
      (merged_pos fun m hm => h.pos m (List.mem_flatten.mpr ⟨p, hp, hm⟩))
  · rw [h.rakedProduct_eq hthr.valid.congruent hval.valid.congruent hrank]
    exact h.product.bind_ok ((zipPairs_implements h.congruent h.congruentCopies).bind_ok (.ok _))
  · exact mem_rakedModes le_rfl (fun _ _ _ h _ => h) fun m hm _ => h.nonneg m hm
  · exact (sameWalk_rakedModes h.pos).fills_iff.mpr h.fills
  · exact fun m hm _ => mem_rakedModes (Or.inl (dvd_zero _)) (fun _ _ _ => SplitBy.merge)
      h.split m hm

/-! ### The inverse of the product -/

/-- The kept modes of the inverse are cut at `T` when `T` splits every mode of the layout. -/
theorem cuts_inverseModes {ms : List (ℤ × ℤ)} {N : ℤ} (hms : ∀ m ∈ ms, 1 < m.1)
    (hnn : Nonneg ms) (hf : Fills ms N) (hT : 0 < T) (hdvd : T ∣ size ms)
    (hsplit : ∀ m ∈ ms, SplitBy T m) : Cuts T (inverseModes ms) := by
  obtain ⟨hkept, hch⟩ := keptChain_sortedPlaces hms hnn hf
  have hperm := sortedPlaces_perm ms
  have hpos : Pos ms := fun m hm => by
    have := hms m hm
    omega
  have hextents : (inverseModes ms).map Prod.fst =
      ((sortedPlaces ms).map fun e => (e.2.1, e.1)).map Prod.fst := by
    rw [inverseModes, hkept, List.map_map, List.map_map]
    rfl
  have hcut := cuts_of_chain (T := T) (fun m hm => hpos m (hperm.mem_iff.mp hm)) one_pos hT hch
    (one_dvd T) (by rwa [one_mul, size_perm hperm])
    fun m hm => hsplit m (hperm.mem_iff.mp hm)
  rw [Int.ediv_one] at hcut
  exact (cuts_congr hextents).mpr hcut

/-- The inverse is cut at every number that splits each mode of the layout. -/
theorem cuts_inverseLayout {l : Layout} {N : ℤ} (hl : l.Valid) (hnn : Nonneg l.flatModes)
    (hf : Fills l.flatModes N) (hT : 0 < T) (hdvd : T ∣ l.cells)
    (hsplit : ∀ m ∈ l.flatModes, m.1 ≠ 1 → SplitBy T m) :
    Cuts T (merged (inverseLayout l).flatModes) := by
  have hext := merged_one_lt hl.pos
  have hcut : Cuts T (inverseModes (merged l.flatModes)) := by
    refine cuts_inverseModes hext (merged_nonneg hnn)
      ((SameWalk.merged hl.pos).fills_iff.mpr hf) hT (by rwa [size_merged hl.pos]) ?_
    exact merged_forall (fun _ _ _ => SplitBy.merge) hsplit
  have hpos := (eval_inverseModes hext).1
  have hcut := hcut.merged hpos hT
  unfold inverseLayout
  cases hms : merged (inverseModes (merged l.flatModes)) with
  | nil =>
    rw [hms] at hcut
    rw [show T = 1 from hcut]
    exact cuts_one _
  | cons m ms =>
    rw [hms] at hcut
    rw [flatModes_layoutFromFlat_cons]
    exact hcut.merged (hms ▸ merged_pos hpos) hT

/-- The sizes of the modes multiply to the cells, unless one overflows. -/
theorem modeSizes_implements {ms : List Layout} (h : ∀ m ∈ ms, m.shape.Congruent m.stride) :
    ∃ ss : List ℤ, (modeSizes ms).Implements (.ok ss) ∧
      ss.prod = size (ms.flatMap Layout.flatModes) := by
  induction ms with
  | nil => exact ⟨[], .ok _, rfl⟩
  | cons m ms ih =>
    obtain ⟨hm, h⟩ := List.forall_mem_cons.mp h
    obtain ⟨ss, hrun, hprod⟩ := ih h
    refine ⟨m.cells :: ss, (Layout.size_implements hm).bind_ok (hrun.bind_ok (.ok _)), ?_⟩
    rw [List.prod_cons, hprod, List.flatMap_cons, size_append]
    rfl

/-- **Thread/value layouts.**  For two layouts that enumerate `[0, T)` and `[0, V)` and whose
padded rank is at least two, `make_layout_tv` computes a tile shape of `T * V` cells and a bijection
of the tile's cells with a thread and a value coordinate, which the raked product inverts. -/
theorem makeLayoutTv_implements (hthr : Enumerates thr) (hval : Enumerates val)
    (hrank : 2 ≤ max thr.rank val.rank) :
    ∃ (tiler : List ℤ) (r₁ r₂ mn : Layout),
      (makeLayoutTv thr val).Implements (.ok (tiler, Layout.fromModes [r₁, r₂])) ∧
      (rakedProduct thr val).Implements (.ok mn) ∧ tiler.prod = thr.cells * val.cells ∧
      (r₁.Valid ∧ r₁.cells = thr.cells) ∧ (r₂.Valid ∧ r₂.cells = val.cells) ∧
      Set.BijOn (Layout.fromModes [r₁, r₂]).offset (Set.Ico 0 (thr.cells * val.cells))
        (Set.Ico 0 (thr.cells * val.cells)) ∧
      ∀ c ∈ Set.Ico 0 (thr.cells * val.cells),
        mn.offset ((Layout.fromModes [r₁, r₂]).offset c) = c := by
  have hT := hthr.valid.cells_pos
  have hV := hval.valid.cells_pos
  obtain ⟨zs, hlen, hzs, hraked, hnn, hfills, hsplit⟩ :=
    rakedProduct_implements hthr hval hrank
  have hzc : ∀ z ∈ zs, z.shape.Congruent z.stride := fun z hz => (hzs z hz).congruent
  obtain ⟨hvalid, hflat⟩ := valid_fromModes hlen hzs
  set mn := Layout.fromModes zs with hmn
  rw [← hflat] at hnn hfills hsplit
  have hcells : mn.cells = thr.cells * val.cells :=
    hfills.size_eq hvalid.pos (mul_nonneg hT.le hV.le)
  -- the inverse enumerates the cells of the tile
  have hfills : Fills mn.flatModes mn.cells := hcells ▸ hfills
  have hiv := (offset_inverseLayout hvalid).1
  obtain ⟨⟨hleft, _⟩, hbij⟩ := invOn_inverseLayout hvalid hfills
  have hicells : (inverseLayout mn).cells = thr.cells * val.cells :=
    (cells_inverseLayout hvalid hfills).trans hcells
  have hcut : Cuts thr.cells (merged (inverseLayout mn).flatModes) :=
    cuts_inverseLayout hvalid hnn hfills hT ⟨_, hcells⟩ hsplit
  obtain ⟨r₁, r₂, hshape, hv₁, hc₁, hv₂, hc₂, hadd⟩ :=
    withShape_implements hiv hT hV hicells hcut
  have hsame : Set.EqOn (inverseLayout mn).offset (Layout.fromModes [r₁, r₂]).offset
      (Set.Ico 0 (thr.cells * val.cells)) := fun c hc => by
    -- a cell is a thread and a value coordinate
    obtain ⟨⟨t, v⟩, ⟨ht, hv⟩, rfl⟩ := (bijOn_digits val.cells hT).surjOn hc
    have hpair := offset_pair (j := v) hv₁ hv₂.congruent ht.1 (hc₁ ▸ ht.2)
    rw [hc₁] at hpair
    exact (hadd t ht v hv).symm.trans hpair.symm
  obtain ⟨ss, hsizes, hprod⟩ := modeSizes_implements hzc
  have hrun : (makeLayoutTv thr val).Implements (.ok (ss, Layout.fromModes [r₁, r₂])) := by
    refine hraked.bind_ok ?_
    rw [hmn, modes_fromModes hlen]
    refine hsizes.bind_ok ((rightInverse_implements hvalid).bind_ok ?_)
    refine (Layout.size_implements hthr.valid.congruent).bind_ok ?_
    refine (Layout.size_implements hval.valid.congruent).bind_ok ?_
    exact hshape.bind_ok (.ok _)
  rw [← hflat] at hprod
  rw [hcells] at hbij hleft
  refine ⟨ss, r₁, r₂, mn, hrun, hraked, hprod.trans hcells, ⟨hv₁, hc₁⟩, ⟨hv₂, hc₂⟩,
    hbij.congr hsame, fun c hc => ?_⟩
  rw [← hsame hc]
  exact hleft hc

/-- A row-major `m × n` grid enumerates its cells. -/
theorem enumerates_rowMajor {m n : ℤ} (hm : 0 < m) (hn : 0 < n) :
    Enumerates ⟨.tuple [.leaf m, .leaf n], .tuple [.leaf n, .leaf 1]⟩ := by
  have hpos : Pos [(m, n), (n, 1)] := by simp [hm, hn]
  have hpos' : Pos [(n, 1), (m, n)] := by simp [hm, hn]
  have hch : Chain 1 [(n, 1), (m, n)] := ⟨rfl, (mul_one n).symm, trivial⟩
  refine ⟨⟨rfl, hpos⟩, by simpa [Layout.flatModes] using hn.le, ?_⟩
  have hcells : (Layout.mk (.tuple [.leaf m, .leaf n]) (.tuple [.leaf n, .leaf 1])).cells =
      size [(n, 1), (m, n)] := by
    simp only [Layout.cells, Layout.flatModes, IntTuple.flatten_tuple, IntTuple.flattenAll_cons,
      IntTuple.flatten_leaf, IntTuple.flattenAll_nil, List.append_nil, List.singleton_append,
      List.zip_cons_cons, List.zip_nil_right, size_cons, size_nil]
    ring
  rw [hcells]
  exact (fills_perm hpos (List.Perm.swap _ _ _)).mpr (hch.fills hpos')

end CudaOxide.Cute
