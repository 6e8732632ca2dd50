import CudaOxide.Cute.Coordinates

namespace CudaOxide.Cute

open Lib Strided

/-!
# Unpacking a flat coordinate

`idx2crd` of `cute-layout/src/layout.rs` gives a flat coordinate the parentheses of a shape.

* `coordAt`, `indexOf` — unpacking and packing over `ℤ`; each undoes the other (`bijOn_coordAt`).
* `idx2crd_eq` — the machine unpacks wherever the number of cells is an `i64`.
* `crd2idx_of_idx2crd` — evaluating the unpacked coordinate is evaluating the flat one, step by
  step.
* `idx2crd_spec` — the three together, and the column-major strides that turn it back.
-/

variable {ε : Type}

/-! ### The machine function -/

mutual

/-- Unpack a flat coordinate, leftmost mode fastest; the last mode takes the whole remaining
quotient. -/
def idx2crd [Build] : ℤ → IntTuple → Run ε IntTuple
  | idx, .leaf _ => .ok (.leaf idx)
  | idx, .tuple ss => do
    let coords ← idx2crdAll idx ss
    .ok (.tuple coords)
termination_by structural _ s => s

/-- The coordinates of a flat index in each mode; the last mode takes what remains. -/
def idx2crdAll [Build] : ℤ → List IntTuple → Run ε (List IntTuple)
  | _, [] => .ok []
  | rem, s :: ss => do
    let sz ← s.size
    let c ← (if ss.isEmpty then .ok rem else I64.rem rem sz)
    let coord ← idx2crd c s
    let rem ← I64.div rem sz
    let coords ← idx2crdAll rem ss
    .ok (coord :: coords)
termination_by structural _ ss => ss

end

/-! ### Packing and unpacking over the integers -/

mutual

/-- Congruent to the shape, with every leaf in its extent. -/
def InBounds : IntTuple → IntTuple → Prop
  | .leaf c, .leaf s => 0 ≤ c ∧ c < s
  | .tuple cs, .tuple ss => InBoundsAll cs ss
  | _, _ => False

/-- The coordinates of each mode are in bounds. -/
def InBoundsAll : List IntTuple → List IntTuple → Prop
  | [], [] => True
  | c :: cs, s :: ss => InBounds c s ∧ InBoundsAll cs ss
  | _, _ => False

end

mutual

/-- The coordinate of a flat coordinate. -/
def coordAt : ℤ → IntTuple → IntTuple
  | i, .leaf _ => .leaf i
  | i, .tuple ss => .tuple (coordsAt i ss)
termination_by structural _ s => s

/-- The coordinates of a flat index, first mode fastest. -/
def coordsAt : ℤ → List IntTuple → List IntTuple
  | _, [] => []
  | i, s :: ss => coordAt (i % s.flatten.prod) s :: coordsAt (i / s.flatten.prod) ss
termination_by structural _ ss => ss

end

mutual

/-- The flat coordinate of a coordinate. -/
def indexOf : IntTuple → IntTuple → ℤ
  | .leaf c, .leaf _ => c
  | .tuple cs, .tuple ss => indexOfAll cs ss
  | _, _ => 0

/-- The flat index of coordinates, first mode fastest. -/
def indexOfAll : List IntTuple → List IntTuple → ℤ
  | c :: cs, s :: ss => indexOf c s + s.flatten.prod * indexOfAll cs ss
  | _, _ => 0

end

mutual

/-- Unpacking gives a coordinate in bounds, and packing it again the number one started from. -/
theorem indexOf_coordAt : {s : IntTuple} → {i : ℤ} → Positive s.flatten → 0 ≤ i →
    i < s.flatten.prod → InBounds (coordAt i s) s ∧ indexOf (coordAt i s) s = i
  | .leaf s, i, _, h0, hi => by
    rw [IntTuple.flatten_leaf, List.prod_singleton] at hi
    rw [coordAt, InBounds, indexOf]
    exact ⟨⟨h0, hi⟩, rfl⟩
  | .tuple ss, i, hpos, h0, hi => by
    rw [coordAt, InBounds, indexOf]
    exact indexOfAll_coordsAt hpos h0 hi

/-- Every index in range has coordinates in bounds, and is theirs. -/
theorem indexOfAll_coordsAt : {ss : List IntTuple} → {i : ℤ} →
    Positive (IntTuple.flattenAll ss) → 0 ≤ i → i < (IntTuple.flattenAll ss).prod →
    InBoundsAll (coordsAt i ss) ss ∧ indexOfAll (coordsAt i ss) ss = i
  | [], i, _, h0, hi => by
    rw [IntTuple.flattenAll_nil, List.prod_nil] at hi
    rw [coordsAt, InBoundsAll, indexOfAll]
    · exact ⟨trivial, by omega⟩
    · simp
  | s :: ss, i, hpos, h0, hi => by
    obtain ⟨hp, hps⟩ := positive_append.mp hpos
    rw [IntTuple.flattenAll_cons, List.prod_append] at hi
    obtain ⟨⟨hm0, hm⟩, hq0, hq⟩ := flat_digits h0 hp.prod_pos hi
    obtain ⟨hfirst, hidx⟩ := indexOf_coordAt hp hm0 hm
    obtain ⟨hrest, hidxs⟩ := indexOfAll_coordsAt hps hq0 hq
    rw [coordsAt, InBoundsAll, indexOfAll, hidx, hidxs]
    exact ⟨⟨hfirst, hrest⟩, Int.emod_add_mul_ediv i _⟩

end

mutual

/-- Packing gives a number below the size, and unpacking it the coordinate one started from. -/
theorem coordAt_indexOf : {s c : IntTuple} → InBounds c s →
    0 ≤ indexOf c s ∧ indexOf c s < s.flatten.prod ∧ coordAt (indexOf c s) s = c
  | .leaf s, .leaf c, h => by
    rw [InBounds] at h
    rw [indexOf, coordAt, IntTuple.flatten_leaf, List.prod_singleton]
    exact ⟨h.1, h.2, rfl⟩
  | .tuple ss, .tuple cs, h => by
    rw [InBounds] at h
    obtain ⟨h0, hlt, hcoords⟩ := coordsAt_indexOfAll h
    rw [indexOf, coordAt, hcoords]
    exact ⟨h0, hlt, rfl⟩
  | .leaf _, .tuple _, h => by simp [InBounds] at h
  | .tuple _, .leaf _, h => by simp [InBounds] at h

/-- Coordinates in bounds have an index in range, and are its. -/
theorem coordsAt_indexOfAll : {ss cs : List IntTuple} → InBoundsAll cs ss →
    0 ≤ indexOfAll cs ss ∧ indexOfAll cs ss < (IntTuple.flattenAll ss).prod ∧
      coordsAt (indexOfAll cs ss) ss = cs
  | [], [], _ => by
    rw [indexOfAll]
    · exact ⟨le_rfl, one_pos, rfl⟩
    · simp
  | s :: ss, c :: cs, h => by
    rw [InBoundsAll] at h
    obtain ⟨h0, hlt, hcoord⟩ := coordAt_indexOf h.1
    obtain ⟨h0s, hlts, hcoords⟩ := coordsAt_indexOfAll h.2
    obtain ⟨hmod, hdiv⟩ := digit_cons (q := indexOfAll cs ss) h0 hlt
    have hsize : 0 < s.flatten.prod := h0.trans_lt hlt
    rw [indexOfAll, coordsAt, hmod, hdiv, hcoord, hcoords, IntTuple.flattenAll_cons,
      List.prod_append]
    refine ⟨add_nonneg h0 (mul_nonneg hsize.le h0s), ?_, rfl⟩
    -- the last digit below its extent leaves room for all the digits before it
    calc indexOf c s + s.flatten.prod * indexOfAll cs ss
        < s.flatten.prod + s.flatten.prod * indexOfAll cs ss := by linarith
      _ = s.flatten.prod * (indexOfAll cs ss + 1) := by ring
      _ ≤ s.flatten.prod * (IntTuple.flattenAll ss).prod :=
          mul_le_mul_of_nonneg_left (by omega) hsize.le
  | [], _ :: _, h => by simp [InBoundsAll] at h
  | _ :: _, [], h => by simp [InBoundsAll] at h

end

/-- **Unpacking numbers the coordinates of a shape.** -/
theorem bijOn_coordAt {s : IntTuple} (hpos : Positive s.flatten) :
    Set.BijOn (fun i => coordAt i s) (Set.Ico 0 s.flatten.prod) {c | InBounds c s} := by
  have hinv : Set.InvOn (fun c => indexOf c s) (fun i => coordAt i s)
      (Set.Ico 0 s.flatten.prod) {c | InBounds c s} :=
    ⟨fun i hi => (indexOf_coordAt hpos hi.1 hi.2).2, fun c hc => (coordAt_indexOf hc).2.2⟩
  refine hinv.bijOn (fun i hi => (indexOf_coordAt hpos hi.1 hi.2).1) fun c hc => ?_
  obtain ⟨h0, hlt, -⟩ := coordAt_indexOf hc
  exact ⟨h0, hlt⟩

/-! ### The machine unpacks -/

mutual

/-- The machine computes the coordinates of an index in range. -/
theorem idx2crd_eq : {s : IntTuple} → {i n : ℤ} → Positive s.flatten →
    (s.size : Run ε ℤ) = .ok n → 0 ≤ i → i < s.flatten.prod → I64.Fits i →
    (idx2crd i s : Run ε IntTuple) = .ok (coordAt i s)
  | .leaf _, i, n, _, _, _, _, _ => rfl
  | .tuple ss, i, n, hpos, hsize, h0, hi, hfits => by
    rw [idx2crd, idx2crdAll_eq hpos hsize h0 hi hfits, coordAt]
    rfl

/-- The machine's loop over the modes: by induction on them. -/
theorem idx2crdAll_eq : {ss : List IntTuple} → {i acc n : ℤ} →
    Positive (IntTuple.flattenAll ss) → (IntTuple.sizeFrom acc ss : Run ε ℤ) = .ok n → 0 ≤ i →
    i < (IntTuple.flattenAll ss).prod → I64.Fits i →
    (idx2crdAll i ss : Run ε (List IntTuple)) = .ok (coordsAt i ss)
  | [], _, _, _, _, _, _, _, _ => rfl
  | s :: ss, i, acc, n, hpos, hsize, h0, hi, hfits => by
    obtain ⟨hp, hps⟩ := positive_append.mp hpos
    rw [IntTuple.flattenAll_cons, List.prod_append] at hi
    obtain ⟨⟨hm0, hm⟩, hq0, hq⟩ := flat_digits h0 hp.prod_pos hi
    rw [IntTuple.sizeFrom] at hsize
    obtain ⟨sz, hsz, hprod⟩ := Run.bind_eq_ok.mp hsize
    obtain ⟨next, -, hsizes⟩ := Run.bind_eq_ok.mp hprod
    obtain rfl := (IntTuple.size_implements s).eq_of_ok hsz
    have hdigit : (if ss.isEmpty then .ok i else I64.rem i s.flatten.prod : Run ε ℤ) =
        .ok (i % s.flatten.prod) := by
      rw [I64.rem_of_nonneg h0 hfits hp.prod_pos, ← lastDigit_eq h0 hi,
        Int.tmod_eq_emod_of_nonneg h0]
      split <;> rfl
    -- every remainder is below the number, so nothing overflows
    have hle : i % s.flatten.prod ≤ i := by
      have := mul_nonneg hp.prod_pos.le hq0
      have := Int.emod_add_mul_ediv i s.flatten.prod
      omega
    have hfirst : (idx2crd (i % s.flatten.prod) s : Run ε IntTuple) = _ :=
      idx2crd_eq hp hsz hm0 hm (fits_of_le hm0 hle hfits)
    have hrest : (idx2crdAll (i / s.flatten.prod) ss : Run ε (List IntTuple)) = _ :=
      idx2crdAll_eq hps hsizes hq0 hq (I64.fits_ediv h0 hfits hp.prod_pos)
    rw [idx2crdAll, hsz]
    show ((if ss.isEmpty then .ok i else I64.rem i s.flatten.prod : Run ε ℤ) >>= fun c => _) = _
    rw [hdigit]
    show (idx2crd _ s >>= fun coord => _) = _
    rw [hfirst]
    show (I64.div i s.flatten.prod >>= fun rem => _) = _
    rw [I64.div_of_nonneg h0 hfits hp.prod_pos]
    show (idx2crdAll _ ss >>= fun coords => _) = _
    rw [hrest, coordsAt]
    rfl

end

/-! ### Evaluating an unpacked coordinate -/

mutual

/-- The evaluator splits a flat coordinate just as `idx2crd` does, and adds up in the same order. -/
theorem crd2idx_of_idx2crd : {s d c : IntTuple} → {i : ℤ} → s.Congruent d →
    (idx2crd i s : Run ε IntTuple) = .ok c → (crd2idx c s d : Run ε ℤ) = crd2idx (.leaf i) s d
  | .leaf _, .leaf _, c, i, _, h => by
    cases h
    rfl
  | .tuple ss, .tuple ds, c, i, hc, h => by
    obtain ⟨cs, hcs, h⟩ := Run.bind_eq_ok.mp h
    cases h
    obtain ⟨hlen, hrun⟩ := crd2idxTuple_of_idx2crdAll hc hcs 0
    have hds : ss.length = ds.length := IntTuple.CongruentAll.length_eq hc
    rw [crd2idx, crd2idx, Run.debugAssert, if_pos ⟨hlen, hds⟩, Run.debugAssert, if_pos hds]
    exact hrun

/-- A tuple of coordinates is evaluated as the flat index is. -/
theorem crd2idxTuple_of_idx2crdAll : {ss ds cs : List IntTuple} → {rem : ℤ} →
    IntTuple.CongruentAll ss ds → (idx2crdAll rem ss : Run ε (List IntTuple)) = .ok cs →
    (idx : ℤ) → cs.length = ss.length ∧
      (crd2idxTuple idx cs ss ds : Run ε ℤ) = crd2idxFlat rem idx ss ds
  | [], [], cs, rem, _, h, idx => by
    cases h
    refine ⟨rfl, ?_⟩
    rw [crd2idxTuple, crd2idxFlat]
    all_goals simp
  | s :: ss, d :: ds, cs, rem, hc, h, idx => by
    obtain ⟨hs, hss⟩ := IntTuple.congruentAll_cons.mp hc
    obtain ⟨sz, hsz, h⟩ := Run.bind_eq_ok.mp h
    obtain ⟨c, hdigit, h⟩ := Run.bind_eq_ok.mp h
    obtain ⟨coord, hcoord, h⟩ := Run.bind_eq_ok.mp h
    obtain ⟨q, hq, h⟩ := Run.bind_eq_ok.mp h
    obtain ⟨coords, hcoords, h⟩ := Run.bind_eq_ok.mp h
    cases h
    have hlen := (crd2idxTuple_of_idx2crdAll hss hcoords 0).1
    refine ⟨congrArg (· + 1) hlen, ?_⟩
    rw [crd2idxTuple, crd2idxFlat, hsz, crd2idx_of_idx2crd hs hcoord]
    show _ = ((if ss.isEmpty then .ok rem else I64.rem rem sz : Run ε ℤ) >>= fun c => _)
    rw [hdigit]
    show _ = (crd2idx (.leaf c) s d >>= fun o => I64.add idx o >>= fun idx =>
      I64.div rem sz >>= fun rem => crd2idxFlat rem idx ss ds)
    rw [hq]
    refine bind_congr fun o => bind_congr fun sum => ?_
    exact (crd2idxTuple_of_idx2crdAll hss hcoords sum).2

end

/-! ### Column-major strides -/

/-- The running products fit where the whole product does. -/
theorem runningStrides_eq {ns : List ℤ} {p : ℤ} (hp : 0 < p) (hpos : Positive ns)
    (hfits : I64.Fits (p * ns.prod)) :
    (Layout.runningStrides p ns : Run ε (List ℤ)) = .ok (prefixProducts p ns) := by
  induction ns generalizing p with
  | nil => rfl
  | cons n ns ih =>
    obtain ⟨hn, hns⟩ := List.forall_mem_cons.mp hpos
    rw [List.prod_cons, ← mul_assoc] at hfits
    have hpn : 0 < p * n := mul_pos hp hn
    obtain ⟨hnext, -⟩ := fits_of_mul hpn (Positive.prod_pos hns) hfits
    rw [Layout.runningStrides, I64.mul, I64.exact_of_fits hnext]
    show (Layout.runningStrides (p * n) ns >>= fun rest => _) = _
    rw [ih hpn hns hfits]
    rfl

/-- The strides of a column-major layout are the products of the extents before them. -/
theorem colMajor_eq {s : IntTuple} (hpos : Positive s.flatten) (hfits : I64.Fits s.flatten.prod) :
    ∃ d : IntTuple, (Layout.colMajor s : Run ε Layout) = .ok ⟨s, d⟩ ∧ s.Congruent d ∧
      d.flatten = prefixProducts 1 s.flatten := by
  obtain ⟨d, hrun, hflat, hcong⟩ := IntTuple.restructure_ok (ε := ε) s
    (prefixProducts 1 s.flatten) [] (length_prefixProducts _ _)
  rw [List.append_nil] at hrun
  refine ⟨d, ?_, hcong, hflat⟩
  rw [Layout.colMajor, Layout.colMajorWith,
    runningStrides_eq one_pos hpos (by rwa [one_mul])]
  show (s.restructure (prefixProducts 1 s.flatten) >>= fun r => _) = _
  rw [hrun]
  rfl

/-- They are not negative. -/
theorem nonneg_zip_prefixProducts {p : ℤ} {ns : List ℤ} (hp : 0 ≤ p) (hpos : Positive ns) :
    Nonneg (ns.zip (prefixProducts p ns)) := by
  induction ns generalizing p with
  | nil => exact nonneg_nil
  | cons n ns ih =>
    obtain ⟨hn, hns⟩ := List.forall_mem_cons.mp hpos
    exact nonneg_cons.mpr ⟨hp, ih (mul_nonneg hp hn.le) hns⟩

/-- With column-major strides the offset of a flat coordinate is the coordinate. -/
theorem crd2idx_colMajor {s d : IntTuple} (hpos : Positive s.flatten)
    (hfits : I64.Fits s.flatten.prod) (hc : s.Congruent d)
    (hd : d.flatten = prefixProducts 1 s.flatten) {i : ℤ} (h0 : 0 ≤ i)
    (hi : i < s.flatten.prod) : (crd2idx (.leaf i) s d : Run ε ℤ) = .ok i := by
  have hoff : offsetAt (.leaf i) s d = i := by
    rw [offsetAt_leaf, hd, eval_chain (pos_zip hpos) (chain_zip_prefixProducts 1 _) h0, mul_one]
    rwa [size_zip (length_prefixProducts _ _).symm]
  have hnn : Nonneg (s.flatten.zip d.flatten) :=
    hd ▸ nonneg_zip_prefixProducts zero_le_one hpos
  have hcoord : IsCoord (.leaf i) s := isCoord_leaf.mpr ⟨h0, hi⟩
  have hmax : offsetAt (.leaf i) s d ≤ 9223372036854775807 := by
    have := hfits.2
    omega
  have hrun := checkedCrd2idx_eq hc hpos hcoord
    (offsetFits_of_forward hc hpos (forward_of_nonneg hnn) hfits hcoord hmax)
  rw [hoff] at hrun
  exact crd2idx_of_checked hrun

/-- The flat coordinate `7` of the shape `((2,2),3)`. -/
example : (idx2crd 7 (.tuple [.tuple [.leaf 2, .leaf 2], .leaf 3]) : Run ε IntTuple) =
    .ok (.tuple [.tuple [.leaf 1, .leaf 1], .leaf 1]) := rfl

end CudaOxide.Cute
