import CudaOxide.Cute.TileToShape

namespace CudaOxide.Cute

open Lib Strided

/-!
# When a thread/value layout overflows

`make_layout_tv` runs through a product, a right inverse and a composition.  The tile of the product
bounds everything they multiply, so the overflows are those of the product.

* `composeFrom_eq` — a walk that stays within the modes it is read through does not overflow.
* `rakedProduct_returns_iff` — the product overflows exactly where the tile is not `TileFits`.
* `withShape_returns` — naming the coordinates of the inverse does not overflow then.
* `makeLayoutTv_spec` — the result is a bijection from threads and values onto the tile's cells,
  inverse to the raked product; it is returned exactly where the tile fits.
-/

variable {thr val a b : Layout} {B T V n q : ℤ} {ms ps out : List (ℤ × ℤ)}

/-! ### A walk within the modes it is read through -/

/-- Rounding up a quotient does not exceed the dividend. -/
theorem upDiv_le_self (ha : 0 < n) (hb : 0 < q) : upDiv n q ≤ n := by
  have h := upDiv_mul_lt (a := n) hb
  have hpos := upDiv_pos ha hb
  nlinarith

/-- What is left of a walk behind the front mode stays within the modes behind it. -/
theorem rest_le {m : ℤ × ℤ} (hm : 0 < m.1) (hn : 0 < n) (hq : 0 < q) (hsize : 0 < size ms)
    (h : n * q ≤ m.1 * size ms) (hcut : q % m.1 = 0 ∨ q < m.1) :
    (upDiv m.1 q = 1 ∨ n = 1 → n * upDiv q m.1 ≤ size ms) ∧
      (upDiv m.1 q ≠ 1 → min (upDiv m.1 q) n ∣ n →
        upDiv q m.1 = 1 ∧ n / min (upDiv m.1 q) n ≤ size ms) := by
  have hstep : q % m.1 = 0 → n * upDiv q m.1 ≤ size ms := fun hdvd => by
    obtain ⟨k, rfl⟩ := Int.dvd_of_emod_eq_zero hdvd
    rw [upDiv_of_dvd hm (Dvd.intro _ rfl), Int.mul_ediv_cancel_left _ hm.ne']
    refine le_of_mul_le_mul_left ?_ hm
    calc m.1 * (n * k) = n * (m.1 * k) := by ring
      _ ≤ m.1 * size ms := h
  constructor
  · intro hskip
    rcases hcut with hdvd | hlt
    · exact hstep hdvd
    · rcases hskip with hone | rfl
      · have := two_le_upDiv hq hlt
        omega
      · rw [upDiv_of_le hq hlt.le]
        omega
  · intro hne hdvd
    have hlt : q < m.1 := by
      by_contra hle
      exact hne (upDiv_of_le hm (by omega))
    have hup : 0 < upDiv m.1 q := upDiv_pos hm hq
    refine ⟨upDiv_of_le hq hlt.le, ?_⟩
    rcases le_total (upDiv m.1 q) n with hmin | hmin
    · rw [min_eq_left hmin] at hdvd ⊢
      obtain ⟨k, rfl⟩ := hdvd
      have hk : 0 < k := pos_of_mul_pos_right hn hup.le
      rw [Int.mul_ediv_cancel_left _ hup.ne']
      refine le_of_mul_le_mul_left ?_ hm
      calc m.1 * k ≤ upDiv m.1 q * q * k := Int.mul_le_mul_of_nonneg_right (le_upDiv_mul hq) hk.le
        _ = upDiv m.1 q * k * q := by ring
        _ ≤ m.1 * size ms := h
    · rw [min_eq_right hmin, Int.ediv_self hn.ne']
      exact hsize

/-- The last mode takes what is left of the walk. -/
theorem composeFrom_last_eq {m : ℤ × ℤ} (hB : I64.Fits B) (hm : Within B m) (hn : 0 < n)
    (hq : 0 < q) (hwalk : n * q ≤ m.1)
    (hps : ∀ p ∈ out.reverse ++ [(n, q * m.2)], p.1 ≠ 1 → Within B p) :
    composeFrom n q out [m] =
      .ok (layoutFromFlat (finish (out.reverse ++ [(n, q * m.2)]))) := by
  have hreach : I64.Fits (q * m.2) := by
    have hle : q * m.2 ≤ m.1 * m.2 := by
      refine Int.mul_le_mul_of_nonneg_right ?_ hm.stride.le
      have hone : 1 * q ≤ n * q := Int.mul_le_mul_of_nonneg_right hn hq.le
      omega
    exact fits_of_le (mul_pos hq hm.stride).le (hle.trans hm.reach) hB
  unfold composeFrom
  split
  · rename_i hnil
    rw [hnil, I64.mul, I64.exact_of_fits hreach]
    rfl
  · rename_i hnil
    have hrev : out.reverse ≠ [] := by simpa using hnil
    rw [finish_of_ne_nil hrev]
    split
    · rw [I64.mul, I64.exact_of_fits hreach]
      show coalesce (layoutFromFlat ((n, q * m.2) :: out).reverse) = _
      rw [List.reverse_cons]
      exact coalesce_layoutFromFlat_eq hB hps
    · -- one cell is left, which adds no mode
      rename_i hone
      rw [not_not.mp hone, merged_concat_unit]
      exact coalesce_layoutFromFlat_eq hB fun p hp => hps p (List.mem_append_left _ hp)

section Front

variable {m m' : ℤ × ℤ}

/-- What the code does at a front mode that the walk meets at a cut. -/
theorem composeFrom_front_eq (hext : 0 < m.1) (hq : 0 < q) (hqfits : I64.Fits q)
    (hsum : I64.Fits (m.1 + q)) (hcut : q % m.1 = 0 ∨ q < m.1) :
    composeFrom n q out (m :: m' :: ms) =
      if upDiv m.1 q = 1 ∨ n = 1 then composeFrom n (upDiv q m.1) out (m' :: ms)
      else I64.rem n (min (upDiv m.1 q) n) >>= fun r =>
        if r ≠ 0 then Run.fail (shapeDivisibility n (min (upDiv m.1 q) n))
        else I64.mul q m.2 >>= fun d => I64.div n (min (upDiv m.1 q) n) >>= fun rest =>
          composeFrom rest (upDiv q m.1) ((min (upDiv m.1 q) n, d) :: out) (m' :: ms) := by
  have hup : 0 < upDiv q m.1 := upDiv_pos hq hext
  have hupfits : I64.Fits (upDiv q m.1) := fits_of_le hup.le (upDiv_le_self hq hext) hqfits
  have hrem : (I64.rem q m.1 : Run AlgebraError ℤ) = .ok (q % m.1) :=
    I64.rem_of_nonneg hq.le hqfits hext
  have habs : (I64.abs q : Run AlgebraError ℤ) = .ok q := by
    rw [I64.abs, abs_of_pos hq, I64.exact_of_fits hqfits]
  conv_lhs => unfold composeFrom
  rw [hrem]
  show (I64.abs q >>= fun absq => _) = _
  rw [habs]
  show (if q % m.1 ≠ 0 ∧ m.1 ≤ q then _ else _) = _
  rw [if_neg (by omega)]
  show (ceilDiv m.1 q >>= fun next => _) = _
  rw [ceilDiv_eq hext hq, if_pos hsum]
  show (ceilDiv q m.1 >>= fun k => _) = _
  rw [ceilDiv_eq hq hext, if_pos (by rwa [add_comm])]
  show (I64.mul (upDiv q m.1) (if q < 0 then -1 else 1) >>= fun next => _) = _
  rw [if_neg (by omega), I64.mul, mul_one, I64.exact_of_fits hupfits]
  rfl

/-- A front mode that the walk cuts gives the next piece. -/
theorem composeFrom_cut_eq (hext : 0 < m.1) (hn : 0 < n) (hnfits : I64.Fits n) (hq : 0 < q)
    (hqfits : I64.Fits q) (hsum : I64.Fits (m.1 + q)) (hcut : q % m.1 = 0 ∨ q < m.1)
    (hne : upDiv m.1 q ≠ 1) (hn1 : n ≠ 1) (hdvd : min (upDiv m.1 q) n ∣ n)
    (hreach : I64.Fits (q * m.2)) :
    composeFrom n q out (m :: m' :: ms) =
      composeFrom (n / min (upDiv m.1 q) n) (upDiv q m.1)
        ((min (upDiv m.1 q) n, q * m.2) :: out) (m' :: ms) := by
  have hmin : 0 < min (upDiv m.1 q) n := lt_min (upDiv_pos hext hq) hn
  have hnrem : (I64.rem n (min (upDiv m.1 q) n) : Run AlgebraError ℤ) = .ok 0 := by
    rw [I64.rem_of_nonneg hn.le hnfits hmin, Int.emod_eq_zero_of_dvd hdvd]
  rw [composeFrom_front_eq hext hq hqfits hsum hcut, if_neg (not_or.mpr ⟨hne, hn1⟩), hnrem]
  show (I64.mul q m.2 >>= fun d => _) = _
  rw [I64.mul, I64.exact_of_fits hreach]
  show (I64.div n (min (upDiv m.1 q) n) >>= fun rest => _) = _
  rw [I64.div_of_nonneg hn.le hnfits hmin]
  rfl

end Front

/-- **A walk that stays within its modes.**  Where the modes, the pieces and the sums of an extent
and the stride are `i64`s, `compose_int` returns the pieces. -/
theorem composeFrom_eq (hB : I64.Fits B) (hms : ∀ m ∈ ms, Within B m) (hne : ms ≠ [])
    (hn : 0 < n) (hnfits : I64.Fits n) (hq : 0 < q) (hqfits : I64.Fits q) (hwalk : n * q ≤ size ms)
    (hsum : ∀ m ∈ ms, I64.Fits (m.1 + q)) (hout : ∀ p ∈ out, p.1 ≠ 1 → Within B p)
    (hpieces : pieces n q ms = .ok ps) (hps : ∀ p ∈ ps, p.1 ≠ 1 → Within B p) :
    composeFrom n q out ms = .ok (layoutFromFlat (finish (out.reverse ++ ps))) := by
  induction ms generalizing n q out ps with
  | nil => exact absurd rfl hne
  | cons m ms ih =>
    obtain ⟨hm, hms⟩ := List.forall_mem_cons.mp hms
    have hext := hm.ext
    cases ms with
    | nil =>
      obtain rfl := Except.ok.inj hpieces
      rw [size_cons, size_nil, mul_one] at hwalk
      refine composeFrom_last_eq hB hm hn hq hwalk fun p hp => ?_
      exact (List.mem_append.mp hp).elim (fun hp => hout p (List.mem_reverse.mp hp)) (hps p)
    | cons m' ms =>
      have hsize : 0 < size (m' :: ms) := size_pos fun x hx => (hms x hx).ext
      obtain ⟨hm', hsum⟩ := List.forall_mem_cons.mp hsum
      obtain ⟨hcut, hpieces⟩ := pieces_cons_ok hpieces
      rw [size_cons] at hwalk
      obtain ⟨hskip, hpiece⟩ := rest_le hext hn hq hsize hwalk hcut
      have hup : 0 < upDiv q m.1 := upDiv_pos hq hext
      have hle : upDiv q m.1 ≤ q := upDiv_le_self hq hext
      have hupfits : I64.Fits (upDiv q m.1) := fits_of_le hup.le hle hqfits
      have hsums : ∀ x ∈ m' :: ms, I64.Fits (x.1 + upDiv q m.1) := fun x hx => by
        have := (hms x hx).ext
        exact fits_of_le (by omega) (by omega) (hsum x hx)
      rcases hpieces with ⟨hone, hrest⟩ | ⟨hne1, hn1, hdvd, rest, hrest, rfl⟩
      · -- the front mode is skipped
        rw [composeFrom_front_eq hext hq hqfits hm' hcut, if_pos hone]
        exact ih hms (by simp) hn hnfits hup hupfits (hskip hone) hsums hout hrest hps
      · -- the front mode is cut
        obtain ⟨hq1, hrestle⟩ := hpiece hne1 hdvd
        obtain ⟨hcutp, hps⟩ := List.forall_mem_cons.mp hps
        have hmin : 0 < min (upDiv m.1 q) n := lt_min (upDiv_pos hext hq) hn
        have hpos : Within B (min (upDiv m.1 q) n, q * m.2) :=
          hcutp (show min (upDiv m.1 q) n ≠ 1 by omega)
        have hreach : I64.Fits (q * m.2) := by
          have hle : q * m.2 ≤ min (upDiv m.1 q) n * (q * m.2) :=
            le_mul_of_one_le_left hpos.stride.le hmin
          exact fits_of_le hpos.stride.le (hle.trans hpos.reach) hB
        have hrest0 : 0 < n / min (upDiv m.1 q) n := Int.ediv_pos_of_pos_of_dvd hn hmin.le hdvd
        rw [composeFrom_cut_eq hext hn hnfits hq hqfits hm' hcut hne1 hn1 hdvd hreach,
          ih hms (by simp) hrest0 (I64.fits_ediv hn.le hnfits hmin) hup hupfits
            (by rwa [hq1, mul_one]) hsums (List.forall_mem_cons.mpr ⟨hcutp, hout⟩) hrest hps]
        simp

/-- Pieces that are cut where the modes are end within the modes. -/
theorem pieces_within (hms : ∀ m ∈ ms, Within B m) (hne : ms ≠ []) (hn : 0 < n) (hq : 0 < q)
    (hcuts : Cuts q ms) (hwalk : n * q ≤ size ms) (hpieces : pieces n q ms = .ok ps) :
    ∀ p ∈ ps, p.1 ≠ 1 → Within B p := by
  induction ms generalizing n q ps with
  | nil => exact absurd rfl hne
  | cons m ms ih =>
    obtain ⟨hm, hms⟩ := List.forall_mem_cons.mp hms
    have hext := hm.ext
    have hscaled : ∀ k : ℤ, k * q ≤ m.1 → k * (q * m.2) ≤ B := fun k hk =>
      calc k * (q * m.2) = k * q * m.2 := by ring
        _ ≤ m.1 * m.2 := Int.mul_le_mul_of_nonneg_right hk hm.stride.le
        _ ≤ B := hm.reach
    cases ms with
    | nil =>
      obtain rfl := Except.ok.inj hpieces
      rw [size_cons, size_nil, mul_one] at hwalk
      intro p hp _
      rw [List.mem_singleton.mp hp]
      exact ⟨hn, mul_pos hq hm.stride, hscaled n hwalk⟩
    | cons m' ms =>
      have hsize : 0 < size (m' :: ms) := size_pos fun x hx => (hms x hx).ext
      obtain ⟨hcut, hpieces⟩ := pieces_cons_ok hpieces
      rw [size_cons] at hwalk
      obtain ⟨hskip, hpiece⟩ := rest_le hext hn hq hsize hwalk hcut
      have hup : 0 < upDiv q m.1 := upDiv_pos hq hext
      have hrestcuts : Cuts (upDiv q m.1) (m' :: ms) := by
        rcases hcuts with ⟨hdvd, hrest⟩ | hdvd
        · rwa [upDiv_of_dvd hext hdvd]
        · rw [upDiv_of_le hq (Int.le_of_dvd hext hdvd)]
          exact cuts_one _
      rcases hpieces with ⟨hone, hrest⟩ | ⟨hne1, _, hdvd, rest, hrest, rfl⟩
      · exact ih hms (by simp) hn hup hrestcuts (hskip hone) hrest
      · obtain ⟨hq1, hrestle⟩ := hpiece hne1 hdvd
        have hlt : q < m.1 := by
          by_contra hle
          exact hne1 (upDiv_of_le hext (by omega))
        -- the cut divides the front mode
        have hqm : q ∣ m.1 := hcuts.resolve_left fun h => by
          have := Int.le_of_dvd hq h.1
          omega
        have hmin : 0 < min (upDiv m.1 q) n := lt_min (upDiv_pos hext hq) hn
        have hle : min (upDiv m.1 q) n * q ≤ m.1 :=
          calc min (upDiv m.1 q) n * q ≤ upDiv m.1 q * q :=
                Int.mul_le_mul_of_nonneg_right (min_le_left _ _) hq.le
            _ = m.1 := by rw [upDiv_of_dvd hq hqm, Int.ediv_mul_cancel hqm]
        refine List.forall_mem_cons.mpr ⟨fun _ => ⟨hmin, mul_pos hq hm.stride, hscaled _ hle⟩, ?_⟩
        exact ih hms (by simp) (Int.ediv_pos_of_pos_of_dvd hn hmin.le hdvd) hup hrestcuts
          (by rwa [hq1, mul_one]) hrest

/-- Two modes within the bound that continue one another merge to one within it. -/
theorem Within.merge {s₀ d₀ s : ℤ} (h₀ : Within B (s₀, d₀)) (h : Within B (s, s₀ * d₀)) :
    Within B (s₀ * s, d₀) := by
  refine ⟨mul_pos h₀.ext h.ext, h₀.stride, ?_⟩
  calc s₀ * s * d₀ = s * (s₀ * d₀) := by ring
    _ ≤ B := h.reach

/-- One of several modes is at most half the cells. -/
theorem two_mul_le_size {m : ℤ × ℤ} (hms : ∀ m ∈ ms, 1 < m.1) (hlen : 2 ≤ ms.length)
    (hm : m ∈ ms) : m.1 * 2 ≤ size ms := by
  have hpos : Pos ms := fun x hx => by have := hms x hx; omega
  obtain ⟨xs, ys, rfl⟩ := List.append_of_mem hm
  have hperm : (xs ++ m :: ys).Perm (m :: (xs ++ ys)) := List.perm_middle
  rw [size_perm hperm, size_cons]
  refine Int.mul_le_mul_of_nonneg_left ?_ (hpos m hm).le
  have hrest : xs ++ ys ≠ [] := by
    rintro hnil
    have := hperm.length_eq
    rw [hnil, List.length_singleton] at this
    omega
  obtain ⟨x, zs, hzs⟩ := List.exists_cons_of_ne_nil hrest
  have hsub : ∀ z ∈ x :: zs, 1 < z.1 := fun z hz => by
    rw [← hzs] at hz
    exact hms z (hperm.mem_iff.mpr (List.mem_cons_of_mem _ hz))
  obtain ⟨hx, hzs'⟩ := List.forall_mem_cons.mp hsub
  have hsize := size_pos fun z hz => by have := hzs' z hz; omega
  rw [hzs, size_cons]
  nlinarith

/-- **Reading a bijection in steps.**  Naming every `q`-th cell of a bijection onto its cells does
not overflow where `q` is a cut. -/
theorem composeInt_returns (ha : a.Valid) (hf : Fills a.flatModes a.cells) (hB : I64.Fits a.cells)
    (hn : 0 < n) (hq : 0 < q) (hwalk : n * q ≤ a.cells)
    (hcuts : Cuts q (merged a.flatModes)) (hpieces : pieces n q (merged a.flatModes) = .ok ps)
    (hsum : q = 1 ∨ I64.Fits (a.cells + q)) : ∃ r, composeInt a n q = .ok r := by
  have hmodes := within_of_fills ha hf
  have hext := merged_one_lt ha.pos
  have hwithin : ∀ m ∈ merged a.flatModes, Within a.cells m :=
    merged_forall (fun _ _ _ => Within.merge) hmodes
  have hsize : size (merged a.flatModes) = a.cells := size_merged ha.pos
  have hnq : 0 < n * q := mul_pos hn hq
  have hnfits : I64.Fits n := fits_of_le hn.le ((le_mul_of_one_le_right hn.le hq).trans hwalk) hB
  have hqle : q ≤ a.cells := (le_mul_of_one_le_left hq.le hn).trans hwalk
  have hqfits : I64.Fits q := fits_of_le hq.le hqle hB
  -- within the bound the coalescing does not overflow
  obtain ⟨r, hr⟩ := (coalesce_returns_iff (ε := AlgebraError) ha).mpr
    (mergesFit_of_within hB hmodes)
  obtain rfl := (coalesce_implements a).eq_of_ok hr
  -- by the number of modes that coalescing leaves, as in the code
  match hms : merged a.flatModes with
  | [] =>
    have hflat : (layoutFromFlat (merged a.flatModes)).flatModes = [(1, 0)] := by
      rw [hms, flatModes_layoutFromFlat_nil]
    rw [composeInt_of_single hq.ne' hr hflat, I64.mul, mul_zero]
    exact ⟨_, rfl⟩
  | [m] =>
    have hflat : (layoutFromFlat (merged a.flatModes)).flatModes = [m] := by
      rw [hms, flatModes_layoutFromFlat_cons]
    rw [hms] at hwithin hsize
    have hm := hwithin m (List.mem_singleton_self m)
    rw [size_cons, size_nil, mul_one] at hsize
    have hreach : I64.Fits (q * m.2) :=
      fits_of_le (mul_pos hq hm.stride).le
        ((Int.mul_le_mul_of_nonneg_right (hsize ▸ hqle) hm.stride.le).trans hm.reach) hB
    rw [composeInt_of_single hq.ne' hr hflat, I64.mul, I64.exact_of_fits hreach]
    exact ⟨_, rfl⟩
  | m :: m' :: ms =>
    have hflat : (layoutFromFlat (merged a.flatModes)).flatModes = m :: m' :: ms := by
      rw [hms, flatModes_layoutFromFlat_cons]
    rw [hms] at hwithin hsize hcuts hpieces hext
    rw [composeInt_of_modes hq.ne' hr hflat]
    refine ⟨_, composeFrom_eq hB hwithin (by simp) hn hnfits hq hqfits (hsize ▸ hwalk)
      (fun x hx => ?_) (List.forall_mem_nil _) hpieces
      (pieces_within hwithin (by simp) hn hq hcuts (hsize ▸ hwalk) hpieces)⟩
    -- the step is 1, or it is added to an extent of at most half the cells
    have hx0 := (hwithin x hx).ext
    have hhalf : x.1 * 2 ≤ a.cells := hsize ▸ two_mul_le_size hext (by simp) hx
    rcases hsum with rfl | hsum
    · exact fits_of_le (by omega) (by omega) hB
    · exact fits_of_le (by omega) (by omega) hsum

mutual

/-- A composition with a tree returns if those with its leaves do. -/
theorem compositionTree_returns : {s d : IntTuple} → s.Congruent d →
    (∀ m ∈ s.flatten.zip d.flatten, ∃ x, composeInt a m.1 m.2 = .ok x) →
    ∃ r, compositionTree a s d = .ok r
  | .leaf s, .leaf d, _, h => h (s, d) List.mem_cons_self
  | .tuple ss, .tuple ds, hc, h => by
    obtain ⟨rs, hrs⟩ := compositionAll_returns hc h
    exact ⟨_, Run.bind_eq_ok.mpr ⟨rs, hrs, rfl⟩⟩

/-- The same for a list of trees. -/
theorem compositionAll_returns : {ss ds : List IntTuple} → IntTuple.CongruentAll ss ds →
    (∀ m ∈ (IntTuple.flattenAll ss).zip (IntTuple.flattenAll ds),
      ∃ x, composeInt a m.1 m.2 = .ok x) → ∃ rs, compositionAll a ss ds = .ok rs
  | [], [], _, _ => ⟨[], rfl⟩
  | s :: ss, d :: ds, hc, h => by
    obtain ⟨hs, hss⟩ := IntTuple.congruentAll_cons.mp hc
    rw [IntTuple.flattenAll_cons, IntTuple.flattenAll_cons, List.zip_append hs.length_flatten,
      List.forall_mem_append] at h
    obtain ⟨r, hr⟩ := compositionTree_returns hs h.1
    obtain ⟨rs, hrs⟩ := compositionAll_returns hss h.2
    exact ⟨r :: rs, Run.bind_eq_ok.mpr ⟨r, hr, Run.bind_eq_ok.mpr ⟨rs, hrs, rfl⟩⟩⟩

end

/-- A composition returns exactly when each of its leaves does. -/
theorem composition_returns_iff (hb : b.shape.Congruent b.stride) :
    (∃ r, composition a b = .ok r) ↔ ∀ m ∈ b.flatModes, ∃ x, composeInt a m.1 m.2 = .ok x :=
  ⟨fun ⟨_, h⟩ => compositionTree_leaves hb h, compositionTree_returns hb⟩

/-! ### The tile -/

/-- What the product of a thread and a value layout computes are `i64`s: the cells of the tile, the
sum that the complement of the threads forms unless there is a single thread, and the strides of the
values, scaled by the number of threads unless there is a single value. -/
structure TileFits (thr val : Layout) : Prop where
  tile : I64.Fits (thr.cells * val.cells)
  repeated : thr.cells = 1 ∨ I64.Fits (thr.cells * val.cells + thr.cells)
  copies : val.cells = 1 ∨ ∀ m ∈ val.flatModes, I64.Fits (m.2 * thr.cells)

/-- Within a single mode, only the product of the strides can overflow. -/
theorem composeInt_single_returns_iff (s : ℤ) :
    (∃ x, composeInt (layoutFromFlat (merged [(V, T)])) s q = .ok x) ↔
      V = 1 ∨ I64.Fits (q * T) := by
  rw [composeInt_single]
  by_cases hq : q = 0
  · rw [if_pos hq, hq, zero_mul]
    exact iff_of_true ⟨_, rfl⟩ (Or.inr ⟨by norm_num, by norm_num⟩)
  · rw [if_neg hq]
    by_cases hV : V = 1
    · rw [if_pos hV, I64.mul, mul_zero]
      exact iff_of_true ⟨_, rfl⟩ (Or.inl hV)
    · rw [if_neg hV, or_iff_right hV]
      constructor
      · rintro ⟨x, h⟩
        obtain ⟨d, hd, _⟩ := Run.bind_eq_ok.mp h
        exact I64.fits_of_exact hd
      · intro hfits
        rw [I64.mul, I64.exact_of_fits hfits]
        exact ⟨_, rfl⟩

/-- **When a product overflows.**  The product of two enumerations returns exactly when what it
computes are `i64`s. -/
theorem logicalProduct_returns_iff (ha : Enumerates a) (hb : Enumerates b) :
    (∃ r, logicalProduct a b = .ok r) ↔ TileFits a b := by
  have hT := ha.valid.cells_pos
  have hV := hb.valid.cells_pos
  have hiff : TileFits a b ↔ I64.Fits (a.cells * b.cells) ∧
      (a.cells = 1 ∨ I64.Fits (a.cells * b.cells + a.cells)) ∧
        (b.cells = 1 ∨ ∀ m ∈ b.flatModes, I64.Fits (m.2 * a.cells)) :=
    ⟨fun h => ⟨h.1, h.2, h.3⟩, fun h => ⟨h.1, h.2.1, h.2.2⟩⟩
  rw [hiff]
  by_cases hfits : I64.Fits (a.cells * b.cells)
  swap
  · refine iff_of_false (fun ⟨r, h⟩ => hfits ?_) fun h => hfits h.1
    obtain ⟨size, hsize, h⟩ := Run.bind_eq_ok.mp h
    obtain ⟨cosize, hcosize, h⟩ := Run.bind_eq_ok.mp h
    obtain ⟨hi, hhi, _⟩ := Run.bind_eq_ok.mp h
    have h1 := (Layout.size_implements ha.valid.congruent).eq_of_ok hsize
    have h2 := (Layout.cosize_implements hb.valid).eq_of_ok hcosize
    rw [hb.offset_last, sub_add_cancel] at h2
    rw [← h1, ← h2]
    exact I64.fits_of_exact hhi
  obtain ⟨hTfits, hVfits⟩ := fits_of_mul hT hV hfits
  have hsize : (a.size : Run AlgebraError ℤ) = .ok a.cells :=
    (checkedTupleSize_spec (checkedSize_eq ha.valid hTfits)).2
  have hcomp := complement_of_fills ha.valid ha.fills hTfits (mul_pos hT hV) hfits
  rw [upDiv_of_dvd hT (Dvd.intro _ rfl), Int.mul_ediv_cancel_left _ hT.ne'] at hcomp
  -- the complement repeats the threads once for each value, and each leaf of `b` scales that
  have hcopies : (∃ r, composition (layoutFromFlat (merged [(b.cells, a.cells)])) b = .ok r) ↔
      b.cells = 1 ∨ ∀ m ∈ b.flatModes, I64.Fits (m.2 * a.cells) := by
    rw [composition_returns_iff hb.valid.congruent]
    simp only [composeInt_single_returns_iff]
    by_cases hone : b.cells = 1
    · simp [hone]
    · simp [hone]
  rw [and_iff_right hfits, ← hcopies]
  show (∃ r, (a.size >>= fun size => _) = _) ↔ _
  rw [hsize]
  show (∃ r, (b.cosize >>= fun cosize => _) = _) ↔ _
  rw [cosize_eq hb hVfits]
  show (∃ r, (I64.mul a.cells b.cells >>= fun hi => _) = _) ↔ _
  rw [I64.mul, I64.exact_of_fits hfits]
  show (∃ r, (complement a (a.cells * b.cells) >>= fun comp => _) = _) ↔ _
  rw [hcomp]
  split
  · rename_i hsum
    rw [and_iff_right hsum]
    show (∃ r, (composition (layoutFromFlat (merged [(b.cells, a.cells)])) b >>=
      fun repeated => _) = _) ↔ _
    constructor
    · rintro ⟨r, h⟩
      obtain ⟨repeated, hrep, _⟩ := Run.bind_eq_ok.mp h
      exact ⟨repeated, hrep⟩
    · rintro ⟨repeated, hrep⟩
      exact ⟨_, Run.bind_eq_ok.mpr ⟨repeated, hrep, rfl⟩⟩
  · rename_i hsum
    exact iff_of_false (fun ⟨_, h⟩ => nomatch h) fun h => hsum h.1

/-- The modes of a walk that fills `[0, B)` end within `B`. -/
theorem fills_within (hpos : Pos ms) (hf : Fills ms B) (hB : 0 < B) :
    ∀ m ∈ ms, m.1 ≠ 1 → Within B m := by
  intro m hm hne
  have hnil : ms ≠ [] := List.ne_nil_of_mem hm
  have hsize := hf.size_eq hpos hB.le
  have hl : (layoutFromFlat ms).flatModes = ms := flatModes_layoutFromFlat hnil
  have hcells : (layoutFromFlat ms).cells = B := by rw [Layout.cells, hl, hsize]
  have h := within_of_fills (valid_layoutFromFlat hpos) (by rw [hl, hcells]; exact hf) m
    (hl.symm ▸ hm) hne
  rwa [hcells] at h

/-- The modes of a raked product within the bound are merged without overflow. -/
theorem zipPairs_returns {ams rs : List Layout} (hB : I64.Fits B)
    (hac : ∀ m ∈ ams, m.shape.Congruent m.stride) (hrc : ∀ m ∈ rs, m.shape.Congruent m.stride)
    (hpos : Pos (List.zipWith rakedPair ams rs).flatten)
    (h : ∀ m ∈ (List.zipWith rakedPair ams rs).flatten, m.1 ≠ 1 → Within B m) :
    ∃ zs, zipPairs false ams rs = .ok zs := by
  induction ams generalizing rs with
  | nil => exact ⟨[], rfl⟩
  | cons a ams ih =>
    cases rs with
    | nil => exact ⟨[], rfl⟩
    | cons r rs =>
      obtain ⟨ha, hac⟩ := List.forall_mem_cons.mp hac
      obtain ⟨hr, hrc⟩ := List.forall_mem_cons.mp hrc
      rw [List.zipWith_cons_cons, List.flatten_cons] at hpos h
      obtain ⟨hpair, hpos⟩ := pos_append.mp hpos
      obtain ⟨hwithin, h⟩ := List.forall_mem_append.mp h
      have hflat : (Layout.fromModes [r, a]).flatModes = rakedPair a r := flatModes_pair hr ha
      have hvalid : (Layout.fromModes [r, a]).Valid := by
        refine ⟨(flatModes_fromModes (le_refl [r, a].length) (by simp [hr, ha])).1, ?_⟩
        rwa [hflat]
      obtain ⟨z, hz⟩ := (coalesce_returns_iff (ε := AlgebraError) hvalid).mpr
        (by rw [hflat]; exact mergesFit_of_within hB hwithin)
      obtain ⟨zs, hzs⟩ := ih hac hrc hpos h
      exact ⟨z :: zs, Run.bind_eq_ok.mpr ⟨z, hz, Run.bind_eq_ok.mpr ⟨zs, hzs, rfl⟩⟩⟩

/-- Padding changes nothing of what a product computes. -/
theorem tileFits_congr {pa pb : Layout} {k : ℕ} (ha : pa.cells = thr.cells)
    (hb : pb.cells = val.cells) (hflat : pb.flatModes = val.flatModes ++ List.replicate k (1, 0)) :
    TileFits pa pb ↔ TileFits thr val := by
  have hunits : ∀ m ∈ List.replicate k ((1 : ℤ), (0 : ℤ)), I64.Fits (m.2 * thr.cells) :=
    fun m hm => by
      rw [List.eq_of_mem_replicate hm, zero_mul]
      exact ⟨by norm_num, by norm_num⟩
  constructor
  · rintro ⟨htile, hrep, hcopies⟩
    rw [ha, hb] at htile hrep
    rw [ha, hb, hflat, List.forall_mem_append] at hcopies
    exact ⟨htile, hrep, hcopies.imp_right fun h => h.1⟩
  · rintro ⟨htile, hrep, hcopies⟩
    refine ⟨?_, ?_, ?_⟩
    · rwa [ha, hb]
    · rwa [ha, hb]
    · rw [ha, hb, hflat, List.forall_mem_append]
      exact hcopies.imp_right fun h => ⟨h, hunits⟩

/-- The raked product overflows exactly where the product it starts with does. -/
theorem rakedProduct_returns_iff (hthr : Enumerates thr) (hval : Enumerates val)
    (hrank : 2 ≤ max thr.rank val.rank) :
    (∃ r, rakedProduct thr val = .ok r) ↔ TileFits thr val := by
  obtain ⟨ams, rs, h⟩ := exists_rakedAxes hthr hval hrank
  obtain ⟨pa, hpa, -, -, hea, hca, -⟩ := hthr.padToRank (le_max_left thr.rank val.rank) hrank
  obtain ⟨pb, hpb, -, -, heb, hcb, hfb⟩ := hval.padToRank (le_max_right thr.rank val.rank) hrank
  have hproduct := logicalProduct_returns_iff hea heb
  rw [tileFits_congr hca hcb hfb, ← hpa, ← hpb] at hproduct
  rw [h.rakedProduct_eq hthr.valid.congruent hval.valid.congruent hrank, ← hproduct]
  constructor
  · rintro ⟨r, hr⟩
    obtain ⟨lp, hlp, _⟩ := Run.bind_eq_ok.mp hr
    exact ⟨lp, hlp⟩
  · rintro ⟨lp, hlp⟩
    have hB := (hproduct.mp ⟨lp, hlp⟩).tile
    have hB0 := mul_pos hthr.valid.cells_pos hval.valid.cells_pos
    obtain ⟨zs, hzs⟩ := zipPairs_returns hB h.congruent h.congruentCopies h.pos
      (fills_within h.pos h.fills hB0)
    exact ⟨_, Run.bind_eq_ok.mpr ⟨lp, hlp, Run.bind_eq_ok.mpr ⟨zs, hzs, rfl⟩⟩⟩

/-! ### The inverse of the tile -/

/-- The sizes of modes whose cells fit are computed. -/
theorem modeSizes_returns {zs : List Layout} (hzs : ∀ z ∈ zs, z.Valid)
    (hfits : I64.Fits (size (zs.flatMap Layout.flatModes))) : ∃ ss, modeSizes zs = .ok ss := by
  induction zs with
  | nil => exact ⟨[], rfl⟩
  | cons z zs ih =>
    obtain ⟨hz, hzs⟩ := List.forall_mem_cons.mp hzs
    rw [List.flatMap_cons, size_append] at hfits
    have hrest : 0 < size (zs.flatMap Layout.flatModes) := size_pos fun m hm => by
      obtain ⟨x, hx, hm⟩ := List.mem_flatMap.mp hm
      exact (hzs x hx).pos m hm
    obtain ⟨hzfits, hrestfits⟩ := fits_of_mul hz.cells_pos hrest hfits
    obtain ⟨ss, hss⟩ := ih hzs hrestfits
    have hsize : (z.size : Run AlgebraError ℤ) = .ok z.cells :=
      (checkedTupleSize_spec (checkedSize_eq hz hzfits)).2
    exact ⟨z.cells :: ss, Run.bind_eq_ok.mpr ⟨_, hsize, Run.bind_eq_ok.mpr ⟨ss, hss, rfl⟩⟩⟩

/-- Naming the coordinates of a bijection onto `T * V` cells `(T, V)`, where it is cut at `T`. -/
theorem withShape_returns (ha : a.Valid) (hf : Fills a.flatModes a.cells) (hT : 0 < T)
    (hV : 0 < V) (hcells : a.cells = T * V) (hcut : Cuts T (merged a.flatModes))
    (hfits : I64.Fits (T * V)) (hsum : T = 1 ∨ I64.Fits (T * V + T)) :
    ∃ r, withShape a (.tuple [.leaf T, .leaf V]) = .ok r := by
  have hext := merged_one_lt ha.pos
  have hsize : V * T = size (merged a.flatModes) := by
    rw [size_merged ha.pos, mul_comm, ← hcells]
    rfl
  have hB : I64.Fits a.cells := hcells ▸ hfits
  obtain ⟨ps₁, hps₁⟩ := pieces_below_cut hext hT hcut
  obtain ⟨ps₂, hps₂, -⟩ := pieces_above_cut hext hT hcut hsize
  obtain ⟨r₁, hr₁⟩ : ∃ r, composeInt a T 1 = .ok r := by
    refine composeInt_returns ha hf hB hT one_pos ?_ (cuts_one _) hps₁ (Or.inl rfl)
    rw [mul_one, hcells]
    exact le_mul_of_one_le_right hT.le hV
  obtain ⟨r₂, hr₂⟩ : ∃ r, composeInt a V T = .ok r := by
    refine composeInt_returns ha hf hB hV hT ?_ hcut hps₂ (hcells ▸ hsum)
    rw [hcells, mul_comm]
  have hpos : Positive (IntTuple.tuple [.leaf T, .leaf V]).flatten := by
    simp [Positive, hT, hV]
  obtain ⟨d, hcol, hcong, hflat⟩ := colMajor_eq (ε := AlgebraError) hpos (by simpa using hfits)
  have hmodes : (Layout.mk (.tuple [.leaf T, .leaf V]) d).flatModes = [(T, 1), (V, T)] := by
    rw [Layout.flatModes, hflat]
    simp [prefixProducts]
  obtain ⟨r, hr⟩ := (composition_returns_iff (a := a) (b := ⟨_, d⟩) hcong).mpr (by
    rw [hmodes]
    exact List.forall_mem_cons.mpr ⟨⟨r₁, hr₁⟩, by simpa using ⟨r₂, hr₂⟩⟩)
  exact ⟨r, Run.bind_eq_ok.mpr ⟨_, hcol, hr⟩⟩

/-- **When a thread/value layout overflows.**  What comes behind the raked product stays within the
tile, so `make_layout_tv` returns exactly where the product does. -/
theorem makeLayoutTv_returns_iff (hthr : Enumerates thr) (hval : Enumerates val)
    (hrank : 2 ≤ max thr.rank val.rank) :
    (∃ p, makeLayoutTv thr val = .ok p) ↔ TileFits thr val := by
  have hT := hthr.valid.cells_pos
  have hV := hval.valid.cells_pos
  rw [← rakedProduct_returns_iff hthr hval hrank]
  constructor
  · rintro ⟨p, h⟩
    obtain ⟨mn, hmn, _⟩ := Run.bind_eq_ok.mp h
    exact ⟨mn, hmn⟩
  · rintro ⟨mn, hmn⟩
    have hfit := (rakedProduct_returns_iff hthr hval hrank).mp ⟨mn, hmn⟩
    obtain ⟨zs, hlen, hzs, hraked, hnn, hfills, hsplit⟩ :=
      rakedProduct_implements hthr hval hrank
    obtain rfl := hraked.eq_of_ok hmn
    obtain ⟨hvalid, hflat⟩ := valid_fromModes hlen hzs
    have hcells : (Layout.fromModes zs).cells = thr.cells * val.cells := by
      rw [Layout.cells, hflat]
      refine hfills.size_eq (fun m hm => hvalid.pos m (hflat ▸ hm)) (mul_pos hT hV).le
    rw [← hflat] at hnn hfills hsplit
    have hfillsCells : Fills (Layout.fromModes zs).flatModes (Layout.fromModes zs).cells :=
      hcells.symm ▸ hfills
    have hB : I64.Fits (Layout.fromModes zs).cells := hcells.symm ▸ hfit.tile
    obtain ⟨ss, hss⟩ := modeSizes_returns hzs (by rw [← hflat]; exact hB)
    obtain ⟨inv, hinv⟩ := (rightInverse_returns_iff hvalid).mpr
      ⟨mergesFit_of_within hB (within_of_fills hvalid hfillsCells), hB⟩
    obtain rfl := (rightInverse_implements hvalid).eq_of_ok hinv
    obtain ⟨hTfits, hVfits⟩ := fits_of_mul hT hV hfit.tile
    have ht : (thr.size : Run AlgebraError ℤ) = .ok thr.cells :=
      (checkedTupleSize_spec (checkedSize_eq hthr.valid hTfits)).2
    have hv : (val.size : Run AlgebraError ℤ) = .ok val.cells :=
      (checkedTupleSize_spec (checkedSize_eq hval.valid hVfits)).2
    -- the inverse is a bijection onto the cells of the tile as well
    have hiv := (offset_inverseLayout hvalid).1
    have hicells : (inverseLayout (Layout.fromModes zs)).cells = thr.cells * val.cells :=
      (cells_inverseLayout hvalid hfillsCells).trans hcells
    have hifills : Fills (inverseLayout (Layout.fromModes zs)).flatModes
        (inverseLayout (Layout.fromModes zs)).cells := by
      have hbij := (invOn_inverseLayout hvalid hfillsCells).2
      rw [Fills, ← Layout.cells, cells_inverseLayout hvalid hfillsCells]
      exact hbij
    obtain ⟨tv, htv⟩ := withShape_returns hiv hifills hT hV hicells
      (cuts_inverseLayout hvalid hnn hfills hT ⟨_, hcells⟩ hsplit) hfit.tile hfit.repeated
    refine ⟨(ss, tv), Run.bind_eq_ok.mpr ⟨_, hmn, ?_⟩⟩
    rw [modes_fromModes hlen]
    refine Run.bind_eq_ok.mpr ⟨ss, hss, Run.bind_eq_ok.mpr ⟨_, hinv, ?_⟩⟩
    refine Run.bind_eq_ok.mpr ⟨_, ht, Run.bind_eq_ok.mpr ⟨_, hv, ?_⟩⟩
    exact Run.bind_eq_ok.mpr ⟨tv, htv, rfl⟩

/-- Calling a bijection of two modes at a pair of coordinates. -/
theorem call_pair_eq {r₁ r₂ : Layout} {t v : ℤ} (h₁ : r₁.Valid) (h₂ : r₂.Valid)
    (hf : Fills (Layout.fromModes [r₁, r₂]).flatModes (Layout.fromModes [r₁, r₂]).cells)
    (hfits : I64.Fits (Layout.fromModes [r₁, r₂]).cells) (ht : t ∈ Set.Ico 0 r₁.cells)
    (hv : v ∈ Set.Ico 0 r₂.cells) :
    ((Layout.fromModes [r₁, r₂]).call (.tuple [.leaf t, .leaf v]) : Run AlgebraError ℤ) =
      .ok ((Layout.fromModes [r₁, r₂]).offset (t + r₁.cells * v)) := by
  have hvalid : (Layout.fromModes [r₁, r₂]).Valid :=
    (valid_fromModes le_rfl (by simp [h₁, h₂])).1
  have hcells : (Layout.fromModes [r₁, r₂]).cells = r₁.cells * r₂.cells := by
    rw [Layout.cells, flatModes_pair h₁.congruent h₂.congruent, size_append]
    rfl
  have hoff : offsetAt (.tuple [.leaf t, .leaf v]) (Layout.fromModes [r₁, r₂]).shape
      (Layout.fromModes [r₁, r₂]).stride =
        (Layout.fromModes [r₁, r₂]).offset (t + r₁.cells * v) := by
    rw [offset_pair h₁ h₂.congruent ht.1 ht.2]
    show offsetAt (.leaf t) r₁.shape r₁.stride + (offsetAt (.leaf v) r₂.shape r₂.stride + 0) = _
    rw [offsetAt_leaf, offsetAt_leaf, add_zero]
    rfl
  have hcoord : IsCoord (.tuple [.leaf t, .leaf v]) (Layout.fromModes [r₁, r₂]).shape := by
    show IsCoord (.leaf t) r₁.shape ∧ IsCoord (.leaf v) r₂.shape ∧ True
    rw [isCoord_leaf, isCoord_leaf, ← Layout.cells_eq_prod h₁.congruent,
      ← Layout.cells_eq_prod h₂.congruent]
    exact ⟨ht, hv, trivial⟩
  have hlt := (hf.mapsTo (show t + r₁.cells * v ∈ Set.Ico 0 (Layout.fromModes [r₁, r₂]).cells by
    rw [hcells]
    exact mem_Ico_of_digits ht hv)).2
  rw [← hoff]
  exact Layout.call_of_checkedCall
    (checkedCall_of_fills hvalid hf hfits hcoord (hoff.symm ▸ hlt))

/-- **Thread/value layouts.**  For two layouts that enumerate `[0, T)` and `[0, V)` and whose
padded rank is at least two, `make_layout_tv` overflows unless the tile fits.  Where it does, it
returns a tile shape of `T * V` cells and a bijection `tv` from threads and values onto the cells,
such that the raked product sends the cell `tv (t, v)` to `t + T * v`. -/
theorem makeLayoutTv_spec (hthr : Enumerates thr) (hval : Enumerates val)
    (hrank : 2 ≤ max thr.rank val.rank) :
    (¬TileFits thr val → makeLayoutTv thr val = Run.panic .overflow) ∧
      (TileFits thr val →
        ∃ (tiler : List ℤ) (tv mn : Layout), makeLayoutTv thr val = .ok (tiler, tv) ∧
          rakedProduct thr val = .ok mn ∧ tiler.prod = thr.cells * val.cells ∧
          Set.BijOn (fun p : ℤ × ℤ => tv.offset (p.1 + thr.cells * p.2))
            (Set.Ico 0 thr.cells ×ˢ Set.Ico 0 val.cells) (Set.Ico 0 (thr.cells * val.cells)) ∧
          ∀ t ∈ Set.Ico 0 thr.cells, ∀ v ∈ Set.Ico 0 val.cells,
            (tv.call (.tuple [.leaf t, .leaf v]) : Run AlgebraError ℤ) =
                .ok (tv.offset (t + thr.cells * v)) ∧
              mn.offset (tv.offset (t + thr.cells * v)) = t + thr.cells * v) := by
  have hT := hthr.valid.cells_pos
  have hreturns := makeLayoutTv_returns_iff hthr hval hrank
  obtain ⟨ss, r₁, r₂, mn, hrun, hraked, hprod, ⟨hv₁, hc₁⟩, ⟨hv₂, hc₂⟩, hbij, hinv⟩ :=
    makeLayoutTv_implements hthr hval hrank
  constructor
  · intro hfit
    exact hrun.ok_or_overflow.resolve_left fun h => hfit (hreturns.mp ⟨_, h⟩)
  · intro hfit
    obtain ⟨p, hp⟩ := hreturns.mpr hfit
    obtain rfl := hrun.eq_of_ok hp
    obtain ⟨mn', hmn⟩ := (rakedProduct_returns_iff hthr hval hrank).mpr hfit
    obtain rfl := hraked.eq_of_ok hmn
    have hcells : (Layout.fromModes [r₁, r₂]).cells = thr.cells * val.cells := by
      rw [Layout.cells, flatModes_pair hv₁.congruent hv₂.congruent, size_append, ← hc₁, ← hc₂]
      rfl
    have hfills : Fills (Layout.fromModes [r₁, r₂]).flatModes
        (Layout.fromModes [r₁, r₂]).cells := by
      rw [Fills, ← Layout.cells, hcells]
      exact hbij
    refine ⟨ss, Layout.fromModes [r₁, r₂], mn', hp, hmn, hprod,
      hbij.comp (bijOn_digits val.cells hT), fun t ht v hv => ?_⟩
    have hcall := call_pair_eq hv₁ hv₂ hfills (hcells.symm ▸ hfit.tile) (hc₁.symm ▸ ht)
      (hc₂.symm ▸ hv)
    rw [hc₁] at hcall
    exact ⟨hcall, hinv _ (mem_Ico_of_digits ht hv)⟩

/-- Six threads in a row-major `2 × 3` grid, with a row-major `2 × 2` patch each. -/
theorem makeLayoutTv_spec_grid :
    makeLayoutTv ⟨.tuple [.leaf 2, .leaf 3], .tuple [.leaf 3, .leaf 1]⟩
        ⟨.tuple [.leaf 2, .leaf 2], .tuple [.leaf 2, .leaf 1]⟩ = .ok ([4, 6],
      ⟨.tuple [.tuple [.leaf 3, .leaf 2], .tuple [.leaf 2, .leaf 2]],
        .tuple [.tuple [.leaf 8, .leaf 2], .tuple [.leaf 4, .leaf 1]]⟩) ∧
      Set.BijOn (fun p : ℤ × ℤ => (Layout.mk
          (.tuple [.tuple [.leaf 3, .leaf 2], .tuple [.leaf 2, .leaf 2]])
          (.tuple [.tuple [.leaf 8, .leaf 2], .tuple [.leaf 4, .leaf 1]])).offset (p.1 + 6 * p.2))
        (Set.Ico 0 6 ×ˢ Set.Ico 0 4) (Set.Ico 0 24) := by
  have hrun : makeLayoutTv ⟨.tuple [.leaf 2, .leaf 3], .tuple [.leaf 3, .leaf 1]⟩
      ⟨.tuple [.leaf 2, .leaf 2], .tuple [.leaf 2, .leaf 1]⟩ = .ok ([4, 6],
        ⟨.tuple [.tuple [.leaf 3, .leaf 2], .tuple [.leaf 2, .leaf 2]],
          .tuple [.tuple [.leaf 8, .leaf 2], .tuple [.leaf 4, .leaf 1]]⟩) := by decide +kernel
  have hfit : TileFits ⟨.tuple [.leaf 2, .leaf 3], .tuple [.leaf 3, .leaf 1]⟩
      ⟨.tuple [.leaf 2, .leaf 2], .tuple [.leaf 2, .leaf 1]⟩ :=
    ⟨by decide, Or.inr (by decide), Or.inr (by decide)⟩
  obtain ⟨tiler, tv, mn, h, -, -, hbij, -⟩ := (makeLayoutTv_spec
    (enumerates_rowMajor (m := 2) (n := 3) (by decide) (by decide))
    (enumerates_rowMajor (m := 2) (n := 2) (by decide) (by decide)) (by decide)).2 hfit
  rw [hrun] at h
  cases h
  exact ⟨hrun, hbij⟩

/-- `2 ^ 32` threads with `2 ^ 32` values each: the size of the tile is not an `i64`. -/
theorem makeLayoutTv_overflows :
    Enumerates ⟨.tuple [.leaf 4294967296, .leaf 1], .tuple [.leaf 1, .leaf 4294967296]⟩ ∧
      makeLayoutTv ⟨.tuple [.leaf 4294967296, .leaf 1], .tuple [.leaf 1, .leaf 4294967296]⟩
        ⟨.tuple [.leaf 4294967296, .leaf 1], .tuple [.leaf 1, .leaf 4294967296]⟩ =
          Run.panic .overflow := by
  refine ⟨⟨⟨rfl, by decide⟩, by decide, ?_⟩, by decide⟩
  exact Chain.fills (by decide) ⟨rfl, rfl, trivial⟩

end CudaOxide.Cute
