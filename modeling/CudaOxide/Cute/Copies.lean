import CudaOxide.Cute.Product
import CudaOxide.Lib.Carry
import CudaOxide.Lib.Cut

namespace CudaOxide.Cute

open Lib Strided

/-!
# Where a product places its copies

The cell `n` of the complement of `a` is where copy number `n` of `a` starts.  A product asks for
the copies that `b` names, but adds up the starts mode by mode.

* `copiesBelow` — how many copies start below a stride of `a`.
* `CopiesAligned` — the modes of `b` meet these numbers evenly, and adding them up carries over
  none.
* `logicalProduct_copies_iff` — exactly then every copy is placed where it starts, and then no two
  copies share an offset.
* `logicalProduct_collides` — an accepted product in which two cells share an offset.
-/

variable {a b r comp : Layout} {hi p n q x d : ℤ} {m : ℤ × ℤ} {ms gs : List (ℤ × ℤ)}

/-! ### The gaps as boundaries -/

/-- Where the copies skip a mode of `ms`: how many cells the mode adds, counted in cells of the
modes before it, and how many copies start below it. -/
def stops (p : ℤ) : List (ℤ × ℤ) → List (ℤ × ℤ)
  | [] => []
  | m :: ms => (m.1 - 1, m.2 / p) :: (stops (m.1 * m.2) ms).map fun e => (m.1 * e.1, m.2 / p * e.2)

/-- The last cell takes every step to its end. -/
theorem sum_stops (p : ℤ) (ms : List (ℤ × ℤ)) :
    ((stops p ms).map Prod.fst).sum = size ms - 1 := by
  induction ms generalizing p with
  | nil => rfl
  | cons m ms ih =>
    have hscaled : ((stops (m.1 * m.2) ms).map fun e => m.1 * e.1).sum =
        m.1 * ((stops (m.1 * m.2) ms).map Prod.fst).sum := List.sum_map_mul_left _ _ _
    rw [stops, List.map_cons, List.sum_cons, List.map_map, size_cons]
    show m.1 - 1 + ((stops (m.1 * m.2) ms).map fun e => m.1 * e.1).sum = _
    rw [hscaled, ih]
    ring

/-- The strides of the gaps and of the modes only grow. -/
theorem le_of_gaps (hp : 0 < p) (hms : ∀ m ∈ ms, 1 < m.1 ∧ 0 < m.2)
    (h : gaps hi p ms = .ok gs) : (∀ m ∈ ms, p ≤ m.2) ∧ ∀ g ∈ gs, p ≤ g.2 := by
  induction ms generalizing p gs with
  | nil =>
    cases h
    exact ⟨List.forall_mem_nil _, by simp⟩
  | cons m ms ih =>
    obtain ⟨⟨hm, hd⟩, hms⟩ := List.forall_mem_cons.mp hms
    obtain ⟨hdvd, rest, hrest, rfl⟩ := gaps_cons_ok h
    have hle : p ≤ m.2 := Int.le_of_dvd hd hdvd
    have hspan : m.2 ≤ m.1 * m.2 := le_mul_of_one_le_left hd.le hm.le
    obtain ⟨hmodes, hgaps⟩ := ih (hd.trans_le hspan) hms hrest
    exact ⟨List.forall_mem_cons.mpr ⟨hle, fun x hx => (hle.trans hspan).trans (hmodes x hx)⟩,
      List.forall_mem_cons.mpr ⟨le_rfl, fun g hg => (hle.trans hspan).trans (hgaps g hg)⟩⟩

/-- The stops of modes that have gaps are positive. -/
theorem stops_pos (hp : 0 < p) (hms : ∀ m ∈ ms, 1 < m.1 ∧ 0 < m.2)
    (h : gaps hi p ms = .ok gs) : ∀ e ∈ stops p ms, 0 < e.1 ∧ 0 < e.2 := by
  induction ms generalizing p gs with
  | nil => exact List.forall_mem_nil _
  | cons m ms ih =>
    obtain ⟨⟨hm, hd⟩, hms⟩ := List.forall_mem_cons.mp hms
    obtain ⟨hdvd, rest, hrest, rfl⟩ := gaps_cons_ok h
    have hgap : 0 < m.2 / p := Int.ediv_pos_of_pos_of_dvd hd hp.le hdvd
    refine List.forall_mem_cons.mpr ⟨⟨by omega, hgap⟩, fun e he => ?_⟩
    obtain ⟨e', he', rfl⟩ := List.mem_map.mp he
    obtain ⟨h1, h2⟩ := ih (mul_pos (by omega) hd) hms hrest e' he'
    exact ⟨mul_pos (by omega) h1, mul_pos hgap h2⟩

/-- Remainders behind a gap of `g` cells are remainders of the whole coordinate. -/
theorem sum_emod_shift {g : ℤ} {es : List (ℤ × ℤ)} (hg : 0 < g) (hes : ∀ e ∈ es, 0 < e.2) (x : ℤ) :
    g * (es.map fun e => e.1 * (x / g % e.2)).sum =
      (es.map fun e => e.1 * (x % (g * e.2))).sum - (es.map Prod.fst).sum * (x % g) := by
  induction es with
  | nil => simp
  | cons e es ih =>
    obtain ⟨he, hes⟩ := List.forall_mem_cons.mp hes
    simp only [List.map_cons, List.sum_cons]
    rw [mul_add, ih hes, emod_mul_digits hg he]
    ring

/-- **Where a copy starts.**  Every boundary below it pushes it up by the cells it skips. -/
theorem eval_gaps (hp : 0 < p) (hms : ∀ m ∈ ms, 1 < m.1 ∧ 0 < m.2)
    (h : gaps hi p ms = .ok gs) (h0 : 0 ≤ x) (hx : x < size gs) :
    eval gs x = p * (size ms * x - ((stops p ms).map fun e => e.1 * (x % e.2)).sum) := by
  induction ms generalizing p gs x with
  | nil =>
    cases h
    have hlt : x < upDiv hi p := by simpa using hx
    rw [eval_cons, eval_nil, Int.emod_eq_of_lt h0 hlt]
    simp only [stops, List.map_nil, List.sum_nil, size_nil]
    -- one digit is taken off, with the gap in front of it
    ring
  | cons m ms ih =>
    obtain ⟨⟨hm, hd⟩, hms⟩ := List.forall_mem_cons.mp hms
    obtain ⟨hdvd, rest, hrest, rfl⟩ := gaps_cons_ok h
    have hspan : 0 < m.1 * m.2 := mul_pos (by omega) hd
    have hg : 0 < m.2 / p := Int.ediv_pos_of_pos_of_dvd hd hp.le hdvd
    have hgp : m.2 / p * p = m.2 := Int.ediv_mul_cancel hdvd
    set g := m.2 / p with hgdef
    -- the step leaves the digit behind
    have hdigits : g * (x / g) = x - x % g := by have := Int.emod_add_mul_ediv x g; omega
    have hih := ih hspan hms hrest (Int.ediv_nonneg h0 hg.le) (ediv_lt_size (m := (g, p)) hg hx)
    have hstops := stops_pos hspan hms hrest
    have hshift := sum_emod_shift hg (fun e he => (hstops e he).2) x
    rw [sum_stops] at hshift
    -- the stops behind are scaled by the extent in front
    have hscaled : ((stops (m.1 * m.2) ms).map fun e => m.1 * e.1 * (x % (g * e.2))).sum =
        m.1 * ((stops (m.1 * m.2) ms).map fun e => e.1 * (x % (g * e.2))).sum := by
      rw [← List.sum_map_mul_left]
      exact congrArg List.sum (List.map_congr_left fun e _ => by ring)
    rw [eval_cons, hih, stops, List.map_cons, List.sum_cons, List.map_map, size_cons]
    show x % g * p + _ = p * (m.1 * size ms * x - ((m.1 - 1) * (x % g) +
      ((stops (m.1 * m.2) ms).map fun e => m.1 * e.1 * (x % (g * e.2))).sum))
    rw [hscaled]
    calc x % g * p + m.1 * m.2 * (size ms * (x / g) -
          ((stops (m.1 * m.2) ms).map fun e => e.1 * (x / g % e.2)).sum)
        = x % g * p + m.1 * p * (size ms * (g * (x / g)) -
          g * ((stops (m.1 * m.2) ms).map fun e => e.1 * (x / g % e.2)).sum) := by
          rw [← hgp]; ring
      _ = _ := by rw [hdigits, hshift]; ring

/-! ### Copies that are added up -/

/-- Weighted sums of terms that are no larger are equal only where the terms are. -/
theorem sum_weighted_eq_iff {es : List (ℤ × ℤ)} {f g : ℤ × ℤ → ℤ} (hpos : ∀ e ∈ es, 0 < e.1)
    (hle : ∀ e ∈ es, f e ≤ g e) :
    (es.map fun e => e.1 * f e).sum = (es.map fun e => e.1 * g e).sum ↔ ∀ e ∈ es, g e = f e := by
  induction es with
  | nil => simp
  | cons e es ih =>
    obtain ⟨he, hpos⟩ := List.forall_mem_cons.mp hpos
    obtain ⟨hfg, hle⟩ := List.forall_mem_cons.mp hle
    have hrest : (es.map fun e => e.1 * f e).sum ≤ (es.map fun e => e.1 * g e).sum :=
      List.sum_le_sum fun x hx => mul_le_mul_of_nonneg_left (hle x hx) (hpos x hx).le
    have hfirst : e.1 * f e ≤ e.1 * g e := mul_le_mul_of_nonneg_left hfg he.le
    rw [List.map_cons, List.map_cons, List.sum_cons, List.sum_cons, List.forall_mem_cons,
      ← ih hpos hle]
    constructor
    · intro h
      exact ⟨mul_left_cancel₀ he.ne' (by omega), by omega⟩
    · rintro ⟨h, hsum⟩
      rw [h, hsum]

/-- A weighted sum of remainders, summed over a list. -/
theorem sum_map_weighted (es : List (ℤ × ℤ)) (W : ℤ) (xs : List ℤ) :
    (xs.map fun y => p * (W * y - (es.map fun e => e.1 * (y % e.2)).sum)).sum =
      p * (W * xs.sum - (es.map fun e => e.1 * (xs.map (· % e.2)).sum).sum) := by
  induction xs with
  | nil => simp
  | cons y xs ih =>
    have hsplit : (es.map fun e => e.1 * ((y :: xs).map (· % e.2)).sum).sum =
        (es.map fun e => e.1 * (y % e.2)).sum +
          (es.map fun e => e.1 * (xs.map (· % e.2)).sum).sum := by
      rw [← List.sum_map_add]
      exact congrArg List.sum (List.map_congr_left fun e _ => by
        rw [List.map_cons, List.sum_cons, mul_add])
    rw [List.map_cons, List.sum_cons, ih, hsplit, List.sum_cons]
    ring

/-- **Adding up copy numbers.**  The start of a sum of copy numbers is the sum of their starts
exactly where the sum carries over no boundary. -/
theorem eval_gaps_sum_iff (hp : 0 < p) (hms : ∀ m ∈ ms, 1 < m.1 ∧ 0 < m.2)
    (h : gaps hi p ms = .ok gs) {xs : List ℤ} (hxs : ∀ y ∈ xs, 0 ≤ y) (hsum : xs.sum < size gs) :
    eval gs xs.sum = (xs.map (eval gs)).sum ↔
      ∀ e ∈ stops p ms, (xs.map (· % e.2)).sum < e.2 := by
  have hstops := stops_pos hp hms h
  have hterms : (xs.map (eval gs)).sum = p * (size ms * xs.sum -
      ((stops p ms).map fun e => e.1 * (xs.map (· % e.2)).sum).sum) := by
    rw [← sum_map_weighted]
    refine congrArg List.sum (List.map_congr_left fun y hy => eval_gaps hp hms h (hxs y hy) ?_)
    exact (List.single_le_sum hxs y hy).trans_lt hsum
  rw [hterms, eval_gaps hp hms h (List.sum_nonneg hxs) hsum, mul_right_inj' hp.ne', sub_right_inj,
    sum_weighted_eq_iff (fun e he => (hstops e he).1) fun e he => sum_emod_le xs (hstops e he).2]
  exact forall₂_congr fun e he => (sum_emod_lt_iff xs (hstops e he).2).symm

/-! ### Copies in equal steps -/

/-- When `n` steps of `q` start below `g`. -/
theorem le_upDiv_iff {g : ℤ} (hq : 0 < q) : n ≤ upDiv g q ↔ (n - 1) * q < g := by
  have h1 := le_upDiv_mul (a := g) hq
  have h2 := upDiv_mul_lt (a := g) hq
  constructor
  · intro h
    have : (n - 1) * q ≤ (upDiv g q - 1) * q := mul_le_mul_of_nonneg_right (by omega) hq.le
    linarith [sub_one_mul (upDiv g q) q]
  · intro h
    by_contra hlt
    have : upDiv g q * q ≤ (n - 1) * q := mul_le_mul_of_nonneg_right (by omega) hq.le
    omega

/-- The gaps do not continue one another, so merging only drops those of one cell. -/
theorem merged_gaps (hp : 0 < p) (hms : ∀ m ∈ ms, 1 < m.1 ∧ 0 < m.2)
    (h : gaps hi p ms = .ok gs) : merged gs = proper gs := by
  have hapart : (proper gs).IsChain fun g g' => ¬Continues g g' := by
    induction ms generalizing p gs with
    | nil =>
      cases h
      unfold proper
      rw [List.filter_cons]
      split
      · exact List.isChain_singleton _
      · exact List.isChain_nil
    | cons m ms ih =>
      obtain ⟨⟨hm, hd⟩, hms⟩ := List.forall_mem_cons.mp hms
      obtain ⟨hdvd, rest, hrest, rfl⟩ := gaps_cons_ok h
      have hspan : m.2 < m.1 * m.2 := lt_mul_of_one_lt_left hd hm
      have hchain := ih (hd.trans hspan) hms hrest
      have hstrides := (le_of_gaps (hd.trans hspan) hms hrest).2
      unfold proper at hchain ⊢
      rw [List.filter_cons]
      split
      · refine List.isChain_cons.mpr ⟨fun g hg => ?_, hchain⟩
        have hle := hstrides g (List.mem_filter.mp (List.mem_of_mem_head? hg)).1
        rw [Continues, Int.ediv_mul_cancel hdvd]
        omega
      · exact hchain
  rw [merged_eq_proper]
  exact merged_of_separate ⟨fun g hg => (mem_proper.mp hg).2, hapart⟩

/-- The walk `n:q` meets the boundary `N` evenly: it steps over it in whole, divides it, or ends
before it. -/
def Meets (n q N : ℤ) : Prop := N ∣ q ∨ q ∣ N ∨ (n - 1) * q < N

/-- A common factor of modulus and step can be cancelled. -/
theorem meets_mul_mul {g N k : ℤ} (hg : 0 < g) : Meets n (g * k) (g * N) ↔ Meets n k N := by
  unfold Meets
  rw [mul_dvd_mul_iff_left hg.ne', mul_dvd_mul_iff_left hg.ne', mul_left_comm,
    Int.mul_lt_mul_left hg]

/-- **Copies in equal steps.**  The gaps can be walked in steps of `q` exactly where the walk meets
every boundary evenly. -/
theorem representable_gaps_iff (hp : 0 < p) (hms : ∀ m ∈ ms, 1 < m.1 ∧ 0 < m.2)
    (h : gaps hi p ms = .ok gs) (hpos : Pos gs) (hq : 0 < q)
    (hwalk : (n - 1) * q < size gs) :
    Representable n q (proper gs) ↔ ∀ e ∈ stops p ms, Meets n q e.2 := by
  induction ms generalizing p gs q with
  | nil =>
    cases h
    unfold proper
    rw [List.filter_cons]
    split
    · exact iff_of_true trivial (List.forall_mem_nil _)
    · exact iff_of_true trivial (List.forall_mem_nil _)
  | cons m ms ih =>
    obtain ⟨⟨hm, hd⟩, hms⟩ := List.forall_mem_cons.mp hms
    obtain ⟨hdvd, rest, hrest, rfl⟩ := gaps_cons_ok h
    have hspan : 0 < m.1 * m.2 := mul_pos (by omega) hd
    obtain ⟨hg, hposr⟩ := pos_cons.mp hpos
    set g := m.2 / p with hgdef
    have hg : 0 < g := hg
    have hwalk : (n - 1) * q < g * size rest := hwalk
    have hlater := fun e (he : e ∈ stops (m.1 * m.2) ms) => (stops_pos hspan hms hrest e he).2
    have hall : (∀ e ∈ stops p (m :: ms), Meets n q e.2) ↔
        Meets n q g ∧ ∀ e ∈ stops (m.1 * m.2) ms, Meets n q (g * e.2) := by
      rw [stops, List.forall_mem_cons, List.forall_mem_map]
    rw [hall]
    by_cases hg1 : g = 1
    · -- a gap of one cell is no boundary
      have hproper : proper ((g, p) :: rest) = proper rest := by
        rw [proper, List.filter_cons_of_neg (by simpa using hg1)]
        rfl
      rw [hproper, hg1]
      simp only [one_mul]
      rw [and_iff_right (show Meets n q 1 from Or.inl (one_dvd q))]
      exact ih hspan hms hrest hposr hq (by rwa [hg1, one_mul] at hwalk)
    · have hproper : proper ((g, p) :: rest) = (g, p) :: proper rest := by
        rw [proper, List.filter_cons_of_pos (by simpa using hg1)]
        rfl
      rw [hproper]
      have hsize : size (proper rest) = size rest := (SameWalk.proper rest).size_eq
      cases hzs : proper rest with
      | nil =>
        -- the walk ends before the last boundary
        rw [hzs] at hsize
        have hlt : (n - 1) * q < g := by rwa [← hsize, size_nil, mul_one] at hwalk
        refine iff_of_true trivial ⟨Or.inr (Or.inr hlt), fun e he => Or.inr (Or.inr ?_)⟩
        exact hlt.trans_le (le_mul_of_one_le_right hg.le (hlater e he))
      | cons z zs =>
        unfold Representable
        by_cases hqg : q % g = 0
        · -- the walk steps over the whole gap
          obtain ⟨k, rfl⟩ := Int.dvd_of_emod_eq_zero hqg
          have hk : 0 < k := pos_of_mul_pos_right hq hg.le
          have hwalk' : (n - 1) * k < size rest := by
            rw [mul_left_comm] at hwalk
            exact lt_of_mul_lt_mul_left hwalk hg.le
          rw [if_pos hqg, Int.mul_ediv_cancel_left _ hg.ne', ← hzs,
            and_iff_right (show Meets n (g * k) g from Or.inl (Dvd.intro _ rfl)),
              ih hspan hms hrest hposr hk hwalk']
          exact forall₂_congr fun e _ => (meets_mul_mul hg).symm
        · -- the walk lands inside the gap
          have hmeets : Meets n q g ↔ q ∣ g ∨ n ≤ upDiv g q := by
            rw [le_upDiv_iff hq, Meets, or_iff_right fun h => hqg (Int.emod_eq_zero_of_dvd h)]
          rw [if_neg hqg, hmeets]
          constructor
          · intro hrep
            have hfirst : q ∣ g ∨ n ≤ upDiv g q := by
              rcases hrep with h | h | ⟨hzero, _⟩
              · exact Or.inl h
              · exact Or.inr h
              · exact absurd hzero hp.ne'
            refine ⟨hfirst, fun e he => Or.inr (hfirst.imp (fun h => h.mul_right _) fun h => ?_)⟩
            exact ((le_upDiv_iff hq).mp h).trans_le (le_mul_of_one_le_right hg.le (hlater e he))
          · rintro ⟨hfirst, -⟩
            exact hfirst.imp_right Or.inl

/-! ### The boundaries, read off the modes of `a` -/

/-- Within the first mode, the gap before it is the span of the complement. -/
theorem below_gaps_head {g : ℤ} {rest : List (ℤ × ℤ)} (hp : 0 < p) (hg : m.2 = g * p) (hg0 : 0 < g)
    (hrest : ∀ x ∈ rest, m.1 * m.2 ≤ x.2) (hle : m.2 ≤ d) (hlt : d < m.1 * m.2) :
    below ((g, p) :: rest) d = g := by
  rw [below_cons, below_eq_one fun x hx => hlt.le.trans (hrest x hx), mul_one]
  by_cases hpd : p < d
  · exact if_pos hpd
  · -- the gap is empty
    have hpm : p ≤ m.2 := hg ▸ le_mul_of_one_le_left hp.le hg0
    have hpe : g * p = 1 * p := by omega
    rw [mul_right_cancel₀ hp.ne' hpe]
    exact ite_self 1

/-- Behind the first mode, its gap is one factor of the span. -/
theorem below_gaps_tail {g : ℤ} {rest : List (ℤ × ℤ)} (hm : 1 < m.1) (hd : 0 < m.2)
    (hpm : p ≤ m.2) (hle : m.1 * m.2 ≤ d) :
    below ((g, p) :: rest) d = g * below rest d := by
  have hspan : m.2 < m.1 * m.2 := lt_mul_of_one_lt_left hd hm
  rw [below_cons, if_pos (show p < d by omega)]

/-- Every boundary is where a mode begins. -/
theorem exists_mode_of_stop (hp : 0 < p) (hms : ∀ m ∈ ms, 1 < m.1 ∧ 0 < m.2)
    (h : gaps hi p ms = .ok gs) : ∀ e ∈ stops p ms, ∃ m ∈ ms, e.2 = below gs m.2 := by
  induction ms generalizing p gs with
  | nil => exact List.forall_mem_nil _
  | cons m ms ih =>
    have hstrides := le_of_gaps hp hms h
    obtain ⟨⟨hm, hd⟩, hms⟩ := List.forall_mem_cons.mp hms
    obtain ⟨hdvd, rest, hrest, rfl⟩ := gaps_cons_ok h
    have hspan : m.2 < m.1 * m.2 := lt_mul_of_one_lt_left hd hm
    obtain ⟨hmodes, hgaps⟩ := le_of_gaps (hd.trans hspan) hms hrest
    have hpm := hstrides.1 m List.mem_cons_self
    have hg : 0 < m.2 / p := Int.ediv_pos_of_pos_of_dvd hd hp.le hdvd
    refine List.forall_mem_cons.mpr ⟨⟨m, List.mem_cons_self, ?_⟩, fun e he => ?_⟩
    · exact (below_gaps_head hp (Int.ediv_mul_cancel hdvd).symm hg hgaps le_rfl hspan).symm
    · obtain ⟨e', he', rfl⟩ := List.mem_map.mp he
      obtain ⟨x, hx, hbelow⟩ := ih (hd.trans hspan) hms hrest e' he'
      refine ⟨x, List.mem_cons_of_mem m hx, ?_⟩
      rw [below_gaps_tail hm hd hpm (hmodes x hx), ← hbelow]

/-- A stride inside a mode is where a boundary is. -/
theorem exists_stop_of_mode (hp : 0 < p) (hms : ∀ m ∈ ms, 1 < m.1 ∧ 0 < m.2)
    (h : gaps hi p ms = .ok gs) {x : ℤ × ℤ} (hx : x ∈ ms) (hle : x.2 ≤ d) (hlt : d < x.1 * x.2) :
    ∃ e ∈ stops p ms, e.2 = below gs d := by
  induction ms generalizing p gs with
  | nil => exact absurd hx List.not_mem_nil
  | cons m ms ih =>
    have hstrides := le_of_gaps hp hms h
    obtain ⟨⟨hm, hd⟩, hms⟩ := List.forall_mem_cons.mp hms
    obtain ⟨hdvd, rest, hrest, rfl⟩ := gaps_cons_ok h
    have hspan : m.2 < m.1 * m.2 := lt_mul_of_one_lt_left hd hm
    obtain ⟨hmodes, hgaps⟩ := le_of_gaps (hd.trans hspan) hms hrest
    have hpm := hstrides.1 m List.mem_cons_self
    have hg : 0 < m.2 / p := Int.ediv_pos_of_pos_of_dvd hd hp.le hdvd
    rcases List.mem_cons.mp hx with rfl | hx
    · refine ⟨_, List.mem_cons_self, ?_⟩
      exact (below_gaps_head hp (Int.ediv_mul_cancel hdvd).symm hg hgaps hle hlt).symm
    · obtain ⟨e, he, hbelow⟩ := ih (hd.trans hspan) hms hrest hx
      refine ⟨_, List.mem_cons_of_mem _ (List.mem_map_of_mem he), ?_⟩
      rw [below_gaps_tail hm hd hpm ((hmodes x hx).trans hle), ← hbelow]

/-- How many copies of `a` start below `d`, the stride of one of its modes. -/
def copiesBelow (a : Layout) (d : ℤ) : ℤ := d / below a.flatModes d

/-- The boundaries between copies are those at the modes of `a`. -/
theorem forall_stops_iff (ha : a.Valid) (hmove : Moving a.flatModes) (hhi : 0 < hi)
    (h : gaps hi 1 (sortedModes a) = .ok gs) (P : ℤ → Prop) :
    (∀ e ∈ stops 1 (sortedModes a), P e.2) ↔
      ∀ m ∈ a.flatModes, 1 < m.1 → P (copiesBelow a m.2) := by
  have hmodes := sortedModes_pos ha hmove.forward
  have hext : ∀ m ∈ sortedModes a, 0 < m.1 ∧ 0 < m.2 := fun m hm => by
    have := hmodes m hm
    omega
  obtain ⟨hposg, ws, hperm, hch⟩ := gaps_chain one_pos hhi hext h
  have hposw : Pos ws := fun m hm => by
    rcases List.mem_append.mp (hperm.mem_iff.mp hm) with h | h
    · exact (hext m h).1
    · exact hposg m h
  -- the modes of `a` and the gaps fill an interval together
  have hfills : Fills (a.flatModes ++ gs) (size ws) := by
    rw [fills_sortedModes_append ha hmove hposg (.refl gs), ← fills_perm hposw hperm]
    exact hch.fills hposw
  have hbelow : ∀ m ∈ a.flatModes, 1 < m.1 → copiesBelow a m.2 = below gs m.2 := fun m hm h1 => by
    have hstride := stride_eq_below (pos_append.mpr ⟨ha.pos, hposg⟩) hfills
      (List.mem_append_left gs hm) h1
    rw [below_append] at hstride
    exact Int.ediv_eq_of_eq_mul_right (below_pos ha.pos m.2).ne' hstride
  constructor
  · intro hall m hm h1
    have hd := hmove m hm h1
    -- the mode lies inside a coalesced one
    have hspan : ∃ x ∈ nonBroadcast a.flatModes, x.2 ≤ m.2 ∧ m.2 < x.1 * x.2 := by
      refine ⟨m, List.mem_map.mpr ⟨m, hm, if_neg hd.ne'⟩, le_rfl, ?_⟩
      exact lt_mul_of_one_lt_left hd h1
    have hposn := (nonBroadcast_sameWalk ha.pos hmove).1
    obtain ⟨x, hx, hle, hlt⟩ := exists_span_merged hposn hd.le hspan
    obtain ⟨e, he, hebelow⟩ := exists_stop_of_mode one_pos hmodes h
      ((perm_sortByStride _).mem_iff.mpr hx) hle hlt
    rw [hbelow m hm h1, ← hebelow]
    exact hall e he
  · intro hall e he
    obtain ⟨x, hx, hebelow⟩ := exists_mode_of_stop one_pos hmodes h e he
    -- a coalesced mode begins where one of its modes does
    have horigin : ∀ x ∈ merged (nonBroadcast a.flatModes),
        ∃ m ∈ a.flatModes, 1 < m.1 ∧ m.2 = x.2 := by
      refine merged_forall (fun _ _ _ h _ => h) fun x hx hne => ?_
      obtain ⟨m, hm, rfl⟩ := List.mem_map.mp hx
      split at hne
      · exact absurd rfl hne
      · rename_i hzero
        rw [if_neg hzero]
        have := ha.pos m hm
        exact ⟨m, hm, by omega, rfl⟩
    obtain ⟨m, hm, h1, hstride⟩ := horigin x ((perm_sortByStride _).mem_iff.mp hx)
    rw [hebelow, ← hstride, ← hbelow m hm h1]
    exact hall m hm h1

/-! ### The copies of a product -/

/-- The modes of `b` meet every boundary between copies of `a` evenly, and adding them up carries
over none of them. -/
structure CopiesAligned (a b : Layout) : Prop where
  steps : ∀ m ∈ a.flatModes, 1 < m.1 → ∀ x ∈ b.flatModes, Meets x.1 x.2 (copiesBelow a m.2)
  carry : ∀ m ∈ a.flatModes, 1 < m.1 → ∀ j ∈ Set.Ico 0 b.cells,
    sumDigits (fun x i => i * x.2 % copiesBelow a m.2) b.flatModes j < copiesBelow a m.2

/-- The modes of the complement are its proper gaps. -/
theorem merged_flatModes_gaps (hms : ∀ m ∈ ms, 1 < m.1 ∧ 0 < m.2) (h : gaps hi 1 ms = .ok gs) :
    merged (layoutFromFlat (merged gs)).flatModes = proper gs := by
  have hmerged := merged_gaps one_pos hms h
  cases hgs : merged gs with
  | nil => rw [flatModes_layoutFromFlat_nil, ← hmerged, hgs]; rfl
  | cons g rest =>
    rw [flatModes_layoutFromFlat_cons, ← hgs, ← hmerged, hmerged]
    exact (merged_eq_proper gs).symm.trans hmerged

/-- Every mode of `b` stays below the last offset of `b`. -/
theorem le_offset_last (hb : b.Valid) (hnb : Nonneg b.flatModes) {x : ℤ × ℤ}
    (hx : x ∈ b.flatModes) : (x.1 - 1) * x.2 ≤ b.offset (b.cells - 1) := by
  have hx1 := hb.pos x hx
  obtain ⟨c, _, hc, hdigit⟩ := exists_single_digit hb.pos hx (i := x.1 - 1) (by omega) (by omega)
  calc (x.1 - 1) * x.2 = eval b.flatModes c := by
        rw [eval_eq_sumDigits]
        exact (hdigit (fun m i => i * m.2) fun m => zero_mul m.2).symm
    _ ≤ b.offset (b.cells - 1) := eval_le_last hb.pos hnb hc

/-- The condition says that `b` can be composed with the gaps. -/
theorem copiesAligned_iff (ha : a.Valid) (hb : b.Valid) (hmove : Moving a.flatModes)
    (hnb : Nonneg b.flatModes) (hhi : 0 < hi) (h : gaps hi 1 (sortedModes a) = .ok gs)
    (hlast : b.offset (b.cells - 1) < size gs) : CopiesAligned a b ↔
      (∀ x ∈ b.flatModes, LeafRepresentable (layoutFromFlat (merged gs)) x) ∧
        CarryFree (layoutFromFlat (merged gs)) b := by
  have hmodes := sortedModes_pos ha hmove.forward
  have hposg : Pos gs := (gaps_chain one_pos hhi (fun m hm => by
    have := hmodes m hm
    omega) h).1
  have hsteps : ∀ x ∈ b.flatModes, LeafRepresentable (layoutFromFlat (merged gs)) x ↔
      ∀ m ∈ a.flatModes, 1 < m.1 → Meets x.1 x.2 (copiesBelow a m.2) := fun x hx => by
    rw [LeafRepresentable]
    by_cases hx2 : x.2 = 0
    · exact iff_of_true (Or.inl hx2) fun m _ _ => Or.inl (hx2 ▸ dvd_zero _)
    · have hq : 0 < x.2 := lt_of_le_of_ne (hnb x hx) (Ne.symm hx2)
      rw [or_iff_right hx2, merged_flatModes_gaps hmodes h,
        representable_gaps_iff one_pos hmodes h hposg hq
          ((le_offset_last hb hnb hx).trans_lt hlast)]
      exact forall_stops_iff ha hmove hhi h fun N => Meets x.1 x.2 N
  have hcarry : CarryFree (layoutFromFlat (merged gs)) b ↔ ∀ j ∈ Set.Ico 0 b.cells,
      ∀ m ∈ a.flatModes, 1 < m.1 →
        sumDigits (fun x i => i * x.2 % copiesBelow a m.2) b.flatModes j < copiesBelow a m.2 := by
    have hoff : ∀ y, (layoutFromFlat (merged gs)).offset y = eval gs y := fun y => by
      rw [offset_layoutFromFlat, eval_merged hposg]
    have hcells : (layoutFromFlat (merged gs)).cells = size gs := by
      rw [cells_layoutFromFlat, size_merged hposg]
    have hcell : ∀ j ∈ Set.Ico 0 b.cells, ((layoutFromFlat (merged gs)).offset (b.offset j) =
        sumDigits (fun m i => (layoutFromFlat (merged gs)).offset (i * m.2)) b.flatModes j) ↔
          ∀ m ∈ a.flatModes, 1 < m.1 →
            sumDigits (fun x i => i * x.2 % copiesBelow a m.2) b.flatModes j <
              copiesBelow a m.2 := by
      intro j hj
      -- the copy number is the sum of the terms that the modes contribute
      obtain ⟨xs, hxs, hterms⟩ := exists_terms hb.pos hnb hj.1
      have hsum : b.offset j = xs.sum := by
        rw [Layout.offset, eval_eq_sumDigits]
        exact (hterms id).trans (congrArg List.sum (List.map_id xs))
      have hlt : xs.sum < size gs :=
        hsum ▸ (eval_le_last hb.pos hnb hj.2).trans_lt hlast
      simp only [hoff]
      rw [hterms (eval gs), hsum, eval_gaps_sum_iff one_pos hmodes h hxs hlt,
        forall_stops_iff ha hmove hhi h fun N => (xs.map (· % N)).sum < N]
      exact forall₃_congr fun m _ _ => by rw [hterms (· % copiesBelow a m.2)]
    constructor
    · intro hfree j hj
      refine (hcell j hj).mp (hfree j hj.1 hj.2 ?_)
      exact hcells ▸ (eval_le_last hb.pos hnb hj.2).trans_lt hlast
    · intro hall j h0 hj _
      exact (hcell j ⟨h0, hj⟩).mpr (hall j ⟨h0, hj⟩)
  rw [forall₂_congr hsteps, hcarry]
  constructor
  · rintro ⟨hst, hca⟩
    exact ⟨fun x hx m hm h1 => hst m hm h1 x hx, fun j hj m hm h1 => hca m hm h1 j hj⟩
  · rintro ⟨hst, hca⟩
    exact ⟨fun m hm h1 x hx => hst x hx m hm h1, fun m hm h1 j hj => hca j hj m hm h1⟩

/-- **The copies of a product.**  For injective layouts, the product places copy `j` where copy
number `b j` starts exactly when the modes of `b` meet the boundaries between copies evenly and
carry over none, and then no two cells of the product share an offset. -/
theorem logicalProduct_copies_iff (ha : a.Valid) (hb : b.Valid) (hna : Nonneg a.flatModes)
    (hnb : Nonneg b.flatModes) (hia : Set.InjOn a.offset (Set.Ico 0 a.cells))
    (hib : Set.InjOn b.offset (Set.Ico 0 b.cells)) (h : logicalProduct a b = .ok r) :
    (∃ comp : Layout, complement a (productSpan a b) = .ok comp ∧
      (CopiesAligned a b ↔ ∀ i ∈ Set.Ico 0 a.cells, ∀ j ∈ Set.Ico 0 b.cells,
        r.offset (i + a.cells * j) = a.offset i + comp.offset (b.offset j))) ∧
      (CopiesAligned a b → Set.InjOn r.offset (Set.Ico 0 r.cells)) := by
  obtain ⟨comp, repeated, hcomp, hrep, rfl⟩ := logicalProduct_ok ha hb h
  have hmove := moving_of_injOn ha hna hia
  have hlast : ∀ j, 0 ≤ j → j < b.cells → b.offset j ≤ b.offset (b.cells - 1) :=
    fun j _ hj => eval_le_last hb.pos hnb hj
  have hspan : 1 ≤ productSpan a b := by
    have h1 := ha.cells_pos
    have h2 := hlast 0 le_rfl hb.cells_pos
    have h3 : b.offset 0 = 0 := eval_zero _
    exact mul_pos h1 (by omega)
  obtain ⟨hc, hfills, _, hM⟩ := complements_of_complement ha hmove hspan hcomp
  rw [complements_iff ha hc] at hfills
  -- every copy `b` asks for is a cell of the complement
  have hcells : b.offset (b.cells - 1) < comp.cells := by
    have := le_of_mul_le_mul_left hM ha.cells_pos
    omega
  have hin : ∀ j ∈ Set.Ico 0 b.cells, b.offset j ∈ Set.Ico 0 comp.cells := fun j hj =>
    ⟨eval_nonneg hb.pos hnb hj.1, (hlast j hj.1 hj.2).trans_lt hcells⟩
  obtain ⟨_, _, hvrep, hsize, _⟩ := composition_ok hc hb hnb hrep
  have hplaced : CopiesAligned a b ↔ IsComposite comp b repeated := by
    rw [composition_exact_iff hc hb hnb hrep]
    obtain ⟨gs, hgs, rfl⟩ := exists_gaps_of_complement ha hmove.forward (by omega) hcomp
    have hposg : Pos gs := (gaps_chain one_pos (by omega : 0 < productSpan a b) (fun m hm => by
      have := sortedModes_pos ha hmove.forward m hm
      omega) hgs).1
    rw [cells_layoutFromFlat, size_merged hposg] at hcells
    exact copiesAligned_iff ha hb hmove hnb (by omega) hgs hcells
  have hoff : ∀ i ∈ Set.Ico 0 a.cells, ∀ j,
      (Layout.fromModes [a, repeated]).offset (i + a.cells * j) = a.offset i + repeated.offset j :=
    fun i hi j => offset_pair ha hvrep.congruent hi.1 hi.2
  refine ⟨⟨comp, hcomp, hplaced.trans ⟨fun hco i hi j hj => ?_, fun hall => ?_⟩⟩, fun hal => ?_⟩
  · rw [hoff i hi, hco.2 j hj.1 hj.2 (hin j hj).1 (hin j hj).2]
  · refine ⟨hsize, fun j h0 hj _ _ => ?_⟩
    have hfirst := hall 0 ⟨le_rfl, ha.cells_pos⟩ j ⟨h0, hj⟩
    rw [hoff 0 ⟨le_rfl, ha.cells_pos⟩] at hfirst
    exact add_left_cancel hfirst
  · obtain ⟨_, hco⟩ := hplaced.mp hal
    have hsize : size repeated.flatModes = b.cells := hsize
    unfold Layout.offset
    rw [Layout.cells, flatModes_pair ha.congruent hvrep.congruent]
    refine injOn_append_reindex (κ := b.offset) ha.pos (fun j hj => ?_) ?_ hfills.injOn
    · rw [hsize] at hj
      exact ⟨hin j hj, hco j hj.1 hj.2 (hin j hj).1 (hin j hj).2⟩
    · rwa [hsize]

/-- Six copies of `2:2`, placed by `(2,3):(1,2)`: two copies start below the stride of `2:2`, the
modes of `(2,3):(1,2)` divide or skip them, and the product is `(2,(2,3)):(2,(1,4))`. -/
theorem logicalProduct_copies_iff_trays :
    logicalProduct ⟨.leaf 2, .leaf 2⟩ ⟨.tuple [.leaf 2, .leaf 3], .tuple [.leaf 1, .leaf 2]⟩ =
        .ok ⟨.tuple [.leaf 2, .tuple [.leaf 2, .leaf 3]],
          .tuple [.leaf 2, .tuple [.leaf 1, .leaf 4]]⟩ ∧
      Set.InjOn (Layout.mk (.tuple [.leaf 2, .tuple [.leaf 2, .leaf 3]])
        (.tuple [.leaf 2, .tuple [.leaf 1, .leaf 4]])).offset (Set.Ico 0 12) := by
  have hrun : logicalProduct ⟨.leaf 2, .leaf 2⟩
      ⟨.tuple [.leaf 2, .leaf 3], .tuple [.leaf 1, .leaf 2]⟩ =
        .ok ⟨.tuple [.leaf 2, .tuple [.leaf 2, .leaf 3]],
          .tuple [.leaf 2, .tuple [.leaf 1, .leaf 4]]⟩ := by decide
  have hb : Set.InjOn (Layout.mk (.tuple [.leaf 2, .leaf 3]) (.tuple [.leaf 1, .leaf 2])).offset
      (Set.Ico 0 (Layout.mk (.tuple [.leaf 2, .leaf 3]) (.tuple [.leaf 1, .leaf 2])).cells) :=
    have hchain : Chain 1 [((2 : ℤ), (1 : ℤ)), (3, 2)] := ⟨rfl, rfl, trivial⟩
    (hchain.fills (by decide)).injOn
  refine ⟨hrun, (logicalProduct_copies_iff (a := ⟨.leaf 2, .leaf 2⟩)
    (b := ⟨.tuple [.leaf 2, .leaf 3], .tuple [.leaf 1, .leaf 2]⟩) ⟨rfl, by decide⟩ ⟨rfl, by decide⟩
    (by decide) (by decide) ?_ hb hrun).2 ⟨?_, ?_⟩⟩
  · rintro x ⟨hx0, hx2⟩ y ⟨hy0, hy2⟩ hxy
    have h : x % 2 * 2 + 0 = y % 2 * 2 + 0 := hxy
    have hx2 : x < 2 := hx2
    have hy2 : y < 2 := hy2
    omega
  · intro m hm _ x hx
    obtain rfl := List.mem_singleton.mp hm
    rcases List.mem_cons.mp hx with rfl | hx
    · exact Or.inr (Or.inl (by decide))
    · obtain rfl := List.mem_singleton.mp hx
      exact Or.inl (by decide)
  · rintro m hm _ j ⟨h0, hj⟩
    obtain rfl := List.mem_singleton.mp hm
    have hj : j < 6 := hj
    interval_cases j <;> decide

/-- The layout `(2,2):(2,3)` reaches the offsets `0, 2, 3, 5`. -/
def skewed2x2 : Layout := ⟨.tuple [.leaf 2, .leaf 2], .tuple [.leaf 2, .leaf 3]⟩

/-- Copies of `2:5` placed by `(2,2):(2,3)`: the complement is `(5,2):(1,10)`, the copy number
`5` carries into its second mode, and offset `5` belongs to two copies. -/
theorem logicalProduct_collides :
    (Layout.mk (.leaf 2) (.leaf 5)).Valid ∧ Nonneg (Layout.mk (.leaf 2) (.leaf 5)).flatModes ∧
      Set.InjOn (Layout.mk (.leaf 2) (.leaf 5)).offset (Set.Ico 0 2) ∧
      skewed2x2.Valid ∧ Nonneg skewed2x2.flatModes ∧ Set.InjOn skewed2x2.offset (Set.Ico 0 4) ∧
      ∃ r : Layout, logicalProduct ⟨.leaf 2, .leaf 5⟩ skewed2x2 = .ok r ∧
        ¬Set.InjOn r.offset (Set.Ico 0 r.cells) := by
  refine ⟨⟨rfl, by decide⟩, by decide, ?_, ⟨rfl, by decide⟩, by decide, ?_,
    ⟨.tuple [.leaf 2, .tuple [.leaf 2, .leaf 2]], .tuple [.leaf 5, .tuple [.leaf 2, .leaf 3]]⟩,
    by decide, fun h => ?_⟩
  · rintro x ⟨hx0, hx2⟩ y ⟨hy0, hy2⟩ hxy
    have h : x % 2 * 5 + 0 = y % 2 * 5 + 0 := hxy
    omega
  · rintro x ⟨hx0, hx4⟩ y ⟨hy0, hy4⟩ hxy
    have hx : x = 0 ∨ x = 1 ∨ x = 2 ∨ x = 3 := by omega
    have hy : y = 0 ∨ y = 1 ∨ y = 2 ∨ y = 3 := by omega
    rcases hx with rfl | rfl | rfl | rfl <;> rcases hy with rfl | rfl | rfl | rfl <;>
      first | rfl | exact absurd hxy (by decide)
  · -- cell `(1, (0, 0))` and cell `(0, (1, 1))`
    have := h (show (1 : ℤ) ∈ _ by decide) (show (6 : ℤ) ∈ _ by decide) (by decide)
    omega

end CudaOxide.Cute
