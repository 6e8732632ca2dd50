import CudaOxide.Lib.Filling

namespace CudaOxide.Lib.Strided

open Finset

/-!
# Cutting a walk

`Cuts u ms` says that the cells of `ms` split evenly after the first `u`: the boundary falls
between two modes, or inside one that it divides.

* `eval_cut` — a walk that is cut at `u` adds up the offsets of the two parts of a coordinate.
* `Cuts.merged` — merging modes keeps every cut.
* `cuts_of_chain` — a chain is cut at `T` when every mode lies below `T`, lies above `T` or is
  split by it (`SplitBy`), which is a property of single modes that merging keeps
  (`SplitBy.merge`).
* `Boundary` — the number of cells before a mode; of two boundaries the smaller one divides the
  larger one.
* `exists_span_of_chain` — each step of a chain lies in the span of one of its modes.
-/

variable {ms xs ys zs : List (ℤ × ℤ)} {m : ℤ × ℤ} {u p T : ℤ}

/-- The first `u` cells of `ms` end at a boundary of its modes, or divide the mode they end in. -/
def Cuts : ℤ → List (ℤ × ℤ) → Prop
  | u, [] => u = 1
  | u, m :: ms => m.1 ∣ u ∧ Cuts (u / m.1) ms ∨ u ∣ m.1

/-- Every list is cut in front. -/
theorem cuts_one (ms : List (ℤ × ℤ)) : Cuts 1 ms := by
  cases ms with
  | nil => rfl
  | cons m ms => exact Or.inr (one_dvd _)

/-- Every list is cut behind. -/
theorem cuts_size (h : Pos ms) : Cuts (size ms) ms := by
  induction ms with
  | nil => rfl
  | cons m ms ih =>
    obtain ⟨hm, h⟩ := pos_cons.mp h
    refine Or.inl ⟨Dvd.intro _ rfl, ?_⟩
    rw [size_cons, Int.mul_ediv_cancel_left _ hm.ne']
    exact ih h

/-- A cut depends on the extents alone. -/
theorem cuts_congr (h : xs.map Prod.fst = ys.map Prod.fst) : Cuts u xs ↔ Cuts u ys := by
  induction xs generalizing ys u with
  | nil =>
    rw [List.map_nil, eq_comm, List.map_eq_nil_iff] at h
    rw [h]
  | cons x xs ih =>
    cases ys with
    | nil => exact absurd h (List.cons_ne_nil _ _)
    | cons y ys =>
      obtain ⟨hxy, h⟩ := List.cons.inj h
      have hxy : x.1 = y.1 := hxy
      rw [Cuts, Cuts, hxy, ih h]

/-- The two parts of a coordinate that is cut at `u` contribute separately. -/
theorem eval_cut {t v : ℤ} (hpos : Pos ms) (hu : 0 < u) (h : Cuts u ms) (h0 : 0 ≤ t)
    (ht : t < u) : eval ms (t + u * v) = eval ms t + eval ms (u * v) := by
  induction ms generalizing u t v with
  | nil => rfl
  | cons m ms ih =>
    obtain ⟨hm, hpos⟩ := pos_cons.mp hpos
    simp only [eval_cons]
    rcases h with ⟨⟨k, rfl⟩, h⟩ | ⟨k, hk⟩
    · -- the front mode lies below the cut
      rw [Int.mul_ediv_cancel_left _ hm.ne'] at h
      have hk : 0 < k := pos_of_mul_pos_right hu hm.le
      have hkv : m.1 * k * v = m.1 * (k * v) := mul_assoc _ _ _
      rw [hkv, Int.add_mul_emod_self_left, Int.add_mul_ediv_left _ _ hm.ne', Int.mul_emod_right,
        Int.mul_ediv_cancel_left _ hm.ne',
        ih hpos hk h (Int.ediv_nonneg h0 hm.le) (Int.ediv_lt_of_lt_mul hm (by rwa [mul_comm]))]
      ring
    · -- the cut divides the front mode
      have hk0 : 0 < k := pos_of_mul_pos_right (hk ▸ hm) hu.le
      have hlow := Int.emod_nonneg v hk0.ne'
      have hlow' := Int.emod_lt_of_pos v hk0
      have hv : t + u * v = (t + u * (v % k)) + m.1 * (v / k) := by
        conv_lhs => rw [← Int.emod_add_mul_ediv v k]
        rw [hk]
        ring
      have hv' : u * v = u * (v % k) + m.1 * (v / k) := by
        conv_lhs => rw [← Int.emod_add_mul_ediv v k]
        rw [hk]
        ring
      have hin : t + u * (v % k) ∈ Set.Ico 0 m.1 := by
        rw [hk]
        exact mem_Ico_of_digits ⟨h0, ht⟩ ⟨hlow, hlow'⟩
      have hin' : u * (v % k) ∈ Set.Ico 0 m.1 := ⟨by positivity, by linarith [hin.2]⟩
      have htm : t < m.1 := by
        have : 0 ≤ u * (v % k) := by positivity
        linarith [hin.2]
      rw [hv, hv', (digit_cons hin.1 hin.2).1, (digit_cons hin.1 hin.2).2,
        (digit_cons hin'.1 hin'.2).1, (digit_cons hin'.1 hin'.2).2, Int.emod_eq_of_lt h0 htm,
        Int.ediv_eq_zero_of_lt h0 htm, eval_zero]
      ring

/-! ### Cuts of merged modes -/

/-- A mode of one cell can be dropped. -/
private theorem cuts_drop_unit (hx : Pos xs) {d : ℤ} (hu : 0 < u)
    (h : Cuts u (xs ++ (1, d) :: ys)) : Cuts u (xs ++ ys) := by
  induction xs generalizing u with
  | nil =>
    rcases h with ⟨_, h⟩ | h
    · rwa [Int.ediv_one] at h
    · have hone : u = 1 := Int.eq_one_of_dvd_one hu.le h
      rw [hone]
      exact cuts_one _
  | cons x xs ih =>
    obtain ⟨hx0, hx⟩ := pos_cons.mp hx
    refine h.imp (fun ⟨hdvd, h⟩ => ⟨hdvd, ih hx ?_ h⟩) id
    exact Int.ediv_pos_of_pos_of_dvd hu hx0.le hdvd

/-- Two modes that are merged are cut no more between them, and `u` did not cut there. -/
private theorem cuts_merge_pair (hx : Pos xs) {s₀ s d₀ d : ℤ} (h₀ : 0 < s₀)
    (h : Cuts u (xs ++ (s₀, d₀) :: (s, d) :: ys)) : Cuts u (xs ++ (s₀ * s, d₀) :: ys) := by
  induction xs generalizing u with
  | nil =>
    rcases h with ⟨⟨k, rfl⟩, h⟩ | h
    · rw [Int.mul_ediv_cancel_left _ h₀.ne'] at h
      rcases h with ⟨hk, h⟩ | hk
      · refine Or.inl ⟨mul_dvd_mul_left s₀ hk, ?_⟩
        rwa [Int.mul_ediv_mul_of_pos _ _ h₀]
      · exact Or.inr (mul_dvd_mul_left s₀ hk)
    · exact Or.inr (Dvd.dvd.mul_right h s)
  | cons x xs ih =>
    exact h.imp (fun ⟨hdvd, h⟩ => ⟨hdvd, ih (pos_cons.mp hx).2 h⟩) id

/-- The loop that merges keeps a cut. -/
private theorem cuts_mergeOnto {out : List (ℤ × ℤ)} (hout : Pos out) (hms : Pos ms) (hu : 0 < u)
    (h : Cuts u (out.reverse ++ ms)) : Cuts u (mergeOnto out ms) := by
  induction ms generalizing out with
  | nil => simpa [mergeOnto] using h
  | cons m ms ih =>
    obtain ⟨hm, hms⟩ := pos_cons.mp hms
    have hrev : Pos out.reverse := fun x hx => hout x (List.mem_reverse.mp hx)
    unfold mergeOnto
    split
    · have hone : m = (1, m.2) := Prod.ext ‹_› rfl
      rw [hone] at h
      exact ih hout hms (cuts_drop_unit hrev hu h)
    · split
      · exact ih (pos_cons.mpr ⟨hm, pos_nil⟩) hms h
      · rename_i last rest
        obtain ⟨hlast, hrest⟩ := pos_cons.mp hout
        have hrev' : Pos rest.reverse := fun x hx => hrest x (List.mem_reverse.mp hx)
        rw [List.reverse_cons, List.append_assoc, List.singleton_append] at h
        split
        · refine ih (pos_cons.mpr ⟨mul_pos hlast hm, hrest⟩) hms ?_
          rw [List.reverse_cons, List.append_assoc, List.singleton_append]
          exact cuts_merge_pair hrev' hlast h
        · refine ih (pos_cons.mpr ⟨hm, hout⟩) hms ?_
          simpa using h

/-- Merging keeps a cut. -/
theorem Cuts.merged (hms : Pos ms) (hu : 0 < u) (h : Cuts u ms) : Cuts u (merged ms) :=
  cuts_mergeOnto pos_nil hms hu h

/-! ### Cuts of a chain -/

/-- The mode lies above `T`, below `T`, or is split by it. -/
def SplitBy (T : ℤ) (m : ℤ × ℤ) : Prop :=
  T ∣ m.2 ∨ m.1 * m.2 ∣ T ∨ m.2 ∣ T ∧ T ∣ m.1 * m.2

/-- Joining two modes that continue each other keeps the property. -/
theorem SplitBy.merge {s₀ d₀ s : ℤ} (h₀ : SplitBy T (s₀, d₀)) (h : SplitBy T (s, s₀ * d₀)) :
    SplitBy T (s₀ * s, d₀) := by
  have hreach : s * (s₀ * d₀) = s₀ * s * d₀ := by ring
  rcases h₀ with h₀ | h₀ | ⟨h₀, h₀'⟩
  · exact Or.inl h₀
  · have hd : d₀ ∣ T := (Dvd.intro_left s₀ rfl).trans h₀
    rcases h with h | h | ⟨_, h⟩
    · exact Or.inr (Or.inr ⟨hd, h.trans ⟨s, by ring⟩⟩)
    · exact Or.inr (Or.inl (hreach ▸ h))
    · exact Or.inr (Or.inr ⟨hd, hreach ▸ h⟩)
  · exact Or.inr (Or.inr ⟨h₀, h₀'.trans ⟨s, by ring⟩⟩)

/-- A chain is cut where each of its modes is split. -/
theorem cuts_of_chain (hpos : Pos ms) (hp : 0 < p) (hT : 0 < T) (hch : Chain p ms)
    (hpT : p ∣ T) (hTp : T ∣ p * size ms) (hms : ∀ m ∈ ms, SplitBy T m) : Cuts (T / p) ms := by
  induction ms generalizing p with
  | nil =>
    rw [size_nil, mul_one] at hTp
    rw [Int.dvd_antisymm hT.le hp.le hTp hpT, Int.ediv_self hp.ne']
    rfl
  | cons m ms ih =>
    obtain ⟨hm, hpos⟩ := pos_cons.mp hpos
    obtain ⟨hm2, hch⟩ := hch
    obtain ⟨hsplit, hms⟩ := List.forall_mem_cons.mp hms
    obtain ⟨k, rfl⟩ := hpT
    rw [Int.mul_ediv_cancel_left _ hp.ne']
    unfold SplitBy at hsplit
    rw [hm2] at hsplit
    -- a mode below the cut leaves the cut to the modes behind it
    have hbelow : m.1 * p ∣ p * k → Cuts k (m :: ms) := fun hdvd => by
      have hmk : m.1 ∣ k := by
        rw [mul_comm m.1 p] at hdvd
        exact Int.dvd_of_mul_dvd_mul_left hp.ne' hdvd
      refine Or.inl ⟨hmk, ?_⟩
      rw [size_cons, ← mul_assoc, mul_comm p m.1] at hTp
      have h := ih hpos (mul_pos hm hp) hch hdvd hTp hms
      rwa [mul_comm m.1 p, Int.mul_ediv_mul_of_pos _ _ hp] at h
    rcases hsplit with habove | hdvd | ⟨_, hdvd⟩
    · -- the mode starts at the cut
      have hk : k ∣ 1 := by
        obtain ⟨j, hj⟩ := habove
        refine ⟨j, ?_⟩
        have : p * 1 = p * (k * j) := by linarith
        exact mul_left_cancel₀ hp.ne' this
      exact Or.inr (hk.trans (one_dvd _))
    · exact hbelow hdvd
    -- a divisor of the front mode cuts it in two
    · refine Or.inr ?_
      rw [mul_comm m.1 p] at hdvd
      exact Int.dvd_of_mul_dvd_mul_left hp.ne' hdvd

/-- What holds of some mode, and of a merged mode when it holds of one of the two, holds of some
mode after merging. -/
theorem mergeOnto_exists {P : ℤ × ℤ → Prop} {out : List (ℤ × ℤ)} (hunit : ∀ d, ¬P (1, d))
    (hmerge : ∀ s₀ d₀ s, 0 < s₀ → 0 < s → P (s₀, d₀) ∨ P (s, s₀ * d₀) → P (s₀ * s, d₀))
    (hout : Pos out) (hms : Pos ms) (h : (∃ m ∈ out, P m) ∨ ∃ m ∈ ms, P m) :
    ∃ m ∈ mergeOnto out ms, P m := by
  induction ms generalizing out with
  | nil =>
    obtain ⟨m, hm, hP⟩ := h.resolve_right (by simp)
    exact ⟨m, List.mem_reverse.mpr hm, hP⟩
  | cons m ms ih =>
    obtain ⟨hm, hms⟩ := pos_cons.mp hms
    rw [List.exists_mem_cons_iff] at h
    unfold mergeOnto
    split
    · -- a one-cell mode does not count
      have hnot : ¬P m := by
        rw [show m = (1, m.2) from Prod.ext ‹_› rfl]
        exact hunit m.2
      exact ih hout hms (h.imp_right fun h => h.resolve_left hnot)
    · split
      · refine ih (pos_cons.mpr ⟨hm, hout⟩) hms ?_
        simpa using h
      · rename_i last rest
        obtain ⟨hlast, hrest⟩ := pos_cons.mp hout
        split
        · rename_i hcont
          refine ih (pos_cons.mpr ⟨mul_pos hlast hm, hrest⟩) hms ?_
          have hjoin : P last ∨ P m → P (last.1 * m.1, last.2) := fun h => by
            refine hmerge _ _ _ hlast hm (h.imp id fun hP => ?_)
            rwa [← hcont]
          rw [List.exists_mem_cons_iff] at h ⊢
          rcases h with (h | h) | h | h
          · exact Or.inl (Or.inl (hjoin (Or.inl h)))
          · exact Or.inl (Or.inr h)
          · exact Or.inl (Or.inl (hjoin (Or.inr h)))
          · exact Or.inr h
        · refine ih (pos_cons.mpr ⟨hm, hout⟩) hms ?_
          rw [List.exists_mem_cons_iff]
          exact h.elim (fun h => Or.inl (Or.inr h)) fun h => h.imp_left Or.inl

/-- Merging keeps every span. -/
theorem exists_span_merged (hms : Pos ms) {q : ℤ} (h0 : 0 ≤ q)
    (h : ∃ m ∈ ms, m.2 ≤ q ∧ q < m.1 * m.2) : ∃ m ∈ merged ms, m.2 ≤ q ∧ q < m.1 * m.2 := by
  refine mergeOnto_exists (P := fun m => m.2 ≤ q ∧ q < m.1 * m.2) (fun d h => ?_)
    (fun s₀ d₀ s hs₀ hs h => ?_) pos_nil hms (Or.inr h)
  · have hlt : q < 1 * d := h.2
    rw [one_mul] at hlt
    exact absurd h.1 (not_le.mpr hlt)
  · show d₀ ≤ q ∧ q < s₀ * s * d₀
    rcases h with ⟨hle, hlt⟩ | ⟨hle, hlt⟩
    · have hlt : q < s₀ * d₀ := hlt
      have hspan : s₀ * d₀ * 1 ≤ s₀ * d₀ * s := Int.mul_le_mul_of_nonneg_left hs (by omega)
      exact ⟨hle, by linarith [mul_right_comm s₀ d₀ s]⟩
    · have hle : s₀ * d₀ ≤ q := hle
      have hlt : q < s * (s₀ * d₀) := hlt
      have hspan : 0 < s₀ * d₀ := pos_of_mul_pos_right (h0.trans_lt hlt) hs.le
      have hd : 0 < d₀ := pos_of_mul_pos_right hspan hs₀.le
      exact ⟨by nlinarith, by linarith [mul_left_comm s s₀ d₀]⟩

/-- Every place in a chain lies in the span of one mode. -/
theorem exists_span_of_chain (hch : Chain p ms) {q : ℤ} (hpq : p ≤ q) (hq : q < size ms * p) :
    ∃ m ∈ ms, m.2 ≤ q ∧ q < m.1 * m.2 := by
  induction ms generalizing p with
  | nil =>
    rw [size_nil, one_mul] at hq
    exact absurd hpq (not_le.mpr hq)
  | cons m ms ih =>
    obtain ⟨rfl, hch⟩ := hch
    by_cases hin : q < m.1 * m.2
    · exact ⟨m, List.mem_cons_self, hpq, hin⟩
    · have hsize : size (m :: ms) * m.2 = size ms * (m.1 * m.2) := by
        rw [size_cons]
        ring
      obtain ⟨x, hx, hspan⟩ := ih hch (not_lt.mp hin) (hsize ▸ hq)
      exact ⟨x, List.mem_cons_of_mem m hx, hspan⟩

/-! ### Boundaries between modes -/

/-- `q` is the number of cells of the first few modes. -/
def Boundary (q : ℤ) (ms : List (ℤ × ℤ)) : Prop := ∃ xs ys, ms = xs ++ ys ∧ size xs = q

/-- The beginning is a boundary. -/
theorem boundary_one (ms : List (ℤ × ℤ)) : Boundary 1 ms := ⟨[], ms, rfl, rfl⟩

/-- Boundaries are positive. -/
theorem Boundary.pos (hpos : Pos ms) {q : ℤ} (h : Boundary q ms) : 0 < q := by
  obtain ⟨xs, ys, rfl, rfl⟩ := h
  exact size_pos (pos_append.mp hpos).1

/-- Boundaries divide one another. -/
theorem Boundary.dvd (hpos : Pos ms) {q q' : ℤ} (h : Boundary q ms) (h' : Boundary q' ms)
    (hle : q ≤ q') : q ∣ q' := by
  have hq' := h'.pos hpos
  obtain ⟨xs, ys, rfl, rfl⟩ := h
  obtain ⟨xs', ys', heq, rfl⟩ := h'
  have hxs : xs <+: xs ++ ys := List.prefix_append xs ys
  have hxs' : xs' <+: xs ++ ys := ⟨ys', heq.symm⟩
  rcases List.prefix_or_prefix_of_prefix hxs hxs' with ⟨zs, rfl⟩ | ⟨zs, rfl⟩
  · exact ⟨size zs, size_append xs zs⟩
  · -- the longer list has no more cells, so it has as many
    have hdvd : size xs' ∣ size (xs' ++ zs) := ⟨size zs, size_append xs' zs⟩
    have hge := Int.le_of_dvd (size_pos (pos_append.mp hpos).1) hdvd
    rw [le_antisymm hle hge]

/-- A mode starts at a boundary and stops at one, and the walk moves by its stride where it
starts. -/
theorem exists_of_mem_places {e : ℤ × ℤ × ℤ} (he : e ∈ places p ms) :
    ∃ xs ys, ms = xs ++ (e.2.1, e.1) :: ys ∧ e.2.2 = p * size xs := by
  induction ms generalizing p with
  | nil => exact absurd he List.not_mem_nil
  | cons m ms ih =>
    rcases List.mem_cons.mp he with rfl | he
    · exact ⟨[], ms, rfl, (mul_one p).symm⟩
    · obtain ⟨xs, ys, rfl, hplace⟩ := ih he
      exact ⟨m :: xs, ys, rfl, by rw [hplace, size_cons, mul_assoc]⟩

/-- The place of a mode is a boundary, and so is its end. -/
theorem boundary_of_mem_places {e : ℤ × ℤ × ℤ} (he : e ∈ places 1 ms) :
    Boundary e.2.2 ms ∧ Boundary (e.2.1 * e.2.2) ms := by
  obtain ⟨xs, ys, rfl, hplace⟩ := exists_of_mem_places he
  rw [one_mul] at hplace
  refine ⟨⟨xs, _, rfl, hplace.symm⟩, xs ++ [(e.2.1, e.1)], ys, by simp, ?_⟩
  rw [size_append, size_cons, size_nil, mul_one, hplace, mul_comm]

/-- The cell at a place is reached by the mode's stride. -/
theorem eval_place (hms : ∀ m ∈ ms, 1 < m.1) {e : ℤ × ℤ × ℤ} (he : e ∈ places 1 ms) :
    e.2.2 < size ms ∧ eval ms e.2.2 = e.1 := by
  obtain ⟨xs, ys, rfl, hplace⟩ := exists_of_mem_places he
  rw [one_mul] at hplace
  have hpos : Pos (xs ++ (e.2.1, e.1) :: ys) := fun m hm => by
    have := hms m hm
    omega
  obtain ⟨hxs, hrest⟩ := pos_append.mp hpos
  have hext : 1 < e.2.1 := hms (e.2.1, e.1) (List.mem_append_right _ List.mem_cons_self)
  have hP := size_pos hxs
  have hys := size_pos (pos_cons.mp hrest).2
  rw [hplace]
  constructor
  · rw [size_append, size_cons]
    exact lt_mul_of_one_lt_right hP (by nlinarith)
  · have hpair := eval_append_pair hxs ((e.2.1, e.1) :: ys) (i := 0) (j := 1) le_rfl hP
    rw [mul_one, zero_add] at hpair
    rw [hpair, eval_zero, eval_cons, Int.emod_eq_of_lt zero_le_one hext,
      Int.ediv_eq_zero_of_lt zero_le_one hext, eval_zero]
    ring

/-- No mode starts inside another one. -/
theorem places_disjoint (hp : 0 < p) (hms : ∀ m ∈ ms, 1 < m.1) {e e' : ℤ × ℤ × ℤ}
    (he : e ∈ places p ms) (he' : e' ∈ places p ms) (hle : e.2.2 ≤ e'.2.2)
    (hlt : e'.2.2 < e.2.1 * e.2.2) : e' = e := by
  induction ms generalizing p with
  | nil => exact absurd he List.not_mem_nil
  | cons m ms ih =>
    obtain ⟨hm, hms⟩ := List.forall_mem_cons.mp hms
    have hpm : 0 < p * m.1 := mul_pos hp (by omega)
    have htail := le_place hpm hms
    rcases List.mem_cons.mp he with rfl | he
    -- equal places are one mode, and different ones are a whole extent apart
    · rcases List.mem_cons.mp he' with rfl | he'
      · rfl
      · have hafter := htail e' he'
        have hin : e'.2.2 < m.1 * p := hlt
        exact absurd hafter (by rw [mul_comm p]; exact not_le.mpr hin)
    · rcases List.mem_cons.mp he' with rfl | he'
      · have hafter := htail e he
        have hin : e.2.2 ≤ p := hle
        nlinarith
      · exact ih hpm hms he he'

end CudaOxide.Lib.Strided
