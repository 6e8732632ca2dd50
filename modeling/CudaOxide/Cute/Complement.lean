import CudaOxide.Cute.Composition
import CudaOxide.Lib.Filling

namespace CudaOxide.Cute

open Lib Strided

/-!
# Complement

`complement l M` builds the modes that fill the offsets `l` skips (`algebra/mapping.rs`).

* `gaps` — the modes it pushes, over `ℤ`; `complement_implements` connects the two.
* `gaps_chain` — gaps and modes interleave to a chain from stride one, which is why the joined
  layout fills an interval.
* `complement_fills` — the joined layout is a bijection onto an interval that contains
  `[0, M)`, and no other complement reaches `M` with a shorter one.
* `complement_wraps` — a build without overflow checks can return a layout that does not.
* `complement_implements_of_fills` — the complement of a layout that has no gaps.
-/

/-! ### The machine function -/

/-- The error where a stride is no multiple of the one before it. -/
def strideNotDivisible (currStride prevStride : ℤ) : AlgebraError :=
  ⟨s!"complement: stride {currStride} not divisible by {prevStride}"⟩

/-- The loop of `complement` over the sorted modes and its last step.  The extents and strides
that the source pushes onto two vectors are paired here. -/
def complementFrom [Build] (cosizeHi prevStride : ℤ) :
    List (ℤ × ℤ) → Run AlgebraError (List (ℤ × ℤ))
  | [] => Run.panic .overflow
  | [last] => do
    let r ← I64.rem last.2 prevStride
    if r ≠ 0 then Run.fail (strideNotDivisible last.2 prevStride)
    else do
      let gap ← I64.div last.2 prevStride
      let newStride ← I64.mul last.2 last.1
      let restShape ← ceilDiv cosizeHi newStride
      .ok [(gap, prevStride), (restShape, newStride)]
  | curr :: ms => do
    let r ← I64.rem curr.2 prevStride
    if r ≠ 0 then Run.fail (strideNotDivisible curr.2 prevStride)
    else do
      let gap ← I64.div curr.2 prevStride
      let next ← I64.mul curr.1 curr.2
      let rest ← complementFrom cosizeHi next ms
      .ok ((gap, prevStride) :: rest)

/-- A broadcast or one-cell mode list. -/
def contributesNothing : List (ℤ × ℤ) → Bool
  | [m] => m.2 = 0 ∨ m.1 = 1
  | _ => false

/-- `sort_by_key(|&(_, d)| d)`. -/
def sortByStride (ms : List (ℤ × ℤ)) : List (ℤ × ℤ) :=
  ms.insertionSort fun m m' => m.2 ≤ m'.2

/-- The extra coordinate that fills the offsets `l` skips below `cosizeHi`. -/
def complement [Build] (l : Layout) (cosizeHi : ℤ) : Run AlgebraError Layout := do
  let f ← filter l
  if contributesNothing f.flatModes then do
    let all ← Layout.colMajor (.leaf cosizeHi)
    coalesce all
  else do
    let flat ← complementFrom cosizeHi 1 (sortByStride f.flatModes)
    coalesce (layoutFromFlat flat)

/-! ### The gaps over the integers -/

/-- The gap before each mode, counted in the span `p` of the modes before it, and the number of
repetitions of the last span that reach `hi`. -/
def gaps (hi p : ℤ) : List (ℤ × ℤ) → Except AlgebraError (List (ℤ × ℤ))
  | [] => .ok [(upDiv hi p, p)]
  | m :: ms =>
    if m.2 % p ≠ 0 then .error (strideNotDivisible m.2 p)
    else (fun gs => (m.2 / p, p) :: gs) <$> gaps hi (m.1 * m.2) ms

variable {hi p t : ℤ} {m : ℤ × ℤ} {ms gs : List (ℤ × ℤ)}

/-- The span of the last mode: where the next repetition starts. -/
def topSpan (p : ℤ) : List (ℤ × ℤ) → ℤ
  | [] => p
  | m :: ms => topSpan (m.1 * m.2) ms

/-- The span of the last mode is the product of its extent and stride. -/
theorem topSpan_eq (p : ℤ) (ms : List (ℤ × ℤ)) :
    ms = [] ∧ topSpan p ms = p ∨ ∃ m ∈ ms, topSpan p ms = m.1 * m.2 := by
  induction ms generalizing p with
  | nil => exact Or.inl ⟨rfl, rfl⟩
  | cons m ms ih =>
    right
    rcases ih (m.1 * m.2) with ⟨_, h⟩ | ⟨x, hx, h⟩
    · exact ⟨m, List.mem_cons_self, h⟩
    · exact ⟨x, List.mem_cons_of_mem m hx, h⟩

/-- The loop computes the gaps, or stops where they have none. -/
theorem complementFrom_implements (hp : 0 < p) (hhi : 0 ≤ hi) (hms : ms ≠ [])
    (hpos : ∀ m ∈ ms, 0 < m.1 ∧ 0 < m.2) :
    (complementFrom hi p ms).Implements (gaps hi p ms) := by
  induction ms generalizing p with
  | nil => exact absurd rfl hms
  | cons m ms ih =>
    obtain ⟨⟨hm, hd⟩, hpos⟩ := List.forall_mem_cons.mp hpos
    have hrem : (I64.rem m.2 p : Run AlgebraError ℤ).Implements (.ok (m.2 % p)) := by
      rw [← Int.tmod_eq_emod_of_nonneg hd.le]
      exact I64.rem_implements _ hp.ne'
    have hdiv : (I64.div m.2 p : Run AlgebraError ℤ).Implements (.ok (m.2 / p)) := by
      rw [← Int.tdiv_eq_ediv_of_nonneg hd.le]
      exact I64.div_implements _ hp.ne'
    have hspan : 0 < m.1 * m.2 := mul_pos hm hd
    cases ms with
    | nil =>
      refine hrem.bind_ok (.ite (fun _ => .fail _) fun _ => hdiv.bind_ok ?_)
      refine (I64.mul_implements _ _).bind_ok ?_
      rw [mul_comm m.2]
      exact (ceilDiv_implements hhi hspan).bind_ok (.ok _)
    | cons m' ms =>
      refine hrem.bind_ok (.ite (fun _ => .fail _) fun _ => hdiv.bind_ok ?_)
      refine (I64.mul_implements _ _).bind_ok ?_
      exact (ih hspan (by simp) hpos).map fun gs => (m.2 / p, p) :: gs

/-- What a successful step of `gaps` did. -/
theorem gaps_cons_ok (h : gaps hi p (m :: ms) = .ok gs) :
    p ∣ m.2 ∧ ∃ rest, gaps hi (m.1 * m.2) ms = .ok rest ∧ gs = (m.2 / p, p) :: rest := by
  unfold gaps at h
  split at h
  · cases h
  · rename_i hdvd
    refine ⟨Int.dvd_of_emod_eq_zero (not_not.mp hdvd), ?_⟩
    cases hrest : gaps hi (m.1 * m.2) ms with
    | error e => rw [hrest] at h; cases h
    | ok rest =>
      rw [hrest] at h
      cases h
      exact ⟨rest, rfl, rfl⟩

/-- There is always a last gap. -/
theorem gaps_ne_nil (h : gaps hi p ms = .ok gs) : gs ≠ [] := by
  cases ms with
  | nil => cases h; exact List.cons_ne_nil _ _
  | cons m ms =>
    obtain ⟨_, rest, _, rfl⟩ := gaps_cons_ok h
    exact List.cons_ne_nil _ _

/-- **Gaps and modes interleave to a chain.** -/
theorem gaps_chain (hp : 0 < p) (hhi : 0 < hi) (hpos : ∀ m ∈ ms, 0 < m.1 ∧ 0 < m.2)
    (h : gaps hi p ms = .ok gs) :
    Pos gs ∧ ∃ ws, ws.Perm (ms ++ gs) ∧ Chain p ws := by
  induction ms generalizing p gs with
  | nil =>
    cases h
    exact ⟨by simp [upDiv_pos hhi hp], _, List.Perm.refl _, rfl, trivial⟩
  | cons m ms ih =>
    obtain ⟨⟨hm, hd⟩, hpos⟩ := List.forall_mem_cons.mp hpos
    obtain ⟨hdvd, rest, hrest, rfl⟩ := gaps_cons_ok h
    obtain ⟨hposg, ws, hperm, hch⟩ := ih (mul_pos hm hd) hpos hrest
    refine ⟨pos_cons.mpr ⟨Int.ediv_pos_of_pos_of_dvd hd hp.le hdvd, hposg⟩,
      (m.2 / p, p) :: m :: ws, ?_, ?_⟩
    · have h1 : (m :: ws).Perm (m :: ms ++ rest) := hperm.cons m
      exact (h1.cons _).trans List.perm_middle.symm
    · show p = p ∧ m.2 = m.2 / p * p ∧ Chain (m.1 * (m.2 / p * p)) ws
      rw [Int.ediv_mul_cancel hdvd]
      exact ⟨rfl, rfl, hch⟩

/-- The joined cells are the repetitions of the last span that reach `hi`. -/
theorem gaps_size (h : gaps hi p ms = .ok gs) :
    size ms * size gs * p = upDiv hi (topSpan p ms) * topSpan p ms := by
  induction ms generalizing p gs with
  | nil =>
    cases h
    simp [topSpan]
  | cons m ms ih =>
    obtain ⟨hdvd, rest, hrest, rfl⟩ := gaps_cons_ok h
    have hgap := Int.ediv_mul_cancel hdvd
    calc size (m :: ms) * size ((m.2 / p, p) :: rest) * p
        = size ms * size rest * (m.1 * (m.2 / p * p)) := by simp only [size_cons]; ring
      _ = upDiv hi (topSpan p (m :: ms)) * topSpan p (m :: ms) := by
          rw [hgap, ih hrest, topSpan]

/-! ### The modes that are complemented -/

/-- The modes of `l` that `complement` sorts: merged, without broadcast modes. -/
def sortedModes (l : Layout) : List (ℤ × ℤ) :=
  sortByStride (merged (nonBroadcast l.flatModes))

/-- Every mode with more than one cell moves. -/
def Moving (ms : List (ℤ × ℤ)) : Prop := ∀ m ∈ ms, 1 < m.1 → 0 < m.2

instance (ms : List (ℤ × ℤ)) : Decidable (Moving ms) :=
  inferInstanceAs (Decidable (∀ m ∈ ms, 1 < m.1 → 0 < m.2))

/-- A layout that moves forward in every mode goes forward. -/
theorem Moving.forward (h : Moving ms) : Forward ms := fun m hm hext => (h m hm hext).le

variable {l c : Layout}

/-- Sorting reorders the modes. -/
theorem perm_sortByStride (ms : List (ℤ × ℤ)) : (sortByStride ms).Perm ms :=
  List.perm_insertionSort _ ms

/-- The strides ascend after sorting. -/
theorem pairwise_sortByStride (ms : List (ℤ × ℤ)) :
    (sortByStride ms).Pairwise fun m m' => m.2 ≤ m'.2 := by
  have : Std.Total fun m m' : ℤ × ℤ => m.2 ≤ m'.2 := ⟨fun m m' => le_total m.2 m'.2⟩
  have : IsTrans (ℤ × ℤ) fun m m' => m.2 ≤ m'.2 := ⟨fun _ _ _ => le_trans⟩
  exact List.pairwise_insertionSort _ ms

/-- Broadcast modes are dropped one by one. -/
theorem nonBroadcast_cons (m : ℤ × ℤ) (ms : List (ℤ × ℤ)) :
    nonBroadcast (m :: ms) = (if m.2 = 0 then (1, 0) else m) :: nonBroadcast ms := rfl

/-- In a layout whose larger modes all move, dropping the broadcast modes changes nothing. -/
theorem nonBroadcast_sameWalk (hpos : Pos ms) (hmove : Moving ms) :
    Pos (nonBroadcast ms) ∧ SameWalk (nonBroadcast ms) ms := by
  induction ms with
  | nil => exact ⟨pos_nil, .refl _⟩
  | cons m ms ih =>
    obtain ⟨hm, hpos⟩ := pos_cons.mp hpos
    obtain ⟨hd, hmove⟩ := List.forall_mem_cons.mp hmove
    obtain ⟨hposn, hsize, heval⟩ := ih hpos hmove
    rw [nonBroadcast_cons]
    split
    · rename_i hzero
      have hone : m.1 = 1 := by
        by_contra hne
        have := hd (by omega)
        omega
      refine ⟨pos_cons.mpr ⟨one_pos, hposn⟩, ?_, fun c => ?_⟩
      · rw [size_cons, size_cons, hone]
        exact congrArg _ hsize
      · rw [eval_cons, eval_cons, hone, hzero]
        simpa using heval c
    · refine ⟨pos_cons.mpr ⟨hm, hposn⟩, ?_, fun c => ?_⟩
      · exact congrArg (m.1 * ·) hsize
      · exact congrArg (_ + ·) (heval _)

/-- What remains of a forward walk has positive strides. -/
theorem merged_nonBroadcast_pos (hpos : Pos ms) (hfwd : Forward ms) :
    ∀ m ∈ merged (nonBroadcast ms), 1 < m.1 ∧ 0 < m.2 := by
  refine merged_forall (P := fun m => 1 < m.1 ∧ 0 < m.2) ?_ ?_
  · rintro s₀ d₀ s ⟨hs₀, hd₀⟩ ⟨hs, _⟩
    exact ⟨by show 1 < s₀ * s; nlinarith, hd₀⟩
  · intro m hm hne
    obtain ⟨x, hx, rfl⟩ := List.mem_map.mp hm
    have h1 := hpos x hx
    have h2 := hfwd x hx
    by_cases hzero : x.2 = 0
    · rw [if_pos hzero] at hne
      exact absurd rfl hne
    · rw [if_neg hzero] at hne ⊢
      exact ⟨by omega, by omega⟩

/-- So have the sorted modes. -/
theorem sortedModes_pos (hl : l.Valid) (hfwd : Forward l.flatModes) :
    ∀ m ∈ sortedModes l, 1 < m.1 ∧ 0 < m.2 := fun m hm =>
  merged_nonBroadcast_pos hl.pos hfwd m ((perm_sortByStride _).mem_iff.mp hm)

/-- The modes `l` is complemented by, before they are coalesced. -/
theorem complement_implements (hl : l.Valid) (hfwd : Forward l.flatModes) (hhi : 0 < hi) :
    (complement l hi).Implements
      ((fun gs => layoutFromFlat (merged gs)) <$> gaps hi 1 (sortedModes l)) := by
  have hmodes := merged_nonBroadcast_pos hl.pos hfwd
  refine (filter_implements l).bind_ok ?_
  cases hms : merged (nonBroadcast l.flatModes) with
  | nil =>
    -- nothing varies: one gap spans the whole interval
    rw [show sortedModes l = [] by rw [sortedModes, hms]; rfl]
    obtain ⟨stride, hrun, _, hstride⟩ := colMajor_implements (ε := AlgebraError) (.leaf hi)
    have hflat : (Layout.mk (.leaf hi) stride).flatModes = [(hi, 1)] := by
      simp [Layout.flatModes, hstride, prefixProducts]
    refine hrun.bind_ok ?_
    have hcol := coalesce_implements (ε := AlgebraError) (Layout.mk (.leaf hi) stride)
    rw [hflat] at hcol
    simpa [gaps] using hcol
  | cons m ms =>
    rw [hms] at hmodes
    have htriv : contributesNothing (layoutFromFlat (m :: ms)).flatModes = false := by
      rw [flatModes_layoutFromFlat_cons]
      cases ms with
      | nil =>
        obtain ⟨h1, h2⟩ := hmodes m List.mem_cons_self
        simp only [contributesNothing, decide_eq_false_iff_not]
        omega
      | cons m' ms => rfl
    rw [htriv, flatModes_layoutFromFlat_cons]
    have hsorted : sortedModes l = sortByStride (m :: ms) := by rw [sortedModes, hms]
    have hne : sortByStride (m :: ms) ≠ [] := fun h => by
      have := (perm_sortByStride (m :: ms)).length_eq
      rw [h] at this
      exact absurd this (by simp)
    have hrun : (complementFrom hi 1 (sortByStride (m :: ms))).Implements _ :=
      complementFrom_implements one_pos hhi.le hne fun x hx => by
        have := hmodes x ((perm_sortByStride _).mem_iff.mp hx)
        omega
    rw [hsorted]
    cases hgs : gaps hi 1 (sortByStride (m :: ms)) with
    | error e =>
      rw [hgs] at hrun
      exact hrun.bind (g := fun gs => .ok (layoutFromFlat (merged gs))) (by simp)
    | ok gs =>
      rw [hgs] at hrun
      refine hrun.bind_ok ?_
      exact coalesce_layoutFromFlat (gaps_ne_nil hgs)

/-! ### The joined layout -/

/-- A complement consists of the merged gaps. -/
theorem exists_gaps_of_complement (hl : l.Valid) (hfwd : Forward l.flatModes) (hhi : 0 < hi)
    (h : complement l hi = .ok c) :
    ∃ gs, gaps hi 1 (sortedModes l) = .ok gs ∧ c = layoutFromFlat (merged gs) := by
  have himpl := (complement_implements hl hfwd hhi).ok_of_eq h
  cases hgs : gaps hi 1 (sortedModes l) with
  | error e => rw [hgs] at himpl; cases himpl
  | ok gs =>
    rw [hgs] at himpl
    cases himpl
    exact ⟨gs, rfl, rfl⟩

/-- A complement has positive extents, and its walk is that of the gaps. -/
theorem complement_ok (hl : l.Valid) (hfwd : Forward l.flatModes) (hhi : 0 < hi)
    (h : complement l hi = .ok c) :
    ∃ gs, gaps hi 1 (sortedModes l) = .ok gs ∧ Pos gs ∧ c.Valid ∧ SameWalk c.flatModes gs := by
  obtain ⟨gs, hgs, rfl⟩ := exists_gaps_of_complement hl hfwd hhi h
  have hpos : Pos gs := (gaps_chain one_pos hhi (fun m hm => by
    have := sortedModes_pos hl hfwd m hm
    omega) hgs).1
  refine ⟨gs, hgs, hpos, valid_layoutFromFlat (merged_pos hpos), ?_, fun x => ?_⟩
  · rw [← Layout.cells, cells_layoutFromFlat, size_merged hpos]
  · rw [← Layout.offset, offset_layoutFromFlat, eval_merged hpos]

/-- `(l, c)` reaches every offset below the product of their sizes exactly once. -/
def Complements (l c : Layout) : Prop :=
  Set.BijOn (Layout.fromModes [l, c]).offset (Set.Ico 0 (Layout.fromModes [l, c]).cells)
    (Set.Ico 0 (l.cells * c.cells))

/-- A complement is a layout that fills the interval together with `l`. -/
theorem complements_iff (hl : l.Valid) (hc : c.Valid) :
    Complements l c ↔ Fills (l.flatModes ++ c.flatModes) (l.cells * c.cells) := by
  unfold Complements Layout.offset
  rw [Layout.cells, flatModes_pair hl.congruent hc.congruent]
  exact Iff.rfl

/-- Sorting and dropping broadcast modes do not change what a layout is complemented to. -/
theorem fills_sortedModes_append (hl : l.Valid) (hmove : Moving l.flatModes)
    {xs ys : List (ℤ × ℤ)} (hys : Pos ys) (hxy : SameWalk xs ys) (L : ℤ) :
    Fills (l.flatModes ++ xs) L ↔ Fills (sortedModes l ++ ys) L := by
  obtain ⟨hposn, hsame⟩ := nonBroadcast_sameWalk hl.pos hmove
  have hmerged : Pos (merged (nonBroadcast l.flatModes)) := merged_pos hposn
  have hwalk : SameWalk (merged (nonBroadcast l.flatModes)) l.flatModes :=
    (SameWalk.merged hposn).trans hsame
  rw [(hwalk.symm.append hl.pos hmerged hxy).fills_iff]
  exact fills_perm (pos_append.mpr ⟨hmerged, hys⟩) ((perm_sortByStride _).symm.append_right ys)

/-- Sorting and dropping broadcast modes keeps the number of cells of a layout that moves. -/
theorem size_sortedModes (hl : l.Valid) (hmove : Moving l.flatModes) :
    size (sortedModes l) = l.cells := by
  obtain ⟨hposn, hsame⟩ := nonBroadcast_sameWalk hl.pos hmove
  rw [sortedModes, size_perm (perm_sortByStride _), size_merged hposn, hsame.size_eq]
  rfl

/-- The last span is positive. -/
theorem topSpan_pos (hp : 0 < p) (hpos : ∀ m ∈ ms, 0 < m.1 ∧ 0 < m.2) : 0 < topSpan p ms := by
  rcases topSpan_eq p ms with ⟨_, h⟩ | ⟨m, hm, h⟩
  · rwa [h]
  · rw [h]
    exact mul_pos (hpos m hm).1 (hpos m hm).2

/-- Every complement consists of whole repetitions of the last span. -/
theorem topSpan_dvd (hl : l.Valid) (hmove : Moving l.flatModes) (hc : c.Valid)
    (h : Complements l c) : topSpan 1 (sortedModes l) ∣ l.cells * c.cells := by
  have hmodes := sortedModes_pos hl hmove.forward
  rcases topSpan_eq 1 (sortedModes l) with ⟨_, htop⟩ | ⟨m, hm, htop⟩
  · exact ⟨l.cells * c.cells, by rw [htop, one_mul]⟩
  · have hpos : Pos (sortedModes l ++ c.flatModes) :=
      pos_append.mpr ⟨fun m hm => by have := hmodes m hm; omega, hc.pos⟩
    have hfront := List.perm_cons_erase (List.mem_append_left c.flatModes hm)
    rw [complements_iff hl hc, fills_sortedModes_append hl hmove hc.pos (.refl _),
      fills_perm hpos hfront] at h
    rw [htop]
    exact dvd_of_filling (fun x hx => hpos x (hfront.mem_iff.mpr hx)) (hmodes m hm).1
      (hmodes m hm).2 (mul_nonneg hl.cells_pos.le hc.cells_pos.le) h

/-- A multiple of `t` that reaches `M` is at least the `M / t`, rounded up, multiples of `t`. -/
theorem upDiv_mul_le_of_dvd {M L : ℤ} (ht : 0 < t) (hdvd : t ∣ L) (hML : M ≤ L) :
    upDiv M t * t ≤ L := by
  obtain ⟨k, rfl⟩ := hdvd
  have hlt := upDiv_mul_lt (a := M) ht
  rw [mul_comm t k] at hML ⊢
  refine mul_le_mul_of_nonneg_right ?_ ht.le
  by_contra hk
  have : (k + 1) * t ≤ upDiv M t * t := mul_le_mul_of_nonneg_right (by omega) ht.le
  linarith [add_mul k 1 t]

/-- A complement fills the gaps of a layout whose larger modes all move, and the joined cells are
whole repetitions of the last span. -/
theorem complements_of_complement {M : ℤ} (hl : l.Valid) (hmove : Moving l.flatModes)
    (hM : 1 ≤ M) (h : complement l M = .ok c) :
    c.Valid ∧ Complements l c ∧
      l.cells * c.cells = upDiv M (topSpan 1 (sortedModes l)) * topSpan 1 (sortedModes l) ∧
      M ≤ l.cells * c.cells := by
  obtain ⟨gs, hgs, hposg, hc, hwalk⟩ := complement_ok hl hmove.forward (by omega) h
  have hmodes : ∀ m ∈ sortedModes l, 0 < m.1 ∧ 0 < m.2 := fun m hm => by
    have := sortedModes_pos hl hmove.forward m hm
    omega
  obtain ⟨_, ws, hperm, hch⟩ := gaps_chain one_pos (by omega) hmodes hgs
  have hposw : Pos ws := fun m hm => by
    rcases List.mem_append.mp (hperm.mem_iff.mp hm) with h | h
    · exact (hmodes m h).1
    · exact hposg m h
  have hcells : c.cells = size gs := hwalk.size_eq
  have hsize : size ws = l.cells * c.cells := by
    rw [size_perm hperm, size_append, size_sortedModes hl hmove, hcells]
  have hspan : l.cells * c.cells = upDiv M (topSpan 1 (sortedModes l)) *
      topSpan 1 (sortedModes l) := by
    rw [← gaps_size hgs, mul_one, size_sortedModes hl hmove, hcells]
  refine ⟨hc, ?_, hspan, ?_⟩
  · rw [complements_iff hl hc, fills_sortedModes_append hl hmove hposg hwalk,
      ← fills_perm hposw hperm, ← hsize]
    exact hch.fills hposw
  · rw [hspan]
    exact le_upDiv_mul (topSpan_pos one_pos hmodes)

/-- A layout that has a complement sends no two coordinates to one offset. -/
theorem Complements.injOn (hl : l.Valid) (hc : c.Valid) (h : Complements l c) :
    Set.InjOn l.offset (Set.Ico 0 l.cells) := by
  rw [complements_iff hl hc] at h
  exact injOn_of_append hl.pos hc.pos (size_append l.flatModes _ ▸ h.injOn)

/-- **What a complement is.**  Joined with the layout it is a bijection onto an interval that
contains `[0, M)`; no other complement does so with a shorter interval; and the layout itself
sends no two coordinates to one offset. -/
theorem complement_fills {M : ℤ} (hl : l.Valid) (hnn : Nonneg l.flatModes)
    (hmove : Moving l.flatModes) (hM : 1 ≤ M) (h : complement l M = .ok c) :
    Complements l c ∧ M ≤ l.cells * c.cells ∧
      (∀ c' : Layout, c'.Valid → Complements l c' → M ≤ l.cells * c'.cells →
        l.cells * c.cells ≤ l.cells * c'.cells) ∧
      Set.InjOn l.offset (Set.Ico 0 l.cells) := by
  obtain ⟨hc, hcomp, hspan, hcover⟩ := complements_of_complement hl hmove hM h
  refine ⟨hcomp, hcover, fun c' hc' hcomp' hM' => ?_, hcomp.injOn hl hc⟩
  have htop : 0 < topSpan 1 (sortedModes l) := topSpan_pos one_pos fun m hm => by
    have := sortedModes_pos hl (forward_of_nonneg hnn) m hm
    omega
  rw [hspan]
  exact upDiv_mul_le_of_dvd htop (topSpan_dvd hl hmove hc' hcomp') hM'

/-- The complement of `4:2` up to offset `8` is `2:1`. -/
theorem complement_fills_evens : Complements ⟨.leaf 4, .leaf 2⟩ ⟨.leaf 2, .leaf 1⟩ :=
  (complement_fills (l := ⟨.leaf 4, .leaf 2⟩) (M := 8) ⟨rfl, by decide⟩ (by decide) (by decide)
    (by decide) (by decide)).1

/-- A release build wraps where the last step rounds `M` up to whole repetitions.  The complement
of `4:2` up to `i64::MAX` gets a negative extent, and the joined cells do not reach offset `0`. -/
theorem complement_wraps :
    (Layout.mk (.leaf 4) (.leaf 2)).Valid ∧
      @complement .wrapping ⟨.leaf 4, .leaf 2⟩ 9223372036854775807 =
        .ok ⟨.tuple [.leaf 2, .leaf (-1152921504606846975)], .tuple [.leaf 1, .leaf 8]⟩ ∧
      ¬Set.Ico 0 9223372036854775807 ⊆ Set.Ico 0 ((Layout.mk (.leaf 4) (.leaf 2)).cells *
        (Layout.mk (.tuple [.leaf 2, .leaf (-1152921504606846975)])
          (.tuple [.leaf 1, .leaf 8])).cells) := by
  refine ⟨⟨rfl, by decide⟩, by decide, fun hsub => ?_⟩
  have hzero := hsub (show (0 : ℤ) ∈ Set.Ico 0 9223372036854775807 by simp)
  exact absurd hzero.2 (by decide)

/-! ### The complement of a layout without gaps -/

/-- A chain has no gaps: only the repetitions of its span are left. -/
theorem gaps_of_chain (hp : 0 < p) (hpos : Pos ms) (hch : Chain p ms) :
    ∃ us : List (ℤ × ℤ), (∀ u ∈ us, u.1 = 1) ∧
      gaps hi p ms = .ok (us ++ [(upDiv hi (size ms * p), size ms * p)]) := by
  induction ms generalizing p with
  | nil => exact ⟨[], List.forall_mem_nil _, by rw [gaps, size_nil, one_mul, List.nil_append]⟩
  | cons m ms ih =>
    obtain ⟨hm, hpos⟩ := pos_cons.mp hpos
    obtain ⟨rfl, hch⟩ := hch
    obtain ⟨us, hus, hgaps⟩ := ih (mul_pos hm hp) hpos hch
    refine ⟨(1, m.2) :: us, List.forall_mem_cons.mpr ⟨rfl, hus⟩, ?_⟩
    have hsize : size ms * (m.1 * m.2) = size (m :: ms) * m.2 := by rw [size_cons]; ring
    rw [gaps, Int.emod_self, if_neg (by simp), hgaps, Int.ediv_self hp.ne', hsize]
    rfl

/-- Every mode of a bijection onto its cells ends within a divisor of its size. -/
theorem dvd_cells_of_fills (hl : l.Valid) (hf : Fills l.flatModes l.cells) {m : ℤ × ℤ}
    (hm : m ∈ l.flatModes) (hext : m.1 ≠ 1) : m.1 * m.2 ∣ l.cells := by
  have hpos := hl.pos m hm
  have hperm := List.perm_cons_erase hm
  refine dvd_of_filling (fun x hx => hl.pos x (hperm.mem_iff.mpr hx)) (by omega)
    (hf.moving hl.pos m hm (by omega)) hl.cells_pos.le ?_
  exact (fills_perm hl.pos hperm).mp hf

/-- Sorted by stride, its modes are a chain. -/
theorem chain_sortedModes (hl : l.Valid) (hf : Fills l.flatModes l.cells) :
    Chain 1 (sortedModes l) := by
  have hmove : Moving l.flatModes := hf.moving hl.pos
  have hmodes := sortedModes_pos hl hmove.forward
  have hsorted := fills_sortedModes_append hl hmove pos_nil (.refl []) l.cells
  rw [List.append_nil, List.append_nil] at hsorted
  exact chain_of_filling (fun m hm => (hmodes m hm).1) (fun m hm => (hmodes m hm).2.le)
    (pairwise_sortByStride _) (hsorted.mp hf)

/-- The complement of a bijection onto `[0, T)`, up to `T * V`, is the single mode `V:T`. -/
theorem complement_implements_of_fills {T V : ℤ} (hl : l.Valid) (hT : l.cells = T) (hV : 0 < V)
    (hf : Fills l.flatModes T) :
    (complement l (T * V)).Implements (.ok (layoutFromFlat (merged [(V, T)]))) := by
  have hT0 : 0 < T := hT ▸ hl.cells_pos
  have hmove : Moving l.flatModes := hf.moving hl.pos
  have hmodes := sortedModes_pos hl hmove.forward
  have hpos : Pos (sortedModes l) := fun m hm => by
    have := hmodes m hm
    omega
  obtain ⟨us, hus, hgaps⟩ : ∃ us, _ ∧ gaps (T * V) 1 (sortedModes l) = _ :=
    gaps_of_chain one_pos hpos (chain_sortedModes hl (hT ▸ hf))
  have himpl := complement_implements hl hmove.forward (mul_pos hT0 hV)
  rw [hgaps, size_sortedModes hl hmove, mul_one, hT, upDiv_of_dvd hT0 (Dvd.intro _ rfl),
    Int.mul_ediv_cancel_left _ hT0.ne'] at himpl
  rw [← merged_append_units hus]
  exact himpl

end CudaOxide.Cute
