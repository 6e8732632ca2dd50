import CudaOxide.Cute.Layout

namespace CudaOxide.Cute

open Lib Strided

/-!
# Coalescing

`coalesce` rewrites a layout with fewer modes and the same walk; `filter` first drops the
broadcast modes.  Both are `algebra/mapping.rs`.

* `coalesce_implements` — the loop computes `Strided.merged` of the flat modes, so the result has
  the same cells and the same offsets (`cells_merged`, `offset_merged`).
* `MergesFit` — the layouts on which no operation overflows (`coalesce_returns_iff`).
* `coalesce_spec` — the same walk in fewer modes: none of one cell, no two that could be merged.
* `filter_implements` — the same for the modes with a nonzero stride.
-/

variable {ε : Type} {l : Layout}

/-- The loop of `coalesce` over the remaining modes; `out` is kept last mode first. -/
def coalesceFrom [Build] (out : List (ℤ × ℤ)) : List (ℤ × ℤ) → Run ε (List (ℤ × ℤ))
  | [] => .ok out.reverse
  | (s, d) :: ms =>
    if s = 1 then coalesceFrom out ms
    else match out with
      | [] => coalesceFrom [(s, d)] ms
      | last :: rest => do
        let reach ← I64.mul last.1 last.2
        if d = reach then do
          let s' ← I64.mul last.1 s
          coalesceFrom ((s', last.2) :: rest) ms
        else coalesceFrom ((s, d) :: last :: rest) ms

/-- Merge adjacent modes that continue each other. -/
def coalesce [Build] (l : Layout) : Run ε Layout := do
  let out ← coalesceFrom [] l.flatModes
  .ok (layoutFromFlat out)

/-- Replace broadcast modes by one-cell modes and coalesce. -/
def filter [Build] (l : Layout) : Run ε Layout :=
  coalesce (layoutFromFlat (l.flatModes.map fun m => if m.2 = 0 then (1, 0) else m))

/-- The loop merges modes onto the last one, unless a product overflows. -/
theorem coalesceFrom_implements (out ms : List (ℤ × ℤ)) :
    (coalesceFrom out ms : Run ε _).Implements (.ok (mergeOnto out ms)) := by
  induction ms generalizing out with
  | nil => exact .ok _
  | cons m ms ih =>
    unfold coalesceFrom mergeOnto
    split
    · exact ih out
    · cases out with
      | nil => exact ih _
      | cons last rest =>
        refine (I64.mul_implements last.1 last.2).bind_ok ?_
        show (if m.2 = last.1 * last.2 then _ else _ : Run ε _).Implements
          (.ok (if m.2 = last.1 * last.2 then _ else _))
        split
        · exact (I64.mul_implements _ _).bind_ok (ih _)
        · exact ih _

/-- `coalesce` merges the flat modes, unless it overflows. -/
theorem coalesce_implements (l : Layout) :
    (coalesce l : Run ε Layout).Implements (.ok (layoutFromFlat (merged l.flatModes))) :=
  (coalesceFrom_implements [] l.flatModes).bind_ok (.ok _)

/-! ### The coalesced layout -/

/-- The end of every mode but the last is an `i64`. -/
def EndsFit (ms : List (ℤ × ℤ)) : Prop := ms.IsChain fun m _ => I64.Fits (m.1 * m.2)

/-- The loop has multiplied out the end of every mode it has put another one behind. -/
theorem endsFit_of_coalesceFrom {out ms ws : List (ℤ × ℤ)}
    (hout : out.IsChain fun _ m => I64.Fits (m.1 * m.2))
    (h : (coalesceFrom out ms : Run ε _) = .ok ws) : EndsFit ws := by
  induction ms generalizing out with
  | nil =>
    cases h
    exact List.isChain_reverse.mpr hout
  | cons m ms ih =>
    unfold coalesceFrom at h
    split at h
    · exact ih hout h
    · cases out with
      | nil => exact ih (List.isChain_singleton _) h
      | cons last rest =>
        obtain ⟨reach, hreach, h⟩ := Run.bind_eq_ok.mp h
        have hfits : I64.Fits (last.1 * last.2) := I64.fits_of_exact hreach
        split at h
        · -- the last mode grows; what lies behind the modes before it does not change
          obtain ⟨s', -, h⟩ := Run.bind_eq_ok.mp h
          refine ih (List.isChain_cons.mpr ?_) h
          exact List.isChain_cons.mp hout
        · exact ih (List.isChain_cons_cons.mpr ⟨hfits, hout⟩) h

/-- On modes that cannot be merged the loop changes nothing. -/
theorem coalesceFrom_of_apart {out ms : List (ℤ × ℤ)} (hext : ∀ m ∈ ms, m.1 ≠ 1)
    (hapart : (out.reverse ++ ms).IsChain fun m m' => ¬Continues m m')
    (hfits : EndsFit (out.reverse ++ ms)) :
    (coalesceFrom out ms : Run ε _) = .ok (out.reverse ++ ms) := by
  induction ms generalizing out with
  | nil => simp [coalesceFrom]
  | cons m ms ih =>
    obtain ⟨hm, hext⟩ := List.forall_mem_cons.mp hext
    cases out with
    | nil =>
      have hrest : (coalesceFrom [m] ms : Run ε _) = .ok ([m].reverse ++ ms) :=
        ih hext (by simpa using hapart) (by simpa using hfits)
      rw [coalesceFrom, if_neg hm]
      simpa using hrest
    | cons last rest =>
      have hrest : (coalesceFrom (m :: last :: rest) ms : Run ε _) =
          .ok ((m :: last :: rest).reverse ++ ms) :=
        ih hext (by simpa using hapart) (by simpa using hfits)
      rw [List.reverse_cons, List.append_assoc] at hapart hfits
      have hne : ¬m.2 = last.1 * last.2 := (List.isChain_append_cons_cons.mp hapart).2.1
      have hreach : I64.Fits (last.1 * last.2) := (List.isChain_append_cons_cons.mp hfits).2.1
      rw [coalesceFrom, if_neg hm]
      show (I64.mul last.1 last.2 >>= fun reach => _) = _
      rw [I64.mul, I64.exact, if_pos hreach]
      show (if m.2 = last.1 * last.2 then _ else _) = _
      rw [if_neg hne]
      simpa using hrest

/-- Coalescing a second time changes nothing and does not overflow. -/
theorem coalesce_again {r : Layout} (hl : l.Valid) (h : (coalesce l : Run ε Layout) = .ok r) :
    (coalesce r : Run ε Layout) = .ok r := by
  obtain ⟨out, hout, h⟩ := Run.bind_eq_ok.mp h
  cases h
  have hfits := endsFit_of_coalesceFrom List.isChain_nil hout
  obtain rfl := (coalesceFrom_implements [] l.flatModes).eq_of_ok hout
  have hsep : Separate (mergeOnto [] l.flatModes) := separate_merged hl.pos
  cases hms : mergeOnto [] l.flatModes with
  | nil => rfl
  | cons m ms =>
    rw [hms] at hsep hfits
    have hagain : (coalesceFrom [] (m :: ms) : Run ε _) = .ok ([].reverse ++ m :: ms) :=
      coalesceFrom_of_apart hsep.ext hsep.apart hfits
    rw [coalesce, flatModes_layoutFromFlat_cons, hagain]
    rfl

/-! ### When an operation overflows -/

/-- Modes that follow and continue one another have, taken together, an `i64` of cells. -/
def RunsFit (ms : List (ℤ × ℤ)) : Prop :=
  ∀ xs p, xs <:+: ms → Chain p xs → 2 ≤ xs.length → I64.Fits (size xs)

/-- The products that `coalesce` forms are `i64`s: the ends of the modes that another one follows,
and the extents of the modes that are merged.  One-cell modes do not count. -/
structure MergesFit (ms : List (ℤ × ℤ)) : Prop where
  ends : EndsFit (ms.filter fun m => m.1 ≠ 1)
  runs : RunsFit (ms.filter fun m => m.1 ≠ 1)

variable {xs ys ms out : List (ℤ × ℤ)} {p q : ℤ}

/-- A run of a list of positive modes is no larger than the whole. -/
theorem size_le_of_infix (hpos : Pos ys) (h : xs <:+: ys) : 0 < size xs ∧ size xs ≤ size ys := by
  obtain ⟨a, b, rfl⟩ := h
  obtain ⟨hab, hb⟩ := pos_append.mp hpos
  obtain ⟨ha, hx⟩ := pos_append.mp hab
  have hx0 := size_pos hx
  refine ⟨hx0, ?_⟩
  rw [size_append, size_append]
  calc size xs ≤ size a * size xs := le_mul_of_one_le_left hx0.le (size_pos ha)
    _ ≤ size a * size xs * size b :=
      le_mul_of_one_le_right (mul_pos (size_pos ha) hx0).le (size_pos hb)

/-- Where the whole product fits, that of every run does. -/
theorem runsFit_of_size (hpos : Pos xs) (h : 2 ≤ xs.length → I64.Fits (size xs)) : RunsFit xs := by
  intro zs _ hzs _ hlen
  obtain ⟨h0, hle⟩ := size_le_of_infix hpos hzs
  have hfits := h (hlen.trans hzs.length_le)
  exact ⟨by omega, hle.trans hfits.2⟩

/-- The first stride of a chain of at least one mode is determined. -/
theorem chain_stride (hx : xs ≠ []) (hp : Chain p xs) (hq : Chain q xs) : p = q := by
  obtain ⟨m, ms, rfl⟩ := List.exists_cons_of_ne_nil hx
  exact hp.1.symm.trans hq.1

/-- A chain does not reach across a mode that does not continue the one before it. -/
theorem runsFit_append_of_apart {m : ℤ × ℤ} (hpos : Pos xs) (hch : Chain p xs)
    (hfit : 2 ≤ xs.length → I64.Fits (size xs)) (hapart : m.2 ≠ size xs * p) :
    RunsFit (xs ++ m :: ms) ↔ RunsFit (m :: ms) := by
  constructor
  · intro h zs q hzs
    exact h zs q (List.infix_append_of_infix_right hzs)
  · intro h zs q hzs hchz hlen
    rcases List.infix_append_iff_ne_nil.mp hzs with hz | hz | ⟨u, v, hu, hv, rfl, ⟨t, rfl⟩, hpre⟩
    · exact runsFit_of_size hpos hfit zs q hz hchz hlen
    · exact h zs q hz hchz hlen
    · exfalso
      obtain ⟨hchu, hchv⟩ := chain_append.mp hchz
      have hq := chain_stride hu hchu (chain_append.mp hch).2
      obtain ⟨m', v, rfl⟩ := List.exists_cons_of_ne_nil hv
      obtain ⟨rfl, -⟩ := List.cons_prefix_cons.mp hpre
      refine hapart ?_
      rw [hchv.1, hq, size_append]
      ring

/-- The loop skips modes of one cell. -/
theorem coalesceFrom_filter (out ms : List (ℤ × ℤ)) :
    (coalesceFrom out ms : Run ε _) = coalesceFrom out (ms.filter fun m => m.1 ≠ 1) := by
  induction ms generalizing out with
  | nil => rfl
  | cons m ms ih =>
    by_cases hm : m.1 = 1
    · rw [List.filter_cons_of_neg (by simpa using hm)]
      exact (if_pos hm).trans (ih out)
    · rw [List.filter_cons_of_pos (by simpa using hm)]
      unfold coalesceFrom
      rw [if_neg hm, if_neg hm]
      cases out with
      | nil => exact ih _
      | cons last rest =>
        refine bind_congr fun reach => ?_
        split
        · exact bind_congr fun s' => ih _
        · exact ih _

/-- **When the loop returns.**  It has merged the chain `xs` into the last mode, and goes on
with `ms`. -/
theorem coalesceFrom_returns_iff (out : List (ℤ × ℤ)) (hx : xs ≠ []) (hch : Chain p xs)
    (hpos : Pos (xs ++ ms)) (hext : ∀ m ∈ ms, m.1 ≠ 1) (hfit : 2 ≤ xs.length → I64.Fits (size xs)) :
    (∃ ws, (coalesceFrom ((size xs, p) :: out) ms : Run ε _) = .ok ws) ↔
      (ms ≠ [] → I64.Fits (size xs * p)) ∧ EndsFit ms ∧ RunsFit (xs ++ ms) := by
  induction ms generalizing xs p out with
  | nil =>
    rw [List.append_nil] at hpos ⊢
    exact iff_of_true ⟨_, rfl⟩
      ⟨fun h => absurd rfl h, List.isChain_nil, runsFit_of_size hpos hfit⟩
  | cons m ms ih =>
    obtain ⟨hm, hext⟩ := List.forall_mem_cons.mp hext
    obtain ⟨hposx, hposm⟩ := pos_append.mp hpos
    rw [coalesceFrom, if_neg hm]
    show (∃ ws, (I64.mul (size xs) p >>= fun reach => _) = _) ↔ _
    by_cases hreach : I64.Fits (size xs * p)
    swap
    · rw [I64.mul, I64.exact_of_not_fits hreach]
      exact iff_of_false (fun ⟨_, h⟩ => nomatch h) fun h => hreach (h.1 (List.cons_ne_nil m ms))
    have hends : ∀ P : Prop, (ms ≠ [] → I64.Fits (m.1 * m.2)) ∧ EndsFit ms ∧ P ↔
        ((m :: ms ≠ []) → I64.Fits (size xs * p)) ∧ EndsFit (m :: ms) ∧ P := fun P => by
      rw [EndsFit, EndsFit, List.isChain_cons, and_iff_right fun _ => hreach, and_assoc]
      refine and_congr_left fun _ => ?_
      cases ms with
      | nil => simp
      | cons m' ms => simp
    rw [I64.mul, I64.exact_of_fits hreach, ← hends]
    show (∃ ws, (if m.2 = size xs * p then _ else _) = _) ↔ _
    by_cases hcont : m.2 = size xs * p
    · rw [if_pos hcont]
      -- the mode is merged: the chain grows by it
      have hsize : size (xs ++ [m]) = size xs * m.1 := by
        rw [size_append, size_cons, size_nil, mul_one]
      have hgrown : Chain p (xs ++ [m]) := chain_append.mpr ⟨hch, hcont, trivial⟩
      have hlen : 2 ≤ (xs ++ [m]).length := by
        have := List.length_pos_iff.mpr hx
        rw [List.length_append, List.length_singleton]
        omega
      have hend : size (xs ++ [m]) * p = m.1 * m.2 := by
        rw [hsize, hcont]
        ring
      rw [List.append_cons] at hpos ⊢
      by_cases hextent : I64.Fits (size xs * m.1)
      · rw [I64.mul, I64.exact_of_fits hextent, ← hend]
        show (∃ ws, coalesceFrom ((size xs * m.1, p) :: out) ms = _) ↔ _
        rw [← hsize]
        exact ih out (by simp) hgrown hpos hext fun _ => hsize ▸ hextent
      · rw [I64.mul, I64.exact_of_not_fits hextent]
        refine iff_of_false (fun ⟨_, h⟩ => nomatch h) fun h => hextent ?_
        rw [← hsize]
        exact h.2.2 _ p List.infix_append_left hgrown hlen
    · rw [if_neg hcont, runsFit_append_of_apart hposx hch hfit hcont]
      have hone : size [m] = m.1 := by rw [size_cons, size_nil, mul_one]
      have h := ih (p := m.2) ((size xs, p) :: out) (List.cons_ne_nil m [])
        ⟨rfl, trivial⟩ hposm hext fun hlen => absurd hlen (by simp)
      rwa [hone] at h

/-- `coalesce` returns a layout exactly when its products are `i64`s. -/
theorem coalesce_returns_iff (hl : l.Valid) :
    (∃ r, (coalesce l : Run ε Layout) = .ok r) ↔ MergesFit l.flatModes := by
  have hrun : (∃ r, (coalesce l : Run ε Layout) = .ok r) ↔
      ∃ ws, (coalesceFrom [] (l.flatModes.filter fun m => m.1 ≠ 1) : Run ε _) = .ok ws := by
    rw [← coalesceFrom_filter]
    constructor
    · rintro ⟨r, h⟩
      obtain ⟨ws, hws, -⟩ := Run.bind_eq_ok.mp h
      exact ⟨ws, hws⟩
    · rintro ⟨ws, hws⟩
      exact ⟨layoutFromFlat ws, Run.bind_eq_ok.mpr ⟨ws, hws, rfl⟩⟩
  have hpos : Pos (l.flatModes.filter fun m => m.1 ≠ 1) := fun m hm =>
    hl.pos m (List.mem_filter.mp hm).1
  have hext : ∀ m ∈ l.flatModes.filter fun m => m.1 ≠ 1, m.1 ≠ 1 := fun m hm => by
    simpa using (List.mem_filter.mp hm).2
  have hfit : MergesFit l.flatModes ↔ EndsFit (l.flatModes.filter fun m => m.1 ≠ 1) ∧
      RunsFit (l.flatModes.filter fun m => m.1 ≠ 1) := ⟨fun h => ⟨h.1, h.2⟩, fun h => ⟨h.1, h.2⟩⟩
  rw [hrun, hfit]
  generalize l.flatModes.filter (fun m => m.1 ≠ 1) = ms at hpos hext
  cases ms with
  | nil => exact iff_of_true ⟨_, rfl⟩ ⟨List.isChain_nil, runsFit_of_size pos_nil (by simp)⟩
  | cons m ms =>
    obtain ⟨hm, hext⟩ := List.forall_mem_cons.mp hext
    have hone : size [m] = m.1 := by rw [size_cons, size_nil, mul_one]
    have h := coalesceFrom_returns_iff (ε := ε) (p := m.2) [] (List.cons_ne_nil m [])
      ⟨rfl, trivial⟩ hpos hext fun hlen => absurd hlen (by simp)
    rw [hone] at h
    rw [coalesceFrom, if_neg hm, EndsFit, List.isChain_cons, and_assoc]
    refine h.trans (and_congr_left fun _ => ?_)
    cases ms with
    | nil => simp
    | cons m' ms => simp

/-- A mode that ends below `B`. -/
structure Within (B : ℤ) (m : ℤ × ℤ) : Prop where
  ext : 0 < m.1
  stride : 0 < m.2
  reach : m.1 * m.2 ≤ B

/-- A mode within a bound that fits has an end that fits. -/
theorem Within.fits {B : ℤ} {m : ℤ × ℤ} (hB : I64.Fits B) (h : Within B m) :
    I64.Fits (m.1 * m.2) := by
  have hpos := mul_pos h.ext h.stride
  exact ⟨by omega, h.reach.trans hB.2⟩

/-- A chain ends where its last mode does. -/
theorem Within.chain {B : ℤ} (hx : xs ≠ []) (hch : Chain p xs) (h : ∀ m ∈ xs, Within B m) :
    0 < size xs ∧ size xs ≤ B := by
  have hpos : Pos xs := fun m hm => (h m hm).ext
  have hp : 0 < p := by
    obtain ⟨m, ms, rfl⟩ := List.exists_cons_of_ne_nil hx
    exact hch.1 ▸ (h m List.mem_cons_self).stride
  obtain ⟨ys, z, rfl⟩ := (List.eq_nil_or_concat' xs).resolve_left hx
  obtain ⟨-, hz, -⟩ := chain_append.mp hch
  have hreach := (h z (by simp)).reach
  have hend : size (ys ++ [z]) * p ≤ B := by
    rw [size_append, size_cons, size_nil, mul_one]
    calc size ys * z.1 * p = z.1 * (size ys * p) := by ring
      _ ≤ B := by rwa [← hz]
  exact ⟨size_pos hpos, (le_mul_of_one_le_right (size_pos hpos).le hp).trans hend⟩

/-- Modes that end below an `i64` are merged without an overflow. -/
theorem mergesFit_of_within {B : ℤ} (hB : I64.Fits B) (hms : ∀ m ∈ ms, m.1 ≠ 1 → Within B m) :
    MergesFit ms := by
  have hall : ∀ m ∈ ms.filter fun m => m.1 ≠ 1, Within B m := fun m hm =>
    hms m (List.mem_filter.mp hm).1 (by simpa using (List.mem_filter.mp hm).2)
  refine ⟨List.Pairwise.isChain ?_, fun xs p hxs hch hlen => ?_⟩
  · exact List.Pairwise.imp_of_mem (fun hm _ _ => (hall _ hm).fits hB)
      (List.pairwise_of_forall fun _ _ => trivial : List.Pairwise (fun _ _ => True) _)
  · have hx : xs ≠ [] := fun h => by simp [h] at hlen
    obtain ⟨h0, hle⟩ := Within.chain hx hch fun m hm => hall m (hxs.subset hm)
    exact ⟨by omega, hle.trans hB.2⟩

/-- **Modes within a bound are merged without overflow.** -/
theorem coalesce_layoutFromFlat_eq {B : ℤ} (hB : I64.Fits B)
    (hms : ∀ m ∈ ms, m.1 ≠ 1 → Within B m) :
    (coalesce (layoutFromFlat ms) : Run ε Layout) = .ok (layoutFromFlat (merged ms)) := by
  cases ms with
  | nil => rfl
  | cons m ms =>
    have hpos : Pos (m :: ms) := fun x hx => by
      by_cases hone : x.1 = 1
      · omega
      · exact (hms x hx hone).ext
    obtain ⟨r, h⟩ := (coalesce_returns_iff (ε := ε) (valid_layoutFromFlat hpos)).mpr
      (by rw [flatModes_layoutFromFlat_cons]; exact mergesFit_of_within hB hms)
    have hr := (coalesce_implements _).eq_of_ok h
    rw [flatModes_layoutFromFlat_cons] at hr
    rw [h, hr]

/-- **The coalesced layout.**  `coalesce` returns a layout if the ends and the merged extents of
the modes are `i64`s, and overflows otherwise.  The layout has the cells and the offsets of the
given one, no mode in it has one cell (the layout `1:0` apart) and no two neighbours could be
merged; coalescing it again changes nothing. -/
theorem coalesce_spec (hl : l.Valid) :
    (¬MergesFit l.flatModes → (coalesce l : Run ε Layout) = Run.panic .overflow) ∧
      (MergesFit l.flatModes →
        ∃ r : Layout, (coalesce l : Run ε Layout) = .ok r ∧ r.Valid ∧ r.cells = l.cells ∧
          (∀ c, r.offset c = l.offset c) ∧
          (r = ⟨.leaf 1, .leaf 0⟩ ∨ ∀ m ∈ r.flatModes, m.1 ≠ 1) ∧
          (r.flatModes.IsChain fun m m' => ¬Continues m m') ∧
          (coalesce r : Run ε Layout) = .ok r) := by
  constructor
  · intro hfit
    refine (coalesce_implements l).ok_or_overflow.resolve_left fun h => hfit ?_
    exact (coalesce_returns_iff hl).mp ⟨_, h⟩
  · intro hfit
    obtain ⟨r, h⟩ := (coalesce_returns_iff (ε := ε) hl).mpr hfit
    obtain rfl := (coalesce_implements l).eq_of_ok h
    refine ⟨_, h, valid_layoutFromFlat (merged_pos hl.pos), ?_, fun c => ?_, ?_, ?_,
      coalesce_again hl h⟩
    · rw [cells_layoutFromFlat, size_merged hl.pos]
      rfl
    · rw [offset_layoutFromFlat, eval_merged hl.pos]
      rfl
    · cases hms : merged l.flatModes with
      | nil => exact Or.inl rfl
      | cons m ms =>
        rw [flatModes_layoutFromFlat_cons, ← hms]
        exact Or.inr (separate_merged hl.pos).ext
    · cases hms : merged l.flatModes with
      | nil => exact List.isChain_singleton _
      | cons m ms =>
        rw [flatModes_layoutFromFlat_cons, ← hms]
        exact (separate_merged hl.pos).apart

/-- The layout `(2,4):(1,2)` is one walk `8:1`. -/
example : (coalesce ⟨.tuple [.leaf 2, .leaf 4], .tuple [.leaf 1, .leaf 2]⟩ : Run ε Layout) =
    .ok ⟨.leaf 8, .leaf 1⟩ := rfl

/-- Two modes that continue each other, with a mode of one cell between them whose stride never
counts: the layout `(2,1,4):(1,99,2)` is returned as `8:1`. -/
theorem coalesce_spec_unit :
    (coalesce ⟨.tuple [.leaf 2, .leaf 1, .leaf 4], .tuple [.leaf 1, .leaf 99, .leaf 2]⟩ :
        Run Empty Layout) = .ok ⟨.leaf 8, .leaf 1⟩ ∧
      ∀ c, (Layout.mk (.leaf 8) (.leaf 1)).offset c = (Layout.mk
        (.tuple [.leaf 2, .leaf 1, .leaf 4]) (.tuple [.leaf 1, .leaf 99, .leaf 2])).offset c := by
  have hfit : MergesFit [(2, 1), (1, 99), (4, 2)] := by
    refine mergesFit_of_within (B := 8) (by decide) ?_
    simp only [List.forall_mem_cons, List.not_mem_nil, false_imp_iff, implies_true, and_true]
    exact ⟨fun _ => ⟨by decide, by decide, by decide⟩, by simp,
      fun _ => ⟨by decide, by decide, by decide⟩⟩
  obtain ⟨r, h, -, -, hoff, -⟩ := (coalesce_spec (ε := Empty) (l := ⟨.tuple [.leaf 2, .leaf 1,
    .leaf 4], .tuple [.leaf 1, .leaf 99, .leaf 2]⟩) ⟨rfl, by decide⟩).2 hfit
  cases h
  exact ⟨rfl, hoff⟩

/-- The end of a mode need not be an `i64`, though both modes are laid out in one: the offsets of
`(2,2):(2^62,1)` are at most `2^62 + 1`. -/
theorem coalesce_overflows :
    (Layout.mk (.tuple [.leaf 2, .leaf 2]) (.tuple [.leaf 4611686018427387904, .leaf 1])).Valid ∧
      (coalesce ⟨.tuple [.leaf 2, .leaf 2], .tuple [.leaf 4611686018427387904, .leaf 1]⟩ :
        Run Empty Layout) = Run.panic .overflow :=
  ⟨⟨rfl, by decide⟩, rfl⟩

/-! ### Without broadcast modes -/

/-- The modes that `filter` coalesces: those with a nonzero stride, and one-cell modes. -/
def nonBroadcast (ms : List (ℤ × ℤ)) : List (ℤ × ℤ) :=
  ms.map fun m => if m.2 = 0 then (1, 0) else m

/-- `filter` drops the broadcast modes and merges the rest. -/
theorem filter_implements (l : Layout) : (filter l : Run ε Layout).Implements
    (.ok (layoutFromFlat (merged (nonBroadcast l.flatModes)))) := by
  have h : (filter l : Run ε Layout).Implements _ :=
    coalesce_implements (layoutFromFlat (nonBroadcast l.flatModes))
  cases hms : nonBroadcast l.flatModes with
  | nil => rw [hms] at h; exact h
  | cons m ms => rwa [hms, flatModes_layoutFromFlat_cons] at h

end CudaOxide.Cute
