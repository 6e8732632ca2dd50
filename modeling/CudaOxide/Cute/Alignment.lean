import CudaOxide.Cute.Divide
import CudaOxide.Cute.RightInverse
import CudaOxide.Cute.Swizzle
import CudaOxide.Lib.Blocks
import CudaOxide.Lib.Cut

namespace CudaOxide.Cute

open Lib Strided

/-!
# Vector accesses

`max_alignment` divides a layout by its right inverse: the first mode runs through consecutive
offsets, and the strides of the rest say by how much such a run is shifted
(`algebra/alignment.rs`, `composed.rs`).

* `exists_rest_offset` — every mode that the inverse leaves out is a shift of the rest.
* `unionOfBlocks_of_divided` — the offsets of the divided layout come in whole blocks.
* `Swizzle.movesBlocks_permute` — a swizzle moves the blocks below its fields as a whole.
* `maxAlignment_spec` — a vector access of the returned width stays in the layout.
* `maxAlignment_wraps` — a build without overflow checks can return a width that does not.
-/

/-! ### The machine functions -/

/-- Euclid's loop.  Its arguments are sizes and strides that are not negative, so the cast back to
an `i64` changes nothing. -/
def gcdNonnegative (a b : ℤ) : ℤ := Int.gcd a b

/-- The number of offsets that a vector access may cover. -/
def maxAlignment [Build] (l : Layout) : Run AlgebraError ℤ :=
  if l.shape.flatten.any (· ≤ 0) then
    Run.fail ⟨"max_alignment: every shape extent must be positive"⟩
  else if l.stride.flatten.any (· < 0) then .ok 1
  else do
    let flat ← coalesce l
    let inverse ← rightInverse flat
    let permuted ← logicalDivide flat inverse
    match permuted.modes with
    | [vector, rest] => do
      let vectorSize ← vector.size
      let restStrideGcd := rest.stride.flatten.foldl gcdNonnegative 0
      .ok (max (gcdNonnegative vectorSize restStrideGcd) 1)
    | _ => Run.fail ⟨"max_alignment: expected vector and remainder modes"⟩

/-- The magnitude of `i64::MIN` is not an `i64`. -/
def unsignedToI64 (value : ℕ) : ℤ := if value ≤ 9223372036854775807 then value else 1

namespace ComposedLayout

/-- Euclid's loop, with the conversion of `unsigned_to_i64` at its end. -/
def gcd (a b : ℤ) : ℤ := unsignedToI64 (Int.gcd a b)

/-- The width that the layout, the fixed offset and the swizzle allow. -/
def maxAlignment [Build] (l : ComposedLayout) : Run AlgebraError ℤ := do
  let outerAlignment ← Cute.maxAlignment l.outer
  let withOffset := gcd outerAlignment (unsignedToI64 l.offset.natAbs)
  if l.inner.numBits = 0 then .ok (max withOffset 1)
  else .ok (max (gcd withOffset (2 ^ l.inner.numBase)) 1)

end ComposedLayout

/-! ### Divisors -/

/-- A divisor stays one when zero is replaced by one. -/
theorem max_one_dvd {g n : ℤ} (h0 : 0 ≤ g) (h : g ∣ n) : max g 1 ∣ n := by
  rcases h0.eq_or_lt with hg | hg
  · rw [← hg]
    exact one_dvd n
  · rwa [max_eq_left (by omega)]

/-- The greatest common divisor of a list divides each of its numbers. -/
theorem foldl_gcd_dvd {g : ℤ} (ds : List ℤ) :
    ds.foldl gcdNonnegative g ∣ g ∧ ∀ d ∈ ds, ds.foldl gcdNonnegative g ∣ d := by
  induction ds generalizing g with
  | nil => exact ⟨dvd_rfl, List.forall_mem_nil _⟩
  | cons d ds ih =>
    obtain ⟨hg, hds⟩ := ih (g := gcdNonnegative g d)
    exact ⟨hg.trans (Int.gcd_dvd_left g d),
      List.forall_mem_cons.mpr ⟨hg.trans (Int.gcd_dvd_right g d), hds⟩⟩

/-- What divides a number as an `i64` divides the number. -/
theorem dvd_of_unsignedToI64 {g : ℤ} {n : ℕ} (h : g ∣ unsignedToI64 n) : g ∣ n := by
  unfold unsignedToI64 at h
  split at h
  · exact h
  · exact h.trans (one_dvd _)

/-- The result divides both and is not negative. -/
theorem ComposedLayout.gcd_dvd (a b : ℤ) : gcd a b ∣ a ∧ gcd a b ∣ b ∧ 0 ≤ gcd a b := by
  have hgcd : gcd a b ∣ (Int.gcd a b : ℤ) := dvd_of_unsignedToI64 dvd_rfl
  refine ⟨hgcd.trans (Int.gcd_dvd_left a b), hgcd.trans (Int.gcd_dvd_right a b), ?_⟩
  unfold gcd unsignedToI64
  split
  · exact Int.natCast_nonneg _
  · exact zero_le_one

/-! ### The modes that the inverse leaves out -/

variable {a c Y : Layout} {m : ℤ × ℤ} {ms xs ys : List (ℤ × ℤ)}

/-- A walk that starts at a boundary steps over whole modes. -/
theorem representable_of_boundary {n q : ℤ} (hms : ∀ m ∈ ms, 1 < m.1) (h : Boundary q ms) :
    Representable n q ms := by
  obtain ⟨xs, ys, rfl, rfl⟩ := h
  induction xs with
  | nil =>
    match ys, hms with
    | [], _ => trivial
    | [_], _ => trivial
    | y :: y' :: ys, hms =>
      have hy : 1 < y.1 := hms y List.mem_cons_self
      rw [List.nil_append, size_nil, Representable, Int.emod_eq_of_lt zero_le_one hy,
        if_neg one_ne_zero]
      exact Or.inl (one_dvd _)
  | cons x xs ih =>
    obtain ⟨hx, hms⟩ := List.forall_mem_cons.mp hms
    have ih := ih hms
    rw [List.cons_append]
    cases hrest : xs ++ ys with
    | nil => trivial
    | cons m' rest =>
      rw [hrest] at ih
      rw [Representable, size_cons, if_pos (Int.mul_emod_right _ _),
        Int.mul_ediv_cancel_left _ (by omega)]
      exact ih

/-- A mode of the inverse starts and stops at boundaries of `ms`, and only modes of `ms` that were
kept lie in its span. -/
structure KeptSpan (ms : List (ℤ × ℤ)) (m : ℤ × ℤ) : Prop where
  starts : Boundary m.2 ms
  stops : Boundary (m.1 * m.2) ms
  kept : ∀ e ∈ places 1 ms, m.2 ≤ e.2.2 → e.2.2 < m.1 * m.2 → e ∈ keptChain 1 (sortedPlaces ms)

/-- Two spans that continue one another are one. -/
theorem KeptSpan.merge {s₀ d₀ s : ℤ} (h₀ : KeptSpan ms (s₀, d₀))
    (h : KeptSpan ms (s, s₀ * d₀)) : KeptSpan ms (s₀ * s, d₀) where
  starts := h₀.starts
  stops := by
    have hreach : s * (s₀ * d₀) = s₀ * s * d₀ := by ring
    exact hreach ▸ h.stops
  kept e he hle hlt := by
    by_cases hin : e.2.2 < s₀ * d₀
    · exact h₀.kept e he hle hin
    · refine h.kept e he (not_lt.mp hin) ?_
      show e.2.2 < s * (s₀ * d₀)
      rwa [show s * (s₀ * d₀) = s₀ * s * d₀ by ring]

/-- The chain is made of places of the layout. -/
theorem mem_places_of_kept {e : ℤ × ℤ × ℤ} (he : e ∈ keptChain 1 (sortedPlaces ms)) :
    e ∈ places 1 ms :=
  (List.perm_insertionSort tripleLe _).mem_iff.mp ((keptChain_sublist 1 _).subset he)

/-- Every mode of the inverse is a span of the layout's own modes. -/
theorem keptSpan_inverseModes (hms : ∀ m ∈ ms, 1 < m.1) : ∀ m ∈ inverseModes ms, KeptSpan ms m := by
  intro m hm
  obtain ⟨e, he, rfl⟩ := List.mem_map.mp hm
  have hmem := mem_places_of_kept he
  obtain ⟨hstart, hstop⟩ := boundary_of_mem_places hmem
  refine ⟨hstart, hstop, fun e' he' hle hlt => ?_⟩
  rw [places_disjoint one_pos hms hmem he' hle hlt]
  exact he

/-- A layout of flat modes has the strides it is made of. -/
theorem nonneg_layoutFromFlat (h : Nonneg xs) : Nonneg (layoutFromFlat xs).flatModes := by
  cases xs with
  | nil => exact List.forall_mem_singleton.mpr le_rfl
  | cons x xs => rwa [flatModes_layoutFromFlat_cons]

/-- The inverse moves forward. -/
theorem nonneg_inverseLayout (ha : a.Valid) : Nonneg (inverseLayout a).flatModes :=
  nonneg_layoutFromFlat (merged_nonneg fun m hm =>
    ((keptSpan_inverseModes (merged_one_lt ha.pos) m hm).starts.pos (merged_pos ha.pos)).le)

/-- The modes that `complement` sorts are spans of kept modes. -/
theorem keptSpan_sortedModes (ha : a.Valid) :
    ∀ m ∈ sortedModes (inverseLayout a), KeptSpan (merged a.flatModes) m := by
  have hext := merged_one_lt ha.pos
  have hmerged : ∀ m ∈ merged (inverseModes (merged a.flatModes)),
    KeptSpan (merged a.flatModes) m :=
    merged_forall (fun _ _ _ => KeptSpan.merge) fun m hm _ => keptSpan_inverseModes hext m hm
  have hflat : ∀ m ∈ (inverseLayout a).flatModes, m.1 ≠ 1 → KeptSpan (merged a.flatModes) m := by
    intro m hm hne
    unfold inverseLayout at hm
    cases hms : merged (inverseModes (merged a.flatModes)) with
    | nil =>
      rw [hms, flatModes_layoutFromFlat_nil, List.mem_singleton] at hm
      rw [hm] at hne
      exact absurd rfl hne
    | cons x xs =>
      rw [hms, flatModes_layoutFromFlat_cons, ← hms] at hm
      exact hmerged m hm
  intro m hm
  refine merged_forall (fun _ _ _ => KeptSpan.merge) (fun m hm hne => ?_) m
    ((perm_sortByStride _).mem_iff.mp hm)
  obtain ⟨x, hx, rfl⟩ := List.mem_map.mp hm
  split at hne
  · exact absurd rfl hne
  · rename_i hzero
    rw [if_neg hzero]
    exact hflat x hx hne

/-- Every gap starts at a boundary. -/
theorem boundary_of_gaps {hi p : ℤ} {gs : List (ℤ × ℤ)} (hp : Boundary p ms)
    (hxs : ∀ m ∈ xs, Boundary (m.1 * m.2) ms) (h : gaps hi p xs = .ok gs) :
    ∀ g ∈ gs, Boundary g.2 ms := by
  induction xs generalizing p gs with
  | nil =>
    cases h
    intro g hg
    rw [List.mem_singleton.mp hg]
    exact hp
  | cons x xs ih =>
    obtain ⟨hx, hxs⟩ := List.forall_mem_cons.mp hxs
    obtain ⟨_, rest, hrest, rfl⟩ := gaps_cons_ok h
    exact List.forall_mem_cons.mpr ⟨hp, ih hx hxs hrest⟩

/-- **Every mode that the inverse leaves out is a shift of the rest.** -/
theorem exists_rest_offset (ha : a.Valid)
    (hc : complement (inverseLayout a) a.cells = .ok c) (hY : composition a c = .ok Y)
    {e : ℤ × ℤ × ℤ} (he : e ∈ places 1 (merged a.flatModes))
    (hne : e ∉ keptChain 1 (sortedPlaces (merged a.flatModes))) : ∃ j, Y.offset j = e.1 := by
  have hext := merged_one_lt ha.pos
  have hpos := merged_pos ha.pos
  have hkept := keptSpan_sortedModes ha
  obtain ⟨hinv, -⟩ := offset_inverseLayout ha
  obtain ⟨hstart, -⟩ := boundary_of_mem_places he
  have hplace := hstart.pos hpos
  obtain ⟨hin, heval⟩ := eval_place hext he
  have hfwd := forward_of_nonneg (nonneg_inverseLayout ha)
  have hmodes : ∀ m ∈ sortedModes (inverseLayout a), 0 < m.1 ∧ 0 < m.2 := fun m hm => by
    have := sortedModes_pos hinv hfwd m hm
    omega
  -- the gaps and the kept spans cover all coordinates
  obtain ⟨gs, hgs, rfl⟩ := exists_gaps_of_complement hinv hfwd ha.cells_pos hc
  obtain ⟨hposg, ws, hperm, hch⟩ := gaps_chain one_pos ha.cells_pos hmodes hgs
  have hcover : a.cells ≤ size ws := by
    rw [size_perm hperm, size_append, ← mul_one (_ * _), gaps_size hgs]
    exact le_upDiv_mul (topSpan_pos one_pos hmodes)
  rw [size_merged ha.pos] at hin
  obtain ⟨w, hw, hspan⟩ := exists_span_of_chain hch hplace
    (by rw [mul_one]; exact hin.trans_le hcover)
  have hgap : ∃ g ∈ gs, g.2 ≤ e.2.2 ∧ e.2.2 < g.1 * g.2 := by
    rcases List.mem_append.mp (hperm.mem_iff.mp hw) with h | h
    · exact absurd ((hkept w h).kept e he hspan.1 hspan.2) hne
    · exact ⟨w, h, hspan⟩
  -- so the place of the mode is a cell of a leaf of the complement
  have hbound : ∀ g ∈ merged gs, Boundary g.2 (merged a.flatModes) :=
    merged_forall (fun _ _ _ h _ => h) fun g hg _ =>
      boundary_of_gaps (boundary_one _) (fun m hm => (hkept m hm).stops) hgs g hg
  obtain ⟨x, hx, hle, hlt⟩ := exists_span_merged hposg hplace.le hgap
  have hx0 := (hbound x hx).pos hpos
  obtain ⟨k, hk⟩ := (hbound x hx).dvd hpos hstart hle
  have hk0 : 0 ≤ k := nonneg_of_mul_nonneg_right (hk ▸ hplace.le) hx0
  have hkx : k < x.1 := by
    rw [hk, mul_comm x.1] at hlt
    exact lt_of_mul_lt_mul_left hlt hx0.le
  have hxc : x ∈ (layoutFromFlat (merged gs)).flatModes := by
    rw [flatModes_layoutFromFlat (List.ne_nil_of_mem hx)]
    exact hx
  have hcv := valid_layoutFromFlat (merged_pos hposg)
  have hcn : Nonneg (layoutFromFlat (merged gs)).flatModes :=
    nonneg_layoutFromFlat fun g hg => ((hbound g hg).pos hpos).le
  obtain ⟨F, hF, -, -, hoffset⟩ := composition_ok ha hcv hcn hY
  obtain ⟨j, -, -, hdigit⟩ := exists_single_digit hcv.pos hxc hk0 hkx
  refine ⟨j, ?_⟩
  have hleaf := (composedLeaf_exact_iff ha (hcv.pos x hxc) hx0.le (hF x hxc)).mpr
    (Or.inr (representable_of_boundary hext (hbound x hx))) k hk0 hkx
    (by rw [mul_comm, ← hk]; exact hin)
  rw [hoffset, hdigit (fun m i => (F m).offset i) fun m => eval_zero _, hleaf,
    mul_comm, ← hk, ← heval, eval_merged ha.pos]
  rfl

/-! ### The offsets of the divided layout -/

/-- **The divided layout reaches whole blocks.**  The kept modes run through consecutive offsets,
and all others are shifts by multiples of `A`. -/
theorem unionOfBlocks_of_divided {X : Layout} {A : ℤ} (ha : a.Valid)
    (hX : composition a (inverseLayout a) = .ok X)
    (hc : complement (inverseLayout a) a.cells = .ok c) (hY : composition a c = .ok Y)
    (hA : 0 < A) (hvector : A ∣ X.cells)
    (hrest : ∀ d ∈ Y.stride.flatten, A ∣ d) :
    UnionOfBlocks A (a.offset '' Set.Ico 0 a.cells) := by
  have hext := merged_one_lt ha.pos
  have hpos := merged_pos ha.pos
  obtain ⟨hposi, -⟩ := eval_inverseModes hext
  set ms := merged a.flatModes with hms
  set sel := keptChain 1 (sortedPlaces ms) with hsel
  obtain ⟨unsel, hperm⟩ := (keptChain_sublist 1 (sortedPlaces ms)).exists_perm_append
  have hperm : (places 1 ms).Perm (sel ++ unsel) :=
    (List.perm_insertionSort tripleLe _).symm.trans hperm
  have hnodup := (List.nodup_append.mp (hperm.nodup_iff.mp (nodup_places one_pos hext))).2.2
  have hmodes : ms.Perm (sel.map (fun e => (e.2.1, e.1)) ++ unsel.map fun e => (e.2.1, e.1)) := by
    have h := hperm.map fun e => (e.2.1, e.1)
    rwa [map_places, List.map_append] at h
  -- the kept modes have as many cells as the first mode of the divided layout
  have hsize : size (sel.map fun e => (e.2.1, e.1)) = X.cells := by
    obtain ⟨-, -, -, hcells, -⟩ :=
      composition_ok ha (offset_inverseLayout ha).1 (nonneg_inverseLayout ha) hX
    have hextents : (sel.map fun e => (e.2.1, e.1)).map Prod.fst =
        (inverseModes ms).map Prod.fst := by
      rw [inverseModes, List.map_map, List.map_map]
      rfl
    rw [hcells, inverseLayout, cells_layoutFromFlat, size_merged hposi, size_congr hextents]
  have hshift : ∀ m ∈ unsel.map fun e => (e.2.1, e.1), A ∣ m.2 := by
    intro m hm
    obtain ⟨e, he, rfl⟩ := List.mem_map.mp hm
    have hplace : e ∈ places 1 ms := hperm.mem_iff.mpr (List.mem_append_right _ he)
    obtain ⟨j, hj⟩ := exists_rest_offset ha hc hY hplace fun hk => hnodup e hk e he rfl
    show A ∣ e.1
    rw [← hj]
    exact dvd_eval (fun m hm => hrest m.2 (List.of_mem_zip hm).2) j
  have hblocks := unionOfBlocks_eval (fun m hm => hpos m (hmodes.mem_iff.mpr hm))
    (chain_keptChain 1 (sortedPlaces ms)) hA (hsize ▸ hvector) hshift
  have heval : a.offset = eval ms := funext fun x => (eval_merged ha.pos x).symm
  rw [← image_eval_perm hpos hmodes, hms, size_merged ha.pos, ← hms, ← heval] at hblocks
  exact hblocks

/-- A pair of layouts is composed one after the other. -/
theorem composition_fromModes_pair {b r : Layout}
    (h : composition a (Layout.fromModes [b, c]) = .ok r) :
    ∃ X Y : Layout, composition a b = .ok X ∧ composition a c = .ok Y ∧ r.modes = [X, Y] := by
  obtain ⟨modes, hmodes, hr⟩ := Run.bind_eq_ok.mp h
  obtain ⟨X, hX, htail⟩ := Run.bind_eq_ok.mp hmodes
  obtain ⟨rest, hrest, hlist⟩ := Run.bind_eq_ok.mp htail
  obtain ⟨Y, hY, hlast⟩ := Run.bind_eq_ok.mp hrest
  obtain ⟨empty, hempty, hcons⟩ := Run.bind_eq_ok.mp hlast
  cases hempty
  cases hcons
  cases hlist
  cases hr
  exact ⟨X, Y, hX, hY, rfl⟩

/-- The check on the extents says that every mode is positive. -/
theorem pos_of_extents {l : Layout} (h : l.shape.flatten.any (· ≤ 0) = false) :
    Pos l.flatModes := by
  intro m hm
  have hall := List.any_eq_false.mp h m.1 (List.of_mem_zip hm).1
  simpa using hall

/-- **The blocks of a layout.** -/
theorem unionOfBlocks_of_maxAlignment {l : Layout} {A : ℤ} (hl : l.shape.Congruent l.stride)
    (h : maxAlignment l = .ok A) :
    0 < A ∧ l.Valid ∧ UnionOfBlocks A (l.offset '' Set.Ico 0 l.cells) := by
  unfold maxAlignment at h
  split at h
  · cases h
  rename_i hext
  have hv : l.Valid := ⟨hl, pos_of_extents (Bool.eq_false_iff.mpr hext)⟩
  split at h
  · cases h
    exact ⟨one_pos, hv, unionOfBlocks_one _⟩
  obtain ⟨flat, hflat, hrun⟩ := Run.bind_eq_ok.mp h
  obtain ⟨inverse, hinv, hdivide⟩ := Run.bind_eq_ok.mp hrun
  obtain ⟨permuted, hdiv, hmatch⟩ := Run.bind_eq_ok.mp hdivide
  -- the coalesced layout has the same walk
  obtain rfl := (coalesce_implements l).eq_of_ok hflat
  have hpos := merged_pos hv.pos
  have hfv := valid_layoutFromFlat hpos
  obtain rfl := (rightInverse_implements hfv).eq_of_ok hinv
  obtain ⟨size, hsize, hcomplement⟩ := Run.bind_eq_ok.mp hdiv
  obtain ⟨rest, hrest, hcomp⟩ := Run.bind_eq_ok.mp hcomplement
  obtain rfl := (Layout.size_implements hfv.congruent).eq_of_ok hsize
  obtain ⟨X, Y, hX, hY, hmodes⟩ := composition_fromModes_pair hcomp
  rw [hmodes] at hmatch
  obtain ⟨vectorSize, hvector, hret⟩ := Run.bind_eq_ok.mp hmatch
  obtain ⟨-, -, hXv, -, -⟩ :=
    composition_ok hfv (offset_inverseLayout hfv).1 (nonneg_inverseLayout hfv) hX
  obtain rfl := (Layout.size_implements hXv.congruent).eq_of_ok hvector
  have hA := Except.ok.inj hret
  have hwalk : l.offset '' Set.Ico 0 l.cells = (layoutFromFlat (merged l.flatModes)).offset ''
      Set.Ico 0 (layoutFromFlat (merged l.flatModes)).cells := by
    have heval : (layoutFromFlat (merged l.flatModes)).offset = l.offset := funext fun x => by
      rw [offset_layoutFromFlat, eval_merged hv.pos]
      rfl
    rw [heval, cells_layoutFromFlat, size_merged hv.pos]
    rfl
  set g := Y.stride.flatten.foldl gcdNonnegative 0
  have hdvd : ∀ n, (gcdNonnegative X.cells g : ℤ) ∣ n → A ∣ n := fun n hn => by
    rw [← hA]
    exact max_one_dvd (Int.natCast_nonneg _) hn
  have hpos : 0 < A := by
    rw [← hA]
    exact lt_max_of_lt_right one_pos
  refine ⟨hpos, hv, ?_⟩
  rw [hwalk]
  refine unionOfBlocks_of_divided hfv hX hrest hY hpos (hdvd _ (Int.gcd_dvd_left _ _)) ?_
  intro d hd
  exact hdvd d ((Int.gcd_dvd_right _ _).trans ((foldl_gcd_dvd _).2 d hd))

/-! ### The swizzle -/

/-- **A swizzle moves the blocks below its fields as a whole.** -/
theorem Swizzle.movesBlocks_permute (s : Swizzle) : MovesBlocks (2 ^ s.numBase) s.permute := by
  intro q
  obtain ⟨n, hn⟩ : ∃ n, s.fieldsEnd = s.numBase + n := ⟨_, Nat.add_assoc _ _ _⟩
  obtain ⟨high, block, hblock, rfl⟩ := exists_low_bits n q
  -- what is moved depends on the number of the block, and goes to whole blocks
  set target := block / 2 ^ s.numShift.toNat % 2 ^ s.numBits * 2 ^ (-s.numShift).toNat
  refine ⟨high * 2 ^ n + ((block ^^^ target : ℕ) : ℤ), fun i hi => ?_⟩
  obtain ⟨i, rfl⟩ := Int.eq_ofNat_of_zero_le hi.1
  have hi : i < 2 ^ s.numBase := by exact_mod_cast hi.2
  have hlow : (2 ^ s.numBase * block + i) % 2 ^ s.numBase = i := by
    rw [Nat.mul_add_mod, Nat.mod_eq_of_lt hi]
  have hhigh : (2 ^ s.numBase * block + i) / 2 ^ s.numBase = block := by
    rw [Nat.mul_add_div (Nat.two_pow_pos _), Nat.div_eq_of_lt hi, Nat.add_zero]
  have hmoved : s.moved (2 ^ s.numBase * block + i) = target * 2 ^ s.numBase := by
    rw [moved_eq, pow_add, ← Nat.div_div_eq_div_mul, hhigh, pow_add]
    ring
  have hxor : (2 ^ s.numBase * block + i) ^^^ s.moved (2 ^ s.numBase * block + i) =
      2 ^ s.numBase * (block ^^^ target) + i := by
    rw [hmoved, ← Nat.div_add_mod (_ ^^^ _) (2 ^ s.numBase), Nat.xor_div_two_pow,
      Nat.xor_mod_two_pow,
      hhigh, hlow, Nat.mul_div_cancel _ (Nat.two_pow_pos _), Nat.mul_mod_left, Nat.xor_zero]
  have hin : 2 ^ s.numBase * block + i < 2 ^ s.fieldsEnd := by
    rw [hn, pow_add]
    calc 2 ^ s.numBase * block + i < 2 ^ s.numBase * block + 2 ^ s.numBase := by omega
      _ = 2 ^ s.numBase * (block + 1) := by ring
      _ ≤ 2 ^ s.numBase * 2 ^ n := Nat.mul_le_mul_left _ hblock
  have hsplit : 2 ^ s.numBase * (high * 2 ^ n + block) + i =
      high * 2 ^ s.fieldsEnd + ((2 ^ s.numBase * block + i : ℕ) : ℤ) := by
    rw [hn]
    push_cast
    ring
  show s.permute (2 ^ s.numBase * (high * 2 ^ n + block) + i) = _
  rw [hsplit, permute_add high hin, hxor, hn]
  push_cast
  ring

/-- Without bits a swizzle moves nothing. -/
theorem Swizzle.permute_of_numBits_eq_zero {s : Swizzle} (h : s.numBits = 0) : s.permute = id := by
  funext x
  have hpos : (0 : ℤ) < 2 ^ s.fieldsEnd := by positivity
  rw [permute, moved_of_numBits_eq_zero h, Nat.xor_zero,
    Int.toNat_of_nonneg (Int.emod_nonneg x hpos.ne'), Int.ediv_mul_add_emod]
  rfl

namespace ComposedLayout

variable {l : ComposedLayout} {A x : ℤ}

/-- The physical offset of the cell `x`. -/
def physical (l : ComposedLayout) (x : ℤ) : ℤ := l.inner.permute (l.offset + l.outer.offset x)

/-- The machine evaluates a composed layout to the physical offset. -/
theorem call_implements {ε : Type} (hl : l.outer.Valid) (h0 : 0 ≤ x) (hx : x < l.outer.cells) :
    (l.call (.leaf x) : Run ε ℤ).Implements (.ok (l.physical x)) := by
  rw [call, callWithOuterDelta]
  refine (Layout.call_implements hl h0 hx).bind_ok ?_
  by_cases hfits : I64.Fits (l.offset + l.outer.offset x)
  · rw [I64.add, I64.exact_of_fits hfits]
    show Run.Implements (I64.exact (l.offset + l.outer.offset x + 0) >>= _) _
    rw [add_zero, I64.exact_of_fits hfits, physical, ← Swizzle.apply_eq_permute l.valid hfits]
    exact .ok _
  · rw [I64.add, I64.exact_of_not_fits hfits]
    rfl

/-- **The blocks of a composed layout.** -/
theorem unionOfBlocks_of_maxAlignment (hl : l.outer.shape.Congruent l.outer.stride)
    (h : l.maxAlignment = .ok A) :
    0 < A ∧ l.outer.Valid ∧ UnionOfBlocks A (l.physical '' Set.Ico 0 l.outer.cells) := by
  obtain ⟨outerAlignment, houter, hrest⟩ := Run.bind_eq_ok.mp h
  obtain ⟨-, hv, hblocks⟩ := Cute.unionOfBlocks_of_maxAlignment hl houter
  set withOffset := gcd outerAlignment (unsignedToI64 l.offset.natAbs)
  obtain ⟨hwo, hwo', hwo0⟩ := gcd_dvd outerAlignment (unsignedToI64 l.offset.natAbs)
  obtain ⟨hgo, hgs, hg0⟩ := gcd_dvd withOffset (2 ^ l.inner.numBase)
  have hbase : (0 : ℤ) < 2 ^ l.inner.numBase := by positivity
  -- the returned width divides the alignments of all three parts
  obtain ⟨hpos, hdvd, hmoves⟩ : 0 < A ∧ A ∣ withOffset ∧ MovesBlocks A l.inner.permute := by
    have hmax : ∀ g : ℤ, 0 < max g 1 := fun g => lt_max_of_lt_right one_pos
    split at hrest
    · rename_i hbits
      obtain rfl := Except.ok.inj hrest
      rw [Swizzle.permute_of_numBits_eq_zero hbits]
      exact ⟨hmax _, max_one_dvd hwo0 dvd_rfl, movesBlocks_id _⟩
    · obtain rfl := Except.ok.inj hrest
      exact ⟨hmax _, max_one_dvd hg0 hgo, l.inner.movesBlocks_permute.of_dvd (hmax _) hbase
        (max_one_dvd hg0 hgs)⟩
  have hoffset : A ∣ l.offset :=
    Int.dvd_natAbs.mp (dvd_of_unsignedToI64 (hdvd.trans hwo'))
  have hphysical : l.physical '' Set.Ico 0 l.outer.cells =
      (l.inner.permute ∘ (l.offset + ·)) '' (l.outer.offset '' Set.Ico 0 l.outer.cells) := by
    rw [Set.image_image]
    rfl
  refine ⟨hpos, hv, ?_⟩
  rw [hphysical]
  exact (hblocks.of_dvd hpos (hdvd.trans hwo)).image hpos (hmoves.comp (movesBlocks_add hoffset))

end ComposedLayout

/-! ### The law -/

/-- **A vector access of the returned width stays in the layout.**  For a layout, and for a composed
layout, the evaluator computes the offset of every cell unless it overflows, and the set of these
offsets is a union of complete aligned blocks of the returned width. -/
theorem maxAlignment_spec :
    (∀ (l : Layout) (A : ℤ), l.shape.Congruent l.stride → maxAlignment l = .ok A → 0 < A ∧
      (∀ x, 0 ≤ x → x < l.cells →
        (l.call (.leaf x) : Run AlgebraError ℤ).Implements (.ok (l.offset x))) ∧
      UnionOfBlocks A (l.offset '' Set.Ico 0 l.cells)) ∧
    ∀ (l : ComposedLayout) (A : ℤ), l.outer.shape.Congruent l.outer.stride →
      l.maxAlignment = .ok A → 0 < A ∧
      (∀ x, 0 ≤ x → x < l.outer.cells →
        (l.call (.leaf x) : Run AlgebraError ℤ).Implements (.ok (l.physical x))) ∧
      UnionOfBlocks A (l.physical '' Set.Ico 0 l.outer.cells) := by
  constructor
  · intro l A hl h
    obtain ⟨hpos, hv, hblocks⟩ := unionOfBlocks_of_maxAlignment hl h
    exact ⟨hpos, fun x h0 hx => Layout.call_implements hv h0 hx, hblocks⟩
  · intro l A hl h
    obtain ⟨hpos, hv, hblocks⟩ := ComposedLayout.unionOfBlocks_of_maxAlignment hl h
    exact ⟨hpos, fun x h0 hx => ComposedLayout.call_implements hv h0 hx, hblocks⟩

/-- Runs of eight offsets, shifted by four: a vector access of four, and a swizzle of pairs halves
it. -/
theorem maxAlignment_spec_shifted :
    UnionOfBlocks 4 ((Layout.mk (.tuple [.leaf 8, .leaf 16]) (.tuple [.leaf 1, .leaf 4])).offset ''
      Set.Ico 0 128) ∧
    UnionOfBlocks 2 ((ComposedLayout.mk ⟨2, 1, 3⟩ 4
      ⟨.tuple [.leaf 8, .leaf 16], .tuple [.leaf 1, .leaf 4]⟩ .elements (by decide)).physical ''
        Set.Ico 0 128) :=
  ⟨(maxAlignment_spec.1 ⟨.tuple [.leaf 8, .leaf 16], .tuple [.leaf 1, .leaf 4]⟩ 4 rfl
      (by decide +kernel)).2.2,
    (maxAlignment_spec.2 ⟨⟨2, 1, 3⟩, 4, ⟨.tuple [.leaf 8, .leaf 16], .tuple [.leaf 1, .leaf 4]⟩,
      .elements, by decide⟩ 2 rfl (by decide +kernel)).2.2⟩

/-- A release build wraps where it counts the cells of `(4,1024,2^52+1):(1,16,6)`, takes the last
mode for broadcast and returns the width `4`.  The layout reaches offset `8` but not `10`. -/
theorem maxAlignment_wraps :
    (Layout.mk (.tuple [.leaf 4, .leaf 1024, .leaf 4503599627370497])
        (.tuple [.leaf 1, .leaf 16, .leaf 6])).Valid ∧
      @maxAlignment .wrapping ⟨.tuple [.leaf 4, .leaf 1024, .leaf 4503599627370497],
        .tuple [.leaf 1, .leaf 16, .leaf 6]⟩ = .ok 4 ∧
      ¬UnionOfBlocks 4 ((Layout.mk (.tuple [.leaf 4, .leaf 1024, .leaf 4503599627370497])
        (.tuple [.leaf 1, .leaf 16, .leaf 6])).offset '' Set.Ico 0
          (4 * (1024 * 4503599627370497))) := by
  refine ⟨⟨rfl, by decide⟩, by decide +kernel, fun hblocks => ?_⟩
  have height : (8 : ℤ) ∈ (Layout.mk (.tuple [.leaf 4, .leaf 1024, .leaf 4503599627370497])
      (.tuple [.leaf 1, .leaf 16, .leaf 6])).offset ''
        Set.Ico 0 (4 * (1024 * 4503599627370497)) :=
    ⟨4098, by simp, by decide⟩
  obtain ⟨x, -, hx⟩ := hblocks 8 height 10 (by decide)
  -- `10` would be a digit below `4` and multiples of `16` and of `6`
  have hten : x % 4 * 1 + (x / 4 % 1024 * 16 + (x / 4 / 1024 % 4503599627370497 * 6 + 0)) = 10 := hx
  have hlast : 0 ≤ x / 4 / 1024 % 4503599627370497 := Int.emod_nonneg _ (by decide)
  generalize x / 4 / 1024 % 4503599627370497 = k at hten hlast
  have hmiddle : 0 ≤ x / 4 % 1024 := Int.emod_nonneg _ (by decide)
  generalize x / 4 % 1024 = j at hten hmiddle
  have hj : j = 0 := by omega
  obtain hk | hk : k ≤ 1 ∨ 2 ≤ k := by omega
  · omega
  · omega

end CudaOxide.Cute
