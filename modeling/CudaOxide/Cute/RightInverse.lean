import CudaOxide.Cute.Complement
import CudaOxide.Cute.Idx2crd

namespace CudaOxide.Cute

open Lib Strided

/-!
# Right inverse

`right_inverse a` sorts the coalesced modes of `a` by stride and keeps them while they continue
one another from stride one (`algebra/mapping.rs`).

* `rightInverse_implements` — the loop over the sorted triples, over `ℤ`.
* `eval_inverseModes` — the kept modes read the digits of an offset back to the places they come
  from, so walking `a` at the result gives the offset again.
* `rightInverse_returns_iff` — it overflows where coalescing `a` or counting its cells does.
* `rightInverse_spec` — `a (r x) = x` wherever `r` is defined; `r` is the full inverse of a
  bijection.
-/

variable {a r : Layout}

/-! ### The machine function -/

/-- The derived order of `(stride, shape, rstride)` triples. -/
def tripleLe (x y : ℤ × ℤ × ℤ) : Prop :=
  x.1 < y.1 ∨ x.1 = y.1 ∧ (x.2.1 < y.2.1 ∨ x.2.1 = y.2.1 ∧ x.2.2 ≤ y.2.2)

instance : DecidableRel tripleLe := fun _ _ => inferInstanceAs (Decidable (_ ∨ _ ∧ (_ ∨ _ ∧ _)))

/-- The loop of `right_inverse` over the sorted triples: zero strides are skipped, and the loop
stops at the first mode that does not continue the ones before it. -/
def consumeChain [Build] (current : ℤ) : List (ℤ × ℤ × ℤ) → Run AlgebraError (List (ℤ × ℤ))
  | [] => .ok []
  | (stride, shape, rstride) :: dsa =>
    if stride = 0 then consumeChain current dsa
    else if current ≠ stride then .ok []
    else do
      let next ← I64.mul shape stride
      let out ← consumeChain next dsa
      .ok ((shape, rstride) :: out)

/-- The prefix products of the extents become the strides of the inverse; the modes are sorted
with them by stride and consumed as a chain. -/
def invertModes [Build] (modes : List (ℤ × ℤ)) : Run AlgebraError Layout := do
  let rstrides ← Layout.runningStrides 1 (modes.map Prod.fst)
  let dsa := (List.zipWith (fun m r => (m.2, m.1, r)) modes rstrides).insertionSort tripleLe
  let out ← consumeChain 1 dsa
  coalesce (layoutFromFlat (if out.isEmpty then [(1, 0)] else out))

/-- A single one-cell mode. -/
def isOneCell : List (ℤ × ℤ) → Bool
  | [m] => m.1 = 1
  | _ => false

/-- The reverse lookup of `a`. -/
def rightInverse [Build] (a : Layout) : Run AlgebraError Layout := do
  let ac ← coalesce a
  if isOneCell ac.flatModes then .ok (layoutFromFlat [(1, 0)])
  else invertModes ac.flatModes

/-! ### The kept modes over the integers -/

/-- The triples that the loop keeps. -/
def keptChain (current : ℤ) : List (ℤ × ℤ × ℤ) → List (ℤ × ℤ × ℤ)
  | [] => []
  | e :: dsa =>
    if e.1 = 0 then keptChain current dsa
    else if current ≠ e.1 then []
    else e :: keptChain (e.2.1 * e.1) dsa

/-- The sorted triples of a mode list. -/
def sortedPlaces (ms : List (ℤ × ℤ)) : List (ℤ × ℤ × ℤ) :=
  (places 1 ms).insertionSort tripleLe

/-- The modes of the right inverse, before they are coalesced. -/
def inverseModes (ms : List (ℤ × ℤ)) : List (ℤ × ℤ) :=
  (keptChain 1 (sortedPlaces ms)).map Prod.snd

/-- The loop keeps the modes that continue the chain, unless a product overflows. -/
theorem consumeChain_implements (current : ℤ) (dsa : List (ℤ × ℤ × ℤ)) :
    (consumeChain current dsa).Implements (.ok ((keptChain current dsa).map Prod.snd)) := by
  induction dsa generalizing current with
  | nil => exact .ok _
  | cons e dsa ih =>
    unfold consumeChain keptChain
    split
    · exact ih current
    · split
      · exact .ok _
      · exact (I64.mul_implements _ _).bind_ok ((ih _).bind_ok (.ok _))

/-- Each mode with the place value of its digit. -/
theorem zipWith_prefixProducts (p : ℤ) (ms : List (ℤ × ℤ)) :
    List.zipWith (fun m r => (m.2, m.1, r)) ms (prefixProducts p (ms.map Prod.fst)) =
      places p ms := by
  induction ms generalizing p with
  | nil => rfl
  | cons m ms ih =>
    rw [List.map_cons, prefixProducts, List.zipWith_cons_cons, ih, places]

/-- The inverse of a list of modes, unless it overflows. -/
theorem invertModes_implements (ms : List (ℤ × ℤ)) :
    (invertModes ms).Implements (.ok (layoutFromFlat (merged (inverseModes ms)))) := by
  refine (runningStrides_implements 1 _).bind_ok ?_
  rw [zipWith_prefixProducts]
  refine (consumeChain_implements 1 _).bind_ok ?_
  show (coalesce (layoutFromFlat (if (inverseModes ms).isEmpty then _ else _)) :
    Run AlgebraError Layout).Implements _
  split
  · rename_i hnil
    rw [List.isEmpty_iff.mp hnil]
    exact coalesce_layoutFromFlat (List.cons_ne_nil _ _)
  · rename_i hne
    exact coalesce_layoutFromFlat fun h => hne (List.isEmpty_iff.mpr h)

/-- Modes with more than one cell are not a single cell. -/
theorem isOneCell_of_one_lt {ms : List (ℤ × ℤ)} (h : ∀ m ∈ ms, 1 < m.1) :
    isOneCell ms = false := by
  match ms, h with
  | [], _ => rfl
  | [m], h =>
    have := h m List.mem_cons_self
    simp only [isOneCell, decide_eq_false_iff_not]
    omega
  | _ :: _ :: _, _ => rfl

/-- `right_inverse` never reports an error. -/
theorem rightInverse_implements (ha : a.Valid) : (rightInverse a).Implements
    (.ok (layoutFromFlat (merged (inverseModes (merged a.flatModes))))) := by
  refine (coalesce_implements a).bind_ok ?_
  have hext := merged_one_lt ha.pos
  cases hms : merged a.flatModes with
  | nil => exact .ok _
  | cons m ms =>
    rw [hms] at hext
    rw [flatModes_layoutFromFlat_cons, isOneCell_of_one_lt hext]
    exact invertModes_implements (m :: ms)

/-! ### Reading an offset back -/

/-- The chain is a part of the sorted modes, in order. -/
theorem keptChain_sublist (current : ℤ) (dsa : List (ℤ × ℤ × ℤ)) :
    (keptChain current dsa).Sublist dsa := by
  induction dsa generalizing current with
  | nil => exact List.Sublist.slnil
  | cons e dsa ih =>
    unfold keptChain
    split
    · exact (ih current).cons e
    · split
      · exact List.nil_sublist _
      · exact (ih _).cons_cons e

/-- The kept modes continue one another. -/
theorem chain_keptChain (current : ℤ) (dsa : List (ℤ × ℤ × ℤ)) :
    Chain current ((keptChain current dsa).map fun e => (e.2.1, e.1)) := by
  induction dsa generalizing current with
  | nil => trivial
  | cons e dsa ih =>
    unfold keptChain
    split
    · exact ih current
    · split
      · trivial
      · rename_i heq
        rw [not_not] at heq
        exact ⟨heq.symm, heq ▸ ih _⟩

/-- A chain is kept whole. -/
theorem keptChain_of_chain {current : ℤ} {dsa : List (ℤ × ℤ × ℤ)} (hcur : 0 < current)
    (hpos : ∀ e ∈ dsa, 0 < e.2.1) (h : Chain current (dsa.map fun e => (e.2.1, e.1))) :
    keptChain current dsa = dsa := by
  induction dsa generalizing current with
  | nil => rfl
  | cons e dsa ih =>
    obtain ⟨he, hpos⟩ := List.forall_mem_cons.mp hpos
    obtain ⟨hstride, hch⟩ := h
    have hstride : e.1 = current := hstride
    rw [keptChain, if_neg (by omega), if_neg (by omega), hstride,
      ih (mul_pos he hcur) hpos hch]

/-- **The right inverse reads offsets back.**  A coordinate of the kept modes is sent to a
coordinate of `ms` whose offset is the number one started from. -/
theorem eval_inverseModes {ms : List (ℤ × ℤ)} (hms : ∀ m ∈ ms, 1 < m.1) :
    Pos (inverseModes ms) ∧ ∀ x, 0 ≤ x → x < size (inverseModes ms) →
      0 ≤ eval (inverseModes ms) x ∧ eval (inverseModes ms) x < size ms ∧
        eval ms (eval (inverseModes ms) x) = x := by
  have hpos : Pos ms := fun m hm => by
    have := hms m hm
    omega
  set sel := keptChain 1 (sortedPlaces ms) with hsel
  obtain ⟨unsel, hperm⟩ := (keptChain_sublist 1 (sortedPlaces ms)).exists_perm_append
  have hperm : (places 1 ms).Perm (sel ++ unsel) :=
    (List.perm_insertionSort tripleLe _).symm.trans hperm
  have hnodup : (sel ++ unsel).Nodup := hperm.nodup_iff.mp (nodup_places one_pos hms)
  have hext : ∀ e ∈ places 1 ms, 0 < e.2.1 := fun e he => by
    have := List.mem_map_of_mem (f := fun e : ℤ × ℤ × ℤ => (e.2.1, e.1)) he
    rw [map_places] at this
    exact hpos (e.2.1, e.1) this
  have hextsel : ∀ e ∈ sel, 0 < e.2.1 := fun e he =>
    hext e (hperm.mem_iff.mpr (List.mem_append_left _ he))
  have hinv : inverseModes ms = sel.map fun e => (e.2.1, e.2.2) := rfl
  have hposs : Pos (sel.map fun e => (e.2.1, e.1)) := by
    rintro m hm
    obtain ⟨e, he, rfl⟩ := List.mem_map.mp hm
    exact hextsel e he
  have hposi : Pos (inverseModes ms) := by
    rintro m hm
    obtain ⟨e, he, rfl⟩ := List.mem_map.mp hm
    exact hextsel e he
  refine ⟨hposi, fun x h0 hx => ?_⟩
  -- the digits of `x` at the kept places, and zero at the others
  have hsum : ∀ w : ℤ × ℤ × ℤ → ℤ, ((places 1 ms).map fun e => digitAt sel x e * w e).sum =
      eval (sel.map fun e => (e.2.1, w e)) x := fun w => by
    have hzero : (unsel.map fun e => digitAt sel x e * w e).sum = 0 := by
      refine List.sum_eq_zero fun y hy => ?_
      obtain ⟨e, he, rfl⟩ := List.mem_map.mp hy
      have hne : e ∉ sel := fun hs => (List.nodup_append.mp hnodup).2.2 e hs e he rfl
      rw [digitAt_of_not_mem hne, zero_mul]
    rw [(hperm.map _).sum_eq, List.map_append, List.sum_append, hzero, add_zero,
      sum_digitAt (List.nodup_append.mp hnodup).1]
  obtain ⟨X, hX0, hX, hplace, heval⟩ := eval_places hpos (digitAt sel x)
    fun e he => digitAt_range hextsel (hext e he) x
  rw [hsum, one_mul] at hplace
  rw [hsum] at heval
  rw [hinv, hplace]
  refine ⟨hX0, hX, heval.trans ?_⟩
  have hchain : Chain 1 (sel.map fun e => (e.2.1, e.1)) := chain_keptChain 1 _
  have hsize : size (sel.map fun e => (e.2.1, e.1)) = size (inverseModes ms) :=
    size_congr (by rw [hinv, List.map_map, List.map_map]; rfl)
  rw [eval_chain hposs hchain h0 (hsize ▸ hx), mul_one]

/-! ### The full inverse of a bijection -/

/-- The sorted places are the modes in another order. -/
theorem sortedPlaces_perm (ms : List (ℤ × ℤ)) :
    ((sortedPlaces ms).map fun e => (e.2.1, e.1)).Perm ms := by
  have h := (List.perm_insertionSort tripleLe (places 1 ms)).map fun e => (e.2.1, e.1)
  rwa [map_places] at h

/-- Their strides ascend. -/
theorem pairwise_sortedPlaces (ms : List (ℤ × ℤ)) :
    ((sortedPlaces ms).map fun e => (e.2.1, e.1)).Pairwise fun m m' => m.2 ≤ m'.2 := by
  have : Std.Total tripleLe := ⟨fun x y => by unfold tripleLe; omega⟩
  have : IsTrans _ tripleLe := ⟨fun x y z => by unfold tripleLe; omega⟩
  refine List.pairwise_map.mpr ((List.pairwise_insertionSort tripleLe (places 1 ms)).imp ?_)
  intro x y hxy
  unfold tripleLe at hxy
  show x.1 ≤ y.1
  omega

/-- When the modes fill an interval, sorting them makes a chain, and all of them are kept. -/
theorem keptChain_sortedPlaces {ms : List (ℤ × ℤ)} {N : ℤ} (hms : ∀ m ∈ ms, 1 < m.1)
    (hnn : Nonneg ms) (hf : Fills ms N) :
    keptChain 1 (sortedPlaces ms) = sortedPlaces ms ∧
      Chain 1 ((sortedPlaces ms).map fun e => (e.2.1, e.1)) := by
  have hperm := sortedPlaces_perm ms
  have hpos : Pos ms := fun m hm => by
    have := hms m hm
    omega
  have hch : Chain 1 ((sortedPlaces ms).map fun e => (e.2.1, e.1)) :=
    chain_of_filling (fun m hm => hms m (hperm.mem_iff.mp hm))
      (fun m hm => hnn m (hperm.mem_iff.mp hm)) (pairwise_sortedPlaces ms)
      ((fills_perm hpos hperm.symm).mp hf)
  refine ⟨keptChain_of_chain one_pos (fun e he => ?_) hch, hch⟩
  have := List.mem_map_of_mem (f := fun e : ℤ × ℤ × ℤ => (e.2.1, e.1)) he
  exact hpos (e.2.1, e.1) (hperm.mem_iff.mp this)

/-- Where the layout fills an interval, every mode is kept. -/
theorem size_inverseModes {ms : List (ℤ × ℤ)} {N : ℤ} (hms : ∀ m ∈ ms, 1 < m.1)
    (hnn : Nonneg ms) (hf : Fills ms N) : size (inverseModes ms) = size ms := by
  have hext : (inverseModes ms).map Prod.fst =
      ((sortedPlaces ms).map fun e => (e.2.1, e.1)).map Prod.fst := by
    rw [inverseModes, (keptChain_sortedPlaces hms hnn hf).1, List.map_map, List.map_map]
    rfl
  rw [size_congr hext, size_perm (sortedPlaces_perm ms)]

/-- The layout that `right_inverse` returns, where it does not overflow. -/
def inverseLayout (a : Layout) : Layout :=
  layoutFromFlat (merged (inverseModes (merged a.flatModes)))

/-- Walking `a` at the result of the inverse gives the offset again. -/
theorem offset_inverseLayout (ha : a.Valid) :
    (inverseLayout a).Valid ∧ ∀ x, 0 ≤ x → x < (inverseLayout a).cells →
      0 ≤ (inverseLayout a).offset x ∧ (inverseLayout a).offset x < a.cells ∧
        a.offset ((inverseLayout a).offset x) = x := by
  obtain ⟨hpos, hread⟩ := eval_inverseModes (merged_one_lt ha.pos)
  refine ⟨valid_layoutFromFlat (merged_pos hpos), fun x h0 hx => ?_⟩
  rw [inverseLayout, cells_layoutFromFlat, size_merged hpos] at hx
  rw [inverseLayout, offset_layoutFromFlat, eval_merged hpos]
  have h := hread x h0 hx
  rwa [size_merged ha.pos, eval_merged ha.pos] at h

/-- The inverse of a layout that fills an interval has as many cells. -/
theorem cells_inverseLayout (ha : a.Valid) {N : ℤ} (hf : Fills a.flatModes N) :
    (inverseLayout a).cells = a.cells := by
  have hpos := (eval_inverseModes (merged_one_lt ha.pos)).1
  have hmerged : Fills (merged a.flatModes) N := (SameWalk.merged ha.pos).fills_iff.mpr hf
  rw [inverseLayout, cells_layoutFromFlat, size_merged hpos,
    size_inverseModes (merged_one_lt ha.pos) (hmerged.nonneg (merged_one_lt ha.pos)) hmerged,
    size_merged ha.pos]
  rfl

/-- The inverse of a bijection, on both sides. -/
theorem invOn_inverseLayout (ha : a.Valid) (hf : Fills a.flatModes a.cells) :
    Set.InvOn a.offset (inverseLayout a).offset (Set.Ico 0 a.cells) (Set.Ico 0 a.cells) ∧
      Set.BijOn (inverseLayout a).offset (Set.Ico 0 a.cells) (Set.Ico 0 a.cells) := by
  have hread := (offset_inverseLayout ha).2
  rw [cells_inverseLayout ha hf] at hread
  have hmaps : Set.MapsTo (inverseLayout a).offset (Set.Ico 0 a.cells) (Set.Ico 0 a.cells) :=
    fun x hx => ⟨(hread x hx.1 hx.2).1, (hread x hx.1 hx.2).2.1⟩
  have hleft : Set.LeftInvOn a.offset (inverseLayout a).offset (Set.Ico 0 a.cells) :=
    fun x hx => (hread x hx.1 hx.2).2.2
  have hright : Set.RightInvOn a.offset (inverseLayout a).offset (Set.Ico 0 a.cells) :=
    fun i hi => by
      have hx := hf.mapsTo hi
      exact hf.injOn (hmaps hx) hi (hleft hx)
  exact ⟨⟨hleft, hright⟩, Set.InvOn.bijOn ⟨hleft, hright⟩ hmaps hf.mapsTo⟩

/-! ### When an operation overflows -/

/-- The last running product is the number of cells. -/
theorem fits_of_runningStrides {ns rs : List ℤ} {p : ℤ} (hns : ns ≠ [])
    (h : (Layout.runningStrides p ns : Run AlgebraError (List ℤ)) = .ok rs) :
    I64.Fits (p * ns.prod) := by
  induction ns generalizing p rs with
  | nil => exact absurd rfl hns
  | cons n ns ih =>
    obtain ⟨next, hnext, h⟩ := Run.bind_eq_ok.mp h
    obtain ⟨rest, hrest, -⟩ := Run.bind_eq_ok.mp h
    obtain ⟨hfits, rfl⟩ := I64.exact_eq_ok.mp hnext
    cases ns with
    | nil => simpa using hfits
    | cons n' ns =>
      rw [List.prod_cons, ← mul_assoc]
      exact ih (List.cons_ne_nil _ _) hrest

/-- The kept places make up no more cells than there are. -/
theorem size_keptChain_le {ms : List (ℤ × ℤ)} (hms : ∀ m ∈ ms, 1 < m.1)
    {dsa : List (ℤ × ℤ × ℤ)} (hsub : dsa.Sublist (sortedPlaces ms)) :
    Pos (dsa.map fun e => (e.2.1, e.1)) ∧ size (dsa.map fun e => (e.2.1, e.1)) ≤ size ms := by
  have hperm := sortedPlaces_perm ms
  obtain ⟨rest, hrest⟩ := (hsub.map fun e => (e.2.1, e.1)).exists_perm_append
  have hpos : Pos ((dsa.map fun e => (e.2.1, e.1)) ++ rest) := fun m hm => by
    have := hms m (hperm.mem_iff.mp (hrest.mem_iff.mpr hm))
    omega
  obtain ⟨hposd, hposr⟩ := pos_append.mp hpos
  refine ⟨hposd, ?_⟩
  rw [← size_perm (hrest.symm.trans hperm), size_append]
  exact le_mul_of_one_le_right (size_pos hposd).le (size_pos hposr)

/-- The loop multiplies out the ends of the kept modes, whose cells are an `i64`. -/
theorem consumeChain_eq {current : ℤ} {dsa : List (ℤ × ℤ × ℤ)} (hcur : 0 < current)
    (hpos : ∀ e ∈ dsa, 0 < e.2.1)
    (hfits : I64.Fits (current * size ((keptChain current dsa).map fun e => (e.2.1, e.1)))) :
    consumeChain current dsa = .ok ((keptChain current dsa).map Prod.snd) := by
  induction dsa generalizing current with
  | nil => rfl
  | cons e dsa ih =>
    obtain ⟨he, hpos⟩ := List.forall_mem_cons.mp hpos
    unfold consumeChain
    unfold keptChain at hfits ⊢
    split
    · rename_i hzero
      rw [if_pos hzero] at hfits
      exact ih hcur hpos hfits
    · rename_i hzero
      rw [if_neg hzero] at hfits
      split
      · rfl
      · rename_i heq
        rw [if_neg heq, List.map_cons, size_cons, ← mul_assoc] at hfits
        obtain rfl := not_not.mp heq
        have hrest : Pos ((keptChain (e.2.1 * e.1) dsa).map fun e => (e.2.1, e.1)) := fun m hm => by
          obtain ⟨x, hx, rfl⟩ := List.mem_map.mp hm
          exact hpos x ((keptChain_sublist _ dsa).subset hx)
        rw [mul_comm e.1] at hfits
        obtain ⟨hnext, -⟩ := fits_of_mul (mul_pos he hcur) (size_pos hrest) hfits
        rw [I64.mul, I64.exact_of_fits hnext]
        show (consumeChain (e.2.1 * e.1) dsa >>= fun out => _) = _
        rw [ih (mul_pos he hcur) hpos hfits]
        rfl

/-- A place and its extent end within the cells. -/
theorem place_mul_le {ms : List (ℤ × ℤ)} {p : ℤ} (hp : 0 < p) (hms : ∀ m ∈ ms, 1 < m.1) :
    ∀ e ∈ places p ms, 0 < e.2.1 ∧ 0 < e.2.2 ∧ e.2.1 * e.2.2 ≤ p * size ms := by
  induction ms generalizing p with
  | nil => exact List.forall_mem_nil _
  | cons m ms ih =>
    obtain ⟨hm, hms⟩ := List.forall_mem_cons.mp hms
    have hm0 : 0 < m.1 := by omega
    have hrest : 0 < size ms := size_pos fun x hx => by have := hms x hx; omega
    have hsize : p * size (m :: ms) = p * m.1 * size ms := by
      rw [size_cons]
      ring
    rw [places, hsize]
    refine List.forall_mem_cons.mpr ⟨⟨hm0, hp, ?_⟩, ih (mul_pos hp hm0) hms⟩
    rw [mul_comm m.1]
    exact le_mul_of_one_le_right (mul_pos hp hm0).le hrest

/-- Where the size fits, no product on the way overflows. -/
theorem invertModes_eq {ms : List (ℤ × ℤ)} (hms : ∀ m ∈ ms, 1 < m.1)
    (hfits : I64.Fits (size ms)) :
    invertModes ms = .ok (layoutFromFlat (merged (inverseModes ms))) := by
  have hpos : Positive (ms.map Prod.fst) := List.forall_mem_map.mpr fun m hm => by
    have := hms m hm
    omega
  have hstrides := runningStrides_eq (ε := AlgebraError) one_pos hpos
    (by rwa [one_mul, ← size_eq_prod])
  have hplaces : ∀ e ∈ sortedPlaces ms, 0 < e.2.1 ∧ 0 < e.2.2 ∧ e.2.1 * e.2.2 ≤ size ms :=
    fun e he => by
      have hmem := (List.perm_insertionSort tripleLe _).mem_iff.mp he
      have h := place_mul_le one_pos hms e hmem
      rwa [one_mul] at h
  have hkept := size_keptChain_le hms (keptChain_sublist 1 (sortedPlaces ms))
  have hchain : consumeChain 1 (sortedPlaces ms) = .ok (inverseModes ms) := by
    refine consumeChain_eq one_pos (fun e he => (hplaces e he).1) ?_
    rw [one_mul]
    exact fits_of_le (size_pos hkept.1).le hkept.2 hfits
  rw [invertModes, hstrides]
  show (consumeChain 1 ((List.zipWith (fun m r => (m.2, m.1, r)) ms
    (prefixProducts 1 (ms.map Prod.fst))).insertionSort tripleLe) >>= fun out => _) = _
  rw [zipWith_prefixProducts]
  show (consumeChain 1 (sortedPlaces ms) >>= fun out => _) = _
  rw [hchain]
  -- the modes of the inverse end within the cells
  have hwithin : ∀ m ∈ inverseModes ms, m.1 ≠ 1 → Within (size ms) m := fun m hm _ => by
    obtain ⟨e, he, rfl⟩ := List.mem_map.mp hm
    obtain ⟨h1, h2, h3⟩ := hplaces e ((keptChain_sublist 1 _).subset he)
    exact ⟨h1, h2, h3⟩
  show coalesce (layoutFromFlat (if (inverseModes ms).isEmpty then _ else _)) = _
  split
  · rename_i hnil
    rw [List.isEmpty_iff.mp hnil]
    rfl
  · exact coalesce_layoutFromFlat_eq hfits hwithin

/-- `right_inverse` returns a layout exactly when `a` can be coalesced and its cells counted. -/
theorem rightInverse_returns_iff (ha : a.Valid) :
    (∃ r, rightInverse a = .ok r) ↔ MergesFit a.flatModes ∧ I64.Fits a.cells := by
  have hms := merged_one_lt ha.pos
  have hsize : size (merged a.flatModes) = a.cells := size_merged ha.pos
  constructor
  · rintro ⟨r, h⟩
    obtain ⟨ac, hac, h⟩ := Run.bind_eq_ok.mp h
    refine ⟨(coalesce_returns_iff (ε := AlgebraError) ha).mp ⟨ac, hac⟩, ?_⟩
    obtain rfl := (coalesce_implements a).eq_of_ok hac
    cases hcases : merged a.flatModes with
    | nil =>
      rw [hcases, size_nil] at hsize
      rw [← hsize]
      decide
    | cons m ms =>
      rw [hcases] at hms h hsize
      rw [flatModes_layoutFromFlat_cons] at h
      have hone : isOneCell (m :: ms) = false := isOneCell_of_one_lt hms
      rw [hone] at h
      obtain ⟨rs, hrs, -⟩ := Run.bind_eq_ok.mp h
      have hfits := fits_of_runningStrides (by simp) hrs
      rwa [one_mul, ← size_eq_prod, hsize] at hfits
  · rintro ⟨hmerges, hfits⟩
    obtain ⟨ac, hac⟩ := (coalesce_returns_iff (ε := AlgebraError) ha).mpr hmerges
    obtain rfl := (coalesce_implements a).eq_of_ok hac
    rw [rightInverse, hac]
    show ∃ r, (if isOneCell (layoutFromFlat (merged a.flatModes)).flatModes = true then _ else
      invertModes (layoutFromFlat (merged a.flatModes)).flatModes) = .ok r
    cases hcases : merged a.flatModes with
    | nil => exact ⟨_, rfl⟩
    | cons m ms =>
      rw [hcases] at hms hsize
      have hone : isOneCell (m :: ms) = false := isOneCell_of_one_lt hms
      rw [flatModes_layoutFromFlat_cons, hone]
      exact ⟨_, invertModes_eq hms (hsize ▸ hfits)⟩

/-- **The right inverse.**  `right_inverse` returns a layout `r` if `a` can be coalesced and its
cells counted in an `i64`, and overflows otherwise.  Then `a (r x) = x` for every cell `x` of `r`;
and when `a` has nonnegative strides and is a bijection onto `[0, size a)`, then `r` has as many
cells as `a` and is its inverse on both sides. -/
theorem rightInverse_spec (ha : a.Valid) :
    (¬(MergesFit a.flatModes ∧ I64.Fits a.cells) → rightInverse a = Run.panic .overflow) ∧
      (MergesFit a.flatModes ∧ I64.Fits a.cells →
        ∃ r : Layout, rightInverse a = .ok r ∧ r.Valid ∧
          (∀ x, 0 ≤ x → x < r.cells →
            0 ≤ r.offset x ∧ r.offset x < a.cells ∧ a.offset (r.offset x) = x) ∧
          (Nonneg a.flatModes → Set.BijOn a.offset (Set.Ico 0 a.cells) (Set.Ico 0 a.cells) →
            r.cells = a.cells ∧ ∀ i, 0 ≤ i → i < a.cells → r.offset (a.offset i) = i)) := by
  constructor
  · intro hfit
    refine (rightInverse_implements ha).ok_or_overflow.resolve_left fun h => hfit ?_
    exact (rightInverse_returns_iff ha).mp ⟨_, h⟩
  · intro hfit
    obtain ⟨r, h⟩ := (rightInverse_returns_iff ha).mpr hfit
    obtain rfl := (rightInverse_implements ha).eq_of_ok h
    obtain ⟨hvalid, hread⟩ := offset_inverseLayout ha
    refine ⟨inverseLayout a, h, hvalid, hread, fun _ hbij => ?_⟩
    obtain ⟨⟨_, hright⟩, _⟩ := invOn_inverseLayout ha hbij
    exact ⟨cells_inverseLayout ha hbij, fun i h0 hi => hright ⟨h0, hi⟩⟩

/-- `(3,2):(2,1)` numbers the cells of two threads with three values; its inverse is
`(2,3):(3,1)`. -/
theorem rightInverse_spec_rake :
    rightInverse ⟨.tuple [.leaf 3, .leaf 2], .tuple [.leaf 2, .leaf 1]⟩ =
        .ok ⟨.tuple [.leaf 2, .leaf 3], .tuple [.leaf 3, .leaf 1]⟩ ∧
      ∀ x, 0 ≤ x → x < 6 →
        (Layout.mk (.tuple [.leaf 3, .leaf 2]) (.tuple [.leaf 2, .leaf 1])).offset
        ((Layout.mk (.tuple [.leaf 2, .leaf 3]) (.tuple [.leaf 3, .leaf 1])).offset x) = x := by
  have hrun : rightInverse ⟨.tuple [.leaf 3, .leaf 2], .tuple [.leaf 2, .leaf 1]⟩ =
      .ok ⟨.tuple [.leaf 2, .leaf 3], .tuple [.leaf 3, .leaf 1]⟩ := by decide
  have hfit : MergesFit [(3, 2), (2, 1)] := by
    refine mergesFit_of_within (B := 6) (by decide) ?_
    simp only [List.forall_mem_cons, List.not_mem_nil, false_imp_iff, implies_true, and_true]
    exact ⟨fun _ => ⟨by decide, by decide, by decide⟩, fun _ => ⟨by decide, by decide, by decide⟩⟩
  obtain ⟨r, h, -, hread, -⟩ := (rightInverse_spec (a := ⟨.tuple [.leaf 3, .leaf 2],
    .tuple [.leaf 2, .leaf 1]⟩) ⟨rfl, by decide⟩).2 ⟨hfit, by decide⟩
  rw [hrun] at h
  cases h
  exact ⟨hrun, fun x h0 hx => (hread x h0 hx).2.2⟩

end CudaOxide.Cute
