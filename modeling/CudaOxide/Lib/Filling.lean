import CudaOxide.Lib.Strided

namespace CudaOxide.Lib.Strided

open Finset

/-!
# Walks that fill an interval

What it takes for the offsets of a walk to be exactly `0, 1, …, L - 1`.

* `chain_of_filling` — modes sorted by stride fill an interval only as a chain from stride one.
* `dvd_of_tiles` — an arithmetic progression of `n ≥ 2` steps of `d` tiles `[0, L)` by
  translates only when `n * d` divides `L`; `dvd_of_filling` is this for one mode of a walk.
-/

variable {ms xs : List (ℤ × ℤ)} {m : ℤ × ℤ} {c d p n L : ℤ}

/-- `ms` reaches each of `0, 1, …, L - 1` from exactly one coordinate. -/
def Fills (ms : List (ℤ × ℤ)) (L : ℤ) : Prop :=
  Set.BijOn (eval ms) (Set.Ico 0 (size ms)) (Set.Ico 0 L)

/-- The offsets of a walk that fills an interval, as a multiset. -/
theorem fills_iff (h : Pos ms) : Fills ms L ↔ offsetsFrom 0 ms = (Ico 0 L).val := bijOn_iff h L

/-- The order of the modes does not matter. -/
theorem fills_perm (h : Pos ms) (hperm : ms.Perm xs) : Fills ms L ↔ Fills xs L := by
  have hxs : Pos xs := fun m hm => h m (hperm.mem_iff.mpr hm)
  rw [fills_iff h, fills_iff hxs, offsetsFrom_perm hperm]

/-- A chain fills the interval of its cells. -/
theorem Chain.fills (h : Pos ms) (hch : Chain 1 ms) : Fills ms (size ms) :=
  (fills_iff h).mpr (offsetsFrom_chain h hch)

/-- A walk that repeats nothing and stays at or above zero moves forward in every mode. -/
theorem Fills.moving (hpos : Pos ms) (hf : Fills ms L) : ∀ m ∈ ms, 1 < m.1 → 0 < m.2 := by
  intro m hm hext
  -- the coordinate whose only digit is a one, in the mode `m`
  obtain ⟨c, h0, hc, hdigit⟩ := exists_single_digit hpos hm zero_le_one hext
  have hoff : eval ms c = m.2 := by
    rw [eval_eq_sumDigits, hdigit (fun m i => i * m.2) fun m => zero_mul m.2, one_mul]
  have hmem := (hf.mapsTo ⟨h0, hc⟩).1
  rw [hoff] at hmem
  refine lt_of_le_of_ne hmem fun hzero => ?_
  have hfirst : c = 0 := by
    refine hf.injOn ⟨h0, hc⟩ ⟨le_rfl, size_pos hpos⟩ ?_
    rw [hoff, ← hzero, eval_zero]
  -- the digit itself tells the coordinate from zero
  have hone := hdigit (fun _ i => i) fun _ => rfl
  rw [hfirst, sumDigits_zero fun _ => rfl] at hone
  exact absurd hone zero_ne_one

/-- A walk that fills an interval goes forward. -/
theorem Fills.nonneg (hext : ∀ m ∈ ms, 1 < m.1) (hf : Fills ms L) : Nonneg ms := by
  intro m hm
  have hpos : Pos ms := fun x hx => by
    have := hext x hx
    omega
  exact (hf.moving hpos m hm (hext m hm)).le

/-- It has as many cells as the interval. -/
theorem Fills.size_eq (h : Pos ms) (hL : 0 ≤ L) (hf : Fills ms L) : size ms = L := by
  have hcard : (offsetsFrom 0 ms).card = (Ico 0 L).val.card := by rw [(fills_iff h).mp hf]
  rw [offsetsFrom_zero_eq_map h, Multiset.card_map, Finset.card_val, Finset.card_val,
    Int.card_Ico, Int.card_Ico] at hcard
  have := size_pos h
  omega

/-! ### Lists of modes with the same walk -/

/-- Two lists of modes with the same cells and the same offsets. -/
structure SameWalk (xs ys : List (ℤ × ℤ)) : Prop where
  size_eq : size xs = size ys
  eval_eq : ∀ c, eval xs c = eval ys c

namespace SameWalk

variable {xs ys xs' ys' : List (ℤ × ℤ)}

protected theorem refl (xs : List (ℤ × ℤ)) : SameWalk xs xs := ⟨rfl, fun _ => rfl⟩

/-- Two walks are the same either way round. -/
protected theorem symm (h : SameWalk xs ys) : SameWalk ys xs :=
  ⟨h.size_eq.symm, fun c => (h.eval_eq c).symm⟩

/-- Three walks. -/
protected theorem trans {zs : List (ℤ × ℤ)} (h : SameWalk xs ys) (h' : SameWalk ys zs) :
    SameWalk xs zs :=
  ⟨h.size_eq.trans h'.size_eq, fun c => (h.eval_eq c).trans (h'.eval_eq c)⟩

/-- The same walks, appended to the same walks. -/
protected theorem append (hx : Pos xs) (hx' : Pos xs') (h : SameWalk xs xs')
    (h' : SameWalk ys ys') : SameWalk (xs ++ ys) (xs' ++ ys') :=
  ⟨by rw [size_append, size_append, h.size_eq, h'.size_eq], fun c => by
    rw [eval_append hx, eval_append hx', h.size_eq, h.eval_eq, h'.eval_eq]⟩

/-- The same walk fills the same interval. -/
theorem fills_iff (h : SameWalk xs ys) : Fills xs L ↔ Fills ys L := by
  have heval : eval xs = eval ys := funext h.eval_eq
  rw [Fills, Fills, h.size_eq, heval]

/-- Merging keeps the walk. -/
theorem merged (h : Pos xs) : SameWalk (merged xs) xs := ⟨size_merged h, eval_merged h⟩

/-- Replacing every list of modes by one with the same walk. -/
theorem flatMap {α : Type*} {G G' : α → List (ℤ × ℤ)} {as : List α}
    (h : ∀ x ∈ as, Pos (G x) ∧ Pos (G' x) ∧ SameWalk (G x) (G' x)) :
    SameWalk (as.flatMap G) (as.flatMap G') := by
  induction as with
  | nil => exact .refl _
  | cons x as ih =>
    obtain ⟨⟨hpos, hpos', hsame⟩, h⟩ := List.forall_mem_cons.mp h
    exact hsame.append hpos hpos' (ih h)

/-- One-cell modes at the end contribute nothing. -/
theorem append_units (hx : Pos xs) (k : ℕ) : SameWalk (xs ++ List.replicate k (1, 0)) xs := by
  have hunits : SameWalk (List.replicate k ((1 : ℤ), (0 : ℤ))) [] := by
    induction k with
    | zero => exact .refl _
    | succ k ih => exact ⟨by simpa [List.replicate_succ] using ih.size_eq,
        fun c => by simpa [List.replicate_succ] using ih.eval_eq c⟩
  simpa using SameWalk.append hx hx (.refl xs) hunits

end SameWalk

/-! ### Scaled walks -/

/-- Every stride times `k`. -/
def scale (k : ℤ) (ms : List (ℤ × ℤ)) : List (ℤ × ℤ) := ms.map fun m => (m.1, m.2 * k)

@[simp] theorem size_scale (k : ℤ) (ms : List (ℤ × ℤ)) : size (scale k ms) = size ms := by
  induction ms with
  | nil => rfl
  | cons m ms ih => exact congrArg (m.1 * ·) ih

/-- Scaled modes scale the walk. -/
theorem eval_scale (k : ℤ) (ms : List (ℤ × ℤ)) (c : ℤ) :
    eval (scale k ms) c = k * eval ms c := by
  induction ms generalizing c with
  | nil => exact (mul_zero k).symm
  | cons m ms ih =>
    show c % m.1 * (m.2 * k) + eval (scale k ms) (c / m.1) = k * eval (m :: ms) c
    rw [ih, eval_cons]
    ring

/-- Scaled modes are positive. -/
theorem pos_scale (k : ℤ) (h : Pos ms) : Pos (scale k ms) := by
  intro m hm
  obtain ⟨x, hx, rfl⟩ := List.mem_map.mp hm
  exact h x hx

/-! ### Injective walks -/

/-- The two digits of a number in range are in range. -/
theorem digits_mem_Ico {s n x : ℤ} (hs : 0 < s) (hx : x ∈ Set.Ico 0 (s * n)) :
    x % s ∈ Set.Ico 0 s ∧ x / s ∈ Set.Ico 0 n :=
  ⟨⟨Int.emod_nonneg x hs.ne', Int.emod_lt_of_pos x hs⟩, Int.ediv_nonneg hx.1 hs.le,
    Int.ediv_lt_of_lt_mul hs (by rw [mul_comm]; exact hx.2)⟩

/-- Two digits in range make a number in range. -/
theorem mem_Ico_of_digits {s n i j : ℤ} (hi : i ∈ Set.Ico 0 s) (hj : j ∈ Set.Ico 0 n) :
    i + s * j ∈ Set.Ico 0 (s * n) := by
  have hs : 0 < s := hi.1.trans_lt hi.2
  refine ⟨add_nonneg hi.1 (mul_nonneg hs.le hj.1), ?_⟩
  calc i + s * j < s + s * j := by linarith [hi.2]
    _ = s * (j + 1) := by ring
    _ ≤ s * n := mul_le_mul_of_nonneg_left (by have := hj.2; omega) hs.le

/-- Two digits number the cells of a product. -/
theorem bijOn_digits {s : ℤ} (n : ℤ) (hs : 0 < s) :
    Set.BijOn (fun p : ℤ × ℤ => p.1 + s * p.2) (Set.Ico 0 s ×ˢ Set.Ico 0 n)
      (Set.Ico 0 (s * n)) := by
  have hinv : Set.InvOn (fun x => (x % s, x / s)) (fun p : ℤ × ℤ => p.1 + s * p.2)
      (Set.Ico 0 s ×ˢ Set.Ico 0 n) (Set.Ico 0 (s * n)) := by
    constructor
    · intro p hp
      exact Prod.ext (digit_cons hp.1.1 hp.1.2).1 (digit_cons hp.1.1 hp.1.2).2
    · intro x _
      exact Int.emod_add_mul_ediv x s
  exact hinv.bijOn (fun p hp => mem_Ico_of_digits hp.1 hp.2) (fun x hx => digits_mem_Ico hs hx)

/-- The first of two joined walks repeats nothing when their join does not. -/
theorem injOn_of_append {xs ys : List (ℤ × ℤ)} (hx : Pos xs) (hy : Pos ys)
    (h : Set.InjOn (eval (xs ++ ys)) (Set.Ico 0 (size (xs ++ ys)))) :
    Set.InjOn (eval xs) (Set.Ico 0 (size xs)) := by
  have hin : ∀ i ∈ Set.Ico 0 (size xs), i ∈ Set.Ico 0 (size (xs ++ ys)) := fun i hi => by
    have := mem_Ico_of_digits hi (⟨le_rfl, size_pos hy⟩ : (0 : ℤ) ∈ Set.Ico 0 (size ys))
    rwa [mul_zero, add_zero, ← size_append] at this
  have heval : ∀ i ∈ Set.Ico 0 (size xs), eval (xs ++ ys) i = eval xs i := fun i hi => by
    have h := eval_append_pair hx ys (j := 0) hi.1 hi.2
    rwa [mul_zero, add_zero, eval_zero, add_zero] at h
  intro i hi j hj hij
  exact h (hin i hi) (hin j hj) (by rw [heval i hi, heval j hj, hij])

/-- Replacing the second of two joined walks by an injective choice of its cells keeps the join
injective. -/
theorem injOn_append_reindex {xs ys zs : List (ℤ × ℤ)} (hx : Pos xs) {κ : ℤ → ℤ}
    (hκ : ∀ j ∈ Set.Ico 0 (size zs), κ j ∈ Set.Ico 0 (size ys) ∧ eval zs j = eval ys (κ j))
    (hinj : Set.InjOn κ (Set.Ico 0 (size zs)))
    (h : Set.InjOn (eval (xs ++ ys)) (Set.Ico 0 (size (xs ++ ys)))) :
    Set.InjOn (eval (xs ++ zs)) (Set.Ico 0 (size (xs ++ zs))) := by
  have hs := size_pos hx
  rw [size_append] at h ⊢
  have hjoin : ∀ x ∈ Set.Ico 0 (size xs * size zs),
      eval (xs ++ zs) x = eval (xs ++ ys) (x % size xs + size xs * κ (x / size xs)) := by
    intro x hx'
    obtain ⟨hlow, hhigh⟩ := digits_mem_Ico hs hx'
    rw [eval_append hx, eval_append_pair hx ys hlow.1 hlow.2, eval_emod_size hx,
      (hκ _ hhigh).2]
  intro x hx' y hy' hxy
  obtain ⟨hlx, hhx⟩ := digits_mem_Ico hs hx'
  obtain ⟨hly, hhy⟩ := digits_mem_Ico hs hy'
  have hcell := h (mem_Ico_of_digits hlx (hκ _ hhx).1) (mem_Ico_of_digits hly (hκ _ hhy).1)
    (by rw [← hjoin x hx', ← hjoin y hy', hxy])
  have hlow : x % size xs = y % size xs := by
    have := congrArg (· % size xs) hcell
    simpa only [(digit_cons hlx.1 hlx.2).1, (digit_cons hly.1 hly.2).1] using this
  have hhigh : κ (x / size xs) = κ (y / size xs) := by
    have := congrArg (· / size xs) hcell
    simpa only [(digit_cons hlx.1 hlx.2).2, (digit_cons hly.1 hly.2).2] using this
  rw [← Int.emod_add_mul_ediv x (size xs), ← Int.emod_add_mul_ediv y (size xs), hlow,
    hinj hhx hhy hhigh]

/-- A walk that fills `[0, A)`, repeated at the multiples of `A` that another walk fills, fills
the product. -/
theorem fills_append {xs ys : List (ℤ × ℤ)} {A B : ℤ} (hx : Pos xs) (hxA : Fills xs A)
    (hA : size xs = A) {f : ℤ → ℤ} (hf : Set.BijOn f (Set.Ico 0 (size ys)) (Set.Ico 0 B))
    (hys : ∀ j ∈ Set.Ico 0 (size ys), eval ys j = A * f j) : Fills (xs ++ ys) (A * B) := by
  have hA0 : 0 < A := hA ▸ size_pos hx
  have heval : ∀ c ∈ Set.Ico 0 (A * size ys),
      eval (xs ++ ys) c = eval xs (c % A) + A * f (c / A) := fun c hc => by
    have hsplit : eval xs (c % A) = eval xs c := by rw [← hA, eval_emod_size hx]
    rw [eval_append hx, hsplit, hA, hys _ (digits_mem_Ico hA0 hc).2]
  unfold Fills
  rw [size_append, hA]
  rw [Fills, hA] at hxA
  refine ⟨fun c hc => ?_, fun c hc c' hc' h => ?_, fun y hy => ?_⟩
  · obtain ⟨hlow, hhigh⟩ := digits_mem_Ico hA0 hc
    rw [heval c hc]
    exact mem_Ico_of_digits (hxA.mapsTo hlow) (hf.mapsTo hhigh)
  · obtain ⟨hlow, hhigh⟩ := digits_mem_Ico hA0 hc
    obtain ⟨hlow', hhigh'⟩ := digits_mem_Ico hA0 hc'
    have hr := hxA.mapsTo hlow
    have hr' := hxA.mapsTo hlow'
    rw [heval c hc, heval c' hc'] at h
    have hmod : eval xs (c % A) = eval xs (c' % A) := by
      have := congrArg (· % A) h
      simpa only [(digit_cons hr.1 hr.2).1, (digit_cons hr'.1 hr'.2).1] using this
    have hdiv : f (c / A) = f (c' / A) := by
      have := congrArg (· / A) h
      simpa only [(digit_cons hr.1 hr.2).2, (digit_cons hr'.1 hr'.2).2] using this
    rw [← Int.emod_add_mul_ediv c A, ← Int.emod_add_mul_ediv c' A, hxA.injOn hlow hlow' hmod,
      hf.injOn hhigh hhigh' hdiv]
  · obtain ⟨hlow, hhigh⟩ := digits_mem_Ico hA0 hy
    obtain ⟨i, hi, hiy⟩ := hxA.surjOn hlow
    obtain ⟨j, hj, hjy⟩ := hf.surjOn hhigh
    refine ⟨i + A * j, mem_Ico_of_digits hi hj, ?_⟩
    rw [heval _ (mem_Ico_of_digits hi hj), (digit_cons hi.1 hi.2).1, (digit_cons hi.1 hi.2).2,
      hiy, hjy, Int.emod_add_mul_ediv]

/-! ### Sorted modes -/

/-- A walk whose strides are all at least `d` stays at zero or moves by at least `d`. -/
theorem eval_eq_zero_or_le (hpos : Pos ms) (hd : 0 ≤ d) (hms : ∀ m ∈ ms, d ≤ m.2) (h0 : 0 ≤ c) :
    eval ms c = 0 ∨ d ≤ eval ms c := by
  induction ms generalizing c with
  | nil => exact Or.inl rfl
  | cons m ms ih =>
    obtain ⟨hm, hpos⟩ := pos_cons.mp hpos
    obtain ⟨hle, hms⟩ := List.forall_mem_cons.mp hms
    have hnn : Nonneg ms := fun x hx => hd.trans (hms x hx)
    have hq := Int.ediv_nonneg h0 hm.le
    have hrest := eval_nonneg hpos hnn hq
    have hdig := Int.emod_nonneg c hm.ne'
    rw [eval_cons]
    rcases hdig.eq_or_lt with hz | hpos'
    · rw [← hz, zero_mul, zero_add]
      exact ih hpos hms hq
    · right
      nlinarith

/-- The first mode after a chain starts where the chain ends. -/
private theorem stride_after_chain {post : List (ℤ × ℤ)} (hpos : Pos (xs ++ m :: post))
    (hm : 1 < m.1) (hm0 : 0 ≤ m.2) (hpost : ∀ x ∈ post, m.2 ≤ x.2) (hch : Chain 1 xs)
    (hf : Fills (xs ++ m :: post) L) : m.2 = size xs := by
  obtain ⟨hxs, hrest⟩ := pos_append.mp hpos
  have hpostsize := size_pos (pos_cons.mp hrest).2
  have hP := size_pos hxs
  have hle : size xs < size (xs ++ m :: post) := by
    rw [size_append, size_cons]
    exact lt_mul_of_one_lt_right hP (by nlinarith)
  rcases lt_trichotomy m.2 (size xs) with hlt | heq | hgt
  · -- the chain and the mode both reach `m.2`
    have h1 : eval (xs ++ m :: post) m.2 = m.2 := by
      have h := eval_append_pair hxs (m :: post) (j := 0) hm0 hlt
      rw [mul_zero, add_zero, eval_zero, add_zero] at h
      rw [h, eval_chain hxs hch hm0 hlt, mul_one]
    have h2 : eval (xs ++ m :: post) (size xs) = m.2 := by
      have h := eval_append_pair hxs (m :: post) (i := 0) (j := 1) le_rfl hP
      rw [mul_one, zero_add] at h
      rw [h, eval_zero, eval_cons, Int.emod_eq_of_lt zero_le_one hm,
        Int.ediv_eq_zero_of_lt zero_le_one hm]
      simp
    have := hf.injOn ⟨hm0, hlt.trans hle⟩ ⟨hP.le, hle⟩ (h1.trans h2.symm)
    omega
  · exact heq
  · -- nothing reaches the end of the chain
    have hL : size (xs ++ m :: post) = L := by
      refine hf.size_eq hpos ?_
      have h0 := hf.mapsTo (show (0 : ℤ) ∈ Set.Ico 0 _ from ⟨le_rfl, size_pos hpos⟩)
      exact h0.1.trans h0.2.le
    have hin : size xs < L := hL ▸ hle
    obtain ⟨c, ⟨h0, _⟩, hc⟩ := hf.surjOn ⟨hP.le, hin⟩
    have hlow := Int.emod_nonneg c hP.ne'
    have hlow' := Int.emod_lt_of_pos c hP
    rw [eval_append hxs, ← eval_emod_size hxs, eval_chain hxs hch hlow hlow', mul_one] at hc
    have hall : ∀ x ∈ m :: post, m.2 ≤ x.2 := List.forall_mem_cons.mpr ⟨le_rfl, hpost⟩
    rcases eval_eq_zero_or_le hrest hm0 hall (Int.ediv_nonneg h0 hP.le) with h | h <;> omega

/-- The modes behind a chain continue it: the first one must start where the chain ends. -/
private theorem chain_append_of_filling {post : List (ℤ × ℤ)} (hpos : Pos (xs ++ post))
    (hext : ∀ m ∈ post, 1 < m.1) (hnn : Nonneg post)
    (hsort : post.Pairwise fun m m' => m.2 ≤ m'.2) (hch : Chain 1 xs)
    (hf : Fills (xs ++ post) L) : Chain 1 (xs ++ post) := by
  induction post generalizing xs with
  | nil => rwa [List.append_nil]
  | cons m post ih =>
    obtain ⟨hm, hext⟩ := List.forall_mem_cons.mp hext
    obtain ⟨hm0, hnn⟩ := nonneg_cons.mp hnn
    obtain ⟨hle, hsort⟩ := List.pairwise_cons.mp hsort
    have hstride := stride_after_chain hpos hm hm0 hle hch hf
    rw [List.append_cons] at hpos hf ⊢
    refine ih hpos hext hnn hsort (chain_append.mpr ⟨hch, ?_⟩) hf
    rw [mul_one, chain_cons]
    exact ⟨hstride, trivial⟩

/-- **Sorted modes that fill an interval are a chain from stride one.** -/
theorem chain_of_filling (hext : ∀ m ∈ ms, 1 < m.1) (hnn : Nonneg ms)
    (hsort : ms.Pairwise fun m m' => m.2 ≤ m'.2) (hf : Fills ms L) : Chain 1 ms := by
  have hpos : Pos ([] ++ ms) := fun m hm => by
    have := hext m hm
    omega
  exact chain_append_of_filling hpos hext hnn hsort trivial hf

/-! ### Tilings by an arithmetic progression -/

/-- In a tiling of `[0, L)` by translates of `0, d, …, (n - 1) * d`, the translations are the
`x` with `x % (n * d) < d`. -/
private theorem mem_translations_iff (hn : 2 ≤ n) (hd : 0 < d) {B : Set ℤ}
    (hmem : ∀ j, 0 ≤ j → j < n → ∀ b ∈ B, 0 ≤ j * d + b ∧ j * d + b < L)
    (hsurj : ∀ x, 0 ≤ x → x < L → ∃ j, 0 ≤ j ∧ j < n ∧ ∃ b ∈ B, j * d + b = x)
    (hinj : ∀ j j' b b', 0 ≤ j → j < n → 0 ≤ j' → j' < n → b ∈ B → b' ∈ B →
      j * d + b = j' * d + b' → j = j') (k : ℕ) :
    (k : ℤ) < L → ((k : ℤ) ∈ B ↔ (k : ℤ) % (n * d) < d) := by
  have hnd : 0 < n * d := by positivity
  induction k using Nat.strong_induction_on with
  | _ k ih =>
  intro hk
  have hr0 := Int.emod_nonneg (k : ℤ) hnd.ne'
  have hr1 := Int.emod_lt_of_pos (k : ℤ) hnd
  have hsplit := Int.emod_add_mul_ediv (k : ℤ) (n * d)
  set r := (k : ℤ) % (n * d) with hr
  set q := (k : ℤ) / (n * d) with hq
  constructor
  · intro hkB
    by_contra hge
    -- the start of the progression through `k` is a translation as well
    have hj1 : 1 ≤ r / d := by
      rw [Int.le_ediv_iff_mul_le hd]; omega
    have hjn : r / d < n := Int.ediv_lt_of_lt_mul hd hr1
    have hmod0 := Int.emod_nonneg r hd.ne'
    have hmod1 := Int.emod_lt_of_pos r hd
    have hrd := Int.emod_add_mul_ediv r d
    have hy0 : (0 : ℤ) ≤ r % d + n * d * q := by
      have : 0 ≤ q := Int.ediv_nonneg (Int.natCast_nonneg k) hnd.le
      positivity
    obtain ⟨y, hy⟩ := Int.eq_ofNat_of_zero_le hy0
    have hjd : d ≤ d * (r / d) := by nlinarith
    have hky : (k : ℤ) = r / d * d + y := by rw [← hy]; linarith [mul_comm d (r / d)]
    have hlt : y < k := by
      have : (y : ℤ) < k := by linarith [mul_comm d (r / d)]
      exact_mod_cast this
    have hyB : (y : ℤ) ∈ B := by
      refine (ih y hlt (by omega)).mpr ?_
      rw [← hy, (digit_cons hmod0 (by nlinarith : r % d < n * d)).1]
      exact hmod1
    have := hinj 0 (r / d) k y le_rfl (by omega) (by omega) hjn hkB hyB
      (by rw [zero_mul, zero_add]; exact hky)
    omega
  · intro hlt
    obtain ⟨j, hj0, hjn, b, hb, hkb⟩ := hsurj k (Int.natCast_nonneg k) hk
    rcases hj0.eq_or_lt with rfl | hj
    · rw [zero_mul, zero_add] at hkb
      rwa [← hkb]
    · -- an earlier translation would sit inside the part that is not translated
      exfalso
      have hb0 : 0 ≤ b := by
        have := (hmem 0 le_rfl (by omega) b hb).1
        rwa [zero_mul, zero_add] at this
      obtain ⟨y, rfl⟩ := Int.eq_ofNat_of_zero_le hb0
      have hjd : d ≤ j * d := by nlinarith
      have hjd' : j * d ≤ (n - 1) * d := mul_le_mul_of_nonneg_right (by omega) hd.le
      have hyk : y < k := by
        have : (y : ℤ) < k := by linarith
        exact_mod_cast this
      have hmod := (ih y hyk (by omega)).mp hb
      have hy : (y : ℤ) = (r - j * d + n * d) + n * d * (q - 1) := by
        linarith [mul_sub (n * d) q 1]
      have hrange : 0 ≤ r - j * d + n * d ∧ r - j * d + n * d < n * d :=
        ⟨by nlinarith, by linarith⟩
      rw [hy, (digit_cons hrange.1 hrange.2).1] at hmod
      nlinarith

/-- **A progression of at least two steps tiles an interval only in whole repetitions.** -/
theorem dvd_of_tiles (hn : 2 ≤ n) (hd : 0 < d) (hL : 0 ≤ L) {B : Set ℤ}
    (hmem : ∀ j, 0 ≤ j → j < n → ∀ b ∈ B, 0 ≤ j * d + b ∧ j * d + b < L)
    (hsurj : ∀ x, 0 ≤ x → x < L → ∃ j, 0 ≤ j ∧ j < n ∧ ∃ b ∈ B, j * d + b = x)
    (hinj : ∀ j j' b b', 0 ≤ j → j < n → 0 ≤ j' → j' < n → b ∈ B → b' ∈ B →
      j * d + b = j' * d + b' → j = j') : n * d ∣ L := by
  have hnd : 0 < n * d := by positivity
  have hiff : ∀ x, 0 ≤ x → x < L → (x ∈ B ↔ x % (n * d) < d) := fun x h0 hx => by
    obtain ⟨k, rfl⟩ := Int.eq_ofNat_of_zero_le h0
    exact mem_translations_iff hn hd hmem hsurj hinj k hx
  have hr0 := Int.emod_nonneg L hnd.ne'
  have hr1 := Int.emod_lt_of_pos L hnd
  have hsplit := Int.emod_add_mul_ediv L (n * d)
  set r := L % (n * d) with hr
  set q := L / (n * d) with hq
  have hq0 : 0 ≤ q := Int.ediv_nonneg hL hnd.le
  have hbase : 0 ≤ n * d * q := by positivity
  rcases hr0.eq_or_lt with hz | hpos
  · exact ⟨q, by linarith⟩
  · -- the last, partial repetition would have to hold whole progressions
    exfalso
    have hstart : ∀ i, 0 ≤ i → i < d → i < r → i + (n - 1) * d < r := fun i h0 hid hir => by
      have hB : i + n * d * q ∈ B := by
        rw [hiff _ (by linarith) (by linarith), (digit_cons h0 (by linarith)).1]
        exact hid
      have := (hmem (n - 1) (by omega) (by omega) _ hB).2
      linarith
    have h1 := hstart 0 le_rfl hd hpos
    have h2 : d ≤ (n - 1) * d := by nlinarith
    have h3 := hstart (d - 1) (by omega) (by omega) (by omega)
    nlinarith

/-- A mode of a walk that fills an interval divides it into whole repetitions. -/
theorem dvd_of_filling (hpos : Pos (m :: ms)) (hm : 1 < m.1) (hd : 0 < m.2) (hL : 0 ≤ L)
    (hf : Fills (m :: ms) L) : m.1 * m.2 ∣ L := by
  obtain ⟨hm0, hms⟩ := pos_cons.mp hpos
  have hcoord : ∀ j, 0 ≤ j → j < m.1 → ∀ c, 0 ≤ c → c < size ms →
      j + m.1 * c ∈ Set.Ico 0 (size (m :: ms)) ∧
        eval (m :: ms) (j + m.1 * c) = j * m.2 + eval ms c := fun j h0 hj c hc0 hc => by
    refine ⟨⟨by positivity, by rw [size_cons]; nlinarith⟩, ?_⟩
    rw [eval_cons, (digit_cons h0 hj).1, (digit_cons h0 hj).2]
  refine dvd_of_tiles (B := eval ms '' Set.Ico 0 (size ms)) (by omega) hd hL ?_ ?_ ?_
  · rintro j h0 hj _ ⟨c, hc, rfl⟩
    obtain ⟨hin, heval⟩ := hcoord j h0 hj c hc.1 hc.2
    have := hf.mapsTo hin
    rwa [heval] at this
  · intro x h0 hx
    obtain ⟨c, hc, rfl⟩ := hf.surjOn ⟨h0, hx⟩
    exact ⟨c % m.1, Int.emod_nonneg c hm0.ne', Int.emod_lt_of_pos c hm0, _,
      ⟨c / m.1, ⟨Int.ediv_nonneg hc.1 hm0.le, ediv_lt_size hm0 hc.2⟩, rfl⟩, rfl⟩
  · rintro j j' _ _ h0 hj h0' hj' ⟨c, hc, rfl⟩ ⟨c', hc', rfl⟩ heq
    obtain ⟨hin, heval⟩ := hcoord j h0 hj c hc.1 hc.2
    obtain ⟨hin', heval'⟩ := hcoord j' h0' hj' c' hc'.1 hc'.2
    have hsame := hf.injOn hin hin' (by rw [heval, heval', heq])
    have := congrArg (· % m.1) hsame
    simpa only [(digit_cons h0 hj).1, (digit_cons h0' hj').1] using this

end CudaOxide.Lib.Strided
