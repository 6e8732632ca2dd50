import CudaOxide.Mir.Integer

/-!
# Counted loops

A counted loop tests `counter + offset <pred> bound`, runs its body while the test holds, and adds
`step` to the counter after every body.  All of it happens in the counter's own type, so every sum
is cut to its width; the compiler counts the trips in wide integers instead.  A body that leaves the
loop early is outside this model: the trips are those of a loop that ends by its test.

* `tripCount`, `divCeil` — the compiler's count.
* `staysInRange`, `exitTestStaysInRange` — the checks that make the count right
  (`tripCount_spec`).
* `groupFits` — the guard in front of a group of `factor` bodies, and what it promises about every
  body of the group (`groupFits_spec`).
-/

namespace CudaOxide.Mir

/-! ### Counting the trips -/

/-- `num / den` rounded up, and 0 for a loop that never runs. -/
def divCeil (num den : ℤ) : Option ℤ :=
  if num ≤ 0 then some 0
  else do
    let pred ← I128.checkedSub den 1
    let sum ← I128.checkedAdd num pred
    some (sum.tdiv den)

/-- The count of `tripCount` in wide integers, by the direction of the test. -/
def wideTripCount (init step bound : ℤ) : CmpPred → Option ℤ
  -- counting up toward an upper limit
  | .lt => if 0 < step then do divCeil (← I128.checkedSub bound init) step else none
  | .le =>
    if 0 < step then do
      divCeil (← I128.checkedAdd (← I128.checkedSub bound init) 1) step
    else none
  -- counting down toward a lower limit
  | .gt =>
    if step < 0 then do divCeil (← I128.checkedSub init bound) (← I128.checkedNeg step) else none
  | .ge =>
    if step < 0 then do
      divCeil (← I128.checkedAdd (← I128.checkedSub init bound) 1) (← I128.checkedNeg step)
    else none

/-- How often the body of a loop runs that continues while `IV <pred> bound`.  `None` where the
step points the wrong way, where `i128` overflows and where the count is no `u64`. -/
def tripCount (init step bound : ℤ) (pred : CmpPred) : Option ℕ := do
  let count ← wideTripCount init step bound pred
  if 0 ≤ count ∧ count < 2 ^ 64 then some count.toNat else none

/-- Rounding up counts the multiples of `den` below `num`. -/
theorem divCeil_spec {num den c : ℤ} (hden : 0 < den) (h : divCeil num den = some c) :
    0 ≤ c ∧ ∀ k : ℕ, (k : ℤ) < c ↔ k * den < num := by
  unfold divCeil at h
  split at h
  · rename_i hnum
    cases h
    refine ⟨le_rfl, fun k => ?_⟩
    have : (0 : ℤ) ≤ k * den := by positivity
    omega
  · rename_i hnum
    simp only [Option.bind_eq_bind, Option.bind_eq_some_iff, I128.checkedSub_eq_some,
      I128.checkedAdd_eq_some, Option.some.injEq] at h
    obtain ⟨_, ⟨-, rfl⟩, _, ⟨-, rfl⟩, rfl⟩ := h
    rw [Int.tdiv_eq_ediv_of_nonneg (by omega)]
    refine ⟨Int.ediv_nonneg (by omega) hden.le, fun k => ?_⟩
    rw [← Int.add_one_le_iff, Int.le_ediv_iff_mul_le hden, add_mul, one_mul]
    omega

/-- The count over the integers: the test holds before body `k` exactly for `k` below it. -/
theorem holds_iff_lt_tripCount {init step bound : ℤ} {pred : CmpPred} {t : ℕ}
    (h : tripCount init step bound pred = some t) (k : ℕ) :
    pred.holds (init + k * step) bound = true ↔ k < t := by
  unfold tripCount at h
  simp only [Option.bind_eq_bind, Option.bind_eq_some_iff, Option.ite_none_right_eq_some,
    Option.some.injEq] at h
  obtain ⟨count, hcount, ⟨hnonneg, -⟩, rfl⟩ := h
  rw [← Nat.cast_lt (α := ℤ), Int.toNat_of_nonneg hnonneg]
  unfold wideTripCount at hcount
  cases pred with
  | lt =>
    simp only [Option.bind_eq_bind, Option.ite_none_right_eq_some, Option.bind_eq_some_iff,
      I128.checkedSub_eq_some] at hcount
    obtain ⟨hstep, _, ⟨-, rfl⟩, hdiv⟩ := hcount
    rw [(divCeil_spec hstep hdiv).2]
    simp only [CmpPred.holds, decide_eq_true_eq]
    omega
  | le =>
    simp only [Option.bind_eq_bind, Option.ite_none_right_eq_some, Option.bind_eq_some_iff,
      I128.checkedSub_eq_some, I128.checkedAdd_eq_some] at hcount
    obtain ⟨hstep, _, ⟨-, rfl⟩, _, ⟨-, rfl⟩, hdiv⟩ := hcount
    rw [(divCeil_spec hstep hdiv).2]
    simp only [CmpPred.holds, decide_eq_true_eq]
    omega
  | gt =>
    simp only [Option.bind_eq_bind, Option.ite_none_right_eq_some, Option.bind_eq_some_iff,
      I128.checkedSub_eq_some, I128.checkedNeg_eq_some] at hcount
    obtain ⟨hstep, _, ⟨-, rfl⟩, _, ⟨-, rfl⟩, hdiv⟩ := hcount
    rw [(divCeil_spec (by omega) hdiv).2, mul_neg]
    simp only [CmpPred.holds, decide_eq_true_eq]
    omega
  | ge =>
    simp only [Option.bind_eq_bind, Option.ite_none_right_eq_some, Option.bind_eq_some_iff,
      I128.checkedSub_eq_some, I128.checkedAdd_eq_some, I128.checkedNeg_eq_some] at hcount
    obtain ⟨hstep, _, ⟨-, rfl⟩, _, ⟨-, rfl⟩, _, ⟨-, rfl⟩, hdiv⟩ := hcount
    rw [(divCeil_spec (by omega) hdiv).2, mul_neg]
    simp only [CmpPred.holds, decide_eq_true_eq]
    omega

/-! ### The range checks -/

/-- `full_iv_stays_in_range`: the counter's first and last values are values of its type. -/
def staysInRange (ty : IntegerType) (init step trip : ℤ) : Bool :=
  match integerValueBounds ty, (do I128.checkedAdd init (← I128.checkedMul trip step)) with
  | some (min, max), some final =>
    (min ≤ init && init ≤ max) && (min ≤ final && final ≤ max)
  | _, _ => false

/-- `full_exit_test_stays_in_range`: so are the first and the last value the test compares. -/
def exitTestStaysInRange (ty : IntegerType) (init step trip offset : ℤ) : Bool :=
  if offset = 0 then true
  else
    match integerValueBounds ty, (do I128.checkedAdd init (← I128.checkedMul trip step)) with
    | some (min, max), some final =>
      [init, final].all fun iv =>
        match I128.checkedAdd iv offset with
        | some tested => min ≤ tested && tested ≤ max
        | none => false
    | _, _ => false

/-- A walk that moves one way stays between its ends. -/
theorem mem_of_ends {init step lo hi : ℤ} {t k : ℕ} (hinit : lo ≤ init ∧ init ≤ hi)
    (hfinal : lo ≤ init + t * step ∧ init + t * step ≤ hi) (hk : k ≤ t) :
    lo ≤ init + k * step ∧ init + k * step ≤ hi := by
  have hkt : (k : ℤ) ≤ t := by exact_mod_cast hk
  have hk0 : (0 : ℤ) ≤ k := by positivity
  rcases le_total 0 step with hstep | hstep
  · have h1 : (k : ℤ) * step ≤ t * step := mul_le_mul_of_nonneg_right hkt hstep
    have h2 : 0 ≤ (k : ℤ) * step := mul_nonneg hk0 hstep
    omega
  · have h1 : (t : ℤ) * step ≤ k * step := mul_le_mul_of_nonpos_right hkt hstep
    have h2 : (k : ℤ) * step ≤ 0 := mul_nonpos_of_nonneg_of_nonpos hk0 hstep
    omega

/-- Every counter value of a walk that passes the range check is exact. -/
theorem wrap_counter {ty : IntegerType} {init step : ℤ} {t k : ℕ}
    (h : staysInRange ty init step t = true) (hk : k ≤ t) :
    ty.wrap (init + k * step) = init + k * step := by
  unfold staysInRange at h
  split at h
  · rename_i min max final hb hfinal
    simp only [Option.bind_eq_bind, Option.bind_eq_some_iff, I128.checkedMul_eq_some,
      I128.checkedAdd_eq_some] at hfinal
    obtain ⟨_, ⟨-, rfl⟩, -, rfl⟩ := hfinal
    simp only [Bool.and_eq_true, decide_eq_true_eq] at h
    obtain ⟨hmin, hmax⟩ := mem_of_ends h.1 h.2 hk
    exact wrap_of_mem_bounds hb hmin hmax
  · cases h

/-- Every value the test compares is exact. -/
theorem wrap_tested {ty : IntegerType} {init step offset : ℤ} {t k : ℕ}
    (hiv : staysInRange ty init step t = true)
    (htest : exitTestStaysInRange ty init step t offset = true) (hk : k ≤ t) :
    ty.wrap (init + k * step + offset) = init + k * step + offset := by
  by_cases h0 : offset = 0
  · rw [h0, add_zero]
    exact wrap_counter hiv hk
  unfold exitTestStaysInRange at htest
  rw [if_neg h0] at htest
  split at htest
  · rename_i min max final hb hfinal
    simp only [Option.bind_eq_bind, Option.bind_eq_some_iff, I128.checkedMul_eq_some,
      I128.checkedAdd_eq_some] at hfinal
    obtain ⟨_, ⟨-, rfl⟩, -, rfl⟩ := hfinal
    simp only [List.all_cons, List.all_nil, Bool.and_true, Bool.and_eq_true] at htest
    obtain ⟨h1, h2⟩ := htest
    split at h1
    · rename_i first hfirst
      split at h2
      · rename_i last hlast
        rw [I128.checkedAdd_eq_some] at hfirst hlast
        obtain ⟨-, rfl⟩ := hfirst
        obtain ⟨-, rfl⟩ := hlast
        simp only [Bool.and_eq_true, decide_eq_true_eq] at h1 h2
        rw [add_right_comm] at h2
        have hmid := mem_of_ends h1 h2 hk
        rw [add_right_comm] at hmid
        exact wrap_of_mem_bounds hb hmid.1 hmid.2
      · cases h2
    · cases h1
  · cases htest

/-! ### The loop as it runs -/

/-- A loop over one counter. -/
structure CountedLoop where
  ty : IntegerType
  init : ℤ
  step : ℤ
  offset : ℤ
  bound : ℤ
  pred : CmpPred

namespace CountedLoop

variable (c : CountedLoop)

/-- The exit test at counter value `iv`. -/
def continues (iv : ℤ) : Bool := c.pred.holds (c.ty.wrap (iv + c.offset)) c.bound

/-- The counter before body `k`, each step cut to the width of the type. -/
def counter (c : CountedLoop) : ℕ → ℤ
  | 0 => c.ty.wrap c.init
  | k + 1 => c.ty.wrap (counter c k + c.step)

/-- `c.Runs iv ivs`: from counter value `iv` the loop runs its body at the values `ivs`, in this
order, and then leaves through its exit test. -/
inductive Runs : ℤ → List ℤ → Prop
  | exit {iv : ℤ} : c.continues iv = false → Runs iv []
  | iterate {iv : ℤ} {ivs : List ℤ} :
      c.continues iv = true → Runs (c.ty.wrap (iv + c.step)) ivs → Runs iv (iv :: ivs)

variable {c}

/-- A loop has at most one run from a counter value. -/
theorem Runs.unique {iv : ℤ} {xs ys : List ℤ} (hx : c.Runs iv xs) (hy : c.Runs iv ys) :
    xs = ys := by
  induction hx generalizing ys with
  | exit hstop =>
    cases hy with
    | exit => rfl
    | iterate hgo => rw [hstop] at hgo; cases hgo
  | iterate hgo _ ih =>
    cases hy with
    | exit hstop => rw [hstop] at hgo; cases hgo
    | iterate _ hrest => rw [ih hrest]

/-- The counter is `init + k * step` modulo the width. -/
theorem counter_eq (k : ℕ) : c.counter k = c.ty.wrap (c.init + k * c.step) := by
  induction k with
  | zero => simp [counter]
  | succ k ih =>
    rw [counter, ih, IntegerType.wrap_wrap_add]
    push_cast
    rw [add_mul, one_mul, add_assoc]

/-- A loop whose test holds exactly before the first `t` bodies runs `t` bodies. -/
theorem runs_of_continues {t : ℕ} (h : ∀ k ≤ t, c.continues (c.counter k) = decide (k < t))
    (k : ℕ) (hk : k ≤ t) :
    c.Runs (c.counter k) ((List.range' k (t - k)).map c.counter) := by
  -- induction on the number of bodies left
  induction hn : t - k generalizing k with
  | zero =>
    have hkt : k = t := by omega
    exact .exit (by rw [h k hk, hkt]; simp)
  | succ n ih =>
    have hlt : k < t := by omega
    rw [List.range'_succ, List.map_cons]
    refine .iterate (by rw [h k hk]; simpa using hlt) ?_
    exact ih (k + 1) hlt (by omega)

/-- The trip count the analysis reports: the test is solved for the counter first, so its bound is
`bound - offset`. -/
def trips (c : CountedLoop) : Option ℕ := do
  tripCount c.init c.step (← I128.checkedSub c.bound c.offset) c.pred

/-- Before body `k` of a loop that passes the range checks, the counter is exact and the test holds
exactly for `k` below the trip count. -/
theorem continues_counter {t k : ℕ} (h : c.trips = some t)
    (hiv : staysInRange c.ty c.init c.step t = true)
    (htest : exitTestStaysInRange c.ty c.init c.step t c.offset = true) (hk : k ≤ t) :
    c.counter k = c.init + k * c.step ∧ c.continues (c.counter k) = decide (k < t) := by
  simp only [trips, Option.bind_eq_bind, Option.bind_eq_some_iff, I128.checkedSub_eq_some] at h
  obtain ⟨_, ⟨-, rfl⟩, hcount⟩ := h
  have hexact : c.counter k = c.init + k * c.step := by
    rw [counter_eq]
    exact wrap_counter hiv hk
  refine ⟨hexact, ?_⟩
  rw [continues, hexact, wrap_tested hiv htest hk, ← CmpPred.holds_sub, Bool.eq_iff_iff,
    decide_eq_true_eq]
  exact holds_iff_lt_tripCount hcount k

/-- **The trip count is exact.**  A loop that passes both range checks runs its body at
`init`, `init + step`, …, `t` times, and then leaves through its exit test. -/
theorem runs_trips {t : ℕ} (h : c.trips = some t)
    (hiv : staysInRange c.ty c.init c.step t = true)
    (htest : exitTestStaysInRange c.ty c.init c.step t c.offset = true) :
    c.Runs (c.ty.wrap c.init) ((List.range t).map fun k : ℕ => c.init + k * c.step) := by
  have hruns := runs_of_continues (fun k hk => (continues_counter h hiv htest hk).2) 0
    (Nat.zero_le t)
  rw [Nat.sub_zero, ← List.range_eq_range'] at hruns
  have hexact : (List.range t).map c.counter =
      (List.range t).map fun k : ℕ => c.init + k * c.step :=
    List.map_congr_left fun k hk => (continues_counter h hiv htest (List.mem_range.mp hk).le).1
  rw [← hexact]
  exact hruns

/-- The loop `while i - 5 >= -100 { i -= 50 }` over an `i8` that starts at 100. -/
theorem runs_trips_signed :
    (⟨⟨8, .signed⟩, 100, -50, -5, -100, .ge⟩ : CountedLoop).Runs 100 [100, 50, 0, -50] :=
  runs_trips (c := ⟨⟨8, .signed⟩, 100, -50, -5, -100, .ge⟩) (t := 4) (by decide) (by decide)
    (by decide)

end CountedLoop

/-! ### The guard of a group -/

/-- `partial_span_is_representable`. -/
def spanIsRepresentable (ty : IntegerType) (span : ℤ) : Bool :=
  match integerValueBounds ty with
  | some (_, max) => 0 ≤ span && span ≤ max
  | none => false

/-- The guard of the main loop at counter value `iv`: the last body of the group passes the test
(`within_bound`), the counter does not wrap on the way to it (`no_wrap`), and neither does the sum
the test compares (`offset_no_wrap`). -/
def groupFits (ty : IntegerType) (pred : CmpPred) (lastSpan offset bound iv : ℤ) : Bool :=
  let lastIv := ty.wrap (iv + lastSpan)
  let lastTested := if offset = 0 then lastIv else ty.wrap (lastIv + offset)
  let offsetNoWrap :=
    if offset = 0 then true
    else if 0 < offset then CmpPred.gt.holds lastTested lastIv
    else CmpPred.lt.holds (ty.wrap (iv + offset)) iv
  (pred.holds lastTested bound && CmpPred.ge.holds lastIv iv) && offsetNoWrap

section GroupFits

variable {ty : IntegerType} {pred : CmpPred} {span offset bound iv : ℤ}

/-- The span of a representable group is a difference of two values of the type. -/
theorem spanIsRepresentable_spec (h : spanIsRepresentable ty span = true) :
    0 < ty.width ∧ 0 ≤ span ∧ span ≤ ty.hi := by
  unfold spanIsRepresentable at h
  split at h
  · rename_i min max hb
    obtain ⟨hw, -, hmax⟩ := integerValueBounds_spec hb
    simp only [Bool.and_eq_true, decide_eq_true_eq] at h
    exact ⟨hw, h.1, h.2.trans hmax⟩
  · cases h

/-- A sum that did not fall below its first term did not wrap. -/
theorem wrap_add_of_le (hw : 0 < ty.width) (hiv : ty.lo ≤ iv ∧ iv ≤ ty.hi) {d : ℤ}
    (hlt : d < 2 ^ ty.width) (h : iv ≤ ty.wrap (iv + d)) : iv + d ≤ ty.hi := by
  by_contra hhi
  rw [not_le] at hhi
  rw [IntegerType.wrap_of_hi_lt hw hhi (by omega)] at h
  omega

/-- A sum that did not rise above its first term did not wrap. -/
theorem wrap_add_of_ge (hw : 0 < ty.width) (hiv : ty.lo ≤ iv ∧ iv ≤ ty.hi) {d : ℤ}
    (hlt : -2 ^ ty.width < d) (h : ty.wrap (iv + d) ≤ iv) : ty.lo ≤ iv + d := by
  by_contra hlo
  rw [not_le] at hlo
  rw [IntegerType.wrap_of_lt_lo hw hlo (by omega)] at h
  omega

/-- **The guard is sound.**  Where it holds, no counter of the group wraps and each of them passes
the exit test of the source loop. -/
theorem groupFits_spec (hpred : pred = .lt ∨ pred = .le)
    (hspan : spanIsRepresentable ty span = true) (hiv : ty.lo ≤ iv ∧ iv ≤ ty.hi)
    (hoff : |offset| < 2 ^ ty.width) (h : groupFits ty pred span offset bound iv = true)
    {d : ℤ} (hd : 0 ≤ d) (hds : d ≤ span) :
    ty.wrap (iv + d) = iv + d ∧ pred.holds (ty.wrap (iv + d + offset)) bound = true := by
  obtain ⟨hw, hspan0, hspanhi⟩ := spanIsRepresentable_spec hspan
  have hwidth := IntegerType.hi_sub_lo hw
  have hlo0 : ty.lo ≤ 0 := by
    unfold IntegerType.lo
    split
    · exact neg_nonpos_of_nonneg (by positivity)
    · exact le_rfl
    · exact le_rfl
  have hoff' := abs_lt.mp hoff
  unfold groupFits at h
  simp only [Bool.and_eq_true] at h
  obtain ⟨⟨hbound, hge⟩, hnw⟩ := h
  simp only [CmpPred.holds, decide_eq_true_eq] at hge
  -- the counter of the last body is exact, so those before it are
  have hlast : iv + span ≤ ty.hi := wrap_add_of_le hw hiv (by omega) hge
  have hlastEq : ty.wrap (iv + span) = iv + span :=
    IntegerType.wrap_eq_self hw (by omega) hlast
  rw [hlastEq] at hbound hnw hge
  refine ⟨IntegerType.wrap_eq_self hw (by omega) (by omega), ?_⟩
  -- so is the sum the last body's test compares, and the first one's
  have htested : ty.lo ≤ iv + offset ∧ iv + span + offset ≤ ty.hi := by
    rcases lt_trichotomy offset 0 with hneg | hzero | hpos
    · rw [if_neg hneg.ne, if_neg (by omega)] at hnw
      simp only [CmpPred.holds, decide_eq_true_eq] at hnw
      have := wrap_add_of_ge hw hiv hoff'.1 hnw.le
      omega
    · omega
    · rw [if_neg hpos.ne', if_pos hpos, if_neg hpos.ne'] at hnw
      simp only [CmpPred.holds, decide_eq_true_eq] at hnw
      have := wrap_add_of_le hw ⟨by omega, hlast⟩ hoff'.2 hnw.le
      omega
  have hlastTested : (if offset = 0 then iv + span else ty.wrap (iv + span + offset)) =
      iv + span + offset := by
    split
    · omega
    · exact IntegerType.wrap_eq_self hw (by omega) htested.2
  rw [hlastTested] at hbound
  rw [IntegerType.wrap_eq_self hw (by omega) (by omega)]
  rcases hpred with rfl | rfl
  · simp only [CmpPred.holds, decide_eq_true_eq] at hbound ⊢
    omega
  · simp only [CmpPred.holds, decide_eq_true_eq] at hbound ⊢
    omega

end GroupFits

end CudaOxide.Mir
