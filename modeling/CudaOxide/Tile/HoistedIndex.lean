import CudaOxide.Lib.LoopNest
import CudaOxide.Tile.CheckCondition

/-!
# The instances of an index over a nest of loops

The check before a nest of loops tests one instance of the index for all accesses of the nest.

* `forLoops` — the executions of a nest of `for` loops.
* `Index.Holds`, `AxisGoals.Extent` — what the compiler knows of an index and of an extent.
* `Classified` — the four ways to instantiate an index.
* `upper_of_hoist`, `attained_of_hoist` — the instance is a bound on the index, and is attained.
-/

namespace CudaOxide.Tile

open Lib Mir Async

/-! ### Executions -/

/-- `ρ'` has the values of `ρ`, and perhaps more. -/
def Env.Le (ρ ρ' : Env) : Prop := ∀ v x, ρ v = some x → ρ' v = some x

/-- Environments that grow twice grow. -/
theorem Env.Le.trans {ρ₁ ρ₂ ρ₃ : Env} (h : Env.Le ρ₁ ρ₂) (h' : Env.Le ρ₂ ρ₃) : Env.Le ρ₁ ρ₃ :=
  fun v x hx => h' v x (h v x hx)

/-- An environment extends itself. -/
theorem Env.Le.refl (ρ : Env) : Env.Le ρ ρ := fun _ _ h => h

/-- A loop from `lo` to `hi`, with what its frame records of it. -/
structure LoopFrame.Runs (f : LoopFrame) (ρ : Env) (lo hi step : ℤ) : Prop where
  lower : ρ f.lower = some lo
  upper : ρ f.upper = some hi
  lower_fits : MachineType.i32.Holds lo
  upper_fits : MachineType.i32.Holds hi
  step_pos : 0 < step
  unitStep : f.unitStep = true → step = 1
  knownNonEmpty : f.knownNonEmpty = true → lo < hi
  inductionRange : ∀ r, f.inductionRange = some r → lo = r.start ∧ hi = r.stop + 1

/-- The values of the induction variable. -/
def trips (lo hi step : ℤ) : Set ℤ := {i | lo ≤ i ∧ i < hi ∧ step ∣ i - lo}

/-- `for` loops over values that are assigned once. -/
def forLoops : LoopLanguage Env ℤ LoopFrame where
  Starts f ρ T := ∃ lo hi step, f.Runs ρ lo hi step ∧ T = trips lo hi step
  Enters f ρ i ρ' := Env.Le ρ ρ' ∧ ∀ v ∈ f.inductionValues, ρ' v = some i
  Reaches ρ ρ' := Env.Le ρ ρ'

/-- What the compiler knows of an index with the value `i`. -/
structure Index.Holds (x : Index) (ρ : Env) (i : ℤ) : Prop where
  fits : MachineType.i32.Holds i
  value : ∀ v, x.value = some v → ρ v = some i
  bounds : ∀ b, x.bounds = some b → i ∈ b
  /-- the term is exact, the index is cut to a word -/
  term : ∀ t, x.term = some t → ∃ σ : Atom → ℤ, (∀ id j, ρ id = some j → σ (.iv id) = j) ∧
    i ≡ t.value σ [ZMOD 2 ^ 32]

/-- The extent that bounds an access. -/
structure AxisGoals.Extent (goals : AxisGoals) (dynamicExtent : Option (Option Value)) (ρ : Env)
    (extent : ℤ) : Prop where
  nonneg : 0 ≤ extent
  fits : extent ≤ 2147483647
  /-- the extent as a check reads it -/
  value : ∀ c, extentCode goals dynamicExtent = .ok c → c.eval ρ = some extent

/-- The goals of an access at the index `i`: `0 <= i` and `i * t < e`. -/
def AxisGoals.InRange (goals : AxisGoals) (extent i : ℤ) : Prop := 0 ≤ i ∧ i * goals.tile < extent

/-! ### The classification -/

section Classification

variable {innermost : LoopFrame} {index : Index} {kind : HoistIndex} {deps : List Value}

/-- The four ways to instantiate an index, in the order in which they are tried. -/
inductive Classified (innermost : LoopFrame) (index : Index) : HoistIndex → List Value → Prop
  | interval {b : Bounds} (hbounds : index.bounds.filter fitsI32 = some b) :
      Classified innermost index (.const b.start b.stop) []
  | range {value id : Value} {scale offset : ℤ} {r : Bounds}
      (hbounds : index.bounds.filter fitsI32 = none) (hvalue : index.value = some value)
      (hform : inductionForm innermost index value = some (id, scale, offset))
      (hunit : innermost.unitStep = true) (hscale : scale ≠ 0)
      (hrange : (affineRange innermost id scale offset).filter fitsI32 = some r) :
      Classified innermost index (.const r.start r.stop) []
  | identity {value id : Value} (hbounds : index.bounds.filter fitsI32 = none)
      (hvalue : index.value = some value)
      (hform : inductionForm innermost index value = some (id, 1, 0))
      (hunit : innermost.unitStep = true) :
      Classified innermost index (.inductionAffine 1 0 innermost.lower innermost.upper)
        [innermost.upper, innermost.lower]
  | invariant {value : Value} (hbounds : index.bounds.filter fitsI32 = none)
      (hvalue : index.value = some value) (hlt : value < innermost.valueWatermark) :
      Classified innermost index .invariant [value]

/-- An index that is classified has its kind. -/
theorem classified_of_eq_ok (h : classifyIndex innermost index = .ok (kind, deps)) :
    Classified innermost index kind deps := by
  unfold classifyIndex at h
  cases hbounds : index.bounds.filter fitsI32 with
  | some b =>
    rw [hbounds] at h
    cases h
    exact .interval hbounds
  | none =>
    rw [hbounds] at h
    cases hvalue : index.value with
    | none =>
      rw [hvalue] at h
      cases h
    | some value =>
      simp only [hvalue] at h
      cases hform : inductionForm innermost index value with
      | none =>
        simp only [hform] at h
        split_ifs at h with hlt
        cases h
        exact .invariant hbounds hvalue hlt
      | some form =>
        obtain ⟨id, scale, offset⟩ := form
        simp only [hform] at h
        cases hrange : (affineRange innermost id scale offset).filter fitsI32 with
        | some r =>
          simp only [hrange] at h
          split_ifs at h with hunit hscale
          cases h
          exact .range hbounds hvalue hform (by simpa using hunit) hscale hrange
        | none =>
          simp only [hrange] at h
          split_ifs at h with hunit hscale hidentity
          obtain ⟨rfl, rfl⟩ := hidentity
          cases h
          exact .identity hbounds hvalue hform (by simpa using hunit)

/-- A hoisted check has an innermost loop that is executed to its end, and a classified index. -/
theorem classifyHoist_eq_ok {opts : CheckOptimizations} {goals : AxisGoals}
    {dynamicExtent : Option (Option Value)} {block n : ℕ} {frames : List LoopFrame}
    (h : classifyHoist opts goals dynamicExtent block frames = .ok (n, kind)) :
    opts.hoistToPreheaders = true ∧ ∃ innermost outers, frames = innermost :: outers ∧
      block = innermost.bodyBlock ∧ innermost.hasEarlyExit = false ∧
      ∃ operands, extentDeps dynamicExtent = some operands ∧
        ∃ deps, Classified innermost goals.index kind deps ∧
          n = walkOutward (operands ++ deps) innermost outers := by
  unfold classifyHoist at h
  split_ifs at h with hopts
  refine ⟨by simpa using hopts, ?_⟩
  cases frames with
  | nil => cases h
  | cons innermost outers =>
    simp only at h
    split_ifs at h with hblock hexit
    refine ⟨innermost, outers, rfl, not_not.mp hblock, by simpa using hexit, ?_⟩
    cases hdeps : extentDeps dynamicExtent with
    | none =>
      rw [hdeps] at h
      cases h
    | some operands =>
      simp only [hdeps] at h
      cases hindex : classifyIndex innermost goals.index with
      | error why =>
        rw [hindex] at h
        cases h
      | ok found =>
        obtain ⟨kind', deps⟩ := found
        rw [hindex] at h
        cases h
        exact ⟨operands, rfl, deps, classified_of_eq_ok hindex, rfl⟩

/-- Every loop that the check leaves is crossed. -/
theorem walkOutward_spec (outers : List LoopFrame) :
    walkOutward deps innermost outers ≤ outers.length ∧
      ∀ k < walkOutward deps innermost outers, ∃ f g, (innermost :: outers)[k]? = some f ∧
        outers[k]? = some g ∧ Crosses deps f g := by
  induction outers generalizing innermost with
  | nil => exact ⟨le_rfl, fun k hk => absurd hk (Nat.not_lt_zero k)⟩
  | cons outer rest ih =>
    rw [walkOutward]
    by_cases hcross : Crosses deps innermost outer
    · rw [if_pos hcross]
      obtain ⟨hle, hall⟩ := @ih outer
      refine ⟨Nat.succ_le_succ hle, fun k hk => ?_⟩
      cases k with
      | zero => exact ⟨innermost, outer, rfl, rfl, hcross⟩
      | succ k =>
        obtain ⟨f, g, hf, hg, hcross⟩ := hall k (Nat.lt_of_succ_lt_succ hk)
        exact ⟨f, g, hf, hg, hcross⟩
    · rw [if_neg hcross]
      exact ⟨Nat.zero_le _, fun k hk => absurd hk (Nat.not_lt_zero k)⟩

end Classification

/-! ### Iterations -/

section Iterations

variable {f innermost target : LoopFrame} {fs gs : List LoopFrame} {ρ s t : Env} {S : Set Env}
  {T : Set ℤ} {lo hi lo' hi' step step' i : ℤ}

/-- The lower bound is the first trip. -/
theorem mem_trips_lo (h : lo < hi) : lo ∈ trips lo hi step :=
  ⟨le_rfl, h, by rw [sub_self]; exact dvd_zero step⟩

/-- The last iteration of a loop in steps of one. -/
theorem mem_trips_last (h : lo < hi) : hi - 1 ∈ trips lo hi 1 :=
  ⟨by omega, by omega, one_dvd _⟩

/-- The bounds of a loop do not change once they are known. -/
theorem LoopFrame.Runs.bounds_eq (h : f.Runs ρ lo hi step) (hle : Env.Le ρ s)
    (h' : f.Runs s lo' hi' step') : lo' = lo ∧ hi' = hi :=
  ⟨Option.some.inj (h'.lower.symm.trans (hle _ _ h.lower)),
    Option.some.inj (h'.upper.symm.trans (hle _ _ h.upper))⟩

/-- A loop body knows what was known before. -/
theorem enters_le (f : LoopFrame) (s : Env) (i : ℤ) (t : Env) (h : forLoops.Enters f s i t)
    (hle : Env.Le ρ s) : Env.Le ρ t :=
  hle.trans h.1

/-- Every access belongs to an iteration of the innermost loop. -/
theorem iteration_of_access (hrun : forLoops.Executes (fs ++ [innermost]) ρ S) (ht : t ∈ S) :
    ∃ s lo hi step i, Env.Le ρ s ∧ innermost.Runs s lo hi step ∧ i ∈ trips lo hi step ∧
      Env.Le s t ∧ ∀ v ∈ innermost.inductionValues, t v = some i := by
  obtain ⟨s, S', hle, hinner, -, ht'⟩ := hrun.mem_innermost (Env.Le.refl ρ) enters_le ht
  obtain ⟨_, ⟨lo, hi, step, hruns, rfl⟩, haccess, -⟩ := hinner.single
  obtain ⟨i, hi', b, henter, hreach⟩ := haccess t ht'
  exact ⟨s, lo, hi, step, i, hle, hruns, hi', henter.1.trans hreach,
    fun v hv => hreach v i (henter.2 v hv)⟩

/-- Where no loop around it is empty, every iteration of the innermost loop has its access. -/
theorem access_of_iteration (hrun : forLoops.Executes (fs ++ [innermost]) ρ S)
    (hnonempty : ∀ g ∈ fs, ∀ s T, Env.Le ρ s → forLoops.Starts g s T → T.Nonempty) :
    ∃ s lo hi step, Env.Le ρ s ∧ innermost.Runs s lo hi step ∧ ∀ i ∈ trips lo hi step,
      ∃ t ∈ S, Env.Le s t ∧ ∀ v ∈ innermost.inductionValues, t v = some i := by
  obtain ⟨s, S', hle, hinner, hsub⟩ := hrun.exists_innermost (Env.Le.refl ρ) enters_le hnonempty
  obtain ⟨_, ⟨lo, hi, step, hruns, rfl⟩, -, hiteration⟩ := hinner.single
  refine ⟨s, lo, hi, step, hle, hruns, fun i hi' => ?_⟩
  obtain ⟨b, henter, t, ht, hreach⟩ := hiteration i hi'
  exact ⟨t, hsub ht, henter.1.trans hreach, fun v hv => hreach v i (henter.2 v hv)⟩

/-- A loop that the guard passes over makes no access. -/
theorem not_vacuous_of_mem (hrun : forLoops.Executes (target :: gs) ρ S) (ht : t ∈ S) :
    ¬Vacuous (guardBounds target) ρ := by
  rintro ⟨lower, upper, x, y, hguard, hx, hy, hle⟩
  obtain _ | ⟨⟨lo, hi, step, hruns, rfl⟩, body, accesses, -, -⟩ := hrun
  obtain ⟨i, hi', -⟩ := Set.mem_iUnion₂.mp ht
  unfold guardBounds at hguard
  split_ifs at hguard
  cases hguard
  obtain rfl := Option.some.inj (hx.symm.trans hruns.lower)
  obtain rfl := Option.some.inj (hy.symm.trans hruns.upper)
  exact absurd (hi'.1.trans_lt hi'.2.1) (not_lt.mpr hle)

/-- A loop that the guard does not pass over runs. -/
theorem nonempty_of_not_vacuous (hrun : forLoops.Executes (target :: gs) ρ S)
    (hguard : ¬Vacuous (guardBounds target) ρ) (hle : Env.Le ρ s)
    (hstart : forLoops.Starts target s T) : T.Nonempty := by
  obtain _ | ⟨⟨lo, hi, step, hruns, rfl⟩, -, -, -, -⟩ := hrun
  obtain ⟨lo', hi', step', hruns', rfl⟩ := hstart
  obtain ⟨rfl, rfl⟩ := hruns.bounds_eq hle hruns'
  refine ⟨lo', mem_trips_lo ?_⟩
  by_contra hge
  refine hguard ⟨target.lower, target.upper, lo', hi', ?_, hruns.lower, hruns.upper, not_lt.mp hge⟩
  rw [guardBounds, if_neg fun h => hge (hruns.knownNonEmpty h)]

/-- A loop that is known to run runs. -/
theorem nonempty_of_known (h : f.knownNonEmpty = true) (hstart : forLoops.Starts f s T) :
    T.Nonempty := by
  obtain ⟨lo, hi, step, hruns, rfl⟩ := hstart
  exact ⟨lo, mem_trips_lo (hruns.knownNonEmpty h)⟩

end Iterations

/-! ### The values of an index -/

section Values

variable {f : LoopFrame} {index : Index} {ρ t : Env} {r : Bounds} {value id : Value}
  {x y i u scale offset : ℤ}

/-- Congruent `i32` values are equal. -/
theorem eq_of_modEq (hx : MachineType.i32.Holds x) (hy : MachineType.i32.Holds y)
    (h : x ≡ y [ZMOD 2 ^ 32]) : x = y := by
  rw [holds_i32] at hx hy
  have hemod : x % 4294967296 = y % 4294967296 := h
  omega

/-- A value of a range that fits holds as `i32`. -/
theorem holds_of_fitsI32 (hr : fitsI32 r = true) (hx : x ∈ r) : MachineType.i32.Holds x := by
  rw [fitsI32, Bool.and_eq_true, decide_eq_true_eq, decide_eq_true_eq] at hr
  exact holds_i32.mpr ⟨hr.1.trans hx.1, hx.2.trans hr.2⟩

/-- The value of an affine index in an iteration, up to the wrap of the `i32` arithmetic. -/
theorem index_modEq (hform : inductionForm f index value = some (id, scale, offset))
    (hvalue : index.value = some value) (hidx : index.Holds t x)
    (hiv : ∀ v ∈ f.inductionValues, t v = some i) : x ≡ scale * i + offset [ZMOD 2 ^ 32] := by
  unfold inductionForm at hform
  split_ifs at hform with hmem
  · cases hform
    have hx := (hidx.value value hvalue).symm.trans (hiv value hmem)
    rw [Option.some.inj hx, one_mul, add_zero]
  · obtain ⟨term, hterm, hsingle⟩ : ∃ term, index.term = some term ∧
        asSingleAffine term = some (.iv id, scale, offset) ∧ id ∈ f.inductionValues := by
      cases hterm : index.term with
      | none =>
        rw [hterm] at hform
        cases hform
      | some term =>
        refine ⟨term, rfl, ?_⟩
        simp only [hterm, Option.bind_some] at hform
        split at hform
        next id' scale' offset' heq =>
          split_ifs at hform with hid
          cases hform
          exact ⟨heq, hid⟩
        next => cases hform
    obtain ⟨σ, hσ, hmod⟩ := hidx.term term hterm
    refine hmod.trans (congrArg (· % 2 ^ 32) ?_)
    unfold asSingleAffine at hsingle
    obtain ⟨hsingle, hid⟩ := hsingle
    split at hsingle
    next e hlist =>
      have he := Option.some.inj hsingle
      have hatom : e.1 = .iv id := congrArg Prod.fst he
      have hscale : e.2 = scale := congrArg (fun x => x.2.1) he
      have hoffset : term.constantPart = offset := congrArg (fun x => x.2.2) he
      rw [Term.value, hlist, List.map_singleton, List.sum_singleton, hatom, hscale, hoffset,
        hσ id i (hiv id hid), add_comm]
    next => cases hsingle

/-- The coefficients of an affine term. -/
theorem toList_affine {a : Atom} (h : scale ≠ 0) :
    (Term.affine a scale offset).coeffs.toList = [(a, scale)] := by
  rw [Term.affine, if_neg h]
  have hlen : ((∅ : Std.ExtTreeMap Atom ℤ).insert a scale).toList.length = 1 := by
    simp [Std.ExtTreeMap.length_toList, Std.ExtTreeMap.size_insert]
  obtain ⟨e, he⟩ := List.length_eq_one_iff.mp hlen
  have hmem : (a, scale) ∈ ((∅ : Std.ExtTreeMap Atom ℤ).insert a scale).toList :=
    Std.ExtTreeMap.mem_toList_iff_getElem?_eq_some.mpr Std.ExtTreeMap.getElem?_insert_self
  rw [he, List.mem_singleton] at hmem
  rw [he, hmem]

/-- The range of an affine index has its ends at the ends of the range of the variable. -/
theorem affineRange_eq (h : affineRange f id scale offset = some r) (hscale : scale ≠ 0) :
    ∃ iv, f.inductionRange = some iv ∧
      r.start = offset + min (scale * iv.start) (scale * iv.stop) ∧
      r.stop = offset + max (scale * iv.start) (scale * iv.stop) := by
  obtain ⟨iv, hiv, h⟩ := Option.bind_eq_some_iff.mp h
  rw [termRange, toList_affine hscale, List.foldlM_cons] at h
  obtain ⟨acc, hentry, hnil⟩ := Option.bind_eq_some_iff.mp h
  obtain rfl := Option.some.inj hnil
  have hconstant : (Term.affine (.iv id) scale offset).constantPart = offset := by
    rw [Term.affine, if_neg hscale]
  obtain ⟨iv', hiv', h⟩ := Option.bind_eq_some_iff.mp hentry
  obtain rfl : iv = iv' := Option.some.inj ((if_pos rfl).symm.trans hiv')
  obtain ⟨a, ha, h⟩ := Option.bind_eq_some_iff.mp h
  obtain ⟨b, hb, h⟩ := Option.bind_eq_some_iff.mp h
  obtain ⟨lo, hlo, h⟩ := Option.bind_eq_some_iff.mp h
  obtain ⟨hi, hhi, h⟩ := Option.bind_eq_some_iff.mp h
  obtain rfl := Option.some.inj h
  obtain ⟨-, rfl⟩ := I64.checkedMul_eq_some.mp ha
  obtain ⟨-, rfl⟩ := I64.checkedMul_eq_some.mp hb
  obtain ⟨-, rfl⟩ := I64.checkedAdd_eq_some.mp hlo
  obtain ⟨-, rfl⟩ := I64.checkedAdd_eq_some.mp hhi
  refine ⟨iv, hiv, ?_, ?_⟩
  · rw [hconstant, min_def]
  · rw [hconstant, max_def]

/-- The ends bound a linear function of the variable. -/
theorem affine_mem (hstart : r.start = offset + min (scale * x) (scale * y))
    (hstop : r.stop = offset + max (scale * x) (scale * y)) (hx : x ≤ i) (hy : i ≤ y) :
    scale * i + offset ∈ r := by
  rcases le_total 0 scale with hscale | hscale
  · have hlo := mul_le_mul_of_nonneg_left hx hscale
    have hhi := mul_le_mul_of_nonneg_left hy hscale
    exact ⟨by omega, by omega⟩
  · have hlo := mul_le_mul_of_nonpos_left hx hscale
    have hhi := mul_le_mul_of_nonpos_left hy hscale
    exact ⟨by omega, by omega⟩

/-- An operand that is known before the nest is the index of every access. -/
theorem operand_eval (h : ∃ c, operand index.value = .ok c ∧ c.eval ρ = some u) (hle : Env.Le ρ t)
    (hidx : index.Holds t x) : x = u := by
  obtain ⟨c, hc, hu⟩ := h
  cases hvalue : index.value with
  | none =>
    rw [hvalue] at hc
    cases hc
  | some v =>
    rw [hvalue] at hc
    cases hc
    exact Option.some.inj ((hidx.value v hvalue).symm.trans (hle v u hu))

end Values

/-! ### The instances are the extremes -/

section Extremes

variable {goals : AxisGoals} {innermost : LoopFrame} {fs : List LoopFrame} {kind : HoistIndex}
  {deps : List Value} {ρ : Env} {S : Set Env} {idx : Env → ℤ} {u l : ℤ}

/-- The strongest instance of the counter is the last trip. -/
theorem strongest_identity (lower upper : Value) :
    affineExtremeInstance lower upper 1 0 true = .bin .i32 .sub (.value upper) (.const 1) := rfl

/-- The weakest instance of the counter is the first trip. -/
theorem weakest_identity (lower upper : Value) :
    affineExtremeInstance lower upper 1 0 false = .value lower := rfl

/-- The last value of an induction variable: the subtraction does not wrap where there is one. -/
theorem eval_strongest {lo hi step i : ℤ} {f : LoopFrame} {s : Env} (hle : Env.Le ρ s)
    (hruns : f.Runs s lo hi step) (hi' : i ∈ trips lo hi step)
    (hu : (Code.bin .i32 .sub (.value f.upper) (.const 1)).eval ρ = some u) : u = hi - 1 := by
  obtain ⟨x, one, hx, hone, hu⟩ := eval_bin hu
  obtain rfl := Option.some.inj hone
  obtain rfl := Option.some.inj ((hle _ _ hx).symm.trans hruns.upper)
  have hlo := holds_i32.mp hruns.lower_fits
  have hhi := holds_i32.mp hruns.upper_fits
  have hlt := hi'.1.trans_lt hi'.2.1
  exact (Option.some.inj hu).symm.trans (wrap_i32 (by omega) (by omega))

/-- The index of an iteration, where its range is known. -/
theorem index_eq_affine {f : LoopFrame} {index : Index} {value id : Value} {scale offset x : ℤ}
    {r : Bounds} {s t : Env} {lo hi i : ℤ} (hruns : f.Runs s lo hi 1) (hi' : i ∈ trips lo hi 1)
    (hform : inductionForm f index value = some (id, scale, offset))
    (hvalue : index.value = some value) (hscale : scale ≠ 0)
    (hrange : (affineRange f id scale offset).filter fitsI32 = some r) (hidx : index.Holds t x)
    (hiv : ∀ v ∈ f.inductionValues, t v = some i) : x = scale * i + offset ∧ x ∈ r := by
  obtain ⟨hr, hfits⟩ := Option.filter_eq_some_iff.mp hrange
  obtain ⟨iv, hivRange, hstart, hstop⟩ := affineRange_eq hr hscale
  obtain ⟨hlo, hhi⟩ := hruns.inductionRange iv hivRange
  have hmem : scale * i + offset ∈ r :=
    affine_mem hstart hstop (hlo ▸ hi'.1) (by have := hi'.2.1; omega)
  have hx := eq_of_modEq hidx.fits (holds_of_fitsI32 hfits hmem) (index_modEq hform hvalue hidx hiv)
  exact ⟨hx, hx ▸ hmem⟩

/-- An index that is the induction variable. -/
theorem index_eq_identity {f : LoopFrame} {index : Index} {value id : Value} {x : ℤ} {s t : Env}
    {lo hi step i : ℤ} (hruns : f.Runs s lo hi step) (hi' : i ∈ trips lo hi step)
    (hform : inductionForm f index value = some (id, 1, 0)) (hvalue : index.value = some value)
    (hidx : index.Holds t x) (hiv : ∀ v ∈ f.inductionValues, t v = some i) : x = i := by
  have hmod := index_modEq hform hvalue hidx hiv
  rw [one_mul, add_zero] at hmod
  have hlo := hruns.lower_fits.1.trans hi'.1
  have hhi := hi'.2.1.le.trans hruns.upper_fits.2
  exact eq_of_modEq hidx.fits ⟨hlo, hhi⟩ hmod

/-- **The instance of the upper goal is a bound** on the index of every access. -/
theorem upper_of_hoist (hclass : Classified innermost goals.index kind deps)
    (hrun : forLoops.Executes (fs ++ [innermost]) ρ S)
    (hidx : ∀ t ∈ S, goals.index.Holds t (idx t))
    (hup : ∃ up, upperInstance goals (some kind) = .ok up ∧ up.eval ρ = some u) :
    ∀ t ∈ S, idx t ≤ u := by
  intro t ht
  obtain ⟨s, lo, hi, step, i, hle, hruns, hi', hst, hiv⟩ := iteration_of_access hrun ht
  cases hclass with
  | interval hbounds =>
    obtain ⟨_, ⟨⟩, hu⟩ := hup
    obtain rfl := Option.some.inj hu
    exact ((hidx t ht).bounds _ (Option.filter_eq_some_iff.mp hbounds).1).2
  | range _ hvalue hform hunit hscale hrange =>
    obtain ⟨_, ⟨⟩, hu⟩ := hup
    obtain rfl := Option.some.inj hu
    obtain rfl := hruns.unitStep hunit
    exact (index_eq_affine hruns hi' hform hvalue hscale hrange (hidx t ht) hiv).2.2
  | identity _ hvalue hform hunit =>
    obtain ⟨_, ⟨⟩, hu⟩ := hup
    rw [strongest_identity] at hu
    rw [eval_strongest hle hruns hi' hu, index_eq_identity hruns hi' hform hvalue (hidx t ht) hiv]
    exact Int.le_sub_one_of_lt hi'.2.1
  | invariant _ _ _ => exact (operand_eval hup (hle.trans hst) (hidx t ht)).le

/-- The instance of the lower goal is a bound on the index of every access. -/
theorem lower_of_hoist (hclass : Classified innermost goals.index kind deps)
    (hrun : forLoops.Executes (fs ++ [innermost]) ρ S)
    (hidx : ∀ t ∈ S, goals.index.Holds t (idx t))
    (hlow : ∃ low, lowerInstance goals (some kind) = .ok low ∧ low.eval ρ = some l) :
    ∀ t ∈ S, l ≤ idx t := by
  intro t ht
  obtain ⟨s, lo, hi, step, i, hle, hruns, hi', hst, hiv⟩ := iteration_of_access hrun ht
  cases hclass with
  | interval _ => exact (operand_eval hlow (hle.trans hst) (hidx t ht)).ge
  | range _ _ _ _ _ _ => exact (operand_eval hlow (hle.trans hst) (hidx t ht)).ge
  | identity _ hvalue hform hunit =>
    obtain ⟨_, ⟨⟩, hl⟩ := hlow
    rw [weakest_identity] at hl
    obtain rfl := Option.some.inj ((hle _ _ hl).symm.trans hruns.lower)
    rw [index_eq_identity hruns hi' hform hvalue (hidx t ht) hiv]
    exact hi'.1
  | invariant _ _ _ => exact (operand_eval hlow (hle.trans hst) (hidx t ht)).ge

/-- No loop of a nest is empty, wherever it starts. -/
def AlwaysRuns (fs : List LoopFrame) (ρ : Env) : Prop :=
  ∀ f ∈ fs, ∀ s T, Env.Le ρ s → forLoops.Starts f s T → T.Nonempty

/-- In a nest without empty loops every iteration of the innermost loop has its access. -/
theorem AlwaysRuns.access (h : AlwaysRuns (fs ++ [innermost]) ρ)
    (hrun : forLoops.Executes (fs ++ [innermost]) ρ S) :
    ∃ s lo hi step, Env.Le ρ s ∧ innermost.Runs s lo hi step ∧ lo < hi ∧ ∀ i ∈ trips lo hi step,
      ∃ t ∈ S, Env.Le s t ∧ ∀ v ∈ innermost.inductionValues, t v = some i := by
  obtain ⟨s, lo, hi, step, hle, hruns, haccess⟩ := access_of_iteration hrun fun g hg =>
    h g (List.mem_append_left _ hg)
  obtain ⟨i, hi'⟩ := h innermost (List.mem_append_right _ List.mem_cons_self) s _ hle
    ⟨lo, hi, step, hruns, rfl⟩
  exact ⟨s, lo, hi, step, hle, hruns, hi'.1.trans_lt hi'.2.1, haccess⟩

/-- A nest that always runs has an innermost trip. -/
theorem AlwaysRuns.nonempty (h : AlwaysRuns (fs ++ [innermost]) ρ)
    (hrun : forLoops.Executes (fs ++ [innermost]) ρ S) : S.Nonempty := by
  obtain ⟨s, lo, hi, step, -, -, hlt, haccess⟩ := h.access hrun
  obtain ⟨t, ht, -⟩ := haccess lo (mem_trips_lo hlt)
  exact ⟨t, ht⟩

/-- **The instance of the upper goal is attained**, if an interval of the index is. -/
theorem attained_of_hoist (hclass : Classified innermost goals.index kind deps)
    (hruns : AlwaysRuns (fs ++ [innermost]) ρ)
    (hrun : forLoops.Executes (fs ++ [innermost]) ρ S)
    (hidx : ∀ t ∈ S, goals.index.Holds t (idx t))
    (htight : ∀ b, goals.index.bounds = some b → fitsI32 b = true → ∃ t ∈ S, idx t = b.stop)
    (hup : ∃ up, upperInstance goals (some kind) = .ok up ∧ up.eval ρ = some u) :
    ∃ t ∈ S, idx t = u := by
  obtain ⟨s, lo, hi, step, hle, hloop, hlt, haccess⟩ := hruns.access hrun
  cases hclass with
  | interval hbounds =>
    obtain ⟨_, ⟨⟩, hu⟩ := hup
    obtain rfl := Option.some.inj hu
    obtain ⟨hb, hfits⟩ := Option.filter_eq_some_iff.mp hbounds
    exact htight _ hb hfits
  | range _ hvalue hform hunit hscale hrange =>
    obtain ⟨_, ⟨⟩, hu⟩ := hup
    obtain rfl := Option.some.inj hu
    obtain rfl := hloop.unitStep hunit
    obtain ⟨iv, hivRange, -, hstop⟩ := affineRange_eq (Option.filter_eq_some_iff.mp hrange).1 hscale
    obtain ⟨hlo, hhi⟩ := hloop.inductionRange iv hivRange
    -- the greatest value is that of the first or of the last iteration
    rw [hstop, ← hlo, show iv.stop = hi - 1 by omega]
    rcases max_choice (_ * lo) (_ * (hi - 1)) with hmax | hmax
    · obtain ⟨t, ht, -, hiv⟩ := haccess lo (mem_trips_lo hlt)
      have hx := index_eq_affine hloop (mem_trips_lo hlt) hform hvalue hscale hrange (hidx t ht) hiv
      exact ⟨t, ht, by rw [hmax, hx.1, add_comm]⟩
    · obtain ⟨t, ht, -, hiv⟩ := haccess (hi - 1) (mem_trips_last hlt)
      have hx := index_eq_affine hloop (mem_trips_last hlt) hform hvalue hscale hrange (hidx t ht)
        hiv
      exact ⟨t, ht, by rw [hmax, hx.1, add_comm]⟩
  | identity _ hvalue hform hunit =>
    obtain ⟨_, ⟨⟩, hu⟩ := hup
    rw [strongest_identity] at hu
    obtain rfl := hloop.unitStep hunit
    obtain ⟨t, ht, hst, hiv⟩ := haccess (hi - 1) (mem_trips_last hlt)
    rw [eval_strongest hle hloop (mem_trips_last hlt) hu]
    exact ⟨t, ht, index_eq_identity hloop (mem_trips_last hlt) hform hvalue (hidx t ht) hiv⟩
  | invariant _ _ _ =>
    obtain ⟨t, ht, hst, -⟩ := haccess lo (mem_trips_lo hlt)
    exact ⟨t, ht, operand_eval hup (hle.trans hst) (hidx t ht)⟩

/-- The instance of the lower goal is attained. -/
theorem lower_attained_of_hoist (hclass : Classified innermost goals.index kind deps)
    (hruns : AlwaysRuns (fs ++ [innermost]) ρ)
    (hrun : forLoops.Executes (fs ++ [innermost]) ρ S)
    (hidx : ∀ t ∈ S, goals.index.Holds t (idx t))
    (hlow : ∃ low, lowerInstance goals (some kind) = .ok low ∧ low.eval ρ = some l) :
    ∃ t ∈ S, idx t = l := by
  obtain ⟨s, lo, hi, step, hle, hloop, hlt, haccess⟩ := hruns.access hrun
  obtain ⟨t, ht, hst, hiv⟩ := haccess lo (mem_trips_lo hlt)
  refine ⟨t, ht, ?_⟩
  cases hclass with
  | interval _ => exact operand_eval hlow (hle.trans hst) (hidx t ht)
  | range _ _ _ _ _ _ => exact operand_eval hlow (hle.trans hst) (hidx t ht)
  | identity _ hvalue hform hunit =>
    obtain ⟨_, ⟨⟩, hl⟩ := hlow
    rw [weakest_identity] at hl
    rw [index_eq_identity hloop (mem_trips_lo hlt) hform hvalue (hidx t ht) hiv]
    exact Option.some.inj (hloop.lower.symm.trans (hle _ _ hl))
  | invariant _ _ _ => exact operand_eval hlow (hle.trans hst) (hidx t ht)

end Extremes

end CudaOxide.Tile
