import CudaOxide.Tile.HoistedIndex

/-!
# Hoisted checks trap exactly when an access would

The check that `place_residual_check` emits is compared with the accesses that one execution of the
loops makes.

* `Bounding`, `Attained` — the instances of the index are its extremes over the accesses.
* `Nest` — the loops that a hoisted check leaves.
* `hoisted_placement` — where the check stands, and that it reads values known there.
* `hoisted_check_sound`, `hoisted_check_exact` — the check against the accesses.
-/

namespace CudaOxide.Tile

open Lib Mir Async

/-! ### The check against the accesses -/

section Check

variable {opts : CheckOptimizations} {deny : Bool} {goals : AxisGoals}
  {dynamicExtent : Option (Option Value)} {block n : ℕ} {frames : List LoopFrame} {a : Assertion}
  {kind : Option HoistIndex} {ρ : Env} {S : Set Env} {idx : Env → ℤ} {extent r u l : ℤ}

/-- The instances of an index bound it over the accesses `S`. -/
structure Bounding (opts : CheckOptimizations) (goals : AxisGoals) (kind : Option HoistIndex)
    (ρ : Env) (S : Set Env) (idx : Env → ℤ) : Prop where
  upper : ∀ u, (∃ up, upperInstance goals kind = .ok up ∧ up.eval ρ = some u) → ∀ t ∈ S, idx t ≤ u
  lower : ∀ l, (∃ low, lowerInstance goals kind = .ok low ∧ low.eval ρ = some l) →
    ∀ t ∈ S, l ≤ idx t
  known : ∀ m, lowerStatic opts goals.index kind = some m → ∀ t ∈ S, m ≤ idx t

/-- The instances of an index are attained. -/
structure Attained (goals : AxisGoals) (kind : Option HoistIndex) (ρ : Env) (S : Set Env)
    (idx : Env → ℤ) : Prop where
  upper : ∀ u, (∃ up, upperInstance goals kind = .ok up ∧ up.eval ρ = some u) → ∃ t ∈ S, idx t = u
  lower : ∀ l, (∃ low, lowerInstance goals kind = .ok low ∧ low.eval ρ = some l) →
    ∃ t ∈ S, idx t = l

/-- A bounding check that passes keeps every index in range. -/
theorem Bounding.inRange (h : Bounding opts goals kind ρ S idx)
    (hreject : rejectNegative goals.axis (lowerStatic opts goals.index kind) = .ok ())
    (hinst : Instances goals kind (lowerStatic opts goals.index kind).isNone ρ u l)
    (hl : 0 ≤ l) (hu : u * goals.tile < extent) : ∀ t ∈ S, goals.InRange extent (idx t) := by
  intro t ht
  refine ⟨?_, (mul_le_mul_of_nonneg_right (h.upper u hinst.upper t ht) ?_).trans_lt hu⟩
  · cases hknown : lowerStatic opts goals.index kind with
    | some m =>
      rw [hknown, rejectNegative] at hreject
      split_ifs at hreject with hm
      exact (not_lt.mp hm).trans (h.known m hknown t ht)
    | none => exact hl.trans (h.lower l (hinst.lower (by rw [hknown]; rfl)) t ht)
  · exact zero_le_one.trans goals.one_le_tile

/-- An attained check passes when every index is in range. -/
theorem Attained.passes (h : Attained goals kind ρ S idx) {needs : Bool}
    (hinst : Instances goals kind needs ρ u l)
    (hrange : ∀ t ∈ S, goals.InRange extent (idx t)) : 0 ≤ l ∧ u * goals.tile < extent := by
  constructor
  · cases needs with
    | false => exact (hinst.known rfl).ge
    | true =>
      obtain ⟨t, ht, rfl⟩ := h.lower l (hinst.lower rfl)
      exact (hrange t ht).1
  · obtain ⟨t, ht, rfl⟩ := h.upper u hinst.upper
    exact (hrange t ht).2

/-- The parts of an assertion. -/
theorem placeResidualCheck_eq_ok
    (h : placeResidualCheck opts deny goals dynamicExtent block frames = .ok a) :
    ∃ hoist kind target, classifyHoist opts goals dynamicExtent block frames = hoist ∧
      kind = hoist.toOption.map Prod.snd ∧ target = (hoist.toOption.bind fun h => frames[h.1]?) ∧
      rejectNegative goals.axis (lowerStatic opts goals.index kind) = .ok () ∧
      a.block = (target.map (·.preheaderBlock)).getD block ∧
      ∃ e, extentCode goals dynamicExtent = .ok e ∧
        checkCode goals e kind (lowerStatic opts goals.index kind).isNone
          (target.bind guardBounds) = .ok a.condition := by
  obtain ⟨_, hreject, h⟩ := Results.bind_eq_ok.mp h
  obtain ⟨_, -, h⟩ := Results.bind_eq_ok.mp h
  obtain ⟨e, he, h⟩ := Results.bind_eq_ok.mp h
  obtain ⟨condition, hcondition, h⟩ := Results.bind_eq_ok.mp h
  obtain rfl := Except.ok.inj h
  exact ⟨_, _, _, rfl, rfl, rfl, hreject, rfl, e, he, hcondition⟩

/-- An interval of the index bounds it from below. -/
theorem bounds_le (hidx : ∀ t ∈ S, goals.index.Holds t (idx t)) {b : Bounds}
    (hb : goals.index.bounds.filter fitsI32 = some b) : ∀ t ∈ S, b.start ≤ idx t :=
  fun t ht => ((hidx t ht).bounds b (Option.filter_eq_some_iff.mp hb).1).1

/-- A check in place tests the index itself. -/
theorem bounding_inPlace (hrun : forLoops.Executes [] ρ S)
    (hidx : ∀ t ∈ S, goals.index.Holds t (idx t)) : Bounding opts goals none ρ S idx := by
  obtain ⟨t, hreach, rfl⟩ := LoopLanguage.executes_nil.mp hrun
  refine ⟨?_, ?_, ?_⟩
  · rintro u hup _ rfl
    exact (operand_eval hup hreach (hidx _ rfl)).le
  · rintro l hlow _ rfl
    exact (operand_eval hlow hreach (hidx _ rfl)).ge
  · intro m hm
    unfold lowerStatic at hm
    split_ifs at hm
    cases hb : goals.index.bounds.filter fitsI32 with
    | none =>
      rw [hb] at hm
      cases hm
    | some b =>
      rw [hb] at hm
      cases hm
      exact bounds_le hidx hb

/-- In place, the index itself is attained. -/
theorem attained_inPlace (hrun : forLoops.Executes [] ρ S)
    (hidx : ∀ t ∈ S, goals.index.Holds t (idx t)) : Attained goals none ρ S idx := by
  obtain ⟨t, hreach, rfl⟩ := LoopLanguage.executes_nil.mp hrun
  exact ⟨fun u hup => ⟨t, rfl, operand_eval hup hreach (hidx t rfl)⟩,
    fun l hlow => ⟨t, rfl, operand_eval hlow hreach (hidx t rfl)⟩⟩

/-- A hoisted check bounds every index of the loops. -/
theorem bounding_hoisted {innermost : LoopFrame} {fs : List LoopFrame} {kind : HoistIndex}
    {deps : List Value} (hclass : Classified innermost goals.index kind deps)
    (hrun : forLoops.Executes (fs ++ [innermost]) ρ S)
    (hidx : ∀ t ∈ S, goals.index.Holds t (idx t)) : Bounding opts goals (some kind) ρ S idx := by
  refine ⟨fun u => upper_of_hoist hclass hrun hidx, fun l => lower_of_hoist hclass hrun hidx, ?_⟩
  intro m hm t ht
  unfold lowerStatic at hm
  split_ifs at hm
  cases hb : goals.index.bounds.filter fitsI32 with
  | some b =>
    rw [hb] at hm
    cases hm
    exact bounds_le hidx hb t ht
  | none =>
    simp only [hb] at hm
    cases hclass with
    | interval hbounds =>
      rw [hb] at hbounds
      cases hbounds
    | range _ hvalue hform hunit hscale hrange =>
      cases hm
      obtain ⟨s, lo, hi, step, i, -, hruns, hi', -, hiv⟩ := iteration_of_access hrun ht
      obtain rfl := hruns.unitStep hunit
      exact (index_eq_affine hruns hi' hform hvalue hscale hrange (hidx t ht) hiv).2.1
    | identity _ _ _ _ => cases hm
    | invariant _ _ _ => cases hm

/-- The loops that a hoisted check leaves: `target` is the outermost of them. -/
structure Nest (goals : AxisGoals) (dynamicExtent : Option (Option Value)) (block n : ℕ)
    (kind : HoistIndex) (innermost target : LoopFrame) (outers loops fs gs : List LoopFrame)
    (operands deps : List Value) : Prop where
  loops_eq : loops = ((innermost :: outers).take (n + 1)).reverse
  innermost_last : loops = fs ++ [innermost]
  target_first : loops = target :: gs
  target_eq : (innermost :: outers)[n]? = some target
  /-- the loops inside the target, from it inwards -/
  inner : gs = ((innermost :: outers).take n).reverse
  body : block = innermost.bodyBlock
  early : innermost.hasEarlyExit = false
  operands_eq : extentDeps dynamicExtent = some operands
  classified : Classified innermost goals.index kind deps
  crosses : ∀ k < n, ∃ f g, (innermost :: outers)[k]? = some f ∧ outers[k]? = some g ∧
    Crosses (operands ++ deps) f g

/-- The loops that a check is hoisted out of are a nest. -/
theorem nest_of_hoist {kind : HoistIndex}
    (h : classifyHoist opts goals dynamicExtent block frames = .ok (n, kind)) :
    ∃ innermost target outers fs gs operands deps, frames = innermost :: outers ∧
      Nest goals dynamicExtent block n kind innermost target outers
        (hoistedLoops opts goals dynamicExtent block frames) fs gs operands deps := by
  obtain ⟨-, innermost, outers, rfl, hblock, hexit, operands, hoperands, deps, hclass, hn⟩ :=
    classifyHoist_eq_ok h
  obtain ⟨hle, hcrosses⟩ := @walkOutward_spec innermost (operands ++ deps) outers
  rw [← hn] at hle hcrosses
  have hlt : n < (innermost :: outers).length := Nat.lt_succ_of_le hle
  have hloops : hoistedLoops opts goals dynamicExtent block (innermost :: outers) =
      ((innermost :: outers).take (n + 1)).reverse := by rw [hoistedLoops, h]
  refine ⟨innermost, (innermost :: outers)[n], outers, (outers.take n).reverse,
    ((innermost :: outers).take n).reverse, operands, deps, rfl, ?_⟩
  exact {
    loops_eq := hloops
    innermost_last := by rw [hloops, List.take_succ_cons, List.reverse_cons]
    target_first := by
      rw [hloops, ← List.take_append_getElem hlt, List.reverse_append, List.reverse_singleton,
        List.singleton_append]
    target_eq := List.getElem?_eq_getElem hlt
    inner := rfl
    body := hblock
    early := hexit
    operands_eq := hoperands
    classified := hclass
    crosses := hcrosses }

section Nests

variable {hoistIndex : HoistIndex} {innermost target : LoopFrame}
  {outers loops fs gs : List LoopFrame} {operands deps : List Value}

/-- The loops inside the target are known not to be empty. -/
theorem Nest.knownNonEmpty (h : Nest goals dynamicExtent block n hoistIndex innermost target outers
    loops fs gs operands deps) : ∀ f ∈ gs, f.knownNonEmpty = true := by
  intro f hf
  rw [h.inner, List.mem_reverse] at hf
  obtain ⟨k, hk, rfl⟩ := List.getElem_of_mem hf
  rw [List.length_take] at hk
  obtain ⟨f', g, hf', -, hcross⟩ := h.crosses k (by omega)
  rw [List.getElem_take]
  rw [List.getElem?_eq_getElem (by omega), Option.some.injEq] at hf'
  rw [hf']
  exact hcross.2.1

/-- The guard decides whether the nest runs. -/
theorem Nest.alwaysRuns (h : Nest goals dynamicExtent block n hoistIndex innermost target outers
    loops fs gs operands deps) (hrun : forLoops.Executes loops ρ S)
    (hguard : ¬Vacuous (guardBounds target) ρ) : AlwaysRuns loops ρ := by
  intro f hf s T hle hstart
  rw [h.target_first] at hf hrun
  rcases List.mem_cons.mp hf with rfl | hf
  · exact nonempty_of_not_vacuous hrun hguard hle hstart
  · exact nonempty_of_known (h.knownNonEmpty f hf) hstart

/-- The loops of a nest form a chain. -/
theorem Nest.isChain (h : Nest goals dynamicExtent block n hoistIndex innermost target outers
    loops fs gs operands deps) : loops.IsChain fun outer inner =>
      inner.preheaderBlock = outer.bodyBlock ∧ inner.knownNonEmpty = true := by
  rw [h.loops_eq, List.isChain_reverse, List.isChain_iff_getElem]
  intro k hk
  rw [List.length_take, List.length_cons] at hk
  obtain ⟨f, g, hf, hg, hcross⟩ := h.crosses k (by omega)
  obtain ⟨_, rfl⟩ := List.getElem?_eq_some_iff.mp hf
  obtain ⟨_, rfl⟩ := List.getElem?_eq_some_iff.mp hg
  simp only [List.getElem_take, List.getElem_cons_succ]
  exact ⟨hcross.1, hcross.2.1⟩

/-- No loop of a nest is left early. -/
theorem Nest.hasEarlyExit (h : Nest goals dynamicExtent block n hoistIndex innermost target outers
    loops fs gs operands deps) : ∀ f ∈ loops, f.hasEarlyExit = false := by
  intro f hf
  rw [h.loops_eq, List.mem_reverse] at hf
  obtain ⟨k, hk, rfl⟩ := List.getElem_of_mem hf
  rw [List.length_take] at hk
  rw [List.getElem_take]
  cases k with
  | zero => exact h.early
  | succ k =>
    obtain ⟨f', g, -, hg, hcross⟩ := h.crosses k (by omega)
    rw [List.getElem_cons_succ]
    rw [List.length_cons] at hk
    rw [List.getElem?_eq_getElem (by omega), Option.some.injEq] at hg
    rw [hg]
    exact hcross.2.2.1

end Nests

section Verdict

variable {hoist : Except (Option NoHoist) (ℕ × HoistIndex)}

/-- What the check leaves open holds of no access: the guard passes over a loop that makes none. -/
theorem inRange_of_verdict (hhoist : classifyHoist opts goals dynamicExtent block frames = hoist)
    (hrun : forLoops.Executes (hoistedLoops opts goals dynamicExtent block frames) ρ S)
    (hidx : ∀ t ∈ S, goals.index.Holds t (idx t))
    (hreject : rejectNegative goals.axis
      (lowerStatic opts goals.index (hoist.toOption.map Prod.snd)) = .ok ())
    (hinst : Instances goals (hoist.toOption.map Prod.snd)
      (lowerStatic opts goals.index (hoist.toOption.map Prod.snd)).isNone ρ u l)
    (hverdict : Vacuous ((hoist.toOption.bind fun h => frames[h.1]?).bind guardBounds) ρ ∨
      0 ≤ l ∧ u * goals.tile < extent) : ∀ t ∈ S, goals.InRange extent (idx t) := by
  intro t ht
  cases hoist with
  | error why =>
    rw [hoistedLoops, hhoist] at hrun
    rcases hverdict with ⟨_, _, _, _, hnone, -⟩ | ⟨hl, hu⟩
    · cases hnone
    · exact (bounding_inPlace hrun hidx).inRange hreject hinst hl hu t ht
  | ok found =>
    obtain ⟨n, hoistIndex⟩ := found
    obtain ⟨innermost, target, outers, fs, gs, operands, deps, rfl, hnest⟩ := nest_of_hoist hhoist
    rcases hverdict with hvacuous | ⟨hl, hu⟩
    · rw [hnest.target_first] at hrun
      refine absurd ?_ (not_vacuous_of_mem hrun ht)
      simpa [Except.toOption, hnest.target_eq] using hvacuous
    · rw [hnest.innermost_last] at hrun
      exact (bounding_hoisted hnest.classified hrun hidx).inRange hreject hinst hl hu t ht

/-- Where all accesses are in range, the check passes. -/
theorem verdict_of_inRange (hhoist : classifyHoist opts goals dynamicExtent block frames = hoist)
    (hrun : forLoops.Executes (hoistedLoops opts goals dynamicExtent block frames) ρ S)
    (hidx : ∀ t ∈ S, goals.index.Holds t (idx t))
    (htight : ∀ b, goals.index.bounds = some b → fitsI32 b = true → S.Nonempty →
      hoistedLoops opts goals dynamicExtent block frames ≠ [] → ∃ t ∈ S, idx t = b.stop)
    {needs : Bool} (hinst : Instances goals (hoist.toOption.map Prod.snd) needs ρ u l)
    (hrange : ∀ t ∈ S, goals.InRange extent (idx t)) :
    Vacuous ((hoist.toOption.bind fun h => frames[h.1]?).bind guardBounds) ρ ∨
      0 ≤ l ∧ u * goals.tile < extent := by
  cases hoist with
  | error why =>
    rw [hoistedLoops, hhoist] at hrun
    exact .inr ((attained_inPlace hrun hidx).passes hinst hrange)
  | ok found =>
    obtain ⟨n, hoistIndex⟩ := found
    obtain ⟨innermost, target, outers, fs, gs, operands, deps, rfl, hnest⟩ := nest_of_hoist hhoist
    have hguard : ((Except.ok (ε := Option NoHoist) (n, hoistIndex)).toOption.bind fun h =>
        (innermost :: outers)[h.1]?).bind guardBounds = guardBounds target := by
      simp [Except.toOption, hnest.target_eq]
    rw [hguard]
    by_cases hvacuous : Vacuous (guardBounds target) ρ
    · exact .inl hvacuous
    · have hruns := hnest.alwaysRuns hrun hvacuous
      rw [hnest.innermost_last] at hrun hruns htight
      have hnonempty := hruns.nonempty hrun
      have hattained : Attained goals (some hoistIndex) ρ S idx :=
        ⟨fun u => attained_of_hoist hnest.classified hruns hrun hidx
          fun b hb hfits => htight b hb hfits hnonempty (by simp),
        fun l => lower_attained_of_hoist hnest.classified hruns hrun hidx⟩
      exact .inr (hattained.passes hinst hrange)

end Verdict

/-! ### Where the check stands -/

/-- The values that a comparison reads. -/
def Code.values : Code → List Value
  | const _ => []
  | value v => [v]
  | bin _ _ a b => a.values ++ b.values

/-- The extent reads the operands that it depends on. -/
theorem extentCode_values {e : Code} {operands : List Value}
    (he : extentCode goals dynamicExtent = .ok e)
      (hoperands : extentDeps dynamicExtent = some operands) :
    ∀ v ∈ e.values, v ∈ operands := by
  intro v hv
  cases dynamicExtent with
  | none =>
    unfold extentCode at he
    cases hstatic : goals.staticExtent with
    | none =>
      rw [hstatic] at he
      cases he
    | some extent =>
      rw [hstatic] at he
      cases he
      cases hv
  | some shape =>
    cases shape with
    | none => cases he
    | some shape =>
      cases he
      cases hoperands
      exact hv

/-- The code of an index reads its value. -/
theorem operand_values {index : Index} {value : Value} {c : Code}
    (hvalue : index.value = some value)
    (hc : operand index.value = .ok c) : c.values = [value] := by
  rw [hvalue] at hc
  cases hc
  rfl

/-- Where proofs are used, the instances of an index read only what the classification lists. -/
theorem instance_values {innermost : LoopFrame} {hoistIndex : HoistIndex} {deps : List Value}
    {c : Code} (hclass : Classified innermost goals.index hoistIndex deps)
    (hproofs : opts.dischargeProofs = true)
    (hc : upperInstance goals (some hoistIndex) = .ok c ∨
      (lowerStatic opts goals.index (some hoistIndex)).isNone = true ∧
        lowerInstance goals (some hoistIndex) = .ok c) : ∀ v ∈ c.values, v ∈ deps := by
  cases hclass with
  | interval hbounds =>
    rcases hc with hc | ⟨hneeds, -⟩
    · cases hc
      exact fun v hv => hv
    · simp [lowerStatic, hproofs, hbounds] at hneeds
  | range hbounds _ _ _ _ _ =>
    rcases hc with hc | ⟨hneeds, -⟩
    · cases hc
      exact fun v hv => hv
    · simp [lowerStatic, hproofs, hbounds] at hneeds
  | identity _ _ _ _ =>
    rcases hc with hc | ⟨-, hc⟩
    · cases hc
      intro v hv
      rw [strongest_identity] at hv
      simpa [Code.values] using Or.inl (by simpa [Code.values] using hv)
    · cases hc
      intro v hv
      rw [weakest_identity] at hv
      simpa [Code.values] using Or.inr (by simpa [Code.values] using hv)
  | invariant _ hvalue _ =>
    rcases hc with hc | ⟨-, hc⟩ <;> rw [operand_values hvalue hc] <;> exact fun v hv => hv

/-- The values that a comparison reads come from its operands. -/
theorem checkCode_values {e c : Code} {kind : Option HoistIndex} {needs : Bool}
    {guard : Option (Value × Value)} (h : checkCode goals e kind needs guard = .ok c) :
    ∀ v ∈ c.values, v ∈ e.values ∨
      (∃ i, (upperInstance goals kind = .ok i ∨ needs = true ∧ lowerInstance goals kind = .ok i) ∧
        v ∈ i.values) ∨
      ∃ g, guard = some g ∧ (v = g.1 ∨ v = g.2) := by
  obtain ⟨up, hup, h⟩ := Results.bind_eq_ok.mp h
  obtain ⟨both, hboth, h⟩ := Results.bind_eq_ok.mp h
  obtain rfl := Except.ok.inj h
  have hvalues : ∀ v ∈ both.values, v ∈ e.values ∨ ∃ i, (upperInstance goals kind = .ok i ∨
      needs = true ∧ lowerInstance goals kind = .ok i) ∧ v ∈ i.values := by
    intro v hv
    have hupper : v ∈ (Code.bin .i32 .lt up (tileCountCode e goals.tile)).values →
        v ∈ e.values ∨ v ∈ up.values := by
      intro hv
      simp only [tileCountCode, Code.values, List.mem_append, List.not_mem_nil, or_false] at hv
      tauto
    rcases withLowerGuard_eq_ok hboth with ⟨-, rfl⟩ | ⟨hneeds, low, hlow, rfl⟩
    · exact (hupper hv).imp_right fun hv => ⟨up, .inl hup, hv⟩
    · rcases List.mem_append.mp hv with hv | hv
      · rw [Code.values, Code.values, List.append_nil] at hv
        exact .inr ⟨low, .inr ⟨hneeds, hlow⟩, hv⟩
      · exact (hupper hv).imp_right fun hv => ⟨up, .inl hup, hv⟩
  intro v hv
  cases guard with
  | none => exact (hvalues v hv).imp_right .inl
  | some g =>
    simp only [withVacuousGuard, Code.values, List.mem_append, List.mem_singleton] at hv
    rcases hv with (hv | hv) | hv
    · exact .inr (.inr ⟨g, rfl, .inr hv⟩)
    · exact .inr (.inr ⟨g, rfl, .inl hv⟩)
    · exact (hvalues v hv).imp_right .inl

/-- What a loop frame records of the code before the loop. -/
structure LoopFrame.WellFormed (f : LoopFrame) : Prop where
  lower : f.lower < f.valueWatermark
  upper : f.upper < f.valueWatermark

/-- The operands of a hoisted check are known before the target. -/
theorem Nest.known_before {hoistIndex : HoistIndex} {innermost target : LoopFrame}
    {outers loops fs gs : List LoopFrame} {operands deps : List Value}
    (h : Nest goals dynamicExtent block n hoistIndex innermost target outers loops fs gs operands
      deps) (hframes : ∀ f ∈ innermost :: outers, f.WellFormed)
    (hextent : ∀ v f, dynamicExtent = some (some v) → (innermost :: outers).head? = some f →
      v < f.valueWatermark) : ∀ v ∈ operands ++ deps, v < target.valueWatermark := by
  have htarget := h.target_eq
  cases n with
  | succ m =>
    -- the walk has tested them against the target
    obtain ⟨f, g, -, hg, hcross⟩ := h.crosses m (Nat.lt_succ_self m)
    obtain rfl : g = target := Option.some.inj (hg.symm.trans htarget)
    exact hcross.2.2.2
  | zero =>
    obtain rfl : innermost = target := Option.some.inj htarget
    have hinnermost := hframes innermost List.mem_cons_self
    intro v hv
    rcases List.mem_append.mp hv with hv | hv
    · have hoperands := h.operands_eq
      cases hdyn : dynamicExtent with
      | none =>
        rw [hdyn] at hoperands
        cases hoperands
        cases hv
      | some shape =>
        cases shape with
        | none =>
          rw [hdyn] at hoperands
          cases hoperands
        | some shape =>
          rw [hdyn] at hoperands
          cases hoperands
          rw [List.mem_singleton] at hv
          exact hextent v innermost (hv ▸ hdyn) rfl
    · cases h.classified with
      | interval _ => cases hv
      | range _ _ _ _ _ _ => cases hv
      | identity _ _ _ _ =>
        rcases List.mem_cons.mp hv with rfl | hv
        · exact hinnermost.upper
        · rw [List.mem_singleton] at hv
          exact hv ▸ hinnermost.lower
      | invariant _ _ hlt =>
        rw [List.mem_singleton] at hv
        exact hv ▸ hlt

/-- **Where a hoisted check stands.**  It stands before a chain of loops, each directly in the body
of the loop around it; the innermost one contains the access.  No iteration of a loop of the chain
skips the loop inside it, and all values that the check reads are known before the outermost
loop. -/
theorem hoisted_placement (hproofs : opts.dischargeProofs = true)
    (hplace : placeResidualCheck opts deny goals dynamicExtent block frames = .ok a)
    (hframes : ∀ f ∈ frames, f.WellFormed)
    (hextent : ∀ v f, dynamicExtent = some (some v) → frames.head? = some f → v < f.valueWatermark)
    {target : LoopFrame} {gs : List LoopFrame}
    (hloops : hoistedLoops opts goals dynamicExtent block frames = target :: gs) :
    a.block = target.preheaderBlock ∧
      (target :: gs).IsChain (fun outer inner =>
        inner.preheaderBlock = outer.bodyBlock ∧ inner.knownNonEmpty = true) ∧
      (∀ f ∈ target :: gs, f.hasEarlyExit = false) ∧
      ((target :: gs).getLast?.map (·.bodyBlock)) = some block ∧
      ∀ v ∈ a.condition.values, v < target.valueWatermark := by
  obtain ⟨hoist, kind, target', hhoist, rfl, rfl, -, hblock, e, he, hcondition⟩ :=
    placeResidualCheck_eq_ok hplace
  cases hoist with
  | error why =>
    rw [hoistedLoops, hhoist] at hloops
    cases hloops
  | ok found =>
    obtain ⟨n, hoistIndex⟩ := found
    obtain ⟨innermost, target', outers, fs, gs', operands, deps, rfl, hnest⟩ :=
      nest_of_hoist hhoist
    obtain ⟨rfl, rfl⟩ := List.cons.inj (hloops.symm.trans hnest.target_first)
    rw [hloops] at hnest
    simp only [Except.toOption, Option.bind_some, Option.map_some,
      hnest.target_eq] at hblock hcondition
    refine ⟨hblock, hnest.isChain, hnest.hasEarlyExit, ?_, fun v hv => ?_⟩
    · rw [hnest.innermost_last, List.getLast?_append, List.getLast?_singleton, Option.some_or,
        Option.map_some, hnest.body]
    · have htarget := hframes target (List.mem_of_getElem? hnest.target_eq)
      rcases checkCode_values hcondition v hv with hv | ⟨c, hc, hv⟩ | ⟨g, hg, hv⟩
      · exact hnest.known_before hframes hextent v
          (List.mem_append_left _ (extentCode_values he hnest.operands_eq v hv))
      · exact hnest.known_before hframes hextent v
          (List.mem_append_right _ (instance_values hnest.classified hproofs hc v hv))
      · unfold guardBounds at hg
        split_ifs at hg
        cases hg
        rcases hv with rfl | rfl
        · exact htarget.lower
        · exact htarget.upper

/-- `for i in 0..n { for j in 0..8 { p.load([k]) } }`: the check of `k` stands before both loops. -/
theorem hoisted_placement_two :
    let outer : LoopFrame := ⟨0, 1, 4, [4], 1, 2, true, false, none, false⟩
    let inner : LoopFrame := ⟨1, 2, 7, [7], 5, 6, true, true, none, false⟩
    let goals : AxisGoals := ⟨0, 16, by decide, by decide, none, ⟨some 3, none, none⟩⟩
    ∃ a, placeResidualCheck .release false goals (some (some 0)) 2 [inner, outer] = .ok a ∧
      a.block = 0 ∧ ∀ v ∈ a.condition.values, v < 4 := by
  intro outer inner goals
  refine ⟨_, rfl, ?_⟩
  have hplaced := @hoisted_placement .release false goals (some (some 0)) 2 [inner, outer] _ rfl rfl
    (by simpa [outer, inner] using ⟨⟨by decide, by decide⟩, ⟨by decide, by decide⟩⟩)
    (by rintro v f ⟨⟩ ⟨⟩; decide) outer [inner] rfl
  exact ⟨hplaced.1, hplaced.2.2.2.2⟩

/-! A loop `for i in 0..n { p.load([i]) }` over tiles of 16: the extent is value 0, and `n` is
value 2. -/

/-- The loop of the example. -/
def rowLoop : LoopFrame where
  preheaderBlock := 0
  bodyBlock := 1
  valueWatermark := 3
  inductionValues := [3]
  lower := 1
  upper := 2
  unitStep := true
  knownNonEmpty := false
  inductionRange := none
  hasEarlyExit := false

/-- The goals of the example. -/
def rowGoals : AxisGoals where
  axis := 0
  tile := 16
  one_le_tile := by decide
  tile_le := by decide
  staticExtent := none
  index := ⟨some 3, none, none⟩

/-- The check of the example. -/
def rowCheck : Assertion where
  block := 0
  condition := withVacuousGuard (some (1, 2)) (.bin .bool .bitAnd
    (.bin .i32 .ge (.value 1) (.const 0))
    (.bin .i32 .lt (.bin .i32 .sub (.value 2) (.const 1)) (tileCountCode (.value 0) 16)))
  message := checkMessage rowGoals true

/-- The values before the loop. -/
def rowEnv (extent n : ℤ) : Env := fun v =>
  if v = 0 then some extent else if v = 1 then some 0 else if v = 2 then some n else none

/-- The values in iteration `i`. -/
def rowBody (extent n i : ℤ) : Env := fun v => if v = 3 then some i else rowEnv extent n v

/-- The body of the example knows more. -/
theorem rowBody_le (extent n i : ℤ) : Env.Le (rowEnv extent n) (rowBody extent n i) := by
  intro v x h
  rw [rowBody, if_neg ?_]
  · exact h
  · rintro rfl
    cases h

/-- The check is placed before the loop. -/
theorem rowCheck_eq : placeResidualCheck .release false rowGoals (some (some 0)) 1 [rowLoop] =
    .ok rowCheck := rfl

/-- The loop of the example runs over four rows. -/
theorem executes_row (extent : ℤ) :
    forLoops.Executes (hoistedLoops .release rowGoals (some (some 0)) 1 [rowLoop])
      (rowEnv extent 4) (⋃ i ∈ trips 0 4 1, {rowBody extent 4 i}) := by
  have hruns : rowLoop.Runs (rowEnv extent 4) 0 4 1 :=
    ⟨rfl, rfl, by decide, by decide, by decide, fun _ => rfl, fun _ => by decide,
      fun r hr => by cases hr⟩
  refine .loop (L := forLoops) ⟨0, 4, 1, hruns, rfl⟩ (rowBody extent 4) _ (fun i _ => ?_)
    fun i _ => .access (Env.Le.refl _)
  refine ⟨rowBody_le extent 4 i, fun v hv => ?_⟩
  obtain rfl := List.mem_singleton.mp hv
  rfl

/-- The extent of the example. -/
theorem extent_row {extent : ℤ} (h : 0 ≤ extent) (hfits : extent ≤ 2147483647) :
    rowGoals.Extent (some (some 0)) (rowEnv extent 4) extent where
  nonneg := h
  fits := hfits
  value c hc := by
    cases hc
    rfl

/-- The index of the example is the counter. -/
theorem holds_row (extent : ℤ) :
    ∀ t ∈ ⋃ i ∈ trips 0 4 1, {rowBody extent 4 i}, rowGoals.index.Holds t ((t 3).getD 0) := by
  intro t ht
  obtain ⟨i, hi, rfl⟩ := Set.mem_iUnion₂.mp ht
  refine ⟨⟨le_trans (by decide) hi.1, hi.2.1.le.trans (by decide)⟩, ?_, ?_, ?_⟩
  · rintro v ⟨⟩
    rfl
  · rintro b ⟨⟩
  · rintro t ⟨⟩

/-- **A hoisted check is sound.**  Where the check passes, every access that the nest makes is in
range. -/
theorem hoisted_check_sound
    (hplace : placeResidualCheck opts deny goals dynamicExtent block frames = .ok a)
    (hrun : forLoops.Executes (hoistedLoops opts goals dynamicExtent block frames) ρ S)
    (hextent : goals.Extent dynamicExtent ρ extent)
    (hidx : ∀ t ∈ S, goals.index.Holds t (idx t)) (hpass : a.condition.eval ρ = some 1) :
    ∀ t ∈ S, goals.InRange extent (idx t) := by
  obtain ⟨hoist, kind, target, hhoist, rfl, rfl, hreject, -, e, he, hcondition⟩ :=
    placeResidualCheck_eq_ok hplace
  obtain ⟨u, l, hinst, hanswer⟩ := checkCode_eval hcondition (hextent.value e he) hextent.nonneg
    hextent.fits hpass
  exact inRange_of_verdict hhoist hrun hidx hreject hinst (hanswer.eq_one_iff.mp rfl)

/-- The last of four tiles. -/
theorem hoisted_check_sound_row : rowGoals.InRange 100 ((rowBody 100 4 3 3).getD 0) :=
  hoisted_check_sound rowCheck_eq (executes_row 100) (extent_row (by decide) (by decide))
    (holds_row 100) (by decide) (rowBody 100 4 3)
    (Set.mem_biUnion (show (3 : ℤ) ∈ trips 0 4 1 from ⟨by decide, by decide, by decide⟩) rfl)

/-- **A hoisted check traps exactly when an access would.**  The check decides whether all accesses
of the nest are in range, where an interval of the index is no wider than the accesses. -/
theorem hoisted_check_exact
    (hplace : placeResidualCheck opts deny goals dynamicExtent block frames = .ok a)
    (hrun : forLoops.Executes (hoistedLoops opts goals dynamicExtent block frames) ρ S)
    (hextent : goals.Extent dynamicExtent ρ extent)
    (hidx : ∀ t ∈ S, goals.index.Holds t (idx t))
    (htight : ∀ b, goals.index.bounds = some b → fitsI32 b = true → S.Nonempty →
      hoistedLoops opts goals dynamicExtent block frames ≠ [] → ∃ t ∈ S, idx t = b.stop)
    (hr : a.condition.eval ρ = some r) : Answers r (∀ t ∈ S, goals.InRange extent (idx t)) := by
  obtain ⟨hoist, kind, target, hhoist, rfl, rfl, hreject, -, e, he, hcondition⟩ :=
    placeResidualCheck_eq_ok hplace
  obtain ⟨u, l, hinst, hanswer⟩ := checkCode_eval hcondition (hextent.value e he) hextent.nonneg
    hextent.fits hr
  exact hanswer.congr ⟨inRange_of_verdict hhoist hrun hidx hreject hinst,
    verdict_of_inRange hhoist hrun hidx htight hinst⟩

/-- Three tiles: the check fails, and the last access is out of range. -/
theorem hoisted_check_exact_row : Answers 0 (∀ t ∈ ⋃ i ∈ trips 0 4 1, {rowBody 40 4 i},
    rowGoals.InRange 40 ((t 3).getD 0)) :=
  hoisted_check_exact rowCheck_eq (executes_row 40) (extent_row (by decide) (by decide))
    (holds_row 40) (fun b hb => by cases hb) (by decide)

end Check

end CudaOxide.Tile
