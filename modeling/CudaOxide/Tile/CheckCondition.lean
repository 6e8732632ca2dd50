import CudaOxide.Lib.Results
import CudaOxide.Tile.Placement

/-!
# What a bounds check decides

The comparison that `place_residual_check` emits, with all arithmetic in `i32`.

* `eval_tileCountCode`, `lt_tileCount_iff` — the quotient and the clamped remainder count the tiles,
  and no intermediate result wraps.
* `checkCode_eval` — the value of the comparison, for the instances of the index that it tests.
-/

namespace CudaOxide.Tile

open Lib Mir

section Comparison

variable {ρ : Env} {a b c : Code} {p q : Prop} {x y z r u tile extent : ℤ}

/-- The value of a comparison. -/
def Answers (r : ℤ) (p : Prop) : Prop := p ∧ r = 1 ∨ ¬p ∧ r = 0

/-- An answer is 1 exactly when the statement holds. -/
theorem Answers.eq_one_iff (h : Answers r p) : r = 1 ↔ p := by
  rcases h with ⟨hp, rfl⟩ | ⟨hp, rfl⟩
  · exact iff_of_true rfl hp
  · exact iff_of_false (by decide) hp

/-- An answer to an equivalent question. -/
theorem Answers.congr (h : Answers r p) (hpq : p ↔ q) : Answers r q := by
  rwa [Answers, ← hpq]

/-- `asI64` answers. -/
theorem answers_asI64 (p : Prop) [Decidable p] : Answers (asI64 p) p := by
  unfold asI64
  by_cases hp : p
  · exact .inl ⟨hp, if_pos hp⟩
  · exact .inr ⟨hp, if_neg hp⟩

/-- A binary operation evaluates its operands. -/
theorem eval_bin {t : MachineType} {o : TileBinaryOp} (h : (Code.bin t o a b).eval ρ = some r) :
    ∃ x y, a.eval ρ = some x ∧ b.eval ρ = some y ∧ machineOp t.ty o x y = some r := by
  obtain ⟨x, hx, h⟩ := Option.bind_eq_some_iff.mp h
  obtain ⟨y, hy, h⟩ := Option.bind_eq_some_iff.mp h
  exact ⟨x, y, hx, hy, h⟩

/-- A binary operation of values. -/
theorem eval_bin_eq {t : MachineType} {o : TileBinaryOp} (ha : a.eval ρ = some x)
    (hb : b.eval ρ = some y) (h : machineOp t.ty o x y = some z) :
    (Code.bin t o a b).eval ρ = some z :=
  Option.bind_eq_some_iff.mpr ⟨x, ha, Option.bind_eq_some_iff.mpr ⟨y, hb, h⟩⟩

/-- The conjunction of two answers. -/
theorem answers_bitAnd (hx : Answers x p) (hy : Answers y q)
    (h : machineOp MachineType.bool.ty .bitAnd x y = some r) : Answers r (p ∧ q) := by
  rcases hx with ⟨hp, rfl⟩ | ⟨hp, rfl⟩ <;> rcases hy with ⟨hq, rfl⟩ | ⟨hq, rfl⟩ <;>
    obtain rfl := Option.some.inj h
  · exact .inl ⟨⟨hp, hq⟩, by decide⟩
  · exact .inr ⟨fun h => hq h.2, by decide⟩
  · exact .inr ⟨fun h => hp h.1, by decide⟩
  · exact .inr ⟨fun h => hp h.1, by decide⟩

/-- The disjunction of two answers. -/
theorem answers_bitOr (hx : Answers x p) (hy : Answers y q)
    (h : machineOp MachineType.bool.ty .bitOr x y = some r) : Answers r (p ∨ q) := by
  rcases hx with ⟨hp, rfl⟩ | ⟨hp, rfl⟩ <;> rcases hy with ⟨hq, rfl⟩ | ⟨hq, rfl⟩ <;>
    obtain rfl := Option.some.inj h
  · exact .inl ⟨.inl hp, by decide⟩
  · exact .inl ⟨.inl hp, by decide⟩
  · exact .inl ⟨.inr hq, by decide⟩
  · exact .inr ⟨fun h => h.elim hp hq, by decide⟩

/-- The range of `i32`. -/
theorem holds_i32 : MachineType.i32.Holds x ↔ -2147483648 ≤ x ∧ x ≤ 2147483647 := Iff.rfl

/-- A result that is an `i32` is not cut. -/
theorem wrap_i32 (hlo : -2147483648 ≤ x) (hhi : x ≤ 2147483647) :
    MachineType.i32.ty.wrap x = x :=
  MachineType.wrap_of_holds (holds_i32.mpr ⟨hlo, hhi⟩)

/-- The number of tiles: no intermediate result is above the extent. -/
theorem eval_tileCountCode (hshape : a.eval ρ = some extent) (h0 : 0 ≤ extent)
    (hfits : extent ≤ 2147483647) (htile : 1 ≤ tile) :
    (tileCountCode a tile).eval ρ = some (extent / tile + min (extent % tile) 1) := by
  have hne : tile ≠ 0 := by omega
  have hsplit := Int.mul_ediv_add_emod extent tile
  have hdiv0 : 0 ≤ extent / tile := Int.ediv_nonneg h0 (by omega)
  have hmod0 : 0 ≤ extent % tile := Int.emod_nonneg extent hne
  have hmul : extent / tile ≤ tile * (extent / tile) := by nlinarith
  have hquot : machineOp MachineType.i32.ty .div extent tile = some (extent / tile) := by
    rw [machineOp, if_neg hne, Int.tdiv_eq_ediv_of_nonneg h0, wrap_i32 (by omega) (by omega)]
  have hrem : machineOp MachineType.i32.ty .rem extent tile = some (extent % tile) := by
    rw [machineOp, if_neg hne, Int.tmod_eq_emod_of_nonneg h0, wrap_i32 (by omega) (by omega)]
  have hcarry : machineOp MachineType.i32.ty .min (extent % tile) 1 =
      some (min (extent % tile) 1) := rfl
  -- the carry is at most the remainder
  have hsum : machineOp MachineType.i32.ty .add (extent / tile) (min (extent % tile) 1) =
      some (extent / tile + min (extent % tile) 1) := by
    rw [machineOp, wrap_i32 (by omega) (by omega)]
  exact eval_bin_eq (eval_bin_eq hshape rfl hquot)
    (eval_bin_eq (eval_bin_eq hshape rfl hrem) rfl hcarry) hsum

/-- An index below the number of tiles. -/
theorem lt_tileCount_iff (htile : 1 ≤ tile) :
    u < extent / tile + min (extent % tile) 1 ↔ u * tile < extent := by
  have hsplit := Int.mul_ediv_add_emod extent tile
  have hmod0 : 0 ≤ extent % tile := Int.emod_nonneg extent (by omega)
  have hmod : extent % tile < tile := Int.emod_lt_of_pos extent (by omega)
  generalize extent / tile = q at *
  generalize extent % tile = m at *
  constructor
  · intro h
    rcases Int.lt_or_le m 1 with hm | hm
    · nlinarith [min_eq_left hm.le]
    · nlinarith [min_eq_right hm]
  · intro h
    by_contra hge
    rcases Int.lt_or_le m 1 with hm | hm
    · nlinarith [min_eq_left hm.le]
    · nlinarith [min_eq_right hm]

/-- The lower guard is added when it is needed. -/
theorem withLowerGuard_eq_ok {goals : AxisGoals} {kind : Option HoistIndex} {needs : Bool}
    (h : withLowerGuard goals kind needs a = .ok b) :
    needs = false ∧ b = a ∨ needs = true ∧ ∃ low, lowerInstance goals kind = .ok low ∧
      b = .bin .bool .bitAnd (.bin .i32 .ge low (.const 0)) a := by
  cases needs with
  | false => exact .inl ⟨rfl, (Except.ok.inj h).symm⟩
  | true =>
    obtain ⟨low, hlow, h⟩ := Results.bind_eq_ok.mp h
    exact .inr ⟨rfl, low, hlow, (Except.ok.inj h).symm⟩

/-- The upper comparison, for the value `u` of the instance. -/
theorem answers_upper (hshape : b.eval ρ = some extent) (h0 : 0 ≤ extent)
    (hfits : extent ≤ 2147483647) (htile : 1 ≤ tile)
    (h : (Code.bin .i32 .lt a (tileCountCode b tile)).eval ρ = some r) :
    ∃ u, a.eval ρ = some u ∧ Answers r (u * tile < extent) := by
  obtain ⟨u, n, hu, hn, h⟩ := eval_bin h
  rw [eval_tileCountCode hshape h0 hfits htile, Option.some.injEq] at hn
  obtain rfl := Option.some.inj h
  refine ⟨u, hu, (answers_asI64 _).congr ?_⟩
  rw [← hn, lt_tileCount_iff htile]

/-- The instances of the index that the comparison tests: `u` for the upper goal, and `l` for the
lower one unless it is known to hold. -/
structure Instances (goals : AxisGoals) (kind : Option HoistIndex) (needs : Bool) (ρ : Env)
    (u l : ℤ) : Prop where
  upper : ∃ up, upperInstance goals kind = .ok up ∧ up.eval ρ = some u
  lower : needs = true → ∃ low, lowerInstance goals kind = .ok low ∧ low.eval ρ = some l
  known : needs = false → l = 0

/-- The loop of the guard runs no iteration. -/
def Vacuous (guard : Option (Value × Value)) (ρ : Env) : Prop :=
  ∃ lo hi x y, guard = some (lo, hi) ∧ ρ lo = some x ∧ ρ hi = some y ∧ y ≤ x

/-- **What the generated comparison decides.** -/
theorem checkCode_eval {goals : AxisGoals} {kind : Option HoistIndex} {needs : Bool}
    {guard : Option (Value × Value)} (h : checkCode goals b kind needs guard = .ok c)
    (hshape : b.eval ρ = some extent) (h0 : 0 ≤ extent) (hfits : extent ≤ 2147483647)
    (hr : c.eval ρ = some r) :
    ∃ u l, Instances goals kind needs ρ u l ∧
      Answers r (Vacuous guard ρ ∨ 0 ≤ l ∧ u * goals.tile < extent) := by
  obtain ⟨up, hup, h⟩ := Results.bind_eq_ok.mp h
  obtain ⟨both, hboth, h⟩ := Results.bind_eq_ok.mp h
  obtain rfl := Except.ok.inj h
  -- the two bounds, with the lower one only where it is needed
  have hlower : ∀ {z}, both.eval ρ = some z → ∃ u l, Instances goals kind needs ρ u l ∧
      Answers z (0 ≤ l ∧ u * goals.tile < extent) := by
    intro z hz
    -- without the lower guard the least instance is taken as 0
    rcases withLowerGuard_eq_ok hboth with ⟨hneeds, rfl⟩ | ⟨hneeds, low, hlow, rfl⟩
    · obtain ⟨u, hu, hanswer⟩ := answers_upper hshape h0 hfits goals.one_le_tile hz
      refine ⟨u, 0, ⟨⟨up, hup, hu⟩, fun hn => ?_, fun _ => rfl⟩, hanswer.congr ?_⟩
      · rw [hneeds] at hn
        cases hn
      · exact (and_iff_right le_rfl).symm
    · obtain ⟨x, y, hx, hy, hz⟩ := eval_bin hz
      obtain ⟨l, zero, hl, hzero, hx⟩ := eval_bin hx
      obtain ⟨u, hu, hanswer⟩ := answers_upper hshape h0 hfits goals.one_le_tile hy
      obtain rfl := Option.some.inj hzero
      obtain rfl := Option.some.inj hx
      refine ⟨u, l, ⟨⟨up, hup, hu⟩, fun _ => ⟨low, hlow, hl⟩, fun hn => ?_⟩,
        answers_bitAnd (answers_asI64 _) hanswer hz⟩
      rw [hneeds] at hn
      cases hn
  -- the guard of an empty loop answers before the bounds do
  cases guard with
  | none =>
    obtain ⟨u, l, hinstances, hanswer⟩ := hlower hr
    refine ⟨u, l, hinstances, hanswer.congr (or_iff_right ?_).symm⟩
    rintro ⟨_, _, _, _, hnone, -⟩
    cases hnone
  | some bounds =>
    obtain ⟨x, z, hx, hz, hr⟩ := eval_bin hr
    obtain ⟨y, y', hy, hy', hx⟩ := eval_bin hx
    obtain ⟨u, l, hinstances, hanswer⟩ := hlower hz
    obtain rfl := Option.some.inj hx
    refine ⟨u, l, hinstances, (answers_bitOr (answers_asI64 _) hanswer hr).congr
      (or_congr_left ⟨fun hle => ⟨bounds.1, bounds.2, y', y, rfl, hy', hy, hle⟩, ?_⟩)⟩
    rintro ⟨lo', hi', x', z', hguard, hx', hz', hle⟩
    cases hguard
    obtain rfl := Option.some.inj (hy.symm.trans hz')
    obtain rfl := Option.some.inj (hy'.symm.trans hx')
    exact hle

end Comparison

end CudaOxide.Tile
