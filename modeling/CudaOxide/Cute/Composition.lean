import CudaOxide.Cute.Coalesce

namespace CudaOxide.Cute

open Lib Strided

/-!
# Composition

`composition a b` is meant to be the layout of `c ↦ a (b c)`.  Each leaf `n:q` of `b` is walked
through the coalesced modes of `a` by `composeInt` (`algebra/mapping.rs`).

* `pieces` — the modes that `composeInt` produces, over `ℤ`; `composeInt_implements` connects
  the two and `compositionTree_implements` lifts this to every nesting of `b`.
* `Representable n q ms` — when the walk `0, q, 2q, …` meets the boundaries of `ms` evenly.
  `pieces_exact_iff`: exactly then the pieces are right.
* `composition_exact_iff` — exactly when the result of `composition` is the composed map.
* `composition_straddles` — an accepted composition that is a different map.
-/

/-- Why a layout transformation is rejected. -/
structure AlgebraError where
  message : String
  deriving DecidableEq, Repr

instance : ToString AlgebraError where
  toString e := s!"layout algebra error: {e.message}"

/-! ### The machine functions -/

/-- `a / b` rounded upward, for a nonnegative extent and a positive divisor. -/
def ceilDiv [Build] {ε : Type} (a b : ℤ) : Run ε ℤ := do
  let s ← I64.add a b
  let s ← I64.sub s 1
  I64.div s b

/-- The error where a stride steps over a mode unevenly. -/
def strideDivisibility (restStride currShape : ℤ) : AlgebraError :=
  ⟨s!"composition: stride {restStride} does not divide lhs mode of shape {currShape} " ++
    "(stride divisibility condition)"⟩

/-- The error where an extent does not divide the next one. -/
def shapeDivisibility (restShape newShape : ℤ) : AlgebraError :=
  ⟨s!"composition: shape {restShape} is not divisible by {newShape} (shape divisibility condition)"⟩

/-- The loop of `compose_int` over the modes of `a`; the last mode takes what is left.
`result` is kept last piece first. -/
def composeFrom [Build] (restShape restStride : ℤ) (result : List (ℤ × ℤ)) :
    List (ℤ × ℤ) → Run AlgebraError Layout
  | [] => Run.panic .overflow
  | [last] =>
    if result = [] then do
      let d ← I64.mul restStride last.2
      .ok (layoutFromFlat [(restShape, d)])
    else if restShape ≠ 1 then do
      let d ← I64.mul restStride last.2
      coalesce (layoutFromFlat ((restShape, d) :: result).reverse)
    else coalesce (layoutFromFlat result.reverse)
  | curr :: ms => do
    let r ← I64.rem restStride curr.1
    let absRestStride ← I64.abs restStride
    if r ≠ 0 ∧ curr.1 ≤ absRestStride then
      Run.fail (strideDivisibility restStride curr.1)
    else do
      let sign := if restStride < 0 then -1 else 1
      let nextShape ← ceilDiv curr.1 absRestStride
      let q ← ceilDiv absRestStride curr.1
      let nextStride ← I64.mul q sign
      if nextShape = 1 ∨ restShape = 1 then composeFrom restShape nextStride result ms
      else do
        let newShape := min nextShape restShape
        let r ← I64.rem restShape newShape
        if r ≠ 0 then Run.fail (shapeDivisibility restShape newShape)
        else do
          let d ← I64.mul restStride curr.2
          let rest ← I64.div restShape newShape
          composeFrom rest nextStride ((newShape, d) :: result) ms

/-- Compose `a` with the mode `bShape:bStride`. -/
def composeInt [Build] (a : Layout) (bShape bStride : ℤ) : Run AlgebraError Layout :=
  if bStride = 0 then .ok (layoutFromFlat [(bShape, 0)])
  else do
    let ac ← coalesce a
    match ac.flatModes with
    | [m] => do
      let d ← I64.mul bStride m.2
      .ok (layoutFromFlat [(bShape, d)])
    | ms => composeFrom bShape bStride [] ms

mutual

/-- The recursion of `composition` over the shape and stride trees of `b`. -/
def compositionTree [Build] (a : Layout) : IntTuple → IntTuple → Run AlgebraError Layout
  | .tuple bs, .tuple bd => do
    let modes ← compositionAll a bs bd
    .ok ⟨.tuple (modes.map Layout.shape), .tuple (modes.map Layout.stride)⟩
  | .leaf s, .leaf d => composeInt a s d
  | _, _ => Run.fail ⟨"composition: rhs shape/stride not congruent"⟩
termination_by structural s => s

/-- The composition with each mode. -/
def compositionAll [Build] (a : Layout) :
    List IntTuple → List IntTuple → Run AlgebraError (List Layout)
  | s :: bs, d :: bd => do
    let m ← compositionTree a s d
    let ms ← compositionAll a bs bd
    .ok (m :: ms)
  | _, _ => .ok []
termination_by structural bs => bs

end

/-- Replace two consecutive maps by one: `b` first, then `a`. -/
def composition [Build] (a b : Layout) : Run AlgebraError Layout :=
  compositionTree a b.shape b.stride

/-! ### The pieces over the integers -/

/-- `a / b` rounded upward. -/
def upDiv (a b : ℤ) : ℤ := (a + b - 1) / b

/-- The rounded quotient, unless it overflows. -/
theorem ceilDiv_implements {ε : Type} {a b : ℤ} (ha : 0 ≤ a) (hb : 0 < b) :
    (ceilDiv a b : Run ε ℤ).Implements (.ok (upDiv a b)) := by
  refine (I64.add_implements a b).bind_ok ((I64.sub_implements _ 1).bind_ok ?_)
  rw [upDiv, ← Int.tdiv_eq_ediv_of_nonneg (by omega)]
  exact I64.div_implements _ hb.ne'

variable {a b n q c : ℤ} {ms ps : List (ℤ × ℤ)}

/-- The rounded quotient covers the dividend. -/
theorem le_upDiv_mul (hb : 0 < b) : a ≤ upDiv a b * b := by
  have h := Int.lt_ediv_add_one_mul_self (a + b - 1) hb
  rw [add_mul, one_mul] at h
  rw [upDiv]
  omega

/-- One step less does not. -/
theorem upDiv_mul_lt (hb : 0 < b) : upDiv a b * b < a + b := by
  have h := Int.ediv_mul_le (a + b - 1) hb.ne'
  rw [upDiv]
  omega

/-- The rounded quotient of a positive number is positive. -/
theorem upDiv_pos (ha : 0 < a) (hb : 0 < b) : 0 < upDiv a b := by
  have h := le_upDiv_mul (a := a) hb
  by_contra hle
  nlinarith

/-- A number within one step takes one. -/
theorem upDiv_of_le (ha : 0 < a) (h : a ≤ b) : upDiv a b = 1 := by
  have h1 := upDiv_pos ha (by omega : 0 < b)
  have h2 := upDiv_mul_lt (a := a) (by omega : 0 < b)
  by_contra hne
  have : 2 * b ≤ upDiv a b * b := by
    apply mul_le_mul_of_nonneg_right _ (by omega)
    omega
  omega

/-- A number beyond one step takes two. -/
theorem two_le_upDiv (hb : 0 < b) (h : b < a) : 2 ≤ upDiv a b := by
  have h1 := le_upDiv_mul (a := a) hb
  by_contra hlt
  have : upDiv a b * b ≤ 1 * b := mul_le_mul_of_nonneg_right (by omega) hb.le
  omega

/-- A multiple needs no rounding. -/
theorem upDiv_of_dvd (hb : 0 < b) (h : b ∣ a) : upDiv a b = a / b := by
  obtain ⟨k, rfl⟩ := h
  rw [upDiv, Int.mul_ediv_cancel_left _ hb.ne', show b * k + b - 1 = (b - 1) + b * k by ring]
  exact (digit_cons (by omega) (by omega)).2

/-- Steps of one. -/
@[simp] theorem upDiv_one (a : ℤ) : upDiv a 1 = a := by simp [upDiv]

/-- The modes that the walk `n:q` becomes when it is read through `ms`. -/
def pieces : ℤ → ℤ → List (ℤ × ℤ) → Except AlgebraError (List (ℤ × ℤ))
  | n, _, [] => .ok [(n, 0)]
  | n, q, [last] => .ok [(n, q * last.2)]
  | n, q, m :: m' :: ms =>
    if q % m.1 ≠ 0 ∧ m.1 ≤ q then .error (strideDivisibility q m.1)
    else if upDiv m.1 q = 1 ∨ n = 1 then pieces n (upDiv q m.1) (m' :: ms)
    else if n % min (upDiv m.1 q) n ≠ 0 then
      .error (shapeDivisibility n (min (upDiv m.1 q) n))
    else
      (fun ps => (min (upDiv m.1 q) n, q * m.2) :: ps) <$>
        pieces (n / min (upDiv m.1 q) n) (upDiv q m.1) (m' :: ms)

/-- A single piece is kept as it is; several are coalesced. -/
def finish : List (ℤ × ℤ) → List (ℤ × ℤ)
  | [p] => [p]
  | ps => merged ps

/-- A list that ends with a mode is finished by merging. -/
theorem finish_of_ne_nil {xs : List (ℤ × ℤ)} (hxs : xs ≠ []) (p : ℤ × ℤ) :
    finish (xs ++ [p]) = merged (xs ++ [p]) := by
  obtain ⟨x, xs, rfl⟩ := List.exists_cons_of_ne_nil hxs
  cases xs <;> rfl

/-- Finishing keeps the walk. -/
theorem finish_spec (h : Pos ps) :
    size (finish ps) = size ps ∧ Pos (finish ps) ∧ ∀ c, eval (finish ps) c = eval ps c := by
  unfold finish
  split
  · exact ⟨rfl, h, fun _ => rfl⟩
  · exact ⟨size_merged h, merged_pos h, eval_merged h⟩

/-- The result is merged once more. -/
theorem coalesce_layoutFromFlat {xs : List (ℤ × ℤ)} (h : xs ≠ []) :
    (coalesce (layoutFromFlat xs) : Run AlgebraError _).Implements
      (.ok (layoutFromFlat (merged xs))) := by
  have hrun : (coalesce (layoutFromFlat xs) : Run AlgebraError _).Implements _ :=
    coalesce_implements _
  rwa [flatModes_layoutFromFlat h] at hrun

/-- The tail of `compose_int`: the last mode takes what is left of the walk. -/
private theorem composeFrom_last (n q : ℤ) (out : List (ℤ × ℤ)) (last : ℤ × ℤ) :
    (composeFrom n q out [last]).Implements
      (.ok (layoutFromFlat (finish (out.reverse ++ [(n, q * last.2)])))) := by
  unfold composeFrom
  split
  · rename_i hout
    subst hout
    exact (I64.mul_implements _ _).bind_ok (.ok _)
  · rename_i hout
    have hrev : out.reverse ≠ [] := by simpa using hout
    rw [finish_of_ne_nil hrev]
    split
    · refine (I64.mul_implements _ _).bind_ok ?_
      rw [List.reverse_cons]
      exact coalesce_layoutFromFlat (by simp)
    · rename_i hn
      rw [not_not.mp hn, merged_concat_unit]
      exact coalesce_layoutFromFlat hrev

/-- **The loop walks the pieces of the modes.**  By induction on the modes, with the pieces of the
ones behind reversed in `out`. -/
theorem composeFrom_implements (hpos : Pos ms) (hms : ms ≠ []) (hn : 0 < n) (hq : 0 < q)
    (out : List (ℤ × ℤ)) : (composeFrom n q out ms).Implements
      ((fun ps => layoutFromFlat (finish (out.reverse ++ ps))) <$> pieces n q ms) := by
  induction ms generalizing n q out with
  | nil => exact absurd rfl hms
  | cons m ms ih =>
    -- the last mode takes all that is left, the others a piece
    cases ms with
    | nil => exact composeFrom_last n q out m
    | cons m' ms =>
      obtain ⟨hm, hpos⟩ := pos_cons.mp hpos
      have hup : 0 < upDiv q m.1 := upDiv_pos hq hm
      have hnext : 0 < upDiv m.1 q := upDiv_pos hm hq
      have hmin : 0 < min (upDiv m.1 q) n := lt_min hnext hn
      have hrem : (I64.rem q m.1 : Run AlgebraError ℤ).Implements (.ok (q % m.1)) := by
        rw [← Int.tmod_eq_emod_of_nonneg hq.le]
        exact I64.rem_implements _ hm.ne'
      have habs : (I64.abs q : Run AlgebraError ℤ).Implements (.ok q) := by
        have h := I64.abs_implements (ε := AlgebraError) q
        rwa [abs_of_pos hq] at h
      unfold composeFrom pieces
      refine hrem.bind_ok (habs.bind_ok ?_)
      -- the step has to cut the mode evenly
      split
      · exact .fail _
      · rw [if_neg (by omega : ¬q < 0)]
        refine (ceilDiv_implements hm.le hq).bind_ok ((ceilDiv_implements hq.le hm).bind_ok ?_)
        refine (I64.mul_implements _ 1).bind_ok ?_
        rw [mul_one]
        -- a mode that is stepped over adds nothing
        split
        · exact ih hpos (by simp) hn hup out
        · have hrem' : (I64.rem n (min (upDiv m.1 q) n) : Run AlgebraError ℤ).Implements
              (.ok (n % min (upDiv m.1 q) n)) := by
            rw [← Int.tmod_eq_emod_of_nonneg hn.le]
            exact I64.rem_implements _ hmin.ne'
          have hdiv : (I64.div n (min (upDiv m.1 q) n) : Run AlgebraError ℤ).Implements
              (.ok (n / min (upDiv m.1 q) n)) := by
            rw [← Int.tdiv_eq_ediv_of_nonneg hn.le]
            exact I64.div_implements _ hmin.ne'
          refine hrem'.bind_ok ?_
          -- the piece has to divide what is left of the walk
          split
          · exact .fail _
          · refine (I64.mul_implements _ _).bind_ok (hdiv.bind_ok ?_)
            have hrest : 0 < n / min (upDiv m.1 q) n :=
              Int.ediv_pos_of_pos_of_dvd hn hmin.le (Int.dvd_of_emod_eq_zero (not_not.mp ‹_›))
            have := ih hpos (by simp) hrest hup ((min (upDiv m.1 q) n, q * m.2) :: out)
            simpa [Functor.map_map, Function.comp_def] using this

/-! ### When the pieces are right -/

/-- What a successful step of `pieces` did to the front mode: it skipped it, or cut a piece. -/
theorem pieces_cons_ok {m m' : ℤ × ℤ} (h : pieces n q (m :: m' :: ms) = .ok ps) :
    (q % m.1 = 0 ∨ q < m.1) ∧
      ((upDiv m.1 q = 1 ∨ n = 1) ∧ pieces n (upDiv q m.1) (m' :: ms) = .ok ps ∨
        upDiv m.1 q ≠ 1 ∧ n ≠ 1 ∧ min (upDiv m.1 q) n ∣ n ∧
          ∃ rest, pieces (n / min (upDiv m.1 q) n) (upDiv q m.1) (m' :: ms) = .ok rest ∧
            ps = (min (upDiv m.1 q) n, q * m.2) :: rest) := by
  unfold pieces at h
  split at h
  · cases h
  · rename_i hdiv
    refine ⟨by omega, ?_⟩
    split at h
    · exact Or.inl ⟨‹_›, h⟩
    · rename_i hskip
      rw [not_or] at hskip
      split at h
      · cases h
      · cases hrest : pieces (n / min (upDiv m.1 q) n) (upDiv q m.1) (m' :: ms) with
        | error e => rw [hrest] at h; cases h
        | ok rest =>
          rw [hrest] at h
          cases h
          exact Or.inr ⟨hskip.1, hskip.2, Int.dvd_of_emod_eq_zero (not_not.mp ‹_›), rest, rfl, rfl⟩

/-- The pieces have as many cells as the walk. -/
theorem pieces_size (hpos : Pos ms) (hn : 0 < n) (hq : 0 < q) (h : pieces n q ms = .ok ps) :
    size ps = n ∧ Pos ps := by
  induction ms generalizing n q ps with
  | nil =>
    cases h
    simp [hn]
  | cons m ms ih =>
    cases ms with
    | nil =>
      cases h
      simp [hn]
    | cons m' ms =>
      obtain ⟨hm, hpos⟩ := pos_cons.mp hpos
      have hup : 0 < upDiv q m.1 := upDiv_pos hq hm
      rcases (pieces_cons_ok h).2 with ⟨_, h⟩ | ⟨_, _, hdvd, rest, hrest, rfl⟩
      · exact ih hpos hn hup h
      · have hmin : 0 < min (upDiv m.1 q) n := lt_min (upDiv_pos hm hq) hn
        obtain ⟨hsize, hpos⟩ := ih hpos (Int.ediv_pos_of_pos_of_dvd hn hmin.le hdvd) hup hrest
        exact ⟨by rw [size_cons, hsize, Int.mul_ediv_cancel' hdvd], pos_cons.mpr ⟨hmin, hpos⟩⟩

/-- The walk `0, q, 2q, …` of `n` steps is the walk `ps`, wherever it stays inside `ms`. -/
def Exact (n q : ℤ) (ms ps : List (ℤ × ℤ)) : Prop :=
  ∀ c, 0 ≤ c → c < n → c * q < size ms → eval ps c = eval ms (c * q)

/-- A piece followed by the exact walk of the remaining modes. -/
private theorem eval_piece_cons {k d : ℤ} (c : ℤ) :
    eval ((k, d) :: ps) c = c % k * d + eval ps (c / k) := rfl

/-- A walk with stride one is always cut at the boundaries of the modes. -/
theorem pieces_one_exact (hms : ∀ m ∈ ms, 1 < m.1) (hn : 0 < n) (h : pieces n 1 ms = .ok ps) :
    Exact n 1 ms ps := by
  induction ms generalizing n ps with
  | nil =>
    intro c h0 _ hc
    -- nothing is read past the last mode
    have hzero : c = 0 := by rw [size_nil] at hc; omega
    simp [hzero]
  | cons m ms ih =>
    obtain ⟨hm, hms⟩ := List.forall_mem_cons.mp hms
    -- the last mode is read as it is
    cases ms with
    | nil =>
      cases h
      intro c h0 hcn hc
      have hlt : c < m.1 := by simpa using hc
      simp [Int.emod_eq_of_lt h0 hlt, Int.emod_eq_of_lt h0 hcn]
    | cons m' ms =>
      have hone : upDiv 1 m.1 = 1 := upDiv_of_le one_pos hm.le
      -- either the walk ends here or a piece goes to the front mode
      rcases (pieces_cons_ok h).2 with ⟨hskip, _⟩ | ⟨_, _, hdvd, rest, hrest, rfl⟩
      · -- the walk has a single cell
        intro c h0 hcn _
        rw [upDiv_one] at hskip
        have hzero : c = 0 := by omega
        simp [hzero]
      · rw [upDiv_one] at hdvd hrest ⊢
        rw [hone] at hrest
        have hmin : 0 < min m.1 n := lt_min (by omega) hn
        have hrest := ih hms (Int.ediv_pos_of_pos_of_dvd hn hmin.le hdvd) hrest
        intro c h0 hcn hc
        rw [eval_piece_cons, mul_one, one_mul, eval_cons]
        rw [mul_one] at hc
        rcases le_total n m.1 with hle | hle
        · -- the walk ends inside the front mode
          rw [min_eq_right hle, Int.emod_eq_of_lt h0 hcn, Int.ediv_eq_zero_of_lt h0 hcn,
            Int.emod_eq_of_lt h0 (by omega), Int.ediv_eq_zero_of_lt h0 (by omega)]
          simp
        · rw [min_eq_left hle] at hrest hdvd ⊢
          have hq := hrest (c / m.1) (Int.ediv_nonneg h0 (by omega))
            (Int.ediv_lt_of_lt_mul (by omega) (by rwa [Int.ediv_mul_cancel hdvd]))
            (by rw [mul_one]; exact ediv_lt_size (by omega) hc)
          rw [hq, mul_one]

/-- The walk `n:q` meets the boundaries of `ms` evenly: it steps over whole modes, and where it
lands inside a mode it divides that mode, or ends within it, or the mode is a broadcast mode
and the modes after it do not tell the true quotient from the rounded one. -/
def Representable : ℤ → ℤ → List (ℤ × ℤ) → Prop
  | _, _, [] => True
  | _, _, [_] => True
  | n, q, m :: m' :: ms =>
    if q % m.1 = 0 then Representable n (q / m.1) (m' :: ms)
    else q ∣ m.1 ∨ n ≤ upDiv m.1 q ∨ (m.2 = 0 ∧ ∀ c, 0 ≤ c → c < n →
      c * q < m.1 * size (m' :: ms) →
        eval (m' :: ms) (c / upDiv m.1 q) = eval (m' :: ms) (c * q / m.1))

/-- The walk lands inside the front mode and leaves it: the piece rounds the mode up. -/
private theorem exact_straddle_iff {m : ℤ × ℤ} {rest : List (ℤ × ℤ)} (hm : 1 < m.1)
    (hms : 1 < size ms) (hq : 0 < q) (hqm : q < m.1) (hnext : upDiv m.1 q < n)
    (hdvd : upDiv m.1 q ∣ n) (hrest : Exact (n / upDiv m.1 q) 1 ms rest) :
    Exact n q (m :: ms) ((upDiv m.1 q, q * m.2) :: rest) ↔
      q ∣ m.1 ∨ (m.2 = 0 ∧ ∀ c, 0 ≤ c → c < n → c * q < m.1 * size ms →
        eval ms (c / upDiv m.1 q) = eval ms (c * q / m.1)) := by
  set k := upDiv m.1 q with hk
  have hk2 : 2 ≤ k := two_le_upDiv hq hqm
  have hkq : m.1 ≤ k * q := le_upDiv_mul hq
  have hkq' : k * q < m.1 + q := upDiv_mul_lt hq
  -- the rounded quotient never runs ahead of the true one
  have hquot : ∀ c, 0 ≤ c → c * q < m.1 * size ms → c / k < size ms := fun c h0 hc => by
    apply Int.ediv_lt_of_lt_mul (by omega)
    by_contra hle
    have h1 : size ms * k * q ≤ c * q := mul_le_mul_of_nonneg_right (by omega) hq.le
    have h2 : size ms * m.1 ≤ size ms * (k * q) := mul_le_mul_of_nonneg_left hkq (by omega)
    nlinarith
  have hhigh : ∀ c, 0 ≤ c → c < n → c * q < m.1 * size ms →
      eval rest (c / k) = eval ms (c / k) := fun c h0 hcn hc => by
    have h := hrest (c / k) (Int.ediv_nonneg h0 (by omega))
      (Int.ediv_lt_of_lt_mul (by omega) (by rwa [Int.ediv_mul_cancel hdvd]))
      (by rw [mul_one]; exact hquot c h0 hc)
    rwa [mul_one] at h
  constructor
  · intro hex
    by_cases hd : m.2 = 0
    · refine Or.inr ⟨hd, fun c h0 hcn hc => ?_⟩
      have h := hex c h0 hcn hc
      rw [eval_piece_cons, eval_cons, hd, hhigh c h0 hcn hc] at h
      simpa using h
    · -- the first cell past the mode shows the rounding
      left
      have hin : k * q < m.1 * size ms := by nlinarith
      have h := hex k (by omega) hnext hin
      have hmod : k * q % m.1 = k * q - m.1 ∧ k * q / m.1 = 1 := by
        have h := digit_cons (s := m.1) (i := k * q - m.1) (q := 1) (by omega) (by omega)
        rwa [mul_one, sub_add_cancel] at h
      rw [eval_piece_cons, eval_cons, hmod.1, hmod.2, hhigh k (by omega) hnext hin,
        Int.emod_self, Int.ediv_self (by omega)] at h
      have hz : k * q - m.1 = 0 := by
        have : (k * q - m.1) * m.2 = 0 := by linarith
        exact (mul_eq_zero.mp this).resolve_right hd
      exact ⟨k, by linarith⟩
  · rintro (hqd | ⟨hd, hsame⟩) c h0 hcn hc
    · have hmk : k * q = m.1 := by rw [hk, upDiv_of_dvd hq hqd, Int.ediv_mul_cancel hqd]
      have hmod : c * q % m.1 = c % k * q := by
        rw [← hmk, mul_comm c, mul_comm k, Int.mul_emod_mul_of_pos _ _ hq, mul_comm]
      have hdiv : c * q / m.1 = c / k := by rw [← hmk, Int.mul_ediv_mul_of_pos_left _ _ hq]
      rw [eval_piece_cons, eval_cons, hmod, hdiv, hhigh c h0 hcn hc]
      ring
    · rw [eval_piece_cons, eval_cons, hhigh c h0 hcn hc, hsame c h0 hcn hc, hd]
      simp

/-- **The pieces of an accepted walk are right exactly when the walk is representable.** -/
theorem pieces_exact_iff (hms : ∀ m ∈ ms, 1 < m.1) (hn : 0 < n) (hq : 0 < q)
    (h : pieces n q ms = .ok ps) : Exact n q ms ps ↔ Representable n q ms := by
  induction ms generalizing n q ps with
  | nil =>
    refine iff_of_true (fun c h0 _ hc => ?_) trivial
    -- nothing is read past the last mode
    have hzero : c = 0 := by rw [size_nil] at hc; nlinarith
    simp [hzero]
  | cons m ms ih =>
    obtain ⟨hm, hms⟩ := List.forall_mem_cons.mp hms
    cases ms with
    -- the last mode is read without a condition
    | nil =>
      cases h
      refine iff_of_true (fun c h0 hcn hc => ?_) trivial
      have hlt : c * q < m.1 := by simpa using hc
      simp only [eval_cons, eval_nil, add_zero, Int.emod_eq_of_lt h0 hcn,
        Int.emod_eq_of_lt (mul_nonneg h0 hq.le) hlt]
      ring
    | cons m' ms =>
      have hm0 : 0 < m.1 := by omega
      have hposms : Pos (m' :: ms) := fun x hx => by have := hms x hx; omega
      obtain ⟨hacc, hcut⟩ := pieces_cons_ok h
      rw [Representable]
      -- either the step covers the front mode or it starts inside
      by_cases hdvd : q % m.1 = 0
      · -- the walk steps over the whole front mode
        obtain ⟨k, rfl⟩ := Int.dvd_of_emod_eq_zero hdvd
        have hk : 0 < k := pos_of_mul_pos_right hq hm0.le
        have hup : upDiv (m.1 * k) m.1 = k := by
          rw [upDiv_of_dvd hm0 (Dvd.intro _ rfl), Int.mul_ediv_cancel_left _ hm0.ne']
        have hnext : upDiv m.1 (m.1 * k) = 1 := upDiv_of_le hm0 (by nlinarith)
        rw [if_pos hdvd, Int.mul_ediv_cancel_left _ hm0.ne']
        rcases hcut with ⟨_, h⟩ | ⟨hne, _⟩
        · rw [hup] at h
          rw [← ih hms hn hk h]
          refine forall_congr' fun c => imp_congr_right fun h0 => imp_congr_right fun _ => ?_
          have hcell : c * (m.1 * k) = m.1 * (c * k) := by ring
          rw [hcell, size_cons, eval_cons, Int.mul_emod_right, Int.mul_ediv_cancel_left _ hm0.ne',
            zero_mul, zero_add, mul_lt_mul_iff_right₀ hm0]
        · exact absurd hnext hne
      · rw [if_neg hdvd]
        have hqm : q < m.1 := by omega
        have hup : upDiv q m.1 = 1 := upDiv_of_le hq hqm.le
        rcases hcut with ⟨hskip, _⟩ | ⟨_, _, hdiv, rest, hrest, rfl⟩
        · -- the walk has a single cell
          have hn1 : n = 1 := hskip.resolve_left (by have := two_le_upDiv hq hqm; omega)
          have hnext := upDiv_pos hm0 hq
          refine iff_of_true (fun c h0 hcn _ => ?_) (Or.inr (Or.inl (by omega)))
          have hzero : c = 0 := by omega
          simp [hzero]
        -- the walk leaves the front mode, with step 1 in the rest
        · rw [hup] at hrest
          have hmin : 0 < min (upDiv m.1 q) n := lt_min (upDiv_pos hm0 hq) hn
          have hexact := pieces_one_exact hms (Int.ediv_pos_of_pos_of_dvd hn hmin.le hdiv) hrest
          rcases le_or_gt n (upDiv m.1 q) with hle | hlt
          · -- the walk ends inside the front mode
            refine iff_of_true (fun c h0 hcn hc => ?_) (Or.inr (Or.inl hle))
            have hcq : c * q < m.1 := by
              have h1 := upDiv_mul_lt (a := m.1) hq
              have h2 : (c + 1) * q ≤ upDiv m.1 q * q :=
                mul_le_mul_of_nonneg_right (by omega) hq.le
              rw [add_mul, one_mul] at h2
              omega
            have hcq0 : 0 ≤ c * q := mul_nonneg h0 hq.le
            rw [min_eq_right hle, eval_piece_cons, eval_cons, Int.emod_eq_of_lt h0 hcn,
              Int.ediv_eq_zero_of_lt h0 hcn, Int.emod_eq_of_lt hcq0 hcq,
              Int.ediv_eq_zero_of_lt hcq0 hcq, eval_zero, eval_zero]
            ring
          -- the walk does not end inside, so it has to fill the front mode
          · rw [min_eq_left hlt.le] at hdiv hexact ⊢
            have hsize : 1 < size (m' :: ms) := by
              have h1 := hms m' List.mem_cons_self
              have h2 := size_pos (pos_cons.mp hposms).2
              rw [size_cons]
              nlinarith
            rw [exact_straddle_iff hm hsize hq hqm hlt hdiv hexact]
            have : ¬n ≤ upDiv m.1 q := by omega
            tauto

/-! ### One leaf of `b` -/

/-- The layout that a leaf of `b` becomes. -/
def composedLeaf (a : Layout) (m : ℤ × ℤ) : Except AlgebraError Layout :=
  if m.2 = 0 then .ok (layoutFromFlat [(m.1, 0)])
  else (fun ps => layoutFromFlat (finish ps)) <$> pieces m.1 m.2 (merged a.flatModes)

/-- The composition with one mode, unless it overflows. -/
theorem composeInt_implements {a : Layout} (ha : a.Valid) {m : ℤ × ℤ} (hn : 0 < m.1)
    (hq : 0 ≤ m.2) : (composeInt a m.1 m.2).Implements (composedLeaf a m) := by
  unfold composeInt composedLeaf
  split
  · exact .ok _
  · refine (coalesce_implements a).bind_ok ?_
    have hq : 0 < m.2 := lt_of_le_of_ne hq (Ne.symm ‹_›)
    match hms : merged a.flatModes with
    | [] => exact (I64.mul_implements _ _).bind_ok (by rw [mul_zero]; exact .ok _)
    | [x] => exact (I64.mul_implements _ _).bind_ok (.ok _)
    | x :: y :: ms =>
      rw [flatModes_layoutFromFlat_cons]
      have h := composeFrom_implements (hms ▸ merged_pos ha.pos) (by simp) hn hq []
      simpa using h

/-- Against one coalesced mode a leaf is scaled. -/
theorem composeInt_of_single {a r : Layout} {m : ℤ × ℤ} {n q : ℤ} (hq : q ≠ 0)
    (hr : (coalesce a : Run AlgebraError Layout) = .ok r) (hm : r.flatModes = [m]) :
    composeInt a n q = I64.mul q m.2 >>= fun d => .ok (layoutFromFlat [(n, d)]) := by
  simp only [composeInt, if_neg hq, hr, bind, Except.bind, hm]

/-- Against several coalesced modes a leaf is walked through them. -/
theorem composeInt_of_modes {a r : Layout} {m m' : ℤ × ℤ} {ms : List (ℤ × ℤ)} {n q : ℤ}
    (hq : q ≠ 0) (hr : (coalesce a : Run AlgebraError Layout) = .ok r)
    (hm : r.flatModes = m :: m' :: ms) :
    composeInt a n q = composeFrom n q [] (m :: m' :: ms) := by
  simp only [composeInt, if_neg hq, hr, bind, Except.bind, hm]

/-- It is a layout with the cells of the mode. -/
theorem composedLeaf_spec {a r : Layout} (ha : a.Valid) {m : ℤ × ℤ} (hn : 0 < m.1)
    (hq : 0 ≤ m.2) (h : composedLeaf a m = .ok r) : r.Valid ∧ r.cells = m.1 := by
  unfold composedLeaf at h
  split at h
  · cases h
    exact ⟨valid_layoutFromFlat (by simp [hn]), by simp⟩
  · cases hps : pieces m.1 m.2 (merged a.flatModes) with
    | error e => rw [hps] at h; cases h
    | ok ps =>
      rw [hps] at h
      cases h
      obtain ⟨hsize, hpos⟩ := pieces_size (merged_pos ha.pos) hn
        (lt_of_le_of_ne hq (Ne.symm ‹_›)) hps
      obtain ⟨hfsize, hfpos, _⟩ := finish_spec hpos
      exact ⟨valid_layoutFromFlat hfpos, by rw [cells_layoutFromFlat, hfsize, hsize]⟩

/-- The leaf `m` of `b` can be walked through the modes of `a`. -/
def LeafRepresentable (a : Layout) (m : ℤ × ℤ) : Prop :=
  m.2 = 0 ∨ Representable m.1 m.2 (merged a.flatModes)

/-- It is exact if and only if the mode can be represented. -/
theorem composedLeaf_exact_iff {a r : Layout} (ha : a.Valid) {m : ℤ × ℤ} (hn : 0 < m.1)
    (hq : 0 ≤ m.2) (h : composedLeaf a m = .ok r) :
    (∀ i, 0 ≤ i → i < m.1 → i * m.2 < a.cells → r.offset i = a.offset (i * m.2)) ↔
      LeafRepresentable a m := by
  unfold composedLeaf at h
  unfold LeafRepresentable
  split at h
  · rename_i hzero
    cases h
    refine iff_of_true (fun i _ _ _ => ?_) (Or.inl hzero)
    simp [hzero, Layout.offset]
  · rename_i hne
    have hq : 0 < m.2 := lt_of_le_of_ne hq (Ne.symm hne)
    cases hps : pieces m.1 m.2 (merged a.flatModes) with
    | error e => rw [hps] at h; cases h
    | ok ps =>
      rw [hps] at h
      cases h
      obtain ⟨_, _, heval⟩ := finish_spec (pieces_size (merged_pos ha.pos) hn hq hps).2
      rw [or_iff_right hne, ← pieces_exact_iff (merged_one_lt ha.pos) hn hq hps]
      simp only [offset_layoutFromFlat, heval, Exact, size_merged ha.pos, eval_merged ha.pos]
      rfl

/-! ### Every nesting of `b` -/

mutual

/-- A composition that returns has composed every leaf. -/
theorem compositionTree_leaves {a : Layout} : {s d : IntTuple} → {r : Layout} →
    s.Congruent d → compositionTree a s d = .ok r →
    ∀ m ∈ s.flatten.zip d.flatten, ∃ x, composeInt a m.1 m.2 = .ok x
  | .leaf s, .leaf d, r, _, h => by
    intro m hm
    rw [IntTuple.flatten_leaf, IntTuple.flatten_leaf, List.zip_cons_cons, List.zip_nil_left,
      List.mem_singleton] at hm
    subst hm
    exact ⟨r, h⟩
  | .tuple ss, .tuple ds, r, hc, h => by
    obtain ⟨rs, hrs, _⟩ := Run.bind_eq_ok.mp h
    exact compositionAll_leaves hc hrs

/-- The same for a list of trees. -/
theorem compositionAll_leaves {a : Layout} : {ss ds : List IntTuple} → {rs : List Layout} →
    IntTuple.CongruentAll ss ds → compositionAll a ss ds = .ok rs →
    ∀ m ∈ (IntTuple.flattenAll ss).zip (IntTuple.flattenAll ds),
      ∃ x, composeInt a m.1 m.2 = .ok x
  | [], [], _, _, _ => List.forall_mem_nil _
  | s :: ss, d :: ds, rs, hc, h => by
    obtain ⟨hs, hss⟩ := IntTuple.congruentAll_cons.mp hc
    obtain ⟨r, hr, h⟩ := Run.bind_eq_ok.mp h
    obtain ⟨rs, hrs, _⟩ := Run.bind_eq_ok.mp h
    rw [IntTuple.flattenAll_cons, IntTuple.flattenAll_cons, List.zip_append hs.length_flatten]
    intro m hm
    rcases List.mem_append.mp hm with hm | hm
    · exact compositionTree_leaves hs hr m hm
    · exact compositionAll_leaves hss hrs m hm

end

mutual

/-- Where every leaf composes to the layout `F m`, the tree composes to their join. -/
theorem compositionTree_implements {a : Layout} {F : ℤ × ℤ → Layout} : {s d : IntTuple} →
    s.Congruent d → (∀ m ∈ s.flatten.zip d.flatten, (F m).shape.Congruent (F m).stride ∧
      (composeInt a m.1 m.2).Implements (.ok (F m))) →
    ∃ r : Layout, (compositionTree a s d).Implements (.ok r) ∧ r.shape.Congruent r.stride ∧
      r.flatModes = (s.flatten.zip d.flatten).flatMap fun m => (F m).flatModes
  | .leaf s, .leaf d, _, hF => by
    obtain ⟨hc, hrun⟩ := hF (s, d) List.mem_cons_self
    exact ⟨F (s, d), hrun, hc, (List.append_nil _).symm⟩
  | .tuple ss, .tuple ds, hc, hF => by
    obtain ⟨rs, hrun, hrc, hflat⟩ := compositionAll_implements hc hF
    obtain ⟨hcong, hmodes⟩ := flatModes_tuple hrc
    exact ⟨_, hrun.bind_ok (.ok _), hcong, hmodes.trans hflat⟩

/-- A composition of leaves that implement `F` implements the tree of them. -/
theorem compositionAll_implements {a : Layout} {F : ℤ × ℤ → Layout} :
    {ss ds : List IntTuple} → IntTuple.CongruentAll ss ds →
    (∀ m ∈ (IntTuple.flattenAll ss).zip (IntTuple.flattenAll ds),
      (F m).shape.Congruent (F m).stride ∧ (composeInt a m.1 m.2).Implements (.ok (F m))) →
    ∃ rs : List Layout, (compositionAll a ss ds).Implements (.ok rs) ∧
      (∀ r ∈ rs, r.shape.Congruent r.stride) ∧
      rs.flatMap Layout.flatModes = ((IntTuple.flattenAll ss).zip
        (IntTuple.flattenAll ds)).flatMap fun m => (F m).flatModes
  | [], [], _, _ => ⟨[], .ok _, List.forall_mem_nil _, rfl⟩
  | s :: ss, d :: ds, hc, hF => by
    obtain ⟨hs, hss⟩ := IntTuple.congruentAll_cons.mp hc
    rw [IntTuple.flattenAll_cons, IntTuple.flattenAll_cons,
      List.zip_append hs.length_flatten] at hF ⊢
    obtain ⟨hFs, hFss⟩ := List.forall_mem_append.mp hF
    obtain ⟨r, hrun, hrc, hflat⟩ := compositionTree_implements hs hFs
    obtain ⟨rs, hruns, hrcs, hflats⟩ := compositionAll_implements hss hFss
    refine ⟨r :: rs, hrun.bind_ok (hruns.bind_ok (.ok _)), List.forall_mem_cons.mpr ⟨hrc, hrcs⟩, ?_⟩
    rw [List.flatMap_cons, List.flatMap_append, hflat, hflats]

end

/-- The same for a list of top-level modes, which keep their places. -/
theorem compositionAll_modes {a : Layout} {F : ℤ × ℤ → Layout} {bs : List Layout}
    (hbs : ∀ b ∈ bs, b.shape.Congruent b.stride) (hF : ∀ m ∈ bs.flatMap Layout.flatModes,
      (F m).shape.Congruent (F m).stride ∧ (composeInt a m.1 m.2).Implements (.ok (F m))) :
    ∃ rs : List Layout,
      (compositionAll a (bs.map Layout.shape) (bs.map Layout.stride)).Implements (.ok rs) ∧
      List.Forall₂ (fun b r : Layout => r.shape.Congruent r.stride ∧
        r.flatModes = b.flatModes.flatMap fun m => (F m).flatModes) bs rs := by
  induction bs with
  | nil => exact ⟨[], .ok _, .nil⟩
  | cons b bs ih =>
    obtain ⟨hb, hbs⟩ := List.forall_mem_cons.mp hbs
    rw [List.flatMap_cons] at hF
    obtain ⟨hFb, hFbs⟩ := List.forall_mem_append.mp hF
    obtain ⟨r, hrun, hspec⟩ := compositionTree_implements hb hFb
    obtain ⟨rs, hruns, hspecs⟩ := ih hbs hFbs
    exact ⟨r :: rs, hrun.bind_ok (hruns.bind_ok (.ok _)), .cons hspec hspecs⟩

/-! ### The composed map -/

/-- `r` is the composed map: it has the cells of `b`, and `r c = a (b c)` wherever `b c` is a
cell of `a`. -/
def IsComposite (a b r : Layout) : Prop :=
  r.cells = b.cells ∧ ∀ c, 0 ≤ c → c < b.cells → 0 ≤ b.offset c → b.offset c < a.cells →
    r.offset c = a.offset (b.offset c)

/-- Adding up the contributions of the modes of `b` carries into no mode that `a` treats
differently: `a` of the sum is the sum of `a` over the modes. -/
def CarryFree (a b : Layout) : Prop :=
  ∀ c, 0 ≤ c → c < b.cells → b.offset c < a.cells →
    a.offset (b.offset c) = sumDigits (fun m i => a.offset (i * m.2)) b.flatModes c

/-- A layout returned by `composition` joins the layouts of the leaves of `b`. -/
theorem composition_ok {a b r : Layout} (ha : a.Valid) (hb : b.Valid) (hnn : Nonneg b.flatModes)
    (h : composition a b = .ok r) :
    ∃ F : ℤ × ℤ → Layout, (∀ m ∈ b.flatModes, composedLeaf a m = .ok (F m)) ∧ r.Valid ∧
      r.cells = b.cells ∧
      ∀ c, r.offset c = sumDigits (fun m i => (F m).offset i) b.flatModes c := by
  let F : ℤ × ℤ → Layout := fun m => (composedLeaf a m).toOption.getD ⟨.leaf 1, .leaf 0⟩
  have hF : ∀ m ∈ b.flatModes, composedLeaf a m = .ok (F m) := fun m hm => by
    obtain ⟨x, hx⟩ := compositionTree_leaves hb.congruent h m hm
    have hleaf := (composeInt_implements ha (hb.pos m hm) (hnn m hm)).ok_of_eq hx
    rw [show F m = x by simp [F, hleaf, Except.toOption], hleaf]
  have hspec : ∀ m ∈ b.flatModes, (F m).Valid ∧ (F m).cells = m.1 := fun m hm =>
    composedLeaf_spec ha (hb.pos m hm) (hnn m hm) (hF m hm)
  obtain ⟨r', hrun, hcong, hflat⟩ := compositionTree_implements (F := F) hb.congruent
    fun m hm => ⟨(hspec m hm).1.congruent,
      hF m hm ▸ composeInt_implements ha (hb.pos m hm) (hnn m hm)⟩
  obtain rfl := hrun.eq_of_ok h
  have hpos : ∀ m ∈ b.flatModes, Pos (F m).flatModes ∧ size (F m).flatModes = m.1 :=
    fun m hm => ⟨(hspec m hm).1.pos, (hspec m hm).2⟩
  refine ⟨F, hF, ⟨hcong, ?_⟩, ?_, fun c => ?_⟩
  · rw [hflat]
    intro x hx
    obtain ⟨m, hm, hx⟩ := List.mem_flatMap.mp hx
    exact (hpos m hm).1 x hx
  · rw [Layout.cells, hflat]
    exact size_flatMap fun m hm => (hpos m hm).2
  · rw [Layout.offset, hflat]
    exact eval_flatMap hpos c

/-- With exact leaves, both the result and the sum over the leaves add up the same digits. -/
theorem composition_sumDigits {a b r : Layout} (ha : a.Valid) (hb : b.Valid)
    (hnn : Nonneg b.flatModes) (h : composition a b = .ok r)
    (hrep : ∀ m ∈ b.flatModes, LeafRepresentable a m) {c : ℤ} (h0 : 0 ≤ c)
    (hin : b.offset c < a.cells) :
    r.offset c = sumDigits (fun m i => a.offset (i * m.2)) b.flatModes c := by
  obtain ⟨F, hF, _, _, hoffset⟩ := composition_ok ha hb hnn h
  rw [hoffset]
  refine sumDigits_congr hb.pos hnn h0 fun m hm i hi him hle => ?_
  have hleaf := (composedLeaf_exact_iff ha (hb.pos m hm) (hnn m hm) (hF m hm)).mpr (hrep m hm)
  exact hleaf i hi him (lt_of_le_of_lt hle hin)

/-- Where every leaf of `b` can be walked through `a` and nothing carries, the result is the
composed map. -/
theorem isComposite_of_composition {a b r : Layout} (ha : a.Valid) (hb : b.Valid)
    (hnn : Nonneg b.flatModes) (h : composition a b = .ok r)
    (hrep : ∀ m ∈ b.flatModes, LeafRepresentable a m) (hcarry : CarryFree a b) :
    IsComposite a b r := by
  obtain ⟨_, _, _, hcells, _⟩ := composition_ok ha hb hnn h
  refine ⟨hcells, fun c h0 hc _ hin => ?_⟩
  rw [composition_sumDigits ha hb hnn h hrep h0 hin, hcarry c h0 hc hin]

/-- **When `composition` is right.**  The layout it returns is the composed map exactly when
every leaf of `b` can be walked through `a` and adding up the leaves carries nowhere. -/
theorem composition_exact_iff {a b r : Layout} (ha : a.Valid) (hb : b.Valid)
    (hnn : Nonneg b.flatModes) (h : composition a b = .ok r) :
    IsComposite a b r ↔ (∀ m ∈ b.flatModes, LeafRepresentable a m) ∧ CarryFree a b := by
  obtain ⟨F, hF, _, hcells, hoffset⟩ := composition_ok ha hb hnn h
  constructor
  · rintro ⟨_, hcomp⟩
    have hrep : ∀ m ∈ b.flatModes, LeafRepresentable a m := fun m hm => by
      have hleaf := composedLeaf_exact_iff ha (hb.pos m hm) (hnn m hm) (hF m hm)
      refine hleaf.mp fun i hi him hin => ?_
      -- the cell of `b` whose only digit is `i`
      obtain ⟨c, h0, hc, hdigit⟩ := exists_single_digit hb.pos hm hi him
      have hbc : b.offset c = i * m.2 := by
        rw [Layout.offset, eval_eq_sumDigits]
        exact hdigit _ fun m => zero_mul m.2
      have hrc : r.offset c = (F m).offset i := by
        rw [hoffset]
        exact hdigit _ fun m => eval_zero _
      rw [← hrc, ← hbc]
      exact hcomp c h0 hc (hbc ▸ mul_nonneg hi (hnn m hm)) (hbc ▸ hin)
    refine ⟨hrep, fun c h0 hc hin => ?_⟩
    rw [← composition_sumDigits ha hb hnn h hrep h0 hin]
    exact (hcomp c h0 hc (eval_nonneg hb.pos hnn h0) hin).symm
  · rintro ⟨hrep, hcarry⟩
    exact isComposite_of_composition ha hb hnn h hrep hcarry

/-- A row-major `4 × 4` tile. -/
def rowMajor4x4 : Layout := ⟨.tuple [.leaf 4, .leaf 4], .tuple [.leaf 4, .leaf 1]⟩

/-- Every other column of the first two rows of a `4 × 4` tile: `(2,2):(1,8)` walks inside the first
mode and along the second, so that nothing carries. -/
theorem composition_exact_iff_columns :
    composition rowMajor4x4 ⟨.tuple [.leaf 2, .leaf 2], .tuple [.leaf 1, .leaf 8]⟩ =
        .ok ⟨.tuple [.leaf 2, .leaf 2], .tuple [.leaf 4, .leaf 2]⟩ ∧
      IsComposite rowMajor4x4 ⟨.tuple [.leaf 2, .leaf 2], .tuple [.leaf 1, .leaf 8]⟩
        ⟨.tuple [.leaf 2, .leaf 2], .tuple [.leaf 4, .leaf 2]⟩ := by
  have hrun : composition rowMajor4x4 ⟨.tuple [.leaf 2, .leaf 2], .tuple [.leaf 1, .leaf 8]⟩ =
      .ok ⟨.tuple [.leaf 2, .leaf 2], .tuple [.leaf 4, .leaf 2]⟩ := by decide
  have ha : rowMajor4x4.Valid := ⟨rfl, by decide⟩
  have hb : (Layout.mk (.tuple [.leaf 2, .leaf 2]) (.tuple [.leaf 1, .leaf 8])).Valid :=
    ⟨rfl, by decide⟩
  refine ⟨hrun, (composition_exact_iff ha hb (by decide) hrun).mpr
    ⟨fun m hm => ?_, fun c h0 hc _ => ?_⟩⟩
  · rcases List.mem_cons.mp hm with rfl | hm
    · exact Or.inr (Or.inl (by decide))
    · obtain rfl := List.mem_singleton.mp hm
      exact Or.inr trivial
  · have hc : c < 4 := hc
    interval_cases c <;> decide

/-- The walk `4:3` straddles the rows of a `4 × 4` tile and is accepted as `(2,2):(12,1)`: its
cell `2` reaches offset `1`, but coordinate `6` of the tile has offset `9`. -/
theorem composition_straddles :
    rowMajor4x4.Valid ∧ Nonneg rowMajor4x4.flatModes ∧
      (Layout.mk (.leaf 4) (.leaf 3)).Valid ∧ Nonneg (Layout.mk (.leaf 4) (.leaf 3)).flatModes ∧
      composition rowMajor4x4 ⟨.leaf 4, .leaf 3⟩ =
        .ok ⟨.tuple [.leaf 2, .leaf 2], .tuple [.leaf 12, .leaf 1]⟩ ∧
      ¬IsComposite rowMajor4x4 ⟨.leaf 4, .leaf 3⟩
        ⟨.tuple [.leaf 2, .leaf 2], .tuple [.leaf 12, .leaf 1]⟩ := by
  refine ⟨⟨rfl, by decide⟩, by decide, ⟨rfl, by decide⟩, by decide, by decide, fun h => ?_⟩
  have hcell := h.2 2 (by decide) (by decide) (by decide) (by decide)
  exact absurd hcell (by decide)

end CudaOxide.Cute
