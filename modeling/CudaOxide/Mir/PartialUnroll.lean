import CudaOxide.Mir.CountedLoop

/-!
# Partial unrolling

`partial_unroll` puts a main loop in front of a counted loop.  Its body is `factor` copies of the
loop body, entered while the guard `groupFits` says that a whole group of iterations still fits; the
source loop stays behind it and runs what is left.

* `partialUnroll` — the checks before the rewrite, and the constants the rewritten code contains.
* `IndexOp.folded` — the literal that replaces an index in a copy; it is the value of the index
  (`valueFolded_eq`).
* `CountedLoop.Trace`, `MainTrace` — the bodies that the source loop and the rewritten code run,
  with their counters and carried values, and how the loop is left.
* `partialUnroll_traces` — both have the same traces.
-/

namespace CudaOxide.Mir

/-! ### The rewrite -/

/-- What the analysis knows of a loop whose shape is supported. -/
structure LoopFacts where
  ivType : IntegerType
  ivInit : ℤ
  ivStep : ℤ
  ivOffset : ℤ
  continuePred : Option CmpPred
  /-- the test compares against a value, constant or not -/
  hasBound : Bool
  /-- the bound is no constant, and is carried by the loop or computed in it -/
  boundVaries : Bool
  deriving DecidableEq, Repr

/-- The constants of the rewritten code. -/
structure PartialUnroll where
  pred : CmpPred
  /-- what copy `j` adds to the counter of the main loop -/
  copyOffsets : List ℤ
  /-- what the last copy hands on -/
  groupStep : ℤ
  /-- the distance from the first counter of a group to its last -/
  lastSpan : ℤ
  deriving DecidableEq, Repr

/-- The value, or the reason why the loop is skipped. -/
def orSkip {α : Type} (o : Option α) (why : String) : Except String α :=
  match o with
  | some a => .ok a
  | none => .error why

/-- Skip the loop for a reason. -/
def skipIf (c : Prop) [Decidable c] (why : String) : Except String Unit :=
  if c then .error why else .ok ()

/-- The checks of `partial_unroll`, in their order. -/
def partialUnroll (f : LoopFacts) (factor : ℕ) : Except String PartialUnroll := do
  skipIf (factor < 2) s!"unroll factor {factor} is too small (need 2 or more)"
  let pred ← orSkip (if f.ivStep ≤ 0 then none
    else f.continuePred.filter (fun p => p = .lt ∨ p = .le))
    "partial #[unroll(N)] supports only up-counting loops (test < or <=, positive step) for now"
  let lastSpan ← orSkip (I128.checkedMul (factor - 1) f.ivStep)
    "the partial-unroll counter step is too large to analyze safely"
  let groupStep ← orSkip (I128.checkedMul factor f.ivStep)
    "the partial-unroll counter step is too large to analyze safely"
  skipIf (spanIsRepresentable f.ivType lastSpan = false)
    "the partial-unroll group spans too much of the counter type to guard wraparound safely"
  skipIf (f.hasBound = false) "partial #[unroll(N)] needs the loop bound as a value"
  skipIf (f.boundVaries = true)
    ("partial #[unroll(N)] needs a loop-invariant bound (the loop's limit must be the same on " ++
      "every iteration); this loop's limit changes inside the loop")
  let copyOffsets ← (List.range factor).mapM fun j : ℕ =>
    orSkip (I128.checkedMul j f.ivStep)
      "the partial-unroll counter offset overflows the analysis range"
  .ok { pred, copyOffsets, groupStep, lastSpan }

/-! ### Indices that follow the counter -/

/-- The counter of a copy: the first copy uses that of the main loop. -/
def copyCounter (ty : IntegerType) (iv : ℤ) (offset : ℤ) : ℤ :=
  if offset = 0 then iv else ty.wrap (iv + offset)

/-- The value `const_i128` reads off a constant of the type. -/
def constI128 (ty : IntegerType) (c : ℤ) : Option ℤ :=
  if 128 < ty.width then none else I128.checked (ty.wrap c)

/-- The counter plus or minus constants; a constant may stand on either side of a sum. -/
inductive Affine where
  | counter
  | add (v : Affine) (c : ℤ)
  | sub (v : Affine) (c : ℤ)
  deriving DecidableEq, Repr

namespace Affine

/-- The value of an affine expression at a counter. -/
def eval (ty : IntegerType) (iv : ℤ) : Affine → ℤ
  | counter => iv
  | add v c => ty.wrap (eval ty iv v + c)
  | sub v c => ty.wrap (eval ty iv v - c)

/-- `affine_offset`. -/
def offset (ty : IntegerType) : Affine → Option ℤ
  | counter => some 0
  | add v c => do I128.checkedAdd (← offset ty v) (← constI128 ty c)
  | sub v c => do I128.checkedSub (← offset ty v) (← constI128 ty c)

/-- The value in the copy whose counter is `counter + o`. -/
def inCopy (o : ℤ) : Affine → Affine
  | counter => if o = 0 then counter else add counter o
  | add v c => add (inCopy o v) c
  | sub v c => sub (inCopy o v) c

end Affine

/-- An operation whose result may be an index: `v & mask` or `v % m`. -/
inductive IndexOp where
  | bitAnd (v : Affine) (mask : ℤ)
  | rem (v : Affine) (m : ℤ)
  deriving DecidableEq, Repr

namespace IndexOp

/-- The result at counter `iv`. -/
def value (ty : IntegerType) (iv : ℤ) : IndexOp → ℤ
  | bitAnd v mask => ty.value (BitVec.ofInt ty.width (v.eval ty iv) &&& BitVec.ofInt ty.width mask)
  | rem v m =>
    match ty.signedness with
    | .signed => ty.value ((BitVec.ofInt ty.width (v.eval ty iv)).srem (BitVec.ofInt ty.width m))
    | .unsigned | .signless =>
      ty.value ((BitVec.ofInt ty.width (v.eval ty iv)).umod (BitVec.ofInt ty.width m))

/-- The operation in the copy at offset `o`. -/
def inCopy (o : ℤ) : IndexOp → IndexOp
  | bitAnd v mask => bitAnd (v.inCopy o) mask
  | rem v m => rem (v.inCopy o) m

/-- `counter_index_window`: the offset of the counter and `mask + 1` or `m`. -/
def counterIndexWindow (ty : IntegerType) : IndexOp → Option (ℤ × ℤ)
  | bitAnd v mask => do
    let offset ← v.offset ty
    let mask ← constI128 ty mask
    if mask < 0 then none
    else do
      let window ← I128.checkedAdd mask 1
      some (offset, window)
  | rem v m =>
    -- a signed remainder follows the sign of the dividend
    if ty.signedness = .signed then none
    else do
      let offset ← v.offset ty
      let m ← constI128 ty m
      if m ≤ 0 then none else some (offset, m)

/-- The literal `fold_constant_index_in_copies` puts in place of the operation, if it folds it. -/
def folded (ty : IntegerType) (init stepJump : ℤ) (op : IndexOp) : Option ℤ :=
  if stepJump ≤ 0 then none
  else do
    let (offset, window) ← op.counterIndexWindow ty
    if window ≤ 0 ∨ window.toNat &&& (window.toNat - 1) ≠ 0 ∨ stepJump.tmod window ≠ 0 then none
    else do
      let base ← I128.checkedAdd init offset
      some (base % window)

/-- The result in the rewritten code, where the main counter is `iv`. -/
def valueFolded (ty : IntegerType) (init stepJump iv : ℤ) (op : IndexOp) : ℤ :=
  match op.folded ty init stepJump with
  | some lit => ty.wrap lit
  | none => op.value ty iv

end IndexOp

/-! ### What a folded index is worth -/

section Index

variable {ty : IntegerType} {iv c k offset window : ℤ}

/-- A folded constant is wrapped. -/
theorem constI128_spec (h : constI128 ty c = some k) : k = ty.wrap c := by
  unfold constI128 at h
  split at h
  · cases h
  · exact (I128.checked_eq_some.mp h).2.symm

/-- A constant that is read as a nonnegative number is that number as a word. -/
theorem toNat_ofInt_of_wrap (ty : IntegerType) (c : ℤ) (h : 0 ≤ ty.wrap c) :
    ((BitVec.ofInt ty.width c).toNat : ℤ) = ty.wrap c := by
  unfold IntegerType.wrap IntegerType.value at h ⊢
  split
  · rename_i hs
    simp only [hs] at h ⊢
    have hlt := (BitVec.ofInt ty.width c).isLt
    rw [BitVec.toInt_eq_toNat_cond] at h ⊢
    split at h <;> rename_i hcond
    · rw [if_pos hcond]
    · omega
  · rfl
  · rfl

namespace Affine

/-- As a word, the value is the counter plus the offset. -/
theorem ofInt_eval {v : Affine} (h : v.offset ty = some offset) :
    BitVec.ofInt ty.width (v.eval ty iv) = BitVec.ofInt ty.width (iv + offset) := by
  induction v generalizing offset with
  | counter =>
    cases h
    rw [add_zero]
    rfl
  | add v c ih =>
    simp only [Affine.offset, Option.bind_eq_bind, Option.bind_eq_some_iff,
      I128.checkedAdd_eq_some] at h
    obtain ⟨o, ho, m, hm, -, rfl⟩ := h
    rw [constI128_spec hm, eval, IntegerType.ofInt_wrap, BitVec.ofInt_add, ih ho, ← add_assoc,
      BitVec.ofInt_add (iv + o), IntegerType.ofInt_wrap]
  | sub v c ih =>
    simp only [Affine.offset, Option.bind_eq_bind, Option.bind_eq_some_iff,
      I128.checkedSub_eq_some] at h
    obtain ⟨o, ho, m, hm, -, rfl⟩ := h
    rw [constI128_spec hm, eval, IntegerType.ofInt_wrap, sub_eq_add_neg, BitVec.ofInt_add, ih ho,
      sub_eq_add_neg, ← add_assoc, BitVec.ofInt_add (iv + o), BitVec.ofInt_neg, BitVec.ofInt_neg,
      IntegerType.ofInt_wrap]

/-- The expression of a copy reads the counter of the copy. -/
theorem eval_inCopy (v : Affine) (o : ℤ) :
    (v.inCopy o).eval ty iv = v.eval ty (copyCounter ty iv o) := by
  induction v with
  | counter =>
    unfold inCopy copyCounter
    split <;> rfl
  | add v c ih => rw [inCopy, eval, eval, ih]
  | sub v c ih => rw [inCopy, eval, eval, ih]

end Affine

namespace IndexOp

/-- The operation of a copy reads the counter of the copy. -/
theorem value_inCopy (op : IndexOp) (o : ℤ) :
    (op.inCopy o).value ty iv = op.value ty (copyCounter ty iv o) := by
  cases op with
  | bitAnd v mask => rw [inCopy, value, value, Affine.eval_inCopy]
  | rem v m => rw [inCopy, value, value, Affine.eval_inCopy]

/-- Where the window is a power of two inside the type, the operation keeps low bits. -/
theorem value_of_window {op : IndexOp} {n : ℕ}
    (h : op.counterIndexWindow ty = some (offset, 2 ^ n)) (iv : ℤ) :
    n ≤ ty.width ∧ op.value ty iv =
      ty.value (BitVec.ofNat ty.width ((BitVec.ofInt ty.width (iv + offset)).toNat % 2 ^ n)) := by
  cases op with
  -- a mask of low bits is one less than a power of two
  | bitAnd v mask =>
    simp only [counterIndexWindow, Option.bind_eq_bind, Option.bind_eq_some_iff,
      Option.ite_none_left_eq_some, I128.checkedAdd_eq_some, Option.some.injEq,
      Prod.mk.injEq] at h
    obtain ⟨o, ho, m, hm, hneg, w, ⟨-, hw⟩, rfl, rfl⟩ := h
    have hmask := constI128_spec hm
    have hword := toNat_ofInt_of_wrap ty mask (by omega)
    have hlt := (BitVec.ofInt ty.width mask).isLt
    have hnat : (BitVec.ofInt ty.width mask).toNat = 2 ^ n - 1 := by
      have : (((2 ^ n : ℕ) : ℤ)) = 2 ^ n := by push_cast; rfl
      omega
    refine ⟨(Nat.pow_le_pow_iff_right Nat.one_lt_two).mp (by omega), ?_⟩
    rw [value, Affine.ofInt_eval ho]
    congr 1
    apply BitVec.eq_of_toNat_eq
    rw [BitVec.toNat_and, hnat, Nat.and_two_pow_sub_one_eq_mod, BitVec.toNat_ofNat,
      Nat.mod_eq_of_lt (lt_of_le_of_lt (Nat.mod_le _ _) (BitVec.isLt _))]
  -- a remainder by a power of two, of a word without a sign
  | rem v m =>
    simp only [counterIndexWindow, Option.bind_eq_bind, Option.bind_eq_some_iff,
      Option.ite_none_left_eq_some, Option.some.injEq, Prod.mk.injEq] at h
    obtain ⟨hs, o, ho, m', hm, hneg, rfl, rfl⟩ := h
    have hm' := constI128_spec hm
    have hword := toNat_ofInt_of_wrap ty m (by omega)
    have hlt := (BitVec.ofInt ty.width m).isLt
    have hnat : (BitVec.ofInt ty.width m).toNat = 2 ^ n := by
      have : (((2 ^ n : ℕ) : ℤ)) = 2 ^ n := by push_cast; rfl
      omega
    have hrem : BitVec.umod (BitVec.ofInt ty.width (iv + o)) (BitVec.ofInt ty.width m) =
        BitVec.ofNat ty.width ((BitVec.ofInt ty.width (iv + o)).toNat % 2 ^ n) := by
      apply BitVec.eq_of_toNat_eq
      rw [BitVec.umod_eq, BitVec.toNat_umod, hnat, BitVec.toNat_ofNat,
        Nat.mod_eq_of_lt (lt_of_le_of_lt (Nat.mod_le _ _) (BitVec.isLt _))]
    refine ⟨(Nat.pow_le_pow_iff_right Nat.one_lt_two).mp (by omega), ?_⟩
    rw [value, Affine.ofInt_eval ho, hrem]
    cases hty : ty.signedness with
    | signed => exact absurd hty hs
    | unsigned => rfl
    | signless => rfl

end IndexOp

/-- The low bits of a counter that moves in multiples of the window do not move. -/
theorem toNat_ofInt_mod {w n : ℕ} {a jump t : ℤ} (hn : n ≤ w) (hjump : (2 ^ n : ℤ) ∣ jump) :
    (((BitVec.ofInt w (a + jump * t)).toNat % 2 ^ n : ℕ) : ℤ) = a % 2 ^ n := by
  have hdvd : (2 ^ n : ℤ) ∣ 2 ^ w := pow_dvd_pow _ hn
  have hpos : (0 : ℤ) < 2 ^ w := by positivity
  rw [BitVec.toNat_ofInt]
  push_cast
  rw [Int.toNat_of_nonneg (Int.emod_nonneg _ hpos.ne'), Int.emod_emod_of_dvd _ hdvd]
  obtain ⟨q, rfl⟩ := hjump
  rw [mul_assoc, Int.add_mul_emod_self_left]

namespace IndexOp

variable {op : IndexOp} {init jump lit : ℤ}

/-- **A folded index is exact**, whatever the counter of the main loop has come to. -/
theorem value_of_folded (h : op.folded ty init jump = some lit) (t : ℤ) :
    op.value ty (ty.wrap (init + jump * t)) = ty.wrap lit := by
  simp only [folded, Option.bind_eq_bind, Option.ite_none_left_eq_some, Option.bind_eq_some_iff,
    I128.checkedAdd_eq_some, Option.some.injEq, not_or, not_not, not_le, Prod.exists] at h
  obtain ⟨-, offset, window, hwindow, ⟨hpos, hand, hdvd⟩, base, ⟨-, rfl⟩, rfl⟩ := h
  obtain ⟨n, hn⟩ := Nat.ne_zero_and_sub_one_eq_zero_iff_isPowerOfTwo.mp
    ⟨(by omega : window.toNat ≠ 0), hand⟩
  have hcast : window = 2 ^ n := by
    have : (((2 ^ n : ℕ) : ℤ)) = 2 ^ n := by push_cast; rfl
    omega
  subst hcast
  obtain ⟨hle, hvalue⟩ := value_of_window hwindow (ty.wrap (init + jump * t))
  have hword : BitVec.ofInt ty.width (ty.wrap (init + jump * t) + offset) =
      BitVec.ofInt ty.width (init + offset + jump * t) := by
    rw [BitVec.ofInt_add, IntegerType.ofInt_wrap, ← BitVec.ofInt_add, add_right_comm]
  have hmod := toNat_ofInt_mod (a := init + offset) (t := t) hle (Int.dvd_of_tmod_eq_zero hdvd)
  rw [hvalue, hword, ← hmod]
  unfold IntegerType.wrap
  rw [BitVec.ofInt_natCast]

/-- Folding the index does not change its value. -/
theorem valueFolded_eq (op : IndexOp) (t : ℤ) :
    op.valueFolded ty init jump (ty.wrap (init + jump * t)) =
      op.value ty (ty.wrap (init + jump * t)) := by
  unfold valueFolded
  split
  · rename_i lit hlit
    exact (value_of_folded hlit t).symm
  · rfl

end IndexOp

end Index

/-! ### The traces of both loops -/

/-- What the body of a loop does: entered with a counter, the results of its index operations and
the carried values, it may reach the latch with these carried values. -/
structure LoopBody (ι σ : Type) where
  index : ι → IndexOp
  reaches : ℤ → (ι → ℤ) → σ → σ → Prop

variable {ι σ : Type}

namespace LoopBody

/-- The body of the source loop at counter `iv`. -/
def source (b : LoopBody ι σ) (ty : IntegerType) (iv : ℤ) : σ → σ → Prop :=
  b.reaches iv fun k => (b.index k).value ty iv

/-- The copy at offset `o` while the main counter is `iv`. -/
def copy (b : LoopBody ι σ) (ty : IntegerType) (init stepJump o iv : ℤ) : σ → σ → Prop :=
  b.reaches (copyCounter ty iv o) fun k =>
    ((b.index k).inCopy o).valueFolded ty init stepJump iv

end LoopBody

/-- `c.Trace Body iv acc tr e`: from the header with counter `iv` and carried values `acc` the loop
enters its body with the counters and carried values `tr`, in this order.  Then it is left with the
values in `e`, or observation ends.  `Body iv acc acc'` says that the body, entered with `iv` and
`acc`, may reach the latch with `acc'`. -/
inductive CountedLoop.Trace (c : CountedLoop) (Body : ℤ → σ → σ → Prop) :
    ℤ → σ → List (ℤ × σ) → Option (ℤ × σ) → Prop
  | cut {iv : ℤ} {acc : σ} : Trace c Body iv acc [] none
  | exit {iv : ℤ} {acc : σ} (h : c.continues iv = false) : Trace c Body iv acc [] (some (iv, acc))
  | enter {iv : ℤ} {acc : σ} (h : c.continues iv = true) : Trace c Body iv acc [(iv, acc)] none
  | iterate {iv : ℤ} {acc acc' : σ} {tr : List (ℤ × σ)} {e : Option (ℤ × σ)}
      (h : c.continues iv = true) (hbody : Body iv acc acc')
      (hrest : Trace c Body (c.ty.wrap (iv + c.step)) acc' tr e) :
      Trace c Body iv acc ((iv, acc) :: tr) e

/-- The copies of the body at these offsets, chained, while the main counter is `iv`; `some acc`
when the last of them reaches its latch. -/
inductive CopiesTrace (ty : IntegerType) (Copy : ℤ → ℤ → σ → σ → Prop) (iv : ℤ) :
    List ℤ → σ → List (ℤ × σ) → Option σ → Prop
  | done {acc : σ} : CopiesTrace ty Copy iv [] acc [] (some acc)
  | cut {offsets : List ℤ} {acc : σ} : CopiesTrace ty Copy iv offsets acc [] none
  | enter {o : ℤ} {offsets : List ℤ} {acc : σ} :
      CopiesTrace ty Copy iv (o :: offsets) acc [(copyCounter ty iv o, acc)] none
  | copy {o : ℤ} {offsets : List ℤ} {acc acc' : σ} {tr : List (ℤ × σ)} {e : Option σ}
      (hbody : Copy o iv acc acc') (hrest : CopiesTrace ty Copy iv offsets acc' tr e) :
      CopiesTrace ty Copy iv (o :: offsets) acc ((copyCounter ty iv o, acc) :: tr) e

/-- The guard of the main loop of `p` in front of `c`. -/
def PartialUnroll.guard (p : PartialUnroll) (c : CountedLoop) (iv : ℤ) : Bool :=
  groupFits c.ty p.pred p.lastSpan c.offset c.bound iv

/-- The rewritten code, from the header of the main loop on. -/
inductive MainTrace (p : PartialUnroll) (c : CountedLoop) (b : LoopBody ι σ) :
    ℤ → σ → List (ℤ × σ) → Option (ℤ × σ) → Prop
  | cut {iv : ℤ} {acc : σ} : MainTrace p c b iv acc [] none
  /-- fewer iterations than a group are left, or the guard cannot tell -/
  | remainder {iv : ℤ} {acc : σ} {tr : List (ℤ × σ)} {e : Option (ℤ × σ)}
      (h : p.guard c iv = false) (hrest : c.Trace (b.source c.ty) iv acc tr e) :
      MainTrace p c b iv acc tr e
  | stuck {iv : ℤ} {acc : σ} {tr : List (ℤ × σ)} (h : p.guard c iv = true)
      (hgroup : CopiesTrace c.ty (b.copy c.ty c.init p.groupStep) iv p.copyOffsets acc tr none) :
      MainTrace p c b iv acc tr none
  | group {iv : ℤ} {acc acc' : σ} {tr rest : List (ℤ × σ)} {e : Option (ℤ × σ)}
      (h : p.guard c iv = true)
      (hgroup : CopiesTrace c.ty (b.copy c.ty c.init p.groupStep) iv p.copyOffsets acc tr
        (some acc'))
      (hrest : MainTrace p c b (c.ty.wrap (iv + p.groupStep)) acc' rest e) :
      MainTrace p c b iv acc (tr ++ rest) e

/-! ### A group of iterations -/

/-- Nothing in range wraps. -/
theorem wrap_of_mem {ty : IntegerType} {z : ℤ} (hw : 0 < ty.width) (h : ty.lo ≤ z ∧ z ≤ ty.hi) :
    ty.wrap z = z :=
  IntegerType.wrap_eq_self hw h.1 h.2

/-- Wrapping has the range as its period, any number of times. -/
theorem wrap_add_mul_two_pow {ty : IntegerType} {z : ℤ} (k : ℤ) :
    ty.wrap (z + 2 ^ ty.width * k) = ty.wrap z := by
  unfold IntegerType.wrap
  congr 1
  apply BitVec.eq_of_toNat_eq
  simp [BitVec.toNat_ofInt]

/-- The guard is sound for every offset of the test: the guard cuts an offset outside the type, as
the source loop does. -/
theorem groupFits_sound {ty : IntegerType} {pred : CmpPred} {span offset bound iv d : ℤ}
    (hpred : pred = .lt ∨ pred = .le) (hspan : spanIsRepresentable ty span = true)
    (hiv : ty.lo ≤ iv ∧ iv ≤ ty.hi) (h : groupFits ty pred span offset bound iv = true)
    (hd : 0 ≤ d) (hds : d ≤ span) :
    ty.wrap (iv + d) = iv + d ∧ pred.holds (ty.wrap (iv + d + offset)) bound = true := by
  have hw := (spanIsRepresentable_spec hspan).1
  -- the part of the offset that the width leaves, with the sign of the offset
  set off := offset.tmod (2 ^ ty.width) with hoffdef
  have hcut (z : ℤ) : ty.wrap (z + offset) = ty.wrap (z + off) := by
    have hsplit := Int.tmod_add_mul_tdiv offset (2 ^ ty.width)
    rw [← hsplit, ← add_assoc, wrap_add_mul_two_pow]
  have hpow : (0 : ℤ) < 2 ^ ty.width := by positivity
  have habs : |off| < 2 ^ ty.width :=
    abs_lt.mpr ⟨Int.lt_tmod_of_pos _ hpow, Int.tmod_lt_of_pos _ hpow⟩
  have hsame : groupFits ty pred span off bound iv = true := by
    rcases lt_trichotomy offset 0 with hneg | hzero | hpos
    · have hle : off ≤ 0 := by
        have := Int.tmod_nonneg (a := -offset) (2 ^ ty.width) (by omega)
        rw [Int.neg_tmod] at this
        omega
      unfold groupFits at h ⊢
      simp only [hcut, hneg.ne, hneg.not_gt, if_false] at h
      -- a multiple of the width would fail the guard
      have hne : off ≠ 0 := by
        intro h0
        simp [h0, CmpPred.holds, wrap_of_mem hw hiv] at h
      simpa only [hne, hle.not_gt, if_false] using h
    · have h0 : off = 0 := by rw [hoffdef, hzero, Int.zero_tmod]
      rwa [h0, ← hzero]
    · have hle : 0 ≤ off := Int.tmod_nonneg _ hpos.le
      unfold groupFits at h ⊢
      simp only [hcut, hpos.ne', hpos, if_false, if_true] at h
      have hne : off ≠ 0 := by
        intro h0
        simp [h0, CmpPred.holds] at h
      simpa only [hne, lt_of_le_of_ne hle hne.symm, if_false, if_true] using h
  rw [hcut]
  exact groupFits_spec hpred hspan hiv habs hsame hd hds

/-! ### What the checks establish -/

section Checks

variable {α β : Type} {f : LoopFacts} {factor : ℕ} {p : PartialUnroll}

/-- `orSkip` goes on with the value. -/
@[simp] theorem orSkip_eq_ok {o : Option α} {why : String} {a : α} :
    orSkip o why = .ok a ↔ o = some a := by
  cases o <;> simp [orSkip]

/-- `skipIf` goes on when the condition fails. -/
@[simp] theorem skipIf_eq_ok {c : Prop} [Decidable c] {why : String} {u : Unit} :
    skipIf c why = .ok u ↔ ¬c := by
  unfold skipIf
  split <;> simp_all

/-- Two steps that both go on. -/
theorem except_bind_eq_ok {x : Except String α} {g : α → Except String β} {b : β} :
    (x >>= g) = .ok b ↔ ∃ a, x = .ok a ∧ g a = .ok b := by
  cases x <;> simp [bind, Except.bind]

/-- A mapped traversal that goes on. -/
theorem mapM_eq_map {g : α → Except String β} {h : α → β} {l : List α} {bs : List β}
    (hg : ∀ a b, g a = .ok b → b = h a) (hl : l.mapM g = .ok bs) : bs = l.map h := by
  induction l generalizing bs with
  | nil =>
    cases hl
    rfl
  | cons a l ih =>
    rw [List.mapM_cons, except_bind_eq_ok] at hl
    obtain ⟨b, hb, hl⟩ := hl
    rw [except_bind_eq_ok] at hl
    obtain ⟨bs', hbs, hl⟩ := hl
    cases hl
    rw [List.map_cons, hg a b hb, ih hbs]

/-- What the constants of the rewritten code are, and what the checks say about them. -/
structure PartialUnroll.Covers (p : PartialUnroll) (f : LoopFacts) (factor : ℕ) : Prop where
  two_le : 2 ≤ factor
  pos : 0 < f.ivStep
  up : p.pred = .lt ∨ p.pred = .le
  sameTest : f.continuePred = some p.pred
  span : spanIsRepresentable f.ivType p.lastSpan = true
  lastSpan_eq : p.lastSpan = (factor - 1) * f.ivStep
  groupStep_eq : p.groupStep = factor * f.ivStep
  copyOffsets_eq : p.copyOffsets = (List.range factor).map fun j : ℕ => j * f.ivStep

/-- The counter has bits. -/
theorem PartialUnroll.Covers.width_pos (h : p.Covers f factor) : 0 < f.ivType.width :=
  (spanIsRepresentable_spec h.span).1

/-- An unrolling that is accepted covers the loop. -/
theorem partialUnroll_covers (h : partialUnroll f factor = .ok p) : p.Covers f factor := by
  unfold partialUnroll at h
  simp only [except_bind_eq_ok, skipIf_eq_ok, orSkip_eq_ok, Option.ite_none_left_eq_some,
    Option.filter_eq_some_iff, decide_eq_true_eq, I128.checkedMul_eq_some, Except.ok.injEq,
    not_lt, not_le] at h
  obtain ⟨-, hfactor, pred, ⟨hpos, hpred, hup⟩, span, ⟨-, hspan⟩, group, ⟨-, hgroup⟩, -, hrep, -, -,
    -, -, offsets, hoffsets, rfl⟩ := h
  refine ⟨hfactor, hpos, hup, hpred, by simpa using hrep, hspan.symm, hgroup.symm, ?_⟩
  refine mapM_eq_map (fun j o hj => ?_) hoffsets
  rw [orSkip_eq_ok, I128.checkedMul_eq_some] at hj
  exact hj.2.symm

end Checks

/-! ### Groups against iterations -/

/-- The source loop, for a bound that is known at run time only. -/
def LoopFacts.loop (f : LoopFacts) (pred : CmpPred) (bound : ℤ) : CountedLoop where
  ty := f.ivType
  init := f.ivInit
  step := f.ivStep
  offset := f.ivOffset
  bound := bound
  pred := pred

section Traces

variable {f : LoopFacts} {factor : ℕ} {p : PartialUnroll} {bound iv : ℤ} {b : LoopBody ι σ}
  {acc acc' : σ} {tr rest : List (ℤ × σ)} {e : Option (ℤ × σ)}

/-- The counters that the main loop may come to. -/
def OnGrid (f : LoopFacts) (p : PartialUnroll) (iv : ℤ) : Prop :=
  ∃ t : ℤ, iv = f.ivType.wrap (f.ivInit + p.groupStep * t)

/-- The first counter is on the grid. -/
theorem OnGrid.init : OnGrid f p (f.ivType.wrap f.ivInit) := ⟨0, by rw [mul_zero, add_zero]⟩

/-- The next group starts on the grid. -/
theorem OnGrid.next (h : OnGrid f p iv) : OnGrid f p (f.ivType.wrap (iv + p.groupStep)) := by
  obtain ⟨t, rfl⟩ := h
  exact ⟨t + 1, by rw [IntegerType.wrap_wrap_add, mul_add, mul_one, add_assoc]⟩

/-- The grid lies in the range of the type. -/
theorem OnGrid.mem (h : OnGrid f p iv) : f.ivType.lo ≤ iv ∧ iv ≤ f.ivType.hi := by
  obtain ⟨t, rfl⟩ := h
  exact ⟨IntegerType.lo_le_wrap, IntegerType.wrap_le_hi⟩

/-- A copy does what the body does at the counter of the copy. -/
theorem LoopBody.copy_eq (h : OnGrid f p iv) (o : ℤ) :
    b.copy f.ivType f.ivInit p.groupStep o iv = b.source f.ivType (copyCounter f.ivType iv o) := by
  obtain ⟨t, rfl⟩ := h
  unfold LoopBody.copy LoopBody.source
  congr 1
  funext k
  rw [IndexOp.valueFolded_eq, IndexOp.value_inCopy]

/-- Where the guard holds, the copies run at the counters of the next iterations, and the source
loop enters its body at each of them. -/
theorem PartialUnroll.Covers.continues (hp : p.Covers f factor) (hiv : OnGrid f p iv)
    (hguard : p.guard (f.loop p.pred bound) iv = true) {j : ℕ} (hj : j < factor) :
    copyCounter f.ivType iv (j * f.ivStep) = f.ivType.wrap (iv + j * f.ivStep) ∧
      (f.loop p.pred bound).continues (f.ivType.wrap (iv + j * f.ivStep)) = true := by
  have hle : (j : ℤ) * f.ivStep ≤ (factor - 1) * f.ivStep :=
    mul_le_mul_of_nonneg_right (by omega) hp.pos.le
  have hnonneg : 0 ≤ (j : ℤ) * f.ivStep := mul_nonneg (by omega) hp.pos.le
  obtain ⟨hexact, hholds⟩ := groupFits_sound hp.up hp.span hiv.mem hguard hnonneg
    (hp.lastSpan_eq ▸ hle)
  constructor
  · unfold copyCounter
    split
    · omega
    · rfl
  · rw [hexact]
    exact hholds

/-- The offsets of `n` copies, from number `j` on. -/
def offsetsFrom (f : LoopFacts) (j n : ℕ) : List ℤ :=
  (List.range' j n).map fun k : ℕ => k * f.ivStep

/-- The offsets of one copy more. -/
theorem offsetsFrom_succ (j n : ℕ) :
    offsetsFrom f j (n + 1) = j * f.ivStep :: offsetsFrom f (j + 1) n := by
  rw [offsetsFrom, List.range'_succ, List.map_cons, offsetsFrom]

/-- The offsets of the copies. -/
theorem PartialUnroll.Covers.copyOffsets_eq_from (hp : p.Covers f factor) :
    p.copyOffsets = offsetsFrom f 0 factor := by
  rw [hp.copyOffsets_eq, List.range_eq_range', offsetsFrom]

/-- The counter of iteration `j` of a group steps to that of iteration `j + 1`. -/
theorem wrap_next (ty : IntegerType) (iv step : ℤ) (j : ℕ) :
    ty.wrap (ty.wrap (iv + j * step) + step) = ty.wrap (iv + (j + 1 : ℕ) * step) := by
  rw [IntegerType.wrap_wrap_add]
  push_cast
  rw [add_mul, one_mul, add_assoc]

/-- The copies of a group, from copy `j` on, are iterations of the source loop. -/
theorem CopiesTrace.source (hp : p.Covers f factor) (hiv : OnGrid f p iv)
    (hguard : p.guard (f.loop p.pred bound) iv = true) {j n : ℕ} (hj : j + n = factor)
    {out : Option σ}
    (h : CopiesTrace f.ivType (b.copy f.ivType f.ivInit p.groupStep) iv (offsetsFrom f j n) acc tr
      out) :
    (out = none → (f.loop p.pred bound).Trace (b.source f.ivType)
      (f.ivType.wrap (iv + j * f.ivStep)) acc tr none) ∧
    ∀ acc' rest e, out = some acc' →
      (f.loop p.pred bound).Trace (b.source f.ivType) (f.ivType.wrap (iv + p.groupStep)) acc' rest
        e →
      (f.loop p.pred bound).Trace (b.source f.ivType) (f.ivType.wrap (iv + j * f.ivStep)) acc
        (tr ++ rest) e := by
  -- induction on the number of copies left
  induction n generalizing j acc tr with
  | zero =>
    obtain rfl : j = factor := by omega
    rw [hp.groupStep_eq]
    cases h with
    | done =>
      refine ⟨fun h => (Option.some_ne_none _ h).elim, fun acc' rest e hout hrest => ?_⟩
      cases hout
      exact hrest
    | cut => exact ⟨fun _ => .cut, fun _ _ _ hout => (Option.some_ne_none _ hout.symm).elim⟩
  | succ n ih =>
    rw [offsetsFrom_succ] at h
    obtain ⟨hcounter, hgo⟩ := hp.continues hiv hguard (show j < factor by omega)
    cases h with
    | cut => exact ⟨fun _ => .cut, fun _ _ _ hout => (Option.some_ne_none _ hout.symm).elim⟩
    | enter =>
      rw [hcounter]
      exact ⟨fun _ => .enter hgo, fun _ _ _ hout => (Option.some_ne_none _ hout.symm).elim⟩
    | copy hbody hrest =>
      obtain ⟨hstuck, hthrough⟩ := ih (show j + 1 + n = factor by omega) hrest
      rw [LoopBody.copy_eq hiv, hcounter] at hbody
      rw [hcounter]
      refine ⟨fun hout => ?_, fun acc' rest e hout hnext => ?_⟩
      · refine .iterate hgo hbody ?_
        show CountedLoop.Trace _ _ (f.ivType.wrap (_ + f.ivStep)) _ _ _
        rw [wrap_next]
        exact hstuck hout
      · refine .iterate hgo hbody ?_
        show CountedLoop.Trace _ _ (f.ivType.wrap (_ + f.ivStep)) _ _ _
        rw [wrap_next]
        exact hthrough acc' rest e hout hnext

/-- Where the guard holds, a trace of the source loop stops inside the group or runs through it. -/
theorem CountedLoop.Trace.split (hp : p.Covers f factor) (hiv : OnGrid f p iv)
    (hguard : p.guard (f.loop p.pred bound) iv = true) {j n : ℕ} (hj : j + n = factor)
    (h : (f.loop p.pred bound).Trace (b.source f.ivType) (f.ivType.wrap (iv + j * f.ivStep)) acc tr
      e) :
    (e = none ∧ CopiesTrace f.ivType (b.copy f.ivType f.ivInit p.groupStep) iv (offsetsFrom f j n)
      acc tr none) ∨
    ∃ group rest acc', tr = group ++ rest ∧ group.length = n ∧
      CopiesTrace f.ivType (b.copy f.ivType f.ivInit p.groupStep) iv (offsetsFrom f j n) acc group
        (some acc') ∧
      (f.loop p.pred bound).Trace (b.source f.ivType) (f.ivType.wrap (iv + p.groupStep)) acc' rest
        e := by
  induction n generalizing j acc tr with
  | zero =>
    obtain rfl : j = factor := by omega
    refine Or.inr ⟨[], tr, acc, rfl, rfl, .done, ?_⟩
    rwa [hp.groupStep_eq]
  | succ n ih =>
    obtain ⟨hcounter, hgo⟩ := hp.continues hiv hguard (show j < factor by omega)
    rw [offsetsFrom_succ]
    cases h with
    | cut => exact Or.inl ⟨rfl, .cut⟩
    | exit hstop => rw [hgo] at hstop; cases hstop
    | enter =>
      rw [← hcounter]
      exact Or.inl ⟨rfl, .enter⟩
    | iterate _ hbody hrest =>
      have hcopy := hbody
      rw [← hcounter, ← LoopBody.copy_eq hiv] at hcopy
      rw [← hcounter]
      change CountedLoop.Trace _ _ (f.ivType.wrap (_ + f.ivStep)) _ _ _ at hrest
      rw [wrap_next] at hrest
      rcases ih (show j + 1 + n = factor by omega) hrest with
        ⟨he, hstuck⟩ | ⟨group, rest, acc', rfl, hlen, hthrough, hnext⟩
      · exact Or.inl ⟨he, .copy hcopy hstuck⟩
      · exact Or.inr ⟨_ :: group, rest, acc', rfl, by simp [hlen], .copy hcopy hthrough, hnext⟩

/-- A trace of the main loop is a trace of the source loop. -/
theorem MainTrace.source (hp : p.Covers f factor) (hiv : OnGrid f p iv)
    (h : MainTrace p (f.loop p.pred bound) b iv acc tr e) :
    (f.loop p.pred bound).Trace (b.source f.ivType) iv acc tr e := by
  induction h with
  | cut => exact .cut
  | remainder _ hrest => exact hrest
  | stuck hguard hgroup =>
    rw [hp.copyOffsets_eq_from] at hgroup
    have := (CopiesTrace.source hp hiv hguard (Nat.zero_add factor) hgroup).1 rfl
    rwa [Nat.cast_zero, zero_mul, add_zero, wrap_of_mem hp.width_pos hiv.mem] at this
  | group hguard hgroup _ ih =>
    rw [hp.copyOffsets_eq_from] at hgroup
    have := (CopiesTrace.source hp hiv hguard (Nat.zero_add factor) hgroup).2 _ _ _ rfl
      (ih hiv.next)
    rwa [Nat.cast_zero, zero_mul, add_zero, wrap_of_mem hp.width_pos hiv.mem] at this

/-- A trace of the source loop is a trace of the main loop. -/
theorem CountedLoop.Trace.main (hp : p.Covers f factor) (hiv : OnGrid f p iv)
    (h : (f.loop p.pred bound).Trace (b.source f.ivType) iv acc tr e) :
    MainTrace p (f.loop p.pred bound) b iv acc tr e := by
  -- every group takes at least two bodies off the trace
  induction hlen : tr.length using Nat.strong_induction_on generalizing iv acc tr with
  | _ len ih =>
    by_cases hguard : p.guard (f.loop p.pred bound) iv = true
    · rw [← wrap_of_mem hp.width_pos hiv.mem, ← add_zero iv, ← zero_mul f.ivStep,
        ← Nat.cast_zero] at h
      rcases h.split hp hiv hguard (Nat.zero_add factor) with
        ⟨rfl, hstuck⟩ | ⟨group, rest, acc', rfl, hgroup, hthrough, hnext⟩
      · rw [← hp.copyOffsets_eq_from] at hstuck
        exact .stuck hguard hstuck
      · rw [← hp.copyOffsets_eq_from] at hthrough
        have htwo := hp.two_le
        rw [List.length_append] at hlen
        exact .group hguard hthrough (ih rest.length (by omega) hiv.next hnext rfl)
    · exact .remainder (Bool.eq_false_iff.mpr hguard) h

end Traces

/-- **Partial unrolling preserves the loop.**  For every run-time bound and every body, the main
loop with its remainder runs the body at the same counters with the same carried values as the
source loop, in the same order, and is left with the same values. -/
theorem partialUnroll_traces {f : LoopFacts} {factor : ℕ} {p : PartialUnroll}
    (h : partialUnroll f factor = .ok p) (bound : ℤ) (b : LoopBody ι σ) (acc : σ)
    (tr : List (ℤ × σ)) (e : Option (ℤ × σ)) :
    MainTrace p (f.loop p.pred bound) b (f.ivType.wrap f.ivInit) acc tr e ↔
      (f.loop p.pred bound).Trace (b.source f.ivType) (f.ivType.wrap f.ivInit) acc tr e :=
  ⟨MainTrace.source (partialUnroll_covers h) .init,
    CountedLoop.Trace.main (partialUnroll_covers h) .init⟩

/-- `while i <= 254` over a `u8` that starts at 250, in groups of four: the guard at 254 wraps, and
the remainder runs the last body. -/
theorem partialUnroll_traces_limit :
    MainTrace ⟨.le, [0, 1, 2, 3], 4, 3⟩ ⟨⟨8, .unsigned⟩, 250, 1, 0, 254, .le⟩
      (⟨Empty.elim, fun _ _ _ _ => True⟩ : LoopBody Empty Unit) 250 ()
      [(250, ()), (251, ()), (252, ()), (253, ()), (254, ())] (some (255, ())) :=
  (@partialUnroll_traces Empty Unit ⟨⟨8, .unsigned⟩, 250, 1, 0, some .le, true, false⟩ 4
    ⟨.le, [0, 1, 2, 3], 4, 3⟩ (by decide +kernel) 254 ⟨Empty.elim, fun _ _ _ _ => True⟩ ()
    [(250, ()), (251, ()), (252, ()), (253, ()), (254, ())] (some (255, ()))).mpr
    (.iterate (by decide) trivial <| .iterate (by decide) trivial <| .iterate (by decide) trivial <|
      .iterate (by decide) trivial <| .iterate (by decide) trivial <| .exit (by decide))

end CudaOxide.Mir
