import CudaOxide.Mir.PartialUnroll

/-!
# Folding the indices of the copies

After partial unrolling the counter of the main loop moves in steps of `factor * step`.
`fold_constant_index_in_copies` scans the operations of the copies and puts a literal in place of
an index whose low bits do not move.

* `CopyValue` — a value of the copies, as the graph of the operations that compute it.
* `affineOffset`, `counterIndexWindow` — what the scan reads off an operation; each sees an
  `Affine` counter and an `IndexOp` (`exists_affine`, `exists_indexOp`).
* `foldConstantIndexInCopies_sound` — every literal is the value of its index on every trip, and
  the replacements change no value.
-/

namespace CudaOxide.Mir

/-- The binary operations that the scan looks at. -/
inductive CopyOp where
  | add
  | sub
  | bitAnd
  | rem
  deriving DecidableEq, Repr

/-- A value that the copies compute from the counter of the main loop; `other` stands for every
value that is defined by anything else. -/
inductive CopyValue where
  | counter
  | constant (c : ℤ)
  | op (id : ℕ) (code : CopyOp) (a b : CopyValue)
  | other (n : ℕ)
  deriving DecidableEq, Repr

namespace CopyValue

/-! ### The scan -/

/-- `const_i128` -/
def constI128 (ty : IntegerType) : CopyValue → Option ℤ
  | constant c => Mir.constI128 ty c
  | _ => none

/-- `affine_offset`: the counter plus or minus constants. The first side that matches decides. -/
def affineOffset (ty : IntegerType) : CopyValue → Option ℤ
  | counter => some 0
  | op _ .add a b =>
    match affineOffset ty a, b.constI128 ty with
    | some o, some c => I128.checkedAdd o c
    | _, _ =>
      match affineOffset ty b, a.constI128 ty with
      | some o, some c => I128.checkedAdd o c
      | _, _ => none
  | op _ .sub a b => do I128.checkedSub (← affineOffset ty a) (← b.constI128 ty)
  | _ => none

/-- `counter_index_window`: the offset of the counter, and `mask + 1` or `m`. -/
def counterIndexWindow (ty : IntegerType) : CopyValue → Option (ℤ × ℤ)
  | op _ .bitAnd a b => do
    -- either side may be the counter
    let (offset, mask) ← match a.affineOffset ty, b.constI128 ty with
      | some o, some m => some (o, m)
      | _, _ => do
        let o ← b.affineOffset ty
        let m ← a.constI128 ty
        some (o, m)
    if mask < 0 then none
    else do
      let window ← I128.checkedAdd mask 1
      some (offset, window)
  | op _ .rem a b =>
    if ty.signedness = .signed then none
    else do
      let offset ← a.affineOffset ty
      let m ← b.constI128 ty
      if m ≤ 0 then none else some (offset, m)
  | _ => none

/-- The literal for an operation, if it is folded. -/
def folded (ty : IntegerType) (init stepJump : ℤ) (v : CopyValue) : Option ℤ :=
  if stepJump ≤ 0 then none
  else do
    let (offset, window) ← v.counterIndexWindow ty
    if window ≤ 0 ∨ window.toNat &&& (window.toNat - 1) ≠ 0 ∨ stepJump.tmod window ≠ 0 then none
    else do
      let base ← I128.checkedAdd init offset
      some (base % window)

/-- `replace_all_uses_with`: the literal stands for every use of the result `v`. -/
def replace (v : CopyValue) (lit : ℤ) : CopyValue → CopyValue
  | op id code a b =>
    if op id code a b = v then constant lit else op id code (replace v lit a) (replace v lit b)
  | u => u

/-- The replacements made so far, in their order. -/
def replaceAll (done : List (CopyValue × ℤ)) (u : CopyValue) : CopyValue :=
  done.foldl (fun u d => replace d.1 d.2 u) u

/-- An operation as it stands: its operands have been replaced, its own result has not. -/
def current (done : List (CopyValue × ℤ)) : CopyValue → CopyValue
  | op id code a b => op id code (replaceAll done a) (replaceAll done b)
  | u => u

/-- `fold_constant_index_in_copies`: scan the operations of the copies in their order and return
the results that were replaced, each with its literal. -/
def foldConstantIndexInCopies (ty : IntegerType) (init stepJump : ℤ) :
    List (CopyValue × ℤ) → List CopyValue → List (CopyValue × ℤ)
  | done, [] => done
  | done, v :: vs =>
    match (current done v).folded ty init stepJump with
    | some lit => foldConstantIndexInCopies ty init stepJump (done ++ [(current done v, lit)]) vs
    | none => foldConstantIndexInCopies ty init stepJump done vs

/-! ### Run-time values -/

/-- The result of an operation of type `ty` on the operand values `x` and `y`. -/
def apply (ty : IntegerType) (code : CopyOp) (x y : ℤ) : ℤ :=
  match code with
  | .add => ty.wrap (x + y)
  | .sub => ty.wrap (x - y)
  | .bitAnd => ty.value (BitVec.ofInt ty.width x &&& BitVec.ofInt ty.width y)
  | .rem =>
    match ty.signedness with
    | .signed => ty.value ((BitVec.ofInt ty.width x).srem (BitVec.ofInt ty.width y))
    | .unsigned | .signless =>
      ty.value ((BitVec.ofInt ty.width x).umod (BitVec.ofInt ty.width y))

/-- The value while the counter is `iv` and the other values are `env`. -/
def eval (ty : IntegerType) (iv : ℤ) (env : ℕ → ℤ) : CopyValue → ℤ
  | counter => iv
  | constant c => ty.wrap c
  | op _ code a b => apply ty code (eval ty iv env a) (eval ty iv env b)
  | other n => env n

/-- The body's value in the copy whose counter is `counter + o`; `fresh` is the sum. -/
def inCopy (fresh : ℕ) (o : ℤ) : CopyValue → CopyValue
  | counter => if o = 0 then counter else op fresh .add counter (constant o)
  | op id code a b => op id code (inCopy fresh o a) (inCopy fresh o b)
  | u => u

end CopyValue

/-- The counter of the main loop on trip `t`. -/
def mainCounter (ty : IntegerType) (init stepJump : ℤ) : ℕ → ℤ
  | 0 => ty.wrap init
  | t + 1 => ty.wrap (mainCounter ty init stepJump t + stepJump)

section Sound

variable {ty : IntegerType} {init jump iv lit offset window : ℤ} {env : ℕ → ℤ} {v u : CopyValue}
  {done : List (CopyValue × ℤ)}

/-- The counter of the main loop on trip `t`. -/
theorem mainCounter_eq (ty : IntegerType) (init jump : ℤ) (t : ℕ) :
    mainCounter ty init jump t = ty.wrap (init + jump * t) := by
  induction t with
  | zero => rw [mainCounter, Nat.cast_zero, mul_zero, add_zero]
  | succ t ih =>
    rw [mainCounter, ih, IntegerType.wrap_wrap_add]
    congr 1
    push_cast
    ring

namespace CopyValue

/-- A folded value is a constant of the type. -/
theorem constI128_eq_some {c : ℤ} (h : v.constI128 ty = some c) :
    ∃ k, v = constant k ∧ Mir.constI128 ty k = some c := by
  cases v with
  | constant k => exact ⟨k, rfl, h⟩
  | counter => cases h
  | op => cases h
  | other => cases h

/-- What the scan takes for a counter with an offset is one. -/
theorem exists_affine (h : v.affineOffset ty = some offset) :
    ∃ A : Affine, A.offset ty = some offset ∧
      ∀ iv env, v.eval ty iv env = A.eval ty iv := by
  induction v generalizing offset with
  | counter => exact ⟨.counter, h, fun _ _ => rfl⟩
  | constant c => cases h
  | other n => cases h
  | op id code a b iha ihb =>
    -- a constant on one side, the counter on the other
    have hsum : ∀ {x y : CopyValue} {o c : ℤ},
        (∀ {offset}, x.affineOffset ty = some offset → ∃ A : Affine, A.offset ty = some offset ∧
          ∀ iv env, x.eval ty iv env = A.eval ty iv) →
        x.affineOffset ty = some o → y.constI128 ty = some c →
        I128.checkedAdd o c = some offset → ∃ A : Affine, A.offset ty = some offset ∧
          ∀ iv env, ty.wrap (x.eval ty iv env + y.eval ty iv env) = A.eval ty iv := by
      intro x y o c ih ho hc hadd
      obtain ⟨A, hA, hval⟩ := ih ho
      obtain ⟨k, rfl, hk⟩ := constI128_eq_some hc
      refine ⟨.add A k, ?_, fun iv env => ?_⟩
      · simp only [Affine.offset, hA, hk, Option.bind_eq_bind, Option.bind_some, hadd]
      · rw [hval, eval, Affine.eval, IntegerType.wrap_add_wrap]
    cases code with
    | add =>
      simp only [affineOffset] at h
      split at h
      · rename_i o c ho hc
        exact hsum iha ho hc h
      · split at h
        · rename_i o c ho hc
          obtain ⟨A, hA, hval⟩ := hsum ihb ho hc h
          refine ⟨A, hA, fun iv env => ?_⟩
          rw [← hval, add_comm]
          rfl
        · cases h
    | sub =>
      simp only [affineOffset, Option.bind_eq_bind, Option.bind_eq_some_iff] at h
      obtain ⟨o, ho, c, hc, hsub⟩ := h
      obtain ⟨A, hA, hval⟩ := iha ho
      obtain ⟨k, rfl, hk⟩ := constI128_eq_some hc
      refine ⟨.sub A k, ?_, fun iv env => ?_⟩
      · simp only [Affine.offset, hA, hk, Option.bind_eq_bind, Option.bind_some, hsub]
      · show ty.wrap (eval ty iv env a - ty.wrap k) = _
        rw [hval, Affine.eval, IntegerType.wrap_sub_wrap]
    | bitAnd => cases h
    | rem => cases h

/-- The value of an index operation whose operands are a counter and a constant. -/
theorem exists_indexOp {w : ℤ × ℤ} (h : v.counterIndexWindow ty = some w) :
    ∃ i : IndexOp, i.counterIndexWindow ty = some w ∧
      ∀ iv env, v.eval ty iv env = i.value ty iv := by
  cases v with
  | counter => cases h
  | constant c => cases h
  | other n => cases h
  | op id code a b =>
    -- the counter is on the side `x`, the mask on the side `y`
    have hmask : ∀ {x y : CopyValue} {o m : ℤ}, x.affineOffset ty = some o →
        y.constI128 ty = some m →
        (if m < 0 then none else do
          let window ← I128.checkedAdd m 1
          some (o, window)) = some w →
        ∃ i : IndexOp, i.counterIndexWindow ty = some w ∧ ∀ iv env,
          ty.value (BitVec.ofInt ty.width (x.eval ty iv env) &&&
            BitVec.ofInt ty.width (y.eval ty iv env)) = i.value ty iv := by
      intro x y o m ho hm hw
      obtain ⟨A, hA, hval⟩ := exists_affine ho
      obtain ⟨k, rfl, hk⟩ := constI128_eq_some hm
      refine ⟨.bitAnd A k, ?_, fun iv env => ?_⟩
      · simp only [IndexOp.counterIndexWindow, hA, hk, Option.bind_eq_bind, Option.bind_some]
        exact hw
      · rw [hval, eval, IndexOp.value, IntegerType.ofInt_wrap]
    cases code with
    | add => cases h
    | sub => cases h
    | bitAnd =>
      simp only [counterIndexWindow] at h
      split at h
      · rename_i o m ho hm
        exact hmask ho hm h
      · simp only [Option.bind_eq_bind, Option.bind_eq_some_iff] at h
        obtain ⟨o, ho, m, hm, p, hp, h⟩ := h
        cases hp
        obtain ⟨i, hi, hval⟩ := hmask ho hm h
        refine ⟨i, hi, fun iv env => ?_⟩
        rw [← hval, BitVec.and_comm]
        rfl
    | rem =>
      simp only [counterIndexWindow, Option.bind_eq_bind, Option.ite_none_left_eq_some,
        Option.bind_eq_some_iff] at h
      obtain ⟨hs, o, ho, m, hm, hw⟩ := h
      obtain ⟨A, hA, hval⟩ := exists_affine ho
      obtain ⟨k, rfl, hk⟩ := constI128_eq_some hm
      refine ⟨.rem A k, ?_, fun iv env => ?_⟩
      · simp only [IndexOp.counterIndexWindow, hs, if_false, hA, hk, Option.bind_eq_bind,
          Option.bind_some, Option.ite_none_left_eq_some]
        exact hw
      · show apply ty .rem (eval ty iv env a) (ty.wrap k) = _
        rw [hval]
        unfold apply IndexOp.value
        cases ty.signedness <;> simp only [IntegerType.ofInt_wrap]

/-- **A literal is the value of its operation** on every trip. -/
theorem eval_of_folded (h : v.folded ty init jump = some lit) (t : ℕ) (env : ℕ → ℤ) :
    v.eval ty (mainCounter ty init jump t) env = ty.wrap lit := by
  rw [folded] at h
  obtain ⟨hjump, h⟩ := Option.ite_none_left_eq_some.mp h
  obtain ⟨w, hw, hrest⟩ := Option.bind_eq_some_iff.mp h
  obtain ⟨i, hi, hval⟩ := exists_indexOp hw
  have hfolded : i.folded ty init jump = some lit := by
    rw [IndexOp.folded, if_neg hjump, hi]
    exact hrest
  rw [hval, mainCounter_eq, IndexOp.value_of_folded hfolded]

/-! ### The replacements -/

/-- Replacing a value that is the literal changes no value. -/
theorem eval_replace (hv : v.eval ty iv env = ty.wrap lit) (u : CopyValue) :
    (replace v lit u).eval ty iv env = u.eval ty iv env := by
  induction u with
  | counter => rfl
  | constant c => rfl
  | other n => rfl
  | op id code a b iha ihb =>
    rw [replace]
    split
    · rename_i heq
      rw [heq, hv]
      rfl
    · rw [eval, eval, iha, ihb]

/-- Each replaced result has the value of its literal. -/
def Exact (ty : IntegerType) (iv : ℤ) (env : ℕ → ℤ) (done : List (CopyValue × ℤ)) : Prop :=
  ∀ d ∈ done, d.1.eval ty iv env = ty.wrap d.2

/-- Replacing all values that are folded changes no value. -/
theorem eval_replaceAll (h : Exact ty iv env done) (u : CopyValue) :
    (replaceAll done u).eval ty iv env = u.eval ty iv env := by
  induction done generalizing u with
  | nil => rfl
  | cons d done ih =>
    rw [replaceAll, List.foldl_cons]
    have hrest : Exact ty iv env done := fun e he => h e (List.mem_cons_of_mem _ he)
    rw [← replaceAll, ih hrest, eval_replace (h d List.mem_cons_self)]

/-- The scan keeps every replacement exact. -/
theorem exact_foldConstantIndexInCopies (t : ℕ) (env : ℕ → ℤ) (vs : List CopyValue)
    (h : Exact ty (mainCounter ty init jump t) env done) :
    Exact ty (mainCounter ty init jump t) env
      (foldConstantIndexInCopies ty init jump done vs) := by
  induction vs generalizing done with
  | nil => exact h
  | cons v vs ih =>
    rw [foldConstantIndexInCopies]
    split
    · rename_i lit hlit
      refine ih fun d hd => ?_
      rcases List.mem_append.mp hd with hold | hnew
      · exact h d hold
      · obtain rfl := List.mem_singleton.mp hnew
        exact eval_of_folded hlit t env
    · exact ih h

/-- A value of a copy is the body's value at the counter of the copy. -/
theorem eval_inCopy (fresh : ℕ) (o : ℤ) (v : CopyValue) :
    (v.inCopy fresh o).eval ty iv env = v.eval ty (copyCounter ty iv o) env := by
  induction v with
  | counter =>
    unfold inCopy copyCounter
    split
    · rfl
    · show ty.wrap (iv + ty.wrap o) = ty.wrap (iv + o)
      rw [IntegerType.wrap_add_wrap]
  | constant c => rfl
  | other n => rfl
  | op id code a b iha ihb => rw [inCopy, eval, eval, iha, ihb]

end CopyValue

open CopyValue

/-- **Folded indices are exact.**  Whatever the copies contain, on every trip `t` of the main loop
(the counter may have wrapped) and for all other values `env`: each literal is the value that its
index has, and no value changes when the literals are put in place. In the copy at offset `o` these
are the values of the body at the counter of that copy. -/
theorem foldConstantIndexInCopies_sound (ty : IntegerType) (init jump : ℤ) (vs : List CopyValue)
    (t : ℕ) (env : ℕ → ℤ) :
    let done := foldConstantIndexInCopies ty init jump [] vs
    (∀ v lit, (v, lit) ∈ done → v.eval ty (mainCounter ty init jump t) env = ty.wrap lit) ∧
    (∀ u, (replaceAll done u).eval ty (mainCounter ty init jump t) env =
      u.eval ty (mainCounter ty init jump t) env) ∧
    (∀ u fresh o, (replaceAll done (inCopy fresh o u)).eval ty (mainCounter ty init jump t) env =
      u.eval ty (copyCounter ty (mainCounter ty init jump t) o) env) := by
  intro done
  have hexact : Exact ty (mainCounter ty init jump t) env done :=
    exact_foldConstantIndexInCopies t env vs fun d hd => absurd hd List.not_mem_nil
  refine ⟨fun v lit hmem => hexact (v, lit) hmem, fun u => eval_replaceAll hexact u, ?_⟩
  intro u fresh o
  rw [eval_replaceAll hexact, eval_inCopy]

/-- The stage index of the second of four copies, on a byte counter from 250 that wraps. -/
theorem foldConstantIndexInCopies_sound_stage :
    foldConstantIndexInCopies ⟨8, .unsigned⟩ 250 4 []
        [.op 1 .bitAnd (.op 0 .add .counter (.constant 1)) (.constant 3)] =
      [(.op 1 .bitAnd (.op 0 .add .counter (.constant 1)) (.constant 3), 3)] ∧
    ∀ t env, (op 1 .bitAnd (op 0 .add counter (constant 1)) (constant 3)).eval ⟨8, .unsigned⟩
      (mainCounter ⟨8, .unsigned⟩ 250 4 t) env = 3 :=
  ⟨by decide, fun t env => (foldConstantIndexInCopies_sound ⟨8, .unsigned⟩ 250 4
    [.op 1 .bitAnd (.op 0 .add .counter (.constant 1)) (.constant 3)] t env).1 _ 3 (by decide)⟩

end Sound

end CudaOxide.Mir
