import CudaOxide.Mir.Integer
import CudaOxide.Tile.Bounds

/-!
# Intervals of run-time values

The compiler keeps the interval of a result only where it lies in the value domain of the result's
type: the machine operation wraps at the width of the type, the interval arithmetic does not.

* `intValueDomain`, `transfer` — the domains, and the interval the compiler keeps.
* `machineOp` — what the generated operation computes on values of a machine type.
* `transfer_sound` — the computed value lies in the interval, and is the folded constant where the
  interval is exact.
-/

namespace CudaOxide.Tile

open Lib Mir

/-! ### The interval the compiler keeps -/

/-- The element types, by the name the compiler reads; `other` is every name without a domain. -/
inductive ElemType where
  | bool
  | i1
  | i32
  | u32
  | other (name : String)
  deriving DecidableEq, Repr

/-- `int_value_domain`. -/
def intValueDomain : ElemType → Option Bounds
  | .bool | .i1 => some ⟨0, 1⟩
  | .i32 => some ⟨-2147483648, 2147483647⟩
  | .u32 => some ⟨0, 4294967295⟩
  | .other _ => none

/-- `propagate_bounds`. -/
def propagateBounds (op : TileBinaryOp) (lhs rhs : Option Bounds) : Option Bounds :=
  match lhs, rhs with
  | some a, some b => boundsFromBop op a b
  | _, _ => none

/-- The interval of `transfer`: a range that leaves the domain is dropped, not clamped. -/
def transfer (op : TileBinaryOp) (lhs rhs : Option Bounds) (resultDomain : Option Bounds) :
    Option Bounds :=
  (propagateBounds op lhs rhs).filter fun b =>
    resultDomain.any fun domain => domain.start ≤ b.start && b.stop ≤ domain.stop

/-! ### The generated operation -/

/-- The machine types whose values carry intervals. -/
inductive MachineType where
  | bool
  | i32
  | u32
  deriving DecidableEq, Repr

namespace MachineType

/-- The element type of a machine type. -/
def elem : MachineType → ElemType
  | .bool => .bool
  | .i32 => .i32
  | .u32 => .u32

/-- The width, and the signedness that `rust_int_signedness` gives. -/
def ty : MachineType → IntegerType
  | .bool => ⟨1, .unsigned⟩
  | .i32 => ⟨32, .signed⟩
  | .u32 => ⟨32, .unsigned⟩

/-- `x` is a value of the type. -/
def Holds (t : MachineType) (x : ℤ) : Prop := t.ty.lo ≤ x ∧ x ≤ t.ty.hi

instance (t : MachineType) (x : ℤ) : Decidable (t.Holds x) := inferInstanceAs (Decidable (_ ∧ _))

end MachineType

/-- The type of the result: a comparison gives a `bool`. -/
def TileBinaryOp.resultType (op : TileBinaryOp) (t : MachineType) : MachineType :=
  match op with
  | .eq | .ne | .lt | .le | .gt | .ge => .bool
  | _ => t

/-- What the generated operation computes.  Sums and products wrap; the quotient of `/` is rounded
toward zero, that of `ceil_div` up.  There is no integer `true_div`. -/
def machineOp (ty : IntegerType) (op : TileBinaryOp) (x y : ℤ) : Option ℤ :=
  match op with
  | .add => some (ty.wrap (x + y))
  | .sub => some (ty.wrap (x - y))
  | .mul => some (ty.wrap (x * y))
  | .div => if y = 0 then none else some (ty.wrap (x.tdiv y))
  | .ceilDiv => if y = 0 then none else some (ty.wrap (-(-x).fdiv y))
  | .rem => if y = 0 then none else some (ty.wrap (x.tmod y))
  | .trueDiv => none
  | .eq => some (asI64 (x = y))
  | .ne => some (asI64 (x ≠ y))
  | .lt => some (asI64 (x < y))
  | .le => some (asI64 (x ≤ y))
  | .gt => some (asI64 (y < x))
  | .ge => some (asI64 (y ≤ x))
  | .min => some (min x y)
  | .max => some (max x y)
  | .bitAnd => some (ty.value (BitVec.ofInt ty.width x &&& BitVec.ofInt ty.width y))
  | .bitOr => some (ty.value (BitVec.ofInt ty.width x ||| BitVec.ofInt ty.width y))
  | .bitXor => some (ty.value (BitVec.ofInt ty.width x ^^^ BitVec.ofInt ty.width y))
  | .shl =>
    if 0 ≤ y ∧ y < ty.width then some (ty.value (BitVec.ofInt ty.width x <<< y.toNat)) else none
  | .shr =>
    if 0 ≤ y ∧ y < ty.width then
      match ty.signedness with
      | .signed => some (ty.value ((BitVec.ofInt ty.width x).sshiftRight y.toNat))
      | .unsigned | .signless => some (ty.value (BitVec.ofInt ty.width x >>> y.toNat))
    else none

/-- The value of the constant that replaces an operation with an exact interval: the data of an `i1`
is all ones or all zeros, that of a 32-bit type the low word. -/
def compileConstantFromExactBounds (t : MachineType) (b : Bounds) : ℤ :=
  match t with
  | .bool => if b.start ≠ 0 then 1 else 0
  | .i32 | .u32 => t.ty.wrap b.start

/-! ### Soundness -/

section Soundness

variable {op : TileBinaryOp} {t : MachineType} {a b r : Bounds} {x y z : ℤ}

/-- A machine type has bits. -/
theorem MachineType.width_pos (t : MachineType) : 0 < t.ty.width := by cases t <;> decide

/-- A value of the type does not wrap. -/
theorem MachineType.wrap_of_holds (h : t.Holds x) : t.ty.wrap x = x :=
  IntegerType.wrap_eq_self t.width_pos h.1 h.2

/-- The domain of a machine type is its range. -/
theorem intValueDomain_elem (t : MachineType) :
    intValueDomain t.elem = some ⟨t.ty.lo, t.ty.hi⟩ := by
  cases t <;> decide

/-- A bitwise operation on words of the type is the operation on `i64`s. -/
theorem value_apply (op : BitwiseOp) (hx : t.Holds x) (hy : t.Holds y) :
    t.ty.value (op.apply (BitVec.ofInt t.ty.width x) (BitVec.ofInt t.ty.width y)) =
      op.eval x y := by
  unfold MachineType.Holds at hx hy
  have hunsigned : ∀ w : ℕ, 0 < w → w ≤ 32 → 0 ≤ x ∧ x ≤ 2 ^ w - 1 → 0 ≤ y ∧ y ≤ 2 ^ w - 1 →
      ((op.apply (BitVec.ofInt w x) (BitVec.ofInt w y)).toNat : ℤ) = op.eval x y := by
    intro w hw hw32 hx hy
    have hpow : (2 : ℤ) ^ w ≤ 2 ^ 32 := pow_le_pow_right₀ (by decide) hw32
    rw [BitwiseOp.toNat_apply, BitwiseOp.eval_of_nonneg (by omega) (by omega), BitVec.toNat_ofInt,
      BitVec.toNat_ofInt]
    push_cast
    rw [Int.emod_eq_of_lt hx.1 (by omega), Int.emod_eq_of_lt hy.1 (by omega)]
  cases t with
  | bool => exact hunsigned 1 (by decide) (by decide) hx hy
  | i32 =>
    -- a signed word keeps its bits when it is extended
    exact (BitwiseOp.eval_of_fits (by decide) (by decide) ⟨hx.1, Int.lt_of_le_sub_one hx.2⟩
      ⟨hy.1, Int.lt_of_le_sub_one hy.2⟩).symm
  | u32 => exact hunsigned 32 (by decide) (by decide) hx hy

/-- Where the exact result is a value of its type, the machine computes it. -/
theorem machineOp_eq (hx : t.Holds x) (hy : t.Holds y) (hop : op ≠ .trueDiv)
    (h : op.eval x y = some z) (hz : (op.resultType t).Holds z) :
    machineOp t.ty op x y = some z := by
  cases op with
  | trueDiv => exact absurd rfl hop
  | shl => cases h
  | shr => cases h
  | add => cases h; exact congrArg some (MachineType.wrap_of_holds hz)
  | sub => cases h; exact congrArg some (MachineType.wrap_of_holds hz)
  | mul => cases h; exact congrArg some (MachineType.wrap_of_holds hz)
  | div =>
    simp only [TileBinaryOp.eval, Option.ite_none_left_eq_some, Option.some.injEq] at h
    obtain ⟨hy0, rfl⟩ := h
    rw [machineOp, if_neg hy0]
    exact congrArg some (MachineType.wrap_of_holds hz)
  | ceilDiv =>
    simp only [TileBinaryOp.eval, Option.ite_none_left_eq_some, Option.some.injEq] at h
    obtain ⟨hy0, rfl⟩ := h
    rw [machineOp, if_neg hy0]
    exact congrArg some (MachineType.wrap_of_holds hz)
  | rem =>
    simp only [TileBinaryOp.eval, Option.ite_none_left_eq_some, Option.some.injEq] at h
    obtain ⟨hy0, rfl⟩ := h
    rw [machineOp, if_neg hy0]
    exact congrArg some (MachineType.wrap_of_holds hz)
  | bitAnd => cases h; exact congrArg some (value_apply .and hx hy)
  | bitOr => cases h; exact congrArg some (value_apply .or hx hy)
  | bitXor => cases h; exact congrArg some (value_apply .xor hx hy)
  | eq => exact h
  | ne => exact h
  | lt => exact h
  | le => exact h
  | gt => exact h
  | ge => exact h
  | min => exact h
  | max => exact h

/-- A kept interval lies in the domain of the result. -/
theorem transfer_mem_domain {dom : Option Bounds} (h : transfer op (some a) (some b) dom = some r) :
    boundsFromBop op a b = some r ∧
      ∃ d, dom = some d ∧ d.start ≤ r.start ∧ r.stop ≤ d.stop := by
  unfold transfer propagateBounds at h
  rw [Option.filter_eq_some_iff] at h
  obtain ⟨hr, hany⟩ := h
  refine ⟨hr, ?_⟩
  cases dom with
  | none => cases hany
  | some d => exact ⟨d, rfl, by simpa using hany⟩

/-- The folded constant of an exact interval is the one value of the interval. -/
theorem compileConstant_eq (hexact : r.isExact = true) (hz : z ∈ r) (ht : t.Holds z) :
    compileConstantFromExactBounds t r = z := by
  have hstart := Bounds.eq_of_isExact hexact hz
  unfold compileConstantFromExactBounds
  rw [← hstart]
  cases t with
  | bool =>
    have h01 : 0 ≤ z ∧ z ≤ 1 := ht
    simp only
    split <;> omega
  | i32 => exact MachineType.wrap_of_holds ht
  | u32 => exact MachineType.wrap_of_holds ht

/-- **Kept intervals are sound.**  Where the transfer yields an interval, the generated operation is
defined on all operands in theirs, its value lies in the interval, and where the interval is exact
that value is the folded constant. -/
theorem transfer_sound {dom : Option Bounds} (ha : a.Fits) (hb : b.Fits)
    (hdom : ∀ d, dom = some d → intValueDomain (op.resultType t).elem = some d)
    (hop : op ≠ .trueDiv) (h : transfer op (some a) (some b) dom = some r) (hx : t.Holds x)
    (hy : t.Holds y) (hxa : x ∈ a) (hyb : y ∈ b) :
    ∃ z, machineOp t.ty op x y = some z ∧ z ∈ r ∧
      (r.isExact = true → compileConstantFromExactBounds (op.resultType t) r = z) := by
  obtain ⟨hr, d, rfl, hlo, hhi⟩ := transfer_mem_domain h
  have hd := hdom d rfl
  rw [intValueDomain_elem, Option.some.injEq] at hd
  obtain ⟨z, hz, hsat⟩ := boundsFromBop_sound ha hb hxa hyb hr
  have hsatd : (op.resultType t).Holds (saturate z) := by
    rw [← hd] at hlo hhi
    exact ⟨hlo.trans hsat.1, hsat.2.trans hhi⟩
  -- a saturated result would lie outside of every domain
  have hzsat : saturate z = z := by
    have hrange : -2147483648 ≤ saturate z ∧ saturate z ≤ 4294967295 := by
      revert hsatd
      generalize op.resultType t = rt
      cases rt <;> rintro ⟨h1, h2⟩ <;> exact ⟨le_trans (by decide) h1, h2.trans (by decide)⟩
    unfold saturate at hrange ⊢
    omega
  rw [hzsat] at hsat hsatd
  exact ⟨z, machineOp_eq hx hy hop hz hsatd, hsat, fun hexact =>
    compileConstant_eq hexact hsat hsatd⟩

/-- `i % 8` for an `i32` between -3 and 100. -/
theorem transfer_sound_rem :
    ∃ z, machineOp ⟨32, .signed⟩ .rem (-3) 8 = some z ∧ z ∈ (⟨-3, 7⟩ : Bounds) ∧
      ((⟨-3, 7⟩ : Bounds).isExact = true →
        compileConstantFromExactBounds .i32 ⟨-3, 7⟩ = z) :=
  @transfer_sound .rem .i32 ⟨-3, 100⟩ ⟨8, 8⟩ ⟨-3, 7⟩ (-3) 8 (some ⟨-2147483648, 2147483647⟩)
    (by decide) (by decide) (fun _ h => h) (by decide) (by decide) (by decide) (by decide)
    (by decide) (by decide)

end Soundness

end CudaOxide.Tile
