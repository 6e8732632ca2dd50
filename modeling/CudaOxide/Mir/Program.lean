import CudaOxide.Lib.Ssa
import CudaOxide.Mir.EnumDiscriminant
import CudaOxide.Mir.PartialUnroll

/-!
# Functions of the MIR dialect

The operations and terminators that the loop passes tell apart, and what they do at run time.

* `OpKind`, `TermKind` — an operation by the questions the passes ask about it, with the attributes
  they read; `other` is every operation that no pass looks into.
* `Val` — run-time values: words of an integer type, tuples, enums; `other` are the rest, addresses
  among them.
* `Exec`, `Take` — integer arithmetic, enums and storage markers have their own meaning; memory and
  every other operation are parameters (`Machine`).
-/

namespace CudaOxide.Mir

open Lib

/-! ### Operations -/

/-- A type, as far as the passes look at it. -/
inductive Ty where
  | int (ty : IntegerType)
  | enum (ty : MirEnumType)
  | other (n : ℕ)
  deriving DecidableEq

/-- The operations that the passes tell apart. -/
inductive OpKind where
  /-- `mir.constant` or `builtin.constant`; `none` when its attribute is no integer. -/
  | constant (value : Option ℤ)
  | add
  | sub
  | checkedAdd
  | checkedSub
  | not
  | cmp (pred : CmpPred)
  | eq
  | ne
  | store (volatile : Bool)
  | load (volatile : Bool)
  | fieldAddr (field : Option ℕ)
  | storageLive
  | storageDead
  | constructEnum (variant : Option ℕ)
  | enumPayload (variant field : Option ℕ)
  | getDiscriminant
  /-- `true` for the cast kind `IntToInt` -/
  | cast (intToInt : Bool)
  | other (n : ℕ)
  deriving DecidableEq

/-- An operation without its operands: its kind and the types of its results. -/
structure OpCode where
  kind : OpKind
  types : List Ty
  deriving DecidableEq

/-- The terminators that the passes tell apart. -/
inductive TermKind where
  | goto
  | condBr
  /-- `branch`: the terminator implements `BranchOpInterface` -/
  | other (n : ℕ) (branch : Bool)
  deriving DecidableEq

/-- The terminator implements `BranchOpInterface`. -/
def TermKind.isBranch : TermKind → Bool
  | goto | condBr => true
  | other _ branch => branch

/-- A function of the dialect. -/
abbrev Function (β : Type*) := Ssa.Func β OpCode TermKind

section Uses

open Lib.Ssa

variable {β : Type*} [DecidableEq β]

/-! ### Use lists and definitions -/

/-- The blocks of the uses of a value, once for each use. -/
def usersOf (f : Function β) (v : Value β) : List β :=
  f.blocks.flatMap fun b => ((f.operands b).filter (· = v)).map fun _ => b

/-- The edges into a block, each with its source. -/
def incoming (f : Function β) (b : β) : List (β × Edge β) :=
  f.blocks.flatMap fun a =>
    ((f.body a).terminator.edges.filter (·.target = b)).map fun e => (a, e)

/-- The users of a value are the blocks that read it. -/
theorem mem_usersOf {f : Function β} {v : Value β} {b : β} :
    b ∈ usersOf f v ↔ b ∈ f.blocks ∧ v ∈ f.operands b := by
  simp only [usersOf, List.mem_flatMap, List.mem_map, List.mem_filter, decide_eq_true_eq]
  constructor
  · rintro ⟨a, ha, w, ⟨hw, rfl⟩, rfl⟩
    exact ⟨ha, hw⟩
  · rintro ⟨hb, hv⟩
    exact ⟨b, hb, v, ⟨hv, rfl⟩, rfl⟩

/-- The incoming edges of a block. -/
theorem mem_incoming {f : Function β} {b : β} {p : β × Edge β} :
    p ∈ incoming f b ↔ p.1 ∈ f.blocks ∧ p.2 ∈ (f.body p.1).terminator.edges ∧ p.2.target = b := by
  simp only [incoming, List.mem_flatMap, List.mem_map, List.mem_filter, decide_eq_true_eq]
  constructor
  · rintro ⟨a, ha, e, he, rfl⟩
    exact ⟨ha, he⟩
  · rintro ⟨ha, he⟩
    exact ⟨p.1, ha, p.2, he, rfl⟩

/-- `Value::defining_op` -/
def definingOp (f : Function β) : Value β → Option (Op β OpCode)
  | .arg _ _ => none
  | .result id _ => (f.blocks.flatMap fun b => (f.body b).ops).find? (·.id = id)

omit [DecidableEq β] in

/-- The operation that defines a value stands in a block. -/
theorem exists_at_of_definingOp {f : Function β} {id k : ℕ} {op : Op β OpCode}
    (h : definingOp f (.result id k) = some op) : op.id = id ∧ ∃ b i, f.At b i op := by
  have hid := List.find?_some h
  obtain ⟨b, hb, hop⟩ := List.mem_flatMap.mp (List.mem_of_find?_eq_some h)
  obtain ⟨i, hi⟩ := List.mem_iff_getElem?.mp hop
  exact ⟨of_decide_eq_true hid, b, i, hb, hi⟩

/-- `const_i128`: the value of a constant that fits into an `i128`. -/
def constValue (f : Function β) (v : Value β) : Option ℤ :=
  match v with
  | .arg _ _ => none
  | .result _ k => (definingOp f v).bind fun op =>
    match op.code.kind, op.code.types[k]? with
    | .constant (some c), some (.int ty) => constI128 ty c
    | _, _ => none

end Uses

/-! ### Run-time values -/

/-- A value at run time. -/
inductive Val (ρ : Type*) where
  | int (ty : IntegerType) (x : BitVec ty.width)
  | tuple (fields : List (Val ρ))
  | enum (ty : MirEnumType) (variant : ℕ) (fields : List (Val ρ))
  | other (x : ρ)

namespace Val

variable {ρ : Type*}

/-- The value is an integer. -/
def IsInt : Val ρ → Prop
  | int _ _ => True
  | _ => False

/-- A truth value, as a word of the type `ty`. -/
def ofBool (ty : IntegerType) (b : Bool) : Val ρ := int ty (BitVec.ofNat ty.width b.toNat)

end Val

/-- The part of a machine that the passes rely on but do not look into: addresses, memory,
arithmetic on values that are no words, and all other operations and terminators. -/
structure Machine (ρ M : Type*) where
  fieldAddr : Val ρ → ℕ → Val ρ
  load : Val ρ → M → Val ρ → Prop
  store : Val ρ → Val ρ → M → M → Prop
  arith : OpCode → List (Val ρ) → Val ρ → Prop
  other : ℕ → List Ty → List (Val ρ) → M → List (Val ρ) → M → Prop
  take : ℕ → List (Val ρ) → ℕ → Prop

/-- A machine without memory on which no other operation runs. -/
def Machine.still : Machine Unit Unit where
  fieldAddr v _ := v
  load _ _ _ := False
  store _ _ _ _ := False
  arith _ _ _ := False
  other _ _ _ _ _ _ := False
  take _ _ _ := False

variable {ρ M : Type*}

/-- A constant that is no integer, or arithmetic on operands that are no words (`mir.not` has
none). -/
def Foreign : OpKind → List (Val ρ) → Prop
  | .constant none, args => args = []
  | .cast false, _ => True
  | .add, args | .sub, args | .cmp _, args | .eq, args | .ne, args
  | .cast true, args => ∀ v ∈ args, ¬v.IsInt
  | _, _ => False

/-- What an operation does. -/
inductive Exec (S : Machine ρ M) : OpCode → List (Val ρ) → M → List (Val ρ) → M → Prop
  | constant {ty : IntegerType} {c : ℤ} {m : M} :
    Exec S ⟨.constant (some c), [.int ty]⟩ [] m [.int ty (BitVec.ofInt ty.width c)] m
  | add {types : List Ty} {ty : IntegerType} {x y : BitVec ty.width} {m : M} :
    Exec S ⟨.add, types⟩ [.int ty x, .int ty y] m [.int ty (x + y)] m
  | sub {types : List Ty} {ty : IntegerType} {x y : BitVec ty.width} {m : M} :
    Exec S ⟨.sub, types⟩ [.int ty x, .int ty y] m [.int ty (x - y)] m
  /-- The flag is set when the sum is no value of the type. -/
  | checkedAdd {types : List Ty} {ty flag : IntegerType} {x y : BitVec ty.width} {m : M} :
    flag.width = 1 → Exec S ⟨.checkedAdd, types⟩ [.int ty x, .int ty y] m
      [.tuple [.int ty (x + y), .ofBool flag
        (¬(ty.lo ≤ ty.value x + ty.value y ∧ ty.value x + ty.value y ≤ ty.hi))]] m
  | checkedSub {types : List Ty} {ty flag : IntegerType} {x y : BitVec ty.width} {m : M} :
    flag.width = 1 → Exec S ⟨.checkedSub, types⟩ [.int ty x, .int ty y] m
      [.tuple [.int ty (x - y), .ofBool flag
        (¬(ty.lo ≤ ty.value x - ty.value y ∧ ty.value x - ty.value y ≤ ty.hi))]] m
  | not {types : List Ty} {ty : IntegerType} {x : BitVec ty.width} {m : M} :
    Exec S ⟨.not, types⟩ [.int ty x] m [.int ty (~~~x)] m
  | cmp {p : CmpPred} {ty flag : IntegerType} {x y : BitVec ty.width} {m : M} :
    flag.width = 1 → Exec S ⟨.cmp p, [.int flag]⟩ [.int ty x, .int ty y] m
      [.ofBool flag (p.holds (ty.value x) (ty.value y))] m
  | eq {ty flag : IntegerType} {x y : BitVec ty.width} {m : M} :
    flag.width = 1 → Exec S ⟨.eq, [.int flag]⟩ [.int ty x, .int ty y] m [.ofBool flag (x = y)] m
  | ne {ty flag : IntegerType} {x y : BitVec ty.width} {m : M} :
    flag.width = 1 → Exec S ⟨.ne, [.int flag]⟩ [.int ty x, .int ty y] m [.ofBool flag (x ≠ y)] m
  | store {volatile : Bool} {p v : Val ρ} {m m' : M} :
    S.store p v m m' → Exec S ⟨.store volatile, []⟩ [p, v] m [] m'
  | load {volatile : Bool} {types : List Ty} {p v : Val ρ} {m : M} :
    S.load p m v → Exec S ⟨.load volatile, types⟩ [p] m [v] m
  | fieldAddr {types : List Ty} {i : ℕ} {p : Val ρ} {m : M} :
    Exec S ⟨.fieldAddr (some i), types⟩ [p] m [S.fieldAddr p i] m
  | storageLive {m : M} : Exec S ⟨.storageLive, []⟩ [] m [] m
  | storageDead {m : M} : Exec S ⟨.storageDead, []⟩ [] m [] m
  | constructEnum {ty : MirEnumType} {v : ℕ} {fields : List (Val ρ)} {m : M} :
    Exec S ⟨.constructEnum (some v), [.enum ty]⟩ fields m [.enum ty v fields] m
  /-- Only the payload of the own variant is one. -/
  | enumPayload {types : List Ty} {ty : MirEnumType} {v i : ℕ} {fields : List (Val ρ)} {x : Val ρ}
    {m : M} : fields[i]? = some x →
    Exec S ⟨.enumPayload (some v) (some i), types⟩ [.enum ty v fields] m [x] m
  | getDiscriminant {ty : MirEnumType} {tag : IntegerType} {v d : ℕ}
      {fields : List (Val ρ)} {m : M} :
    ty.variantDiscriminants[v]? = some d →
    Exec S ⟨.getDiscriminant, [.int tag]⟩ [.enum ty v fields] m
      [.int tag (BitVec.ofNat tag.width d)] m
  | cast {ty result : IntegerType} {x : BitVec ty.width} {m : M} :
    Exec S ⟨.cast true, [.int result]⟩ [.int ty x] m
      [.int result (BitVec.ofInt result.width (ty.value x))] m
  | arith {code : OpCode} {args : List (Val ρ)} {r : Val ρ} {m : M} :
    Foreign code.kind args → S.arith code args r → Exec S code args m [r] m
  | other {n : ℕ} {types : List Ty} {args rs : List (Val ρ)} {m m' : M} :
    S.other n types args m rs m' → Exec S ⟨.other n, types⟩ args m rs m'

/-- What is read from a field behind a store is the field of the stored value. -/
def Machine.ReadsBack (S : Machine ρ M) : Prop :=
  ∀ p fields m m' i v, S.store p (.tuple fields) m m' → S.load (S.fieldAddr p i) m' v →
    fields[i]? = some v

/-- Where a terminator goes. -/
inductive Take (S : Machine ρ M) : TermKind → List (Val ρ) → ℕ → Prop
  | goto : Take S .goto [] 0
  /-- The first edge is taken when the condition holds. -/
  | condBr {ty : IntegerType} {b : Bool} :
    ty.width = 1 → Take S .condBr [.ofBool ty b] (if b then 0 else 1)
  | other {n i : ℕ} {branch : Bool} {args : List (Val ρ)} :
    S.take n args i → Take S (.other n branch) args i

/-- The meaning of a function of the dialect. -/
def Machine.semantics (S : Machine ρ M) : Ssa.Semantics OpCode TermKind (Val ρ) M where
  exec := Exec S
  take := Take S

/-! ### What a step reads off its operands -/

section Inversion

variable {S : Machine ρ M} {types : List Ty} {args rs : List (Val ρ)} {m m' : M}

/-- A constant computes its value. -/
theorem Exec.constant_inv {c : ℤ} (h : Exec S ⟨.constant (some c), types⟩ args m rs m') :
    ∃ ty, types = [.int ty] ∧ rs = [.int ty (BitVec.ofInt ty.width c)] := by
  cases h with
  | constant => exact ⟨_, rfl, rfl⟩
  | arith hno _ => cases hno

/-- A sum with a word is one of words; so is a difference. -/
theorem Exec.add_right {ty : IntegerType} {x : BitVec ty.width} {v : Val ρ}
    (h : Exec S ⟨.add, types⟩ [v, .int ty x] m rs m') :
    ∃ y : BitVec ty.width, v = .int ty y ∧ rs = [.int ty (y + x)] := by
  cases h with
  | add => exact ⟨_, rfl, rfl⟩
  | arith hno _ => exact absurd trivial (hno _ (List.mem_cons_of_mem _ List.mem_cons_self))

/-- An addition computes the sum. -/
theorem Exec.add_left {ty : IntegerType} {x : BitVec ty.width} {v : Val ρ}
    (h : Exec S ⟨.add, types⟩ [.int ty x, v] m rs m') :
    ∃ y : BitVec ty.width, v = .int ty y ∧ rs = [.int ty (x + y)] := by
  cases h with
  | add => exact ⟨_, rfl, rfl⟩
  | arith hno _ => exact absurd trivial (hno _ List.mem_cons_self)

/-- A subtraction computes the difference. -/
theorem Exec.sub_right {ty : IntegerType} {x : BitVec ty.width} {v : Val ρ}
    (h : Exec S ⟨.sub, types⟩ [v, .int ty x] m rs m') :
    ∃ y : BitVec ty.width, v = .int ty y ∧ rs = [.int ty (y - x)] := by
  cases h with
  | sub => exact ⟨_, rfl, rfl⟩
  | arith hno _ => exact absurd trivial (hno _ (List.mem_cons_of_mem _ List.mem_cons_self))

/-- A bool says its type and its value. -/
theorem Val.ofBool_inj {ty ty' : IntegerType} {b b' : Bool} (hty : ty.width = 1)
    (h : (Val.ofBool ty b : Val ρ) = .ofBool ty' b') : ty = ty' ∧ b = b' := by
  unfold ofBool at h
  rw [Val.int.injEq] at h
  obtain ⟨rfl, h⟩ := h
  refine ⟨rfl, ?_⟩
  have hnat := congrArg BitVec.toNat (eq_of_heq h)
  rw [BitVec.toNat_ofNat, BitVec.toNat_ofNat, hty] at hnat
  cases b <;> cases b' <;> first | rfl | exact absurd hnat (by decide)

/-- A negation flips a truth value. -/
theorem Exec.not_inv {ty : IntegerType} {b : Bool} {v : Val ρ} {k : ℕ} (hty : ty.width = 1)
    (h : Exec S ⟨.not, types⟩ [v] m rs m') (hk : rs[k]? = some (.ofBool ty b)) :
    v = .ofBool ty (!b) := by
  cases h with
  | @not _ ty' x _ =>
    have hr := List.mem_singleton.mp (List.mem_of_getElem? hk)
    unfold Val.ofBool at hr ⊢
    rw [Val.int.injEq] at hr
    obtain ⟨rfl, hr⟩ := hr
    have hx : x = ~~~(BitVec.ofNat ty.width b.toNat) := by
      rw [eq_of_heq hr, BitVec.not_not]
    rw [hx]
    congr 1
    obtain ⟨w, sgn⟩ := ty
    obtain rfl : w = 1 := hty
    show ~~~(BitVec.ofNat 1 b.toNat) = BitVec.ofNat 1 (!b).toNat
    -- of one bit, only two values
    cases b <;> decide
  | arith hno _ => cases hno

/-- A store writes memory. -/
theorem Exec.store_inv {volatile : Bool} {p v : Val ρ}
    (h : Exec S ⟨.store volatile, types⟩ [p, v] m rs m') : S.store p v m m' := by
  cases h with
  | store h => exact h
  | arith hno _ => cases hno

/-- A store has no results. -/
theorem Exec.eq_nil_of_store {code : OpCode} {volatile : Bool} (h : Exec S code args m rs m')
    (hkind : code.kind = .store volatile) : rs = [] := by
  cases h with
  | store _ => rfl
  | arith hforeign _ =>
    rw [hkind] at hforeign
    cases hforeign
  | _ => cases hkind

/-- A load reads memory. -/
theorem Exec.load_inv {volatile : Bool} {p : Val ρ}
    (h : Exec S ⟨.load volatile, types⟩ [p] m rs m') : ∃ v, rs = [v] ∧ S.load p m v := by
  cases h with
  | load h => exact ⟨_, rfl, h⟩
  | arith hno _ => cases hno

/-- A field address computes an address. -/
theorem Exec.fieldAddr_inv {i : ℕ} {p : Val ρ}
    (h : Exec S ⟨.fieldAddr (some i), types⟩ [p] m rs m') : rs = [S.fieldAddr p i] := by
  cases h with
  | fieldAddr => rfl
  | arith hno _ => cases hno

/-- A negation of a bool. -/
theorem Exec.not_ofBool {ty : IntegerType} {b : Bool} (hty : ty.width = 1)
    (h : Exec S ⟨.not, types⟩ [.ofBool ty b] m rs m') : rs = [.ofBool ty (!b)] := by
  cases h with
  | not =>
    show [Val.int ty (~~~(BitVec.ofNat ty.width b.toNat))] =
      [.int ty (BitVec.ofNat ty.width (!b).toNat)]
    congr 2
    obtain ⟨w, sgn⟩ := ty
    obtain rfl : w = 1 := hty
    show ~~~(BitVec.ofNat 1 b.toNat) = BitVec.ofNat 1 (!b).toNat
    cases b <;> decide
  | arith hno _ => cases hno

/-- Only stores and the operations that no pass looks into touch the memory. -/
theorem Exec.mem_eq {code : OpCode} (h : Exec S code args m rs m')
    (hstore : ∀ volatile, code.kind ≠ .store volatile) (hother : ∀ n, code.kind ≠ .other n) :
    m' = m := by
  cases h with
  | store _ => exact absurd rfl (hstore _)
  | other _ => exact absurd rfl (hother _)
  | _ => rfl

/-- Nor does anything else but a load read it. -/
theorem Exec.of_pure {code : OpCode} (h : Exec S code args m rs m')
    (hstore : ∀ volatile, code.kind ≠ .store volatile) (hload : ∀ volatile,
      code.kind ≠ .load volatile)
    (hother : ∀ n, code.kind ≠ .other n) (m₂ : M) : Exec S code args m₂ rs m₂ := by
  -- the memory is read and written by the excluded operations alone
  cases h with
  | store _ => exact absurd rfl (hstore _)
  | load _ => exact absurd rfl (hload _)
  | other _ => exact absurd rfl (hother _)
  | constant => exact .constant
  | add => exact .add
  | sub => exact .sub
  | checkedAdd h => exact .checkedAdd h
  | checkedSub h => exact .checkedSub h
  | not => exact .not
  | cmp h => exact .cmp h
  | eq h => exact .eq h
  | ne h => exact .ne h
  | fieldAddr => exact .fieldAddr
  | storageLive => exact .storageLive
  | storageDead => exact .storageDead
  | constructEnum => exact .constructEnum
  | enumPayload h => exact .enumPayload h
  | getDiscriminant h => exact .getDiscriminant h
  | cast => exact .cast
  | arith hforeign h => exact .arith hforeign h

/-- A comparison of words gives a truth value, and no word is compared with anything else. -/
theorem Exec.cmp_inv {p : CmpPred} {ty : IntegerType} {b : Bool} {u v : Val ρ} {k : ℕ}
    (hty : ty.width = 1) (h : Exec S ⟨.cmp p, types⟩ [u, v] m rs m')
    (hk : rs[k]? = some (.ofBool ty b)) :
    (∃ (ty' : IntegerType) (x y : BitVec ty'.width), u = .int ty' x ∧ v = .int ty' y ∧
      p.holds (ty'.value x) (ty'.value y) = b) ∨ (¬u.IsInt ∧ ¬v.IsInt) := by
  cases h with
  | @cmp _ ty' flag x y _ hflag =>
    have hr := List.mem_singleton.mp (List.mem_of_getElem? hk)
    exact .inl ⟨ty', x, y, rfl, rfl, (Val.ofBool_inj hty hr).2.symm⟩
  | arith hno _ =>
    exact .inr ⟨hno _ List.mem_cons_self, hno _ (List.mem_cons_of_mem _ List.mem_cons_self)⟩

/-- A conditional branch takes its first edge on true. -/
theorem Take.condBr_inv {i : ℕ} (h : Take S .condBr args i) :
    ∃ (ty : IntegerType) (b : Bool), ty.width = 1 ∧ args = [.ofBool ty b] ∧
      i = if b then 0 else 1 := by
  cases h with
  | condBr hty => exact ⟨_, _, hty, rfl, rfl⟩

end Inversion

/-! ### Definitions at run time -/

section Definitions

open Lib.Ssa

variable {β : Type*} [DecidableEq β] {S : Machine ρ M} {f : Function β}
  {c : Config β (Val ρ) M} {id k : ℕ} {v : Value β}

/-- The defining operation of an available value is executed, the value is a result of it, and its
operands are available. -/
theorem executed_of_avail (hf : f.WellFormed) (hc : Reaches S.semantics f c)
    (hav : f.Avail (.result id k) c.block c.pc) {op : Op β OpCode}
    (hop : definingOp f (.result id k) = some op) :
    (∃ m rs m', Exec S op.code (op.operands.map c.env) m rs m' ∧
      rs[k]? = some (c.env (.result id k))) ∧ ∀ v ∈ op.operands, f.Avail v c.block c.pc := by
  obtain ⟨hid, b, i, hat⟩ := exists_at_of_definingOp hop
  obtain ⟨a, j, op', hat', hid', hk, hbefore⟩ := hav
  obtain ⟨rfl, rfl⟩ := hf.unique hat hat' (hid.trans hid'.symm)
  obtain rfl : op = op' := Option.some.inj (hat.2.symm.trans hat'.2)
  have hr := hc.reachable.1
  refine ⟨?_, fun v hv =>
    (hf.operands (hbefore.dominates.reachable hr) hat v hv).trans hr hbefore⟩
  obtain ⟨m, rs, m', hx, hlen, hrs⟩ := executed hf hc hat hbefore
  refine ⟨m, rs, m', hx, ?_⟩
  have hget := List.getElem?_eq_getElem (hlen ▸ hk : k < rs.length)
  rw [hget, ← hid, hrs k _ hget]

/-- What `const_i128` reads is the run-time value of the constant. -/
theorem env_of_constValue (hf : f.WellFormed) (hc : Reaches S.semantics f c)
    (hav : f.Avail v c.block c.pc) {n : ℤ} (h : constValue f v = some n) :
    ∃ ty : IntegerType, c.env v = .int ty (BitVec.ofInt ty.width n) ∧ ty.wrap n = n := by
  cases v with
  | arg a k => cases h
  | result id k =>
    obtain ⟨op, hop, hvalue⟩ := Option.bind_eq_some_iff.mp h
    obtain ⟨⟨m, rs, m', hx, hk⟩, -⟩ := executed_of_avail hf hc hav hop
    -- a constant is the only operation that has a value here
    split at hvalue
    · rename_i value ty hkind hty
      have hcode : op.code = ⟨.constant (some value), op.code.types⟩ := by rw [← hkind]
      rw [hcode] at hx
      obtain ⟨ty', htypes, rfl⟩ := hx.constant_inv
      rw [htypes] at hty
      obtain rfl : k = 0 := by
        have := (List.getElem?_eq_some_iff.mp hk).1
        rw [List.length_singleton] at this
        omega
      cases hty
      refine ⟨ty, ?_, by rw [constI128_spec hvalue, IntegerType.wrap_wrap]⟩
      rw [constI128_spec hvalue, IntegerType.ofInt_wrap]
      exact (Option.some.inj hk).symm
    · cases hvalue

end Definitions

end CudaOxide.Mir
