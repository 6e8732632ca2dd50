import CudaOxide.Mir.Canonicalize.ArmScan

/-!
# The guarded arm at run time

* `CheckedStep.Matched` — everything `matchCheckedStep` has checked.
* `Matched.env_checked` — behind the test of the header the checked operation does not overflow.
* `Matched.env_sum` — what is read back from the slot is the sum, and a clear flag.  Memory is only
  asked to give back the fields of a stored pair (`Machine.ReadsBack`).
-/

namespace CudaOxide.Mir

open Lib Lib.Ssa

variable {β : Type*} [DecidableEq β] {ρ M : Type*} {S : Machine ρ M} {f : Function β}

/-! ### What was matched -/

/-- The sum or the difference of two words. -/
def plainStep {ty : IntegerType} (subtract : Bool) (x y : BitVec ty.width) : BitVec ty.width :=
  if subtract then x - y else x + y

namespace CheckedStep

/-- `matchCheckedStep` returned `step`, having scanned the arm into `st`. -/
structure Matched (fuel : ℕ) (lp : Loop β) (index : ℕ) (step : CheckedStep f) (st : Scan β)
    (pair flag lo hi : Value β) (overflow : Edge β) : Prop where
  arm : ((f.body lp.header).terminator.edges[index]?).map (·.target) = some step.arm
  branch : (f.body step.arm).terminator.code = .condBr
  uses : (incoming f step.arm).length = 1
  seen : Scan.Seen (f.body step.arm).ops (f.last step.arm) st
  checked : st.checked = some (pair, step.counter, step.amount, step.subtract)
  slot : st.slot = some step.slot
  sum : st.loaded 0 = some step.sum
  negated : st.flag = some flag
  chain : step.chain = st.chain
  edges : (f.body step.arm).terminator.edges = [⟨step.inRange, step.inRangeOperands⟩, overflow]
  condition : (f.body step.arm).terminator.operands.head? = some flag
  inRange : step.inRange ∈ lp.blocks
  leaves : overflow.target ∉ lp.blocks
  one : constValue f step.amount = some 1
  guard : guardLessThan fuel f lp.header index = some (lo, hi)
  counter : step.counter = if step.subtract then hi else lo

end CheckedStep

/-- What a matched step consists of. -/
theorem matchCheckedStep_spec {fuel index : ℕ} {lp : Loop β} {step : CheckedStep f}
    (h : matchCheckedStep fuel f lp index = some step) :
    ∃ st pair flag lo hi overflow, step.Matched fuel lp index st pair flag lo hi overflow := by
  obtain ⟨arm, harm, h₁⟩ := Option.bind_eq_some_iff.mp h
  simp only at h₁
  split at h₁
  · cases h₁
  rename_i hbranch
  simp only [not_or, not_not] at hbranch
  obtain ⟨st, hscan, h₂⟩ := Option.bind_eq_some_iff.mp h₁
  obtain ⟨⟨pair, counter, amount, subtract⟩, hchecked, h₃⟩ := Option.bind_eq_some_iff.mp h₂
  obtain ⟨slot, hslot, h₄⟩ := Option.bind_eq_some_iff.mp h₃
  obtain ⟨sum, hsum, h₅⟩ := Option.bind_eq_some_iff.mp h₄
  obtain ⟨flag, hflag, h₆⟩ := Option.bind_eq_some_iff.mp h₅
  simp only at h₆
  split at h₆
  · rename_i inRange overflow hedges
    split at h₆
    · cases h₆
    rename_i hno
    simp only [not_or, not_not] at hno
    obtain ⟨huses, h₇⟩ := Option.dite_none_left_eq_some.mp h₆
    obtain ⟨hone, h₈⟩ := Option.ite_none_left_eq_some.mp h₇
    obtain ⟨⟨lo, hi⟩, hguard, h₉⟩ := Option.bind_eq_some_iff.mp h₈
    obtain ⟨hcounter, hstep⟩ := Option.ite_none_left_eq_some.mp h₉
    cases hstep
    exact ⟨st, pair, flag, lo, hi, overflow, harm, hbranch.1, hbranch.2, Scan.seen hscan, hchecked,
      hslot, hsum, hflag, rfl, hedges, hno.1, hno.2.2.1, hno.2.2.2, not_not.mp hone, hguard,
      not_not.mp hcounter⟩
  · cases h₆

/-! ### The checked operation -/

/-- What a checked operation computes on words; its flag says whether the exact sum is no value of
the type. -/
theorem Exec.checked_inv {types : List Ty} {u v : Val ρ} {rs : List (Val ρ)} {m m' : M}
    {subtract : Bool} (h : Exec S ⟨checkedKind subtract, types⟩ [u, v] m rs m') :
    ∃ (ty flag : IntegerType) (x y : BitVec ty.width), flag.width = 1 ∧ u = .int ty x ∧
      v = .int ty y ∧ ∃ b, rs = [.tuple [.int ty (plainStep subtract x y), .ofBool flag b]] ∧
        ∀ z, z = (if subtract then ty.value x - ty.value y else ty.value x + ty.value y) →
          ty.lo ≤ z → z ≤ ty.hi → b = false := by
  cases subtract with
  | false =>
    cases h with
    | @checkedAdd _ ty flag x y _ hflag =>
      refine ⟨ty, flag, x, y, hflag, rfl, rfl, _, rfl, ?_⟩
      rintro z rfl hlo hhi
      exact decide_eq_false (not_not.mpr ⟨hlo, hhi⟩)
    | arith hno _ => cases hno
  | true =>
    cases h with
    | @checkedSub _ ty flag x y _ hflag =>
      refine ⟨ty, flag, x, y, hflag, rfl, rfl, _, rfl, ?_⟩
      rintro z rfl hlo hhi
      exact decide_eq_false (not_not.mpr ⟨hlo, hhi⟩)
    | arith hno _ => cases hno

namespace CheckedStep.Matched

variable {fuel index : ℕ} {lp : Loop β} {step : CheckedStep f} {st : Scan β}
  {pair flag lo hi : Value β} {overflow : Edge β} {a₀ a₁ : β} {c : Config β (Val ρ) M}

/-- The overflow edge leaves the loop, those of the header do not. -/
theorem ne_header (hm : step.Matched fuel lp index st pair flag lo hi overflow)
    (harms : headerArms f lp = some (a₀, a₁)) : step.arm ≠ lp.header := by
  intro heq
  obtain ⟨-, e₀, e₁, hedges, -, rfl, -, -, hin⟩ := headerArms_spec harms
  rw [← heq, hm.edges] at hedges
  cases hedges
  exact hm.leaves hin

/-- In the arm the counter may be stepped: the header has found a word above it, or below. -/
theorem stepped (hm : step.Matched fuel lp index st pair flag lo hi overflow) (hf : f.WellFormed)
    (hl : lp.Natural f.graph) (harms : headerArms f lp = some (a₀, a₁))
    (hc : Reaches S.semantics f c) (hblock : c.block = step.arm) {ty : IntegerType}
    {x y : BitVec ty.width} (hcounter : c.env step.counter = .int ty x) (hone : ty.value y = 1) :
    ty.lo ≤ (if step.subtract then ty.value x - ty.value y else ty.value x + ty.value y) ∧
      (if step.subtract then ty.value x - ty.value y else ty.value x + ty.value y) ≤ ty.hi := by
  have hcond := env_condition hf hl harms hm.arm hm.uses (hm.ne_header harms) hc hblock
  rw [hone]
  rcases env_of_guardLessThan hf hc hm.guard hcond with ⟨ty', u, v, hlo, hhi, hlt⟩ | ⟨hlo, hhi⟩
  · have hu := ty'.lo_le_value u
    have hv := ty'.value_le_hi v
    rw [hm.counter] at hcounter
    cases hsub : step.subtract with
    | false =>
      -- the counter is the smaller of the two
      rw [hsub, if_neg Bool.false_ne_true, hlo, Val.int.injEq] at hcounter
      obtain ⟨rfl, hx⟩ := hcounter
      rw [← eq_of_heq hx, if_neg Bool.false_ne_true]
      constructor
      · omega
      · omega
    | true =>
      rw [hsub, if_pos rfl, hhi, Val.int.injEq] at hcounter
      obtain ⟨rfl, hx⟩ := hcounter
      rw [← eq_of_heq hx, if_pos rfl]
      constructor
      · omega
      · omega
  · -- no word is tested against anything else
    have hno : ¬(c.env step.counter).IsInt := by
      rw [hm.counter]
      split
      · exact hhi
      · exact hlo
    rw [hcounter] at hno
    exact absurd trivial hno

/-- **No overflow.**  Behind the test of the header the flag of the checked operation is clear, and
its sum is the plain one. -/
theorem env_checked (hm : step.Matched fuel lp index st pair flag lo hi overflow)
    (hf : f.WellFormed)
    (hl : lp.Natural f.graph) (harms : headerArms f lp = some (a₀, a₁))
    (hc : Reaches S.semantics f c) (hblock : c.block = step.arm) {k : ℕ} {op : Op β OpCode}
    (hop : f.At step.arm k op) (hk : k < c.pc) {subtract : Bool}
    (hkind : op.code.kind = checkedKind subtract) :
    subtract = step.subtract ∧ op.operands = [step.counter, step.amount] ∧ pair = .result op.id 0 ∧
    ∃ (ty ty' : IntegerType) (x y : BitVec ty.width), ty'.width = 1 ∧
      c.env step.counter = .int ty x ∧ c.env step.amount = .int ty y ∧
      c.env (.result op.id 0) = .tuple [.int ty (plainStep subtract x y), .ofBool ty' false] := by
  obtain ⟨a, b, hops, hchecked⟩ := (hm.seen.role k op hop.lt_last hop.2).checked_of_kind hkind
  rw [hm.checked, Option.some.injEq, Prod.mk.injEq, Prod.mk.injEq, Prod.mk.injEq] at hchecked
  obtain ⟨hpair, rfl, rfl, rfl⟩ := hchecked
  have hr := hc.reachable.1
  rw [hblock] at hr
  have hav : ∀ v ∈ op.operands, f.Avail v c.block c.pc := fun v hv => by
    rw [hblock]
    exact (hf.operands hr hop v hv).mono hk.le
  obtain ⟨m, rs, m', hx, -, hrs⟩ := executed hf hc hop (.inl ⟨hblock.symm, hk⟩)
  have hcode : op.code = ⟨checkedKind step.subtract, op.code.types⟩ := by rw [← hkind]
  have hx : Exec S op.code (op.operands.map c.env) m rs m' := hx
  rw [hcode, hops, List.map_cons, List.map_singleton] at hx
  obtain ⟨ty, ty', x, y, hty', hcounter, hamount, flagged, rfl, hclear⟩ := hx.checked_inv
  have hresult := hrs 0 _ rfl
  refine ⟨rfl, hops, hpair, ty, ty', x, y, hty', hcounter, hamount, ?_⟩
  have hone : ty.value y = 1 := by
    obtain ⟨ty₁, henv, hwrap⟩ := env_of_constValue hf hc
      (hav _ (hops ▸ List.mem_cons_of_mem _ List.mem_cons_self)) hm.one
    rw [hamount, Val.int.injEq] at henv
    obtain ⟨rfl, hy⟩ := henv
    rw [eq_of_heq hy]
    exact hwrap
  have hrange := hm.stepped hf hl harms hc hblock hcounter hone
  rw [hresult, hclear _ rfl hrange.1 hrange.2]

end CheckedStep.Matched

/-! ### The pair in its slot -/

/-- **Reading back.**  At the end of the arm a loaded value is the field of the stored pair. -/
theorem env_loaded (hS : S.ReadsBack) (hf : f.WellFormed) {st : Scan β} {c : Config β (Val ρ) M}
    (hseen : Scan.Seen (f.body c.block).ops (f.last c.block) st) (hc : Reaches S.semantics f c)
    (hpc : c.pc = f.last c.block) {pair a b : Value β} {subtract : Bool}
    (hchecked : st.checked = some (pair, a, b, subtract)) {fields : List (Val ρ)}
    (hpair : c.env pair = .tuple fields) {n : ℕ} {x : Value β} (hx : st.loaded n = some x) :
    fields[n]? = some (c.env x) := by
  have hr := hc.reachable.1
  have hin := hc.mem_blocks
  obtain ⟨k, load, hk, hload, hkind, rfl, address, hops, haddress⟩ := hseen.loaded n x hx
  obtain ⟨j, fieldAddr, hj, hfieldAddr, hkind', rfl, i, store, hi, hstore, hkind''⟩ :=
    hseen.addresses n address haddress
  obtain ⟨p, hops', hslot⟩ := (hseen.role j _ hj hfieldAddr).slot_of_fieldAddr hkind'
  obtain ⟨p', pair', a', b', subtract', hops'', hslot', hchecked'⟩ :=
    (hseen.role i store (hi.trans hj) hstore).slot_of_store hkind''
  obtain rfl : p = p' := Option.some.inj (hslot.symm.trans hslot')
  obtain rfl : pair = pair' := by
    rw [hchecked, Option.some.injEq] at hchecked'
    exact (Prod.mk.inj hchecked').1
  have hload' : f.At c.block k load := ⟨hin, hload⟩
  have hfieldAddr' : f.At c.block j fieldAddr := ⟨hin, hfieldAddr⟩
  have hstore' : f.At c.block i store := ⟨hin, hstore⟩
  have hjk : j < k := hf.lt_of_avail hfieldAddr'
    (hf.operands hr hload' _ (hops ▸ List.mem_cons_self))
  -- the run came from the load, and the load from the store
  obtain ⟨c₁, rs₁, m₁, hc₁, hblock₁, hpc₁, hx₁, hlen₁, henv₁, -⟩ := hc.passed hf hload' (hpc ▸ hk)
  have hfield := executed hf hc₁ (hblock₁ ▸ hfieldAddr') (.inl ⟨rfl, hpc₁ ▸ hjk⟩)
  obtain ⟨c₀, rs₀, m₀, hc₀, hblock₀, -, hx₀, hlen₀, henv₀, hmem⟩ := hc₁.passed hf
    (hblock₁ ▸ hstore') (hpc₁ ▸ hi.trans hjk)
  rw [hblock₁] at hblock₀ henv₀ hmem
  have hpure : c₁.mem = m₀ := by
    refine hmem fun l op hop hil hlk => ?_
    rw [hpc₁] at hlk
    have hl : l < f.last c.block := hlk.trans hk
    have hrole := hseen.role l op hl hop.2
    have hne : op.code.kind ≠ .store false := fun heq =>
      hil.ne (hseen.store_unique i store l op (hi.trans hj) hstore hkind'' hl hop.2 heq)
    exact fun vs m rs m' hx => Exec.mem_eq hx (hrole.pure hne).1 (hrole.pure hne).2
  -- the slot and the pair have kept their values
  have hkeep₁ : ∀ v, f.Avail v c.block k → c.env v = c₁.env v := fun v hv => by
    rw [henv₁ v (hv.mono (Nat.le_succ k))]
    exact setResults_of_avail hf hload' hv _ _
  have hkeep₀ : ∀ v, f.Avail v c.block i → c₁.env v = c₀.env v := fun v hv => by
    rw [henv₀ v (hv.mono (Nat.le_succ i))]
    exact setResults_of_avail hf hstore' hv _ _
  have hp := hf.operands hr hstore' p (hops'' ▸ List.mem_cons_self)
  have hq := hf.operands hr hstore' pair (hops'' ▸ List.mem_cons_of_mem _ List.mem_cons_self)
  have hcode₀ : store.code = ⟨.store false, store.code.types⟩ := by rw [← hkind'']
  have hcode₁ : load.code = ⟨.load false, load.code.types⟩ := by rw [← hkind]
  have hcode : fieldAddr.code = ⟨.fieldAddr (some n), fieldAddr.code.types⟩ := by rw [← hkind']
  have hx₀ : Exec S store.code (store.operands.map c₀.env) c₀.mem rs₀ m₀ := hx₀
  rw [hcode₀, hops'', List.map_cons, List.map_singleton] at hx₀
  have hx₁ : Exec S load.code (load.operands.map c₁.env) c₁.mem rs₁ m₁ := hx₁
  rw [hcode₁, hops, List.map_singleton] at hx₁
  obtain ⟨m, rs, m', hx, -, hrs⟩ := hfield
  have hx : Exec S fieldAddr.code (fieldAddr.operands.map c₁.env) m rs m' := hx
  rw [hcode, hops', List.map_singleton] at hx
  obtain rfl := hx.fieldAddr_inv
  obtain ⟨v, rfl, hv⟩ := hx₁.load_inv
  rw [hrs 0 _ rfl, hkeep₀ p hp] at hv
  have hself : f.Avail (.result load.id 0) c.block (k + 1) :=
    ⟨c.block, k, load, hload', rfl, hlen₁ ▸ Nat.zero_lt_one, .inl ⟨rfl, Nat.lt_succ_self k⟩⟩
  have hstored : S.store (c₀.env p) (.tuple fields) c₀.mem c₁.mem := by
    rw [hpure, ← hpair, hkeep₁ pair (hq.mono (hi.trans hjk).le), hkeep₀ pair hq]
    exact hx₀.store_inv
  rw [henv₁ _ hself, setResults_self rfl]
  exact hS _ fields _ _ n v hstored hv

namespace CheckedStep.Matched

variable {fuel index : ℕ} {lp : Loop β} {step : CheckedStep f} {st : Scan β}
  {pair flag lo hi : Value β} {overflow : Edge β} {a₀ a₁ : β} {c : Config β (Val ρ) M}

/-- **The end of the arm.**  The sum that was read back is the plain one, and the flag that was read
back is clear. -/
theorem env_sum (hm : step.Matched fuel lp index st pair flag lo hi overflow) (hS : S.ReadsBack)
    (hf : f.WellFormed) (hl : lp.Natural f.graph) (harms : headerArms f lp = some (a₀, a₁))
    (hc : Reaches S.semantics f c) (hblock : c.block = step.arm) (hpc : c.pc = f.last step.arm) :
    (∃ (ty : IntegerType) (x y : BitVec ty.width), c.env step.counter = .int ty x ∧
      c.env step.amount = .int ty y ∧ c.env step.sum = .int ty (plainStep step.subtract x y)) ∧
    ∃ ty : IntegerType, ty.width = 1 ∧ c.env flag = .ofBool ty true := by
  have hseen := hm.seen
  rw [← hblock] at hseen hpc
  have hin := hc.mem_blocks
  obtain ⟨k, op, hk, hop, hkind, hpair⟩ := hseen.checked _ hm.checked
  obtain ⟨-, -, -, ty, ty', x, y, hty', hcounter, hamount, hresult⟩ := hm.env_checked hf hl harms hc
    hblock (hblock ▸ ⟨hin, hop⟩) (hpc ▸ hk) hkind
  rw [← hpair] at hresult
  have hsum := env_loaded hS hf hseen hc hpc hm.checked hresult hm.sum
  refine ⟨⟨ty, x, y, hcounter, hamount, (Option.some.inj hsum).symm⟩, ty', hty', ?_⟩
  -- the condition is the negated flag, read back from the slot
  obtain ⟨j, neg, hj, hneg, hkind', rfl⟩ := hseen.flag _ hm.negated
  obtain ⟨v, hops, hloaded⟩ := (hseen.role j neg hj hneg).loaded_of_not hkind'
  have hflag := env_loaded hS hf hseen hc hpc hm.checked hresult hloaded
  obtain ⟨m, rs, m', hx, -, hrs⟩ := executed hf hc ⟨hin, hneg⟩ (.inl ⟨rfl, hpc ▸ hj⟩)
  have hx : Exec S neg.code (neg.operands.map c.env) m rs m' := hx
  have hcode : neg.code = ⟨.not, neg.code.types⟩ := by rw [← hkind']
  rw [hcode, hops, List.map_singleton, ← Option.some.inj hflag] at hx
  obtain rfl := hx.not_ofBool hty'
  exact hrs 0 _ rfl

/-- The branch of the arm goes into its first successor. -/
theorem take_eq_zero (hm : step.Matched fuel lp index st pair flag lo hi overflow)
    {env : Value β → Val ρ} {ty : IntegerType} (hty : ty.width = 1)
    (hflag : env flag = .ofBool ty true) {i : ℕ}
    (htake : Take S .condBr ((f.body step.arm).terminator.operands.map env) i) : i = 0 := by
  obtain ⟨ty₁, b, -, hargs, rfl⟩ := htake.condBr_inv
  cases hterm : (f.body step.arm).terminator.operands with
  | nil =>
    rw [hterm] at hargs
    cases hargs
  | cons u rest =>
    have hu := hm.condition
    rw [hterm] at hargs hu
    cases hu
    have hb := (List.cons.inj hargs).1
    rw [hflag] at hb
    rw [← (Val.ofBool_inj hty hb).2]
    rfl

/-- It does go there, if the flag is its only operand. -/
theorem take_zero (hm : step.Matched fuel lp index st pair flag lo hi overflow)
    (hone : (f.body step.arm).terminator.operands.length = 1) {env : Value β → Val ρ}
    {ty : IntegerType} (hty : ty.width = 1) (hflag : env flag = .ofBool ty true) :
    Take S .condBr ((f.body step.arm).terminator.operands.map env) 0 := by
  obtain ⟨u, hu⟩ := List.length_eq_one_iff.mp hone
  have hcond := hm.condition
  rw [hu] at hcond
  obtain rfl : u = flag := Option.some.inj hcond
  rw [hu, List.map_singleton, hflag]
  exact .condBr (b := true) hty

end CheckedStep.Matched

end CudaOxide.Mir
