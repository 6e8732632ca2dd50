import CudaOxide.Lib.Simulation
import CudaOxide.Mir.Canonicalize.Liveouts
import CudaOxide.Mir.Recurrences

/-!
# Folding the checked step of a signed range loop

A signed range `for` steps its counter by a checked operation whose pair of sum and overflow flag
goes through a stack slot.  Behind the test `lo < hi` of the header `lo + 1` and `hi - 1` cannot
overflow, so the step is replaced by a plain one and the branch on the flag by a jump.

* `guardLessThan` — the order that the header's test establishes, seen through negations and on
  either successor (`env_of_guardLessThan`).
* `Scan`, `matchCheckedStep` — the operations of the arm, in their order.
* `env_condition` — inside the arm the condition keeps the value that has led there.
-/

namespace CudaOxide.Mir

open Lib Lib.Ssa

variable {β : Type*} [DecidableEq β]

/-! ### The header's test -/

/-- `unwrap_not`: peel off negations; `negated` says whether their number is odd. -/
def unwrapNot (f : Function β) : ℕ → Value β → Bool → Option (Value β × Bool)
  | 0, _, _ => none
  | fuel + 1, v, negated =>
    match definingOp f v with
    | none => some (v, negated)
    | some op =>
      if op.code.kind = .not then
        match op.operands with
        | [a] => unwrapNot f fuel a (!negated)
        | _ => none
      else some (v, negated)

/-- `match_cmp` -/
def matchCmp (op : Op β OpCode) : Option (CmpPred × Value β × Value β) :=
  match op.code.kind, op.operands with
  | .cmp pred, [lhs, rhs] => some (pred, lhs, rhs)
  | _, _ => none

/-- `guard_less_than`: the pair `(lo, hi)` with `lo < hi` on the way into the successor `index` of
the header. -/
def guardLessThan (fuel : ℕ) (f : Function β) (header : β) (index : ℕ) :
    Option (Value β × Value β) := do
  let condition ← (f.body header).terminator.operands.head?
  let (test, negated) ← unwrapNot f fuel condition false
  let (pred, lhs, rhs) ← (definingOp f test).bind matchCmp
  -- the header enters its first successor when the condition holds
  match if (index == 0) != negated then pred else pred.negate with
  | .lt => some (lhs, rhs)
  | .gt => some (rhs, lhs)
  | .le | .ge => none

/-! ### The operations of the arm -/

/-- What the scan of the arm has found so far; field `0` of the checked pair is the sum, field `1`
the flag. -/
structure Scan (β : Type*) where
  /-- the pair, the counter, the amount, and whether the step is a subtraction -/
  checked : Option (Value β × Value β × Value β × Bool)
  slot : Option (Value β)
  addresses : ℕ → Option (Value β)
  loaded : ℕ → Option (Value β)
  flag : Option (Value β)
  chain : List (Op β OpCode)

namespace Scan

/-- Nothing scanned yet. -/
def empty : Scan β := ⟨none, none, fun _ => none, fun _ => none, none, []⟩

/-- The field whose address is `a`. -/
def position (st : Scan β) (a : Value β) : Option ℕ :=
  if st.addresses 0 = some a then some 0
  else if st.addresses 1 = some a then some 1
  else none

/-- One operation of the arm. -/
def next (st : Scan β) (op : Op β OpCode) : Option (Scan β) :=
  let chain := st.chain ++ [op]
  match op.code.kind, op.operands with
  | .storageLive, _ | .storageDead, _ | .constant _, _ => some st
  | .checkedAdd, [a, b] =>
    if st.checked.isSome then none
    else some { st with checked := some (.result op.id 0, a, b, false), chain }
  | .checkedSub, [a, b] =>
    if st.checked.isSome then none
    else some { st with checked := some (.result op.id 0, a, b, true), chain }
  | .store volatile, [p, v] =>
    if st.slot.isSome ∨ volatile = true ∨ st.checked.map (·.1) ≠ some v then none
    else some { st with slot := some p, chain }
  | .fieldAddr (some i), [p] =>
    if st.slot ≠ some p ∨ 1 < i ∨ (st.addresses i).isSome then none
    else
      some { st with addresses := Function.update st.addresses i (some (.result op.id 0)), chain }
  | .load volatile, [a] =>
    match st.position a with
    | none => none
    | some i =>
      if volatile = true ∨ (st.loaded i).isSome then none
      else some { st with loaded := Function.update st.loaded i (some (.result op.id 0)), chain }
  | .not, [a] =>
    if st.flag.isSome ∨ some a ≠ st.loaded 1 then none
    else some { st with flag := some (.result op.id 0), chain }
  | _, _ => none

end Scan

/-- `CheckedStep` -/
structure CheckedStep (f : Function β) where
  arm : β
  inRange : β
  inRangeOperands : List (Value β)
  counter : Value β
  amount : Value β
  subtract : Bool
  sum : Value β
  slot : Value β
  chain : List (Op β OpCode)
  /-- The branch of the arm is the only way into `inRange`. -/
  uses : (incoming f inRange).length = 1

/-- A block with an incoming edge is a block of the function. -/
theorem mem_blocks_of_incoming {f : Function β} {b : β} (h : (incoming f b).length = 1) :
    b ∈ f.blocks := by
  obtain ⟨p, hp⟩ := List.length_eq_one_iff.mp h
  obtain ⟨ha, he, rfl⟩ := mem_incoming.mp (hp ▸ List.mem_singleton_self p)
  exact f.edge_mem ha he

/-- `match_checked_step` -/
def matchCheckedStep (fuel : ℕ) (f : Function β) (lp : Loop β) (index : ℕ) :
    Option (CheckedStep f) := do
  let arm ← ((f.body lp.header).terminator.edges[index]?).map (·.target)
  let branch := (f.body arm).terminator
  if branch.code ≠ .condBr ∨ (incoming f arm).length ≠ 1 then none
  else
    let st ← (f.body arm).ops.foldlM Scan.next Scan.empty
    let (_, counter, amount, subtract) ← st.checked
    let slot ← st.slot
    let sum ← st.loaded 0
    let flag ← st.flag
    match branch.edges with
    | [inRange, overflow] =>
      -- the branch enters `inRange` when the flag is clear
      if branch.operands.head? ≠ some flag ∨ inRange.target = overflow.target ∨
          inRange.target ∉ lp.blocks ∨ overflow.target ∈ lp.blocks then none
      else if huses : (incoming f inRange.target).length ≠ 1 then none
      else if constValue f amount ≠ some 1 then none
      else
        let (lo, hi) ← guardLessThan fuel f lp.header index
        if counter ≠ if subtract then hi else lo then none
        else some ⟨arm, inRange.target, inRange.operands, counter, amount, subtract, sum, slot,
          st.chain, not_not.mp huses⟩
    | _ => none

/-! ### The way into the arm -/

/-- The checks of `thread_iterator_exit_test` on the header: a conditional branch into two different
blocks of the loop. -/
def headerArms (f : Function β) (lp : Loop β) : Option (β × β) :=
  if (f.body lp.header).terminator.code ≠ .condBr then none
  else
    match (f.body lp.header).terminator.edges with
    | [e₀, e₁] =>
      if e₀.target = e₁.target ∨ e₀.target ∉ lp.blocks ∨ e₁.target ∉ lp.blocks then none
      else some (e₀.target, e₁.target)
    | _ => none

section Guard

variable {ρ M : Type*} {S : Machine ρ M} {f : Function β} {lp : Loop β} {c : Config β (Val ρ) M}
  {fuel index : ℕ} {v lo hi : Value β}

/-- What is peeled off is as true as the condition, or as false, by the number of negations. -/
theorem env_of_unwrapNot (hf : f.WellFormed) (hc : Reaches S.semantics f c) {test : Value β}
    {negated negated' b : Bool} (hav : f.Avail v c.block c.pc)
    (h : unwrapNot f fuel v negated = some (test, negated')) {ty : IntegerType} (hty : ty.width = 1)
    (hv : c.env v = .ofBool ty b) :
    f.Avail test c.block c.pc ∧ c.env test = .ofBool ty (b ^^ (negated ^^ negated')) := by
  induction fuel generalizing v negated b with
  | zero => cases h
  | succ fuel ih =>
    rw [unwrapNot] at h
    split at h
    · cases h
      exact ⟨hav, by rw [hv, Bool.xor_self, Bool.xor_false]⟩
    · rename_i op hop
      split at h
      · rename_i hkind
        split at h
        · rename_i a hoperands
          cases v with
          | arg a k => cases hop
          | result id k =>
            obtain ⟨⟨m, rs, m', hx, hk⟩, hops⟩ := executed_of_avail hf hc hav hop
            rw [hv] at hk
            rw [hoperands] at hx hops
            have hcode : op.code = ⟨.not, op.code.types⟩ := by rw [← hkind]
            rw [hcode] at hx
            obtain ⟨hav', htest⟩ := ih (hops a List.mem_cons_self) h (hx.not_inv hty hk)
            refine ⟨hav', htest.trans ?_⟩
            congr 1
            cases b <;> cases negated <;> cases negated' <;> rfl
        · cases h
      · cases h
        exact ⟨hav, by rw [hv, Bool.xor_self, Bool.xor_false]⟩

/-- **The guard.**  Where the condition of the header is known to have sent the run to the successor
`index`, the two values are ordered, if they are words. -/
theorem env_of_guardLessThan (hf : f.WellFormed) (hc : Reaches S.semantics f c) {header : β}
    (h : guardLessThan fuel f header index = some (lo, hi))
    (hcond : ∀ v, (f.body header).terminator.operands.head? = some v →
      f.Avail v c.block c.pc ∧ ∃ ty : IntegerType, ty.width = 1 ∧
        c.env v = .ofBool ty (index == 0)) :
    (∃ (ty : IntegerType) (x y : BitVec ty.width), c.env lo = .int ty x ∧ c.env hi = .int ty y ∧
      ty.value x < ty.value y) ∨ (¬(c.env lo).IsInt ∧ ¬(c.env hi).IsInt) := by
  -- the guard is read through its negations to a comparison
  obtain ⟨condition, hcondition, h₁⟩ := Option.bind_eq_some_iff.mp h
  obtain ⟨⟨test, negated⟩, hunwrap, h₂⟩ := Option.bind_eq_some_iff.mp h₁
  obtain ⟨⟨pred, lhs, rhs⟩, hbind, h₃⟩ := Option.bind_eq_some_iff.mp h₂
  obtain ⟨op, hop, hcmp⟩ := Option.bind_eq_some_iff.mp hbind
  obtain ⟨hav, ty, hty, henv⟩ := hcond condition hcondition
  obtain ⟨hav', htest⟩ := env_of_unwrapNot hf hc hav hunwrap hty henv
  rw [Bool.false_xor] at htest
  -- an argument has no defining operation
  cases test with
  | arg a k => cases hop
  | result id k =>
    obtain ⟨⟨m, rs, m', hx, hk⟩, -⟩ := executed_of_avail hf hc hav' hop
    rw [htest] at hk
    unfold matchCmp at hcmp
    split at hcmp
    · rename_i pred' lhs' rhs' hkind hoperands
      cases hcmp
      have hcode : op.code = ⟨.cmp pred, op.code.types⟩ := by rw [← hkind]
      rw [hcode, hoperands, List.map_cons, List.map_singleton] at hx
      rcases hx.cmp_inv hty hk with ⟨ty', x, y, hl, hr, hholds⟩ | ⟨hl, hr⟩
      · -- the predicate on this way holds of the two words
        set pred' := if (index == 0) != negated then pred else pred.negate with hpred'
        have hholds' : pred'.holds (ty'.value x) (ty'.value y) = true := by
          rw [hpred']
          -- on the way of the branch the comparison came out as the code reads it
          split
          · rename_i htrue
            rw [hholds]
            exact htrue
          · rename_i hfalse
            rw [CmpPred.holds_negate, hholds]
            simpa using hfalse
        simp only [← hpred'] at h₃
        -- either side may be the counter, so the predicate is `<` or `>`
        cases hp : pred' with
        | lt =>
          rw [hp] at h₃ hholds'
          cases h₃
          exact .inl ⟨ty', x, y, hl, hr, of_decide_eq_true hholds'⟩
        | gt =>
          rw [hp] at h₃ hholds'
          cases h₃
          exact .inl ⟨ty', y, x, hr, hl, of_decide_eq_true hholds'⟩
        | le =>
          rw [hp] at h₃
          cases h₃
        | ge =>
          rw [hp] at h₃
          cases h₃
      -- the operands were no words of one type, so nothing was matched
      · simp only at h₃
        split at h₃
        · cases h₃
          exact .inr ⟨hl, hr⟩
        · cases h₃
          exact .inr ⟨hr, hl⟩
        · cases h₃
        · cases h₃
    · cases hcmp

omit [DecidableEq β] in

/-- The two arms of the header are different blocks of the loop. -/
theorem headerArms_spec [DecidableEq β] {a₀ a₁ : β} (h : headerArms f lp = some (a₀, a₁)) :
    (f.body lp.header).terminator.code = .condBr ∧
    ∃ e₀ e₁, (f.body lp.header).terminator.edges = [e₀, e₁] ∧ e₀.target = a₀ ∧ e₁.target = a₁ ∧
      a₀ ≠ a₁ ∧ a₀ ∈ lp.blocks ∧ a₁ ∈ lp.blocks := by
  unfold headerArms at h
  split at h
  · cases h
  rename_i hcode
  split at h
  · rename_i e₀ e₁ hedges
    split at h
    · cases h
    rename_i hno
    simp only [not_or, not_not] at hno
    cases h
    exact ⟨not_not.mp hcode, e₀, e₁, hedges, rfl, rfl, hno.1, hno.2.1, hno.2.2⟩
  · cases h

omit [DecidableEq β] in

/-- An entry of a pair is its first or its second. -/
theorem eq_of_getElem?_pair {α : Type*} {x y z : α} {i : ℕ} (h : [x, y][i]? = some z) :
    (i = 0 ∧ z = x) ∨ (i = 1 ∧ z = y) := by
  rcases i with - | - | i
  · exact .inl ⟨rfl, (Option.some.inj h).symm⟩
  · exact .inr ⟨rfl, (Option.some.inj h).symm⟩
  · cases h

/-- An edge that leads into a block with one use is that use. -/
theorem eq_of_incoming {b : β} (huses : (incoming f b).length = 1) {p q : β × Edge β}
    (hp : p ∈ incoming f b) (hq : q ∈ incoming f b) : p = q := by
  obtain ⟨r, hr⟩ := List.length_eq_one_iff.mp huses
  rw [hr] at hp hq
  rw [List.mem_singleton.mp hp, List.mem_singleton.mp hq]

/-- In an arm that is entered only from the header, the condition still has the value with which the
header chose the arm. -/
theorem env_condition (hf : f.WellFormed) (hl : lp.Natural f.graph) {a₀ a₁ arm : β}
    (harms : headerArms f lp = some (a₀, a₁))
    (harm : ((f.body lp.header).terminator.edges[index]?).map (·.target) = some arm)
    (huses : (incoming f arm).length = 1) (hne : arm ≠ lp.header)
    (hc : Reaches S.semantics f c) (hblock : c.block = arm) :
    ∀ v, (f.body lp.header).terminator.operands.head? = some v →
      f.Avail v c.block c.pc ∧ ∃ ty : IntegerType, ty.width = 1 ∧
        c.env v = .ofBool ty (index == 0) := by
  intro v hv
  obtain ⟨hcode, e₀, e₁, hedges, rfl, rfl, hdistinct, hin₀, hin₁⟩ := headerArms_spec harms
  have hmem : arm ∈ lp.blocks := by
    obtain ⟨e, he, rfl⟩ := Option.map_eq_some_iff.mp harm
    rw [hedges] at he
    rcases eq_of_getElem?_pair he with ⟨-, rfl⟩ | ⟨-, rfl⟩
    · exact hin₀
    · exact hin₁
  have hdom := hl.dominates hmem
  induction hc with
  | @initial c hi =>
    rw [← hblock, hi.1] at hdom hne
    exact absurd hdom.eq_entry.symm hne
  | @step c d hc hs ih =>
    have hr := (hc.step hs).reachable.1
    rw [hblock] at hr
    have hno := hl.not_dominates (hdom.reachable hr) hmem hne
    cases hs with
    | @op op rs m hop hx hlen =>
      obtain ⟨hav, ty, hty, henv⟩ := ih hblock
      refine ⟨hav.mono (Nat.le_succ _), ty, hty, ?_⟩
      rw [← henv]
      exact env_of_step hf hc (.op hop hx hlen) hav fun h => absurd h (Nat.succ_ne_zero _)
    | @edge i e hpc htake he =>
      have htarget : e.target = arm := hblock
      -- the edge is the one of the header
      obtain ⟨e', he', htarget'⟩ := Option.map_eq_some_iff.mp harm
      have hheader : lp.header ∈ f.blocks := (hdom.reachable hr).mem_nodes
      have heq : (c.block, e) = (lp.header, e') := eq_of_incoming huses
        (mem_incoming.mpr ⟨hc.mem_blocks, List.mem_of_getElem? he, htarget⟩)
        (mem_incoming.mpr ⟨hheader, List.mem_of_getElem? he', htarget'⟩)
      obtain ⟨hsource, rfl⟩ := Prod.mk.inj heq
      rw [hsource] at he htake hpc
      have hav := hf.terminator (hdom.reachable hr) v (List.mem_of_head? hv)
      obtain ⟨hav', hargs⟩ := hav.of_dominates (i := 0) hdom hno
      have htake' : Take S .condBr ((f.body lp.header).terminator.operands.map c.env) i :=
        hcode ▸ htake
      obtain ⟨ty, b, hty, hvalue, hi⟩ := htake'.condBr_inv
      have henv : c.env v = .ofBool ty b := by
        cases hops : (f.body lp.header).terminator.operands with
        | nil =>
          rw [hops] at hv
          cases hv
        | cons u rest =>
          rw [hops] at hv hvalue
          cases hv
          exact (List.cons.inj hvalue).1
      refine ⟨htarget ▸ hav', ty, hty, ?_⟩
      have hsame : setArgs e.target (e.operands.map c.env) c.env v = c.env v := by
        cases v with
        | result id k => rfl
        | arg a k => exact setArgs_arg_of_ne fun heq => hargs k (by rw [heq, htarget])
      rw [hedges] at he he'
      -- the two edges lead to different blocks, so the run took the one at `index`
      have hindex : (index == 0) = b := by
        rcases eq_of_getElem?_pair he with ⟨hi₀, rfl⟩ | ⟨hi₁, rfl⟩
        · rcases eq_of_getElem?_pair he' with ⟨rfl, -⟩ | ⟨-, heq⟩
          · cases b
            · exact absurd (hi₀.symm.trans hi) (by decide)
            · rfl
          · exact absurd (congrArg Edge.target heq) hdistinct
        · rcases eq_of_getElem?_pair he' with ⟨-, heq⟩ | ⟨rfl, -⟩
          · exact absurd (congrArg Edge.target heq).symm hdistinct
          · cases b
            · rfl
            · exact absurd (hi₁.symm.trans hi) (by decide)
      rw [hindex, ← henv]
      exact hsame

end Guard

end CudaOxide.Mir
