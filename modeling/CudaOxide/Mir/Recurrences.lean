import CudaOxide.Mir.LoopInfo
import CudaOxide.Mir.Program

/-!
# Recurrences of header arguments

What a header argument does from one iteration to the next is read off the values on the back edges.
Such a value may be a block argument inside the loop; it is then followed to the values that the
edges into its block pass.

* `expandBlockArgument`, `recurrenceValues`, `classifyArg` — the analysis of one header argument.
* `Iteration` — the iterations of a loop along a run, counted from where the loop is entered.
* `Fed`, `env_of_fed` — a followed value is the same function of the argument on every path.
* `classifyArg_sound` — a basic induction variable is `init + k * step` in iteration `k`, an
  invariant argument keeps its entry value.
-/

namespace CudaOxide.Mir

open Lib Lib.Ssa

variable {β : Type*} [DecidableEq β]

/-! ### The analysis -/

/-- `edge_operands`: what the first edge from `pred` to `header` passes. -/
def edgeOperands (f : Function β) (pred header : β) : Option (List (Value β)) :=
  if (f.body pred).terminator.code.isBranch then
    ((f.body pred).terminator.edges.find? (·.target = header)).map (·.operands)
  else none

/-- `LoopInfo::preheader`: the source of the only edge that enters the loop. The predecessors of a
block are listed once for each edge. -/
def preheader (f : Function β) (lp : Loop β) : Option β :=
  match (incoming f lp.header).filter (·.1 ∉ lp.blocks) with
  | [p] => some p.1
  | _ => none

/-- `expand_block_argument`: the values behind `value`. `visiting` holds the block arguments on the
way; a cycle of them is given up. `none` also when the fuel runs out. -/
def expandBlockArgument (f : Function β) (lp : Loop β) (arg : Value β) :
    ℕ → List (Value β) → Value β → Option (List (Value β))
  | 0, _, _ => none
  | fuel + 1, visiting, value =>
    if value = arg then some [value]
    else
      match value with
      | .result _ _ => some [value]
      | .arg block index =>
        if block = lp.header ∨ block ∉ lp.blocks then some [value]
        else if value ∈ visiting ∨ incoming f block = [] then none
        else
          ((incoming f block).mapM fun p =>
            if p.1 ∉ lp.blocks ∨ (f.body p.1).terminator.code.isBranch = false then none
            else (p.2.operands[index]?).bind
              (expandBlockArgument f lp arg fuel (value :: visiting))).map List.flatten

/-- `recurrence_values`: all values that can arrive at header argument `i` on a back edge. -/
def recurrenceValues (fuel : ℕ) (f : Function β) (lp : Loop β) (i : ℕ) :
    Option (List (Value β)) :=
  (((incoming f lp.header).filter (·.1 ∈ lp.latches)).mapM fun p =>
    if (f.body p.1).terminator.code.isBranch = false then none
    else (p.2.operands[i]?).bind
      (expandBlockArgument f lp (.arg lp.header i) fuel [])).bind fun values =>
    if values.flatten = [] then none else some values.flatten

/-- `constant_offset`: how far `v` is from `arg`. -/
def constantOffset (f : Function β) (v arg : Value β) : Option ℤ :=
  (definingOp f v).bind fun op =>
    match op.code.kind, op.operands with
    | .add, [a, b] =>
      if a = arg then constValue f b
      else if b = arg then constValue f a
      else none
    | .sub, [a, b] => if a = arg then (constValue f b).bind I128.checkedNeg else none
    | _, _ => none

/-- `ArgKind` -/
inductive ArgKind where
  | basicIv (init step : ℤ)
  | reduction
  | invariant
  | unknown
  deriving DecidableEq, Repr

/-- `classify_arg`, with `pre_ops` and `recurrence_values` as `analyze` passes them. -/
def classifyArg (fuel : ℕ) (f : Function β) (lp : Loop β) (ph : β) (i : ℕ) : ArgKind :=
  match recurrenceValues fuel f lp i with
  | none => .unknown
  | some values =>
    if ∀ v ∈ values, v = .arg lp.header i then .invariant
    else
      match (values.head?).bind (constantOffset f · (.arg lp.header i)) with
      | none => .reduction
      | some step =>
        if ∀ v ∈ values, constantOffset f v (.arg lp.header i) = some step then
          match ((edgeOperands f ph lp.header).bind (·[i]?)).bind (constValue f) with
          | some init => .basicIv init step
          | none => .reduction
        else .reduction

/-! ### Iterations -/

variable {ρ M : Type*}

/-- `Iteration S f lp k e c`: the run entered the loop in the state `e` and has taken `k` back edges
since; `c` is a state of iteration `k`. -/
inductive Iteration (S : Machine ρ M) (f : Function β) (lp : Loop β) :
    ℕ → Config β (Val ρ) M → Config β (Val ρ) M → Prop
  | enter {c e : Config β (Val ρ) M} : Reaches S.semantics f c → c.block ∉ lp.blocks →
    Step S.semantics f c e → e.block = lp.header → Iteration S f lp 0 e e
  | inside {k : ℕ} {e c d : Config β (Val ρ) M} : Iteration S f lp k e c →
    Step S.semantics f c d → d.block ∈ lp.blocks → ¬(d.block = lp.header ∧ d.pc = 0) →
    Iteration S f lp k e d
  | back {k : ℕ} {e c d : Config β (Val ρ) M} : Iteration S f lp k e c →
    Step S.semantics f c d → d.block = lp.header → d.pc = 0 → Iteration S f lp (k + 1) e d

/-- The loop is one that the loop analysis finds. -/
structure Loop.Natural (lp : Loop β) (g : Flowgraph β) : Prop where
  latches : ∀ k, k ∈ lp.latches ↔ g.IsLatch lp.header k
  blocks : ∀ b, b ∈ lp.blocks ↔ b ∈ g.loopOf lp.header

section Sound

variable {S : Machine ρ M} {f : Function β} {lp : Loop β} {c d e : Config β (Val ρ) M} {k : ℕ}

/-- A header is a block of its loop. -/
theorem Loop.Natural.header_mem (hl : lp.Natural f.graph) : lp.header ∈ lp.blocks :=
  (hl.blocks _).mpr (Flowgraph.self_mem_loopOf _ _)

/-- A header dominates its loop. -/
theorem Loop.Natural.dominates (hl : lp.Natural f.graph) {b : β} (hb : b ∈ lp.blocks) :
    f.graph.Dominates lp.header b :=
  Flowgraph.dominates_of_mem_loopOf ((hl.blocks b).mp hb)

/-- An iteration belongs to a run. -/
theorem Iteration.reaches (h : Iteration S f lp k e c) : Reaches S.semantics f c := by
  induction h with
  | enter hc _ hs _ => exact hc.step hs
  | inside _ hs _ _ ih => exact ih.step hs
  | back _ hs _ _ ih => exact ih.step hs

/-- An iteration stays in the loop. -/
theorem Iteration.mem_blocks (hl : lp.Natural f.graph) (h : Iteration S f lp k e c) :
    c.block ∈ lp.blocks := by
  cases h with
  | enter _ _ _ he => exact he ▸ hl.header_mem
  | inside _ _ hd _ => exact hd
  | back _ _ hd _ => exact hd ▸ hl.header_mem

/-- The loop was entered by a step from outside. -/
theorem Iteration.entered (h : Iteration S f lp k e c) : ∃ c₀, Reaches S.semantics f c₀ ∧
    c₀.block ∉ lp.blocks ∧ Step S.semantics f c₀ e ∧ e.block = lp.header := by
  induction h with
  | enter hc hout hs he => exact ⟨_, hc, hout, hs, he⟩
  | inside _ _ _ _ ih => exact ih
  | back _ _ _ _ ih => exact ih

/-! ### Following block arguments -/

/-- A value is one of the values `P`, or a block argument inside the loop that every edge feeds with
such a value. -/
inductive Fed (f : Function β) (lp : Loop β) (P : Value β → Prop) : Value β → Prop
  | leaf {v : Value β} : P v → Fed f lp P v
  | join {block : β} {index : ℕ} : block ∈ lp.blocks → block ≠ lp.header →
    (∀ p ∈ incoming f block, p.1 ∈ lp.blocks ∧ index < p.2.operands.length) →
    (∀ p ∈ incoming f block, ∀ v, p.2.operands[index]? = some v → Fed f lp P v) →
    Fed f lp P (.arg block index)

/-- Everything that was traversed has an image. -/
theorem mem_of_mapM {α γ : Type*} {g : α → Option γ} {l : List α} {out : List γ}
    (h : l.mapM g = some out) {a : α} (ha : a ∈ l) : ∃ b ∈ out, g a = some b := by
  induction l generalizing out with
  | nil => cases ha
  | cons x l ih =>
    rw [List.mapM_cons] at h
    obtain ⟨y, hy, h⟩ := Option.bind_eq_some_iff.mp h
    obtain ⟨ys, hys, h⟩ := Option.bind_eq_some_iff.mp h
    cases h
    rcases List.mem_cons.mp ha with rfl | ha
    · exact ⟨y, List.mem_cons_self, hy⟩
    · obtain ⟨b, hb, hg⟩ := ih hys ha
      exact ⟨b, List.mem_cons_of_mem _ hb, hg⟩

/-- When the walk succeeds, the values it returns feed the value. -/
theorem fed_of_expand {P : Value β → Prop} {arg value : Value β} {fuel : ℕ}
    {visiting out : List (Value β)} (h : expandBlockArgument f lp arg fuel visiting value =
      some out)
    (hP : ∀ v ∈ out, P v) : Fed f lp P value := by
  induction fuel generalizing visiting value out with
  | zero => cases h
  | succ fuel ih =>
    unfold expandBlockArgument at h
    split at h
    · cases h
      exact .leaf (hP _ List.mem_cons_self)
    cases value with
    | result id k =>
      cases h
      exact .leaf (hP _ List.mem_cons_self)
    | arg block index =>
      simp only at h
      split at h
      · cases h
        exact .leaf (hP _ List.mem_cons_self)
      rename_i hin
      rw [not_or, not_not] at hin
      split at h
      · cases h
      obtain ⟨outs, houts, rfl⟩ := Option.map_eq_some_iff.mp h
      -- each edge passes a value from inside the loop, and the walk goes on behind it
      have hedge : ∀ p ∈ incoming f block, p.1 ∈ lp.blocks ∧ ∃ v, p.2.operands[index]? = some v ∧
          Fed f lp P v := by
        intro p hp
        obtain ⟨o, ho, hwalk⟩ := mem_of_mapM houts hp
        split at hwalk
        · cases hwalk
        rename_i hcond
        rw [not_or, not_not] at hcond
        obtain ⟨v, hv, hwalk⟩ := Option.bind_eq_some_iff.mp hwalk
        refine ⟨hcond.1, v, hv, ih hwalk fun w hw => hP w ?_⟩
        exact List.mem_flatten.mpr ⟨o, ho, hw⟩
      refine .join hin.2 hin.1 (fun p hp => ?_) fun p hp v hv => ?_
      · obtain ⟨hsource, v, hv, -⟩ := hedge p hp
        exact ⟨hsource, (List.getElem?_eq_some_iff.mp hv).1⟩
      · obtain ⟨-, w, hw, hfed⟩ := hedge p hp
        rw [hw, Option.some.injEq] at hv
        exact hv ▸ hfed

/-- What each latch passes to the header argument is fed by the recurrence values. -/
theorem fed_of_recurrenceValues {P : Value β → Prop} {fuel i : ℕ} {values : List (Value β)}
    (h : recurrenceValues fuel f lp i = some values) (hP : ∀ v ∈ values, P v) {p : β × Edge β}
    (hp : p ∈ incoming f lp.header) (hlatch : p.1 ∈ lp.latches) :
    ∃ v, p.2.operands[i]? = some v ∧ Fed f lp P v := by
  obtain ⟨outs, houts, h⟩ := Option.bind_eq_some_iff.mp h
  split at h
  · cases h
  cases h
  obtain ⟨o, ho, hwalk⟩ :=
    mem_of_mapM houts (List.mem_filter.mpr ⟨hp, decide_eq_true hlatch⟩)
  split at hwalk
  · cases hwalk
  obtain ⟨v, hv, hwalk⟩ := Option.bind_eq_some_iff.mp hwalk
  exact ⟨v, hv, fed_of_expand hwalk fun w hw => hP w (List.mem_flatten.mpr ⟨o, ho, hw⟩)⟩

/-! ### One iteration -/

/-- No block of the loop but the header dominates the header. -/
theorem Loop.Natural.not_dominates (hl : lp.Natural f.graph)
    (hr : f.graph.Reachable lp.header) {b : β} (hb : b ∈ lp.blocks) (hne : b ≠ lp.header) :
    ¬f.graph.Dominates b lp.header := fun hdom =>
  hne (hdom.antisymm (hl.dominates hb) (hdom.reachable hr))

/-- The steps inside an iteration leave the header arguments alone. -/
theorem env_header_of_step {i : ℕ} (hs : Step S.semantics f c d)
    (hd : ¬(d.block = lp.header ∧ d.pc = 0)) :
    d.env (.arg lp.header i) = c.env (.arg lp.header i) := by
  cases hs with
  | op _ _ _ => rfl
  | edge _ _ _ => exact setArgs_arg_of_ne fun heq => hd ⟨heq.symm, rfl⟩

/-- **Followed values.**  Let every value of `P` be `upd` of the header argument wherever it is
available. Then, on every path, so is each value that is fed by them. -/
theorem env_of_fed (hf : f.WellFormed) (hl : lp.Natural f.graph) {P : Value β → Prop} {i : ℕ}
    {upd : Val ρ → Val ρ} (hP : ∀ v, P v → ∀ c, Reaches S.semantics f c →
      f.Avail v c.block c.pc → c.env v = upd (c.env (.arg lp.header i)))
    (h : Iteration S f lp k e c) {v : Value β} (hv : Fed f lp P v)
    (hav : f.Avail v c.block c.pc) : c.env v = upd (c.env (.arg lp.header i)) := by
  induction h generalizing v with
  -- on entry the value comes from the preheader
  | @enter c e hc hout hs he =>
    have hr := (hc.step hs).reachable.1
    cases hv with
    | leaf hv => exact hP v hv _ (hc.step hs) hav
    | join hin hne _ _ =>
      rw [he] at hr
      exact absurd (he ▸ hav.2) (hl.not_dominates hr hin hne)
  -- on the way back it comes from a latch
  | @back k e c d hc hs hd _ ih =>
    have hr := (hc.reaches.step hs).reachable.1
    cases hv with
    | leaf hv => exact hP v hv _ (hc.reaches.step hs) hav
    | join hin hne _ _ =>
      rw [hd] at hr
      exact absurd (hd ▸ hav.2) (hl.not_dominates hr hin hne)
  -- inside the loop an operation moves no block argument, an edge only those of its target
  | @inside k e c d hc hs hd hstart ih =>
    cases hv with
    | leaf hv => exact hP v hv _ (hc.reaches.step hs) hav
    | @join block index hin hne hedges hfed =>
      rw [env_header_of_step hs hstart]
      cases hs with
      | op _ _ _ => exact ih (.join hin hne hedges hfed) hav
      | @edge j edge hpc _ hedge =>
        have hsucc := hc.reaches.mem_succs hedge
        have hmem := List.mem_of_getElem? hedge
        have hr := hc.reaches.reachable.1
        by_cases hblock : block = edge.target
        · -- the block argument gets the value that this edge passes
          subst hblock
          have hp : (c.block, edge) ∈ incoming f edge.target :=
            mem_incoming.mpr ⟨hc.reaches.mem_blocks, hmem, rfl⟩
          have hget := List.getElem?_eq_getElem (hedges _ hp).2
          have hopav := (hf.edges hr edge hmem).2 _ (List.mem_of_getElem? hget)
          rw [← hpc] at hopav
          rw [← ih (hfed _ hp _ hget) hopav]
          exact setArgs_arg_self (by rw [List.getElem?_map, hget]; rfl)
        -- any other value is available in front of the edge already
        · have hdom : f.graph.Dominates block c.block := hav.2.of_edge hblock hsucc
          rw [← ih (.join hin hne hedges hfed) ⟨hav.1, hdom⟩]
          exact setArgs_arg_of_ne hblock

/-- From one iteration to the next the argument goes from `x` to `upd x`. -/
theorem env_of_iteration (hf : f.WellFormed) (hl : lp.Natural f.graph) {fuel i : ℕ}
    {values : List (Value β)} (hvalues : recurrenceValues fuel f lp i = some values)
    {upd : Val ρ → Val ρ} (hupd : ∀ v ∈ values, ∀ c, Reaches S.semantics f c →
      f.Avail v c.block c.pc → c.env v = upd (c.env (.arg lp.header i)))
    (h : Iteration S f lp k e c) :
    c.env (.arg lp.header i) = upd^[k] (e.env (.arg lp.header i)) := by
  induction h with
  | enter _ _ _ _ => rfl
  | inside _ hs _ hstart ih => rw [env_header_of_step hs hstart, ih]
  | @back k e c d hc hs hd hpc ih =>
    rw [Function.iterate_succ_apply', ← ih]
    cases hs with
    | op _ _ _ => exact absurd hpc (Nat.succ_ne_zero _)
    | @edge j edge hlast _ hedge =>
      have hmem := List.mem_of_getElem? hedge
      have hr := hc.reaches.reachable.1
      have htarget : edge.target = lp.header := hd
      -- the edge comes from inside the loop, so it comes from a latch
      have hlatch : c.block ∈ lp.latches := (hl.latches _).mpr
        ⟨hr.mem_nodes, htarget ▸ hc.reaches.mem_succs hedge, hl.dominates (hc.mem_blocks hl)⟩
      have hp : (c.block, edge) ∈ incoming f lp.header :=
        mem_incoming.mpr ⟨hc.reaches.mem_blocks, hmem, htarget⟩
      obtain ⟨v, hv, hfed⟩ := fed_of_recurrenceValues
        (P := (· ∈ values)) hvalues (fun v hv => hv) hp hlatch
      have hav := (hf.edges hr edge hmem).2 v (List.mem_of_getElem? hv)
      rw [← hlast] at hav
      rw [← env_of_fed hf hl hupd hc hfed hav]
      show setArgs edge.target _ _ (.arg lp.header i) = _
      rw [htarget]
      exact setArgs_arg_self (by rw [List.getElem?_map, hv]; rfl)

/-! ### The two labels -/

/-- The value of an argument that is stepped by `step`. -/
def stepped (step : ℤ) : Val ρ → Val ρ
  | .int ty x => .int ty (x + BitVec.ofInt ty.width step)
  | v => v

/-- Stepping `k` times from a constant. -/
theorem iterate_stepped (ty : IntegerType) (init step : ℤ) (k : ℕ) :
    (stepped step)^[k] (Val.int ty (BitVec.ofInt ty.width init) : Val ρ) =
      .int ty (BitVec.ofInt ty.width (init + k * step)) := by
  induction k with
  | zero => rw [Nat.cast_zero, zero_mul, add_zero, Function.iterate_zero_apply]
  | succ k ih =>
    have hsum : init + (↑(k + 1) : ℤ) * step = (init + k * step) + step := by
      push_cast
      ring
    rw [Function.iterate_succ_apply', ih, stepped, ← BitVec.ofInt_add, hsum]

/-- What `constant_offset` recognizes adds its offset, on words of every width. -/
theorem env_of_constantOffset (hf : f.WellFormed) (hc : Reaches S.semantics f c) {v arg : Value β}
    (hav : f.Avail v c.block c.pc) {step : ℤ} (h : constantOffset f v arg = some step) :
    c.env v = stepped step (c.env arg) := by
  obtain ⟨op, hop, hmatch⟩ := Option.bind_eq_some_iff.mp h
  cases v with
  | arg a n => cases hop
  -- only an operation computes an offset
  | result id n =>
    obtain ⟨⟨m, rs, m', hx, hk⟩, hops⟩ := executed_of_avail hf hc hav hop
    have hn : ∀ {r : Val ρ}, rs = [r] → c.env (.result id n) = r := by
      intro r hr
      rw [hr] at hk
      exact (List.mem_singleton.mp (List.mem_of_getElem? hk))
    split at hmatch
    · rename_i a b hkind hoperands
      have hcode : op.code = ⟨.add, op.code.types⟩ := by rw [← hkind]
      rw [hcode, hoperands] at hx
      rw [hoperands] at hops
      -- the constant may stand on either side of a sum
      split at hmatch
      · rename_i ha
        subst ha
        obtain ⟨ty, hb, -⟩ := env_of_constValue hf hc (hops b (by simp)) hmatch
        rw [List.map_cons, List.map_singleton, hb] at hx
        obtain ⟨y, hy, hrs⟩ := hx.add_right
        rw [hn hrs, hy]
        rfl
      split at hmatch
      · rename_i hb
        subst hb
        obtain ⟨ty, ha, -⟩ := env_of_constValue hf hc (hops a (by simp)) hmatch
        rw [List.map_cons, List.map_singleton, ha] at hx
        obtain ⟨y, hy, hrs⟩ := hx.add_left
        rw [hn hrs, hy, BitVec.add_comm]
        rfl
      · cases hmatch
    · rename_i a b hkind hoperands
      have hcode : op.code = ⟨.sub, op.code.types⟩ := by rw [← hkind]
      rw [hcode, hoperands] at hx
      rw [hoperands] at hops
      -- in a difference it stands on the right, and is negated
      split at hmatch
      · rename_i ha
        subst ha
        obtain ⟨n, hconst, hneg⟩ := Option.bind_eq_some_iff.mp hmatch
        obtain ⟨-, rfl⟩ := I128.checkedNeg_eq_some.mp hneg
        obtain ⟨ty, hb, -⟩ := env_of_constValue hf hc (hops b (by simp)) hconst
        rw [List.map_cons, List.map_singleton, hb] at hx
        obtain ⟨y, hy, hrs⟩ := hx.sub_right
        rw [hn hrs, hy, stepped, BitVec.ofInt_neg, BitVec.sub_eq_add_neg]
      · cases hmatch
    · cases hmatch

/-- A loop is entered over the edge of its preheader. -/
theorem env_of_preheader (hl : lp.Natural f.graph) {ph : β} (hph : preheader f lp = some ph)
    (hc : Reaches S.semantics f c) (hout : c.block ∉ lp.blocks) (hs : Step S.semantics f c e)
    (he : e.block = lp.header) {i : ℕ} {v : Value β}
    (hv : (edgeOperands f ph lp.header).bind (·[i]?) = some v) :
    e.env (.arg lp.header i) = c.env v ∧ ∃ edge ∈ (f.body c.block).terminator.edges,
      v ∈ edge.operands ∧ c.pc = f.last c.block := by
  cases hs with
  | op _ _ _ =>
    have hblock : c.block = lp.header := he
    exact absurd (hblock ▸ hl.header_mem) hout
  | @edge j edge hlast _ hedge =>
    have hmem := List.mem_of_getElem? hedge
    have htarget : edge.target = lp.header := he
    have houter : ∀ e' ∈ (f.body c.block).terminator.edges, e'.target = lp.header →
        (c.block, e') ∈ (incoming f lp.header).filter (·.1 ∉ lp.blocks) := fun e' he' ht =>
      List.mem_filter.mpr ⟨mem_incoming.mpr ⟨hc.mem_blocks, he', ht⟩, decide_eq_true hout⟩
    unfold preheader at hph
    split at hph
    · rename_i p hp
      rw [hp] at houter
      have hthis : (c.block, edge) = p := List.mem_singleton.mp (houter edge hmem htarget)
      obtain rfl : c.block = ph := by
        rw [← hthis] at hph
        exact Option.some.inj hph
      obtain ⟨operands, hops, hget⟩ := Option.bind_eq_some_iff.mp hv
      unfold edgeOperands at hops
      split at hops
      · obtain ⟨e', hfind, rfl⟩ := Option.map_eq_some_iff.mp hops
        have hthis' : (c.block, e') = p := List.mem_singleton.mp
          (houter e' (List.mem_of_find?_eq_some hfind) (by simpa using List.find?_some hfind))
        obtain rfl : e' = edge := congrArg Prod.snd (hthis'.trans hthis.symm)
        refine ⟨?_, e', hmem, List.mem_of_getElem? hget, hlast⟩
        show setArgs e'.target _ _ (.arg lp.header i) = _
        rw [htarget]
        exact setArgs_arg_self (by rw [List.getElem?_map, hget]; rfl)
      · cases hops
    · cases hph

/-- **Labels are sound.**  Along every run that enters the loop from outside, in every state of
iteration `k` (at its start, and on every path to a back edge): an argument labelled
`BasicIv { init, step }` is `init + k * step` modulo `2 ^ width`, an argument labelled `Invariant`
has the value with which the loop was entered. -/
theorem classifyArg_sound (hf : f.WellFormed) (hl : lp.Natural f.graph) {ph : β}
    (hph : preheader f lp = some ph) (fuel i : ℕ) :
    (∀ init step, classifyArg fuel f lp ph i = .basicIv init step →
      ∀ k e c, Iteration S f lp k e c → ∃ ty : IntegerType,
        c.env (.arg lp.header i) = .int ty (BitVec.ofInt ty.width (init + k * step))) ∧
    (classifyArg fuel f lp ph i = .invariant →
      ∀ k e c, Iteration S f lp k e c → c.env (.arg lp.header i) = e.env (.arg lp.header i)) := by
  unfold classifyArg
  cases hvalues : recurrenceValues fuel f lp i with
  | none => exact ⟨fun _ _ h => (by cases h), fun h => (by cases h)⟩
  | some values =>
    -- a recurrence steps by its constant, an invariant keeps its value
    refine ⟨fun init step h k e c hiter => ?_, fun h k e c hiter => ?_⟩
    · simp only at h
      split at h
      · cases h
      split at h
      · cases h
      rename_i step' hhead
      split at h
      · rename_i hall
        split at h
        · rename_i init' hinit
          cases h
          -- the start is a constant in the preheader
          obtain ⟨v, hv, hconst⟩ := Option.bind_eq_some_iff.mp hinit
          obtain ⟨c₀, hc₀, hout, hs, he⟩ := hiter.entered
          obtain ⟨henv, edge, hedge, hvmem, hlast⟩ := env_of_preheader hl hph hc₀ hout hs he hv
          have hav := (hf.edges hc₀.reachable.1 edge hedge).2 v hvmem
          rw [← hlast] at hav
          obtain ⟨ty, hty, -⟩ := env_of_constValue hf hc₀ hav hconst
          have hrun := env_of_iteration hf hl hvalues
            (fun u hu d hd hu' => env_of_constantOffset hf hd hu' (hall u hu)) hiter
          exact ⟨ty, by rw [hrun, henv, hty, iterate_stepped]⟩
        · cases h
      · cases h
    -- every value that is fed back is the argument itself or a constant step of it
    · simp only at h
      split at h
      · rename_i hall
        have hsame : ∀ u ∈ values, ∀ d : Config β (Val ρ) M, Reaches S.semantics f d →
            f.Avail u d.block d.pc → d.env u = id (d.env (.arg lp.header i)) :=
          fun u hu d _ _ => congrArg d.env (hall u hu)
        rw [env_of_iteration hf hl hvalues hsame hiter, Function.iterate_id]
        rfl
      split at h
      · cases h
      split at h
      · split at h
        · cases h
        · cases h
      · cases h

/-- The entry is a block of the example. -/
private theorem byteLoop_entry : 0 ∈ [0, 1, 2, 3, 4, 5, 6] := List.mem_cons_self

/-- A byte counter from 250 up, with a flag that is passed around.  The body counts on either of two
ways; block 5 merges them, and block 4 can go straight back to the header. -/
def byteLoop : Function ℕ where
  entry := 0
  blocks := [0, 1, 2, 3, 4, 5, 6]
  body b :=
    if b = 0 then ⟨1, [⟨0, ⟨.constant (some 250), [.int ⟨8, .unsigned⟩]⟩, [], 1⟩],
      ⟨.goto, [], [⟨1, [.result 0 0, .arg 0 0]⟩]⟩⟩
    else if b = 1 then ⟨2, [], ⟨.condBr, [.arg 1 1], [⟨2, []⟩, ⟨6, []⟩]⟩⟩
    else if b = 2 then ⟨0, [], ⟨.condBr, [.arg 1 1], [⟨3, []⟩, ⟨4, []⟩]⟩⟩
    else if b = 3 then ⟨0, [⟨1, ⟨.constant (some 1), [.int ⟨8, .unsigned⟩]⟩, [], 1⟩,
        ⟨2, ⟨.add, [.int ⟨8, .unsigned⟩]⟩, [.arg 1 0, .result 1 0], 1⟩],
      ⟨.goto, [], [⟨5, [.result 2 0]⟩]⟩⟩
    else if b = 4 then ⟨0, [⟨3, ⟨.constant (some 1), [.int ⟨8, .unsigned⟩]⟩, [], 1⟩,
        ⟨4, ⟨.add, [.int ⟨8, .unsigned⟩]⟩, [.result 3 0, .arg 1 0], 1⟩],
      ⟨.condBr, [.arg 1 1], [⟨5, [.result 4 0]⟩, ⟨1, [.result 4 0, .arg 1 1]⟩]⟩⟩
    else if b = 5 then ⟨1, [], ⟨.goto, [], [⟨1, [.arg 5 0, .arg 1 1]⟩]⟩⟩
    else ⟨0, [], ⟨.other 0 false, [], []⟩⟩
  entry_mem := byteLoop_entry
  edge_mem := by decide

/-- The loop of the example. -/
def byteLoopLoop : Loop ℕ := ⟨1, [4, 5], LoopInfo.loopBlocks byteLoop.graph 1 [4, 5], none, []⟩

/-- The loop of the example is natural. -/
theorem natural_byteLoop : byteLoopLoop.Natural byteLoop.graph := by
  have hlatch : ∀ k, k ∈ [4, 5] ↔ byteLoop.graph.IsLatch 1 k := by
    intro k
    constructor
    · intro hk
      rcases List.mem_cons.mp hk with rfl | hk
      · exact ⟨by decide, by decide, Flowgraph.dominates_iff.mp (by decide +kernel)⟩
      · obtain rfl := List.mem_singleton.mp hk
        exact ⟨by decide, by decide, Flowgraph.dominates_iff.mp (by decide +kernel)⟩
    · rintro ⟨hk, hedge, hdom⟩
      have hnode : k ∈ [0, 1, 2, 3, 4, 5, 6] := hk
      simp only [List.mem_cons, List.not_mem_nil, or_false] at hnode
      rcases hnode with rfl | rfl | rfl | rfl | rfl | rfl | rfl
      · exact absurd (Flowgraph.dominates_iff.mpr hdom) (by decide +kernel)
      · exact absurd hedge (by decide)
      · exact absurd hedge (by decide)
      · exact absurd hedge (by decide)
      · exact List.mem_cons_self
      · exact List.mem_cons_of_mem _ List.mem_cons_self
      · exact absurd hedge (by decide)
  exact ⟨hlatch, fun b => LoopInfo.mem_loopBlocks hlatch⟩

/-- After one back edge, through the block that merges the two ways, the counter is 251. -/
theorem classifyArg_sound_byteLoop :
    classifyArg 2 byteLoop byteLoopLoop 0 0 = .basicIv 250 1 ∧
    classifyArg 2 byteLoop byteLoopLoop 0 1 = .invariant ∧
    ∃ e c, Iteration Machine.still byteLoop byteLoopLoop 1 e c ∧ (c.block = 1 ∧ c.pc = 0) ∧
      (∃ ty : IntegerType, c.env (.arg 1 0) = .int ty (BitVec.ofInt ty.width 251)) ∧
      c.env (.arg 1 1) = e.env (.arg 1 1) := by
  have hf : byteLoop.WellFormed := Func.wellFormed_of_isSsa (by decide +kernel)
  have hph : preheader byteLoop byteLoopLoop = some 0 := by decide +kernel
  have hcounter : classifyArg 2 byteLoop byteLoopLoop 0 0 = .basicIv 250 1 := by decide +kernel
  have hflag : classifyArg 2 byteLoop byteLoopLoop 0 1 = .invariant := by decide +kernel
  -- the run that takes the back edge of block 5 once
  let u8 : IntegerType := ⟨8, .unsigned⟩
  let t : Val Unit := .ofBool ⟨1, .signless⟩ true
  let c₀ : Config ℕ (Val Unit) Unit := ⟨0, 0, fun _ => t, ()⟩
  let c₁ : Config ℕ (Val Unit) Unit := ⟨0, 1, setResults 0 [.int u8 250] c₀.env, ()⟩
  let e : Config ℕ (Val Unit) Unit := ⟨1, 0, setArgs 1 [.int u8 250, t] c₁.env, ()⟩
  let c₂ : Config ℕ (Val Unit) Unit := ⟨2, 0, setArgs 2 [] e.env, ()⟩
  let c₃ : Config ℕ (Val Unit) Unit := ⟨3, 0, setArgs 3 [] c₂.env, ()⟩
  let c₄ : Config ℕ (Val Unit) Unit := ⟨3, 1, setResults 1 [.int u8 1] c₃.env, ()⟩
  let c₅ : Config ℕ (Val Unit) Unit := ⟨3, 2, setResults 2 [.int u8 251] c₄.env, ()⟩
  let c₆ : Config ℕ (Val Unit) Unit := ⟨5, 0, setArgs 5 [.int u8 251] c₅.env, ()⟩
  let c : Config ℕ (Val Unit) Unit := ⟨1, 0, setArgs 1 [.int u8 251, t] c₆.env, ()⟩
  have h₁ : Reaches Machine.still.semantics byteLoop c₁ := .step (.initial ⟨rfl, rfl⟩)
    (@Step.op _ _ _ _ _ _ Machine.still.semantics byteLoop c₀ _ _ _ rfl .constant rfl)
  have he : Iteration Machine.still byteLoop byteLoopLoop 0 e e := .enter h₁ (by decide +kernel)
    (@Step.edge _ _ _ _ _ _ Machine.still.semantics byteLoop c₁ 0 _ rfl .goto rfl) rfl
  have h₂ : Iteration Machine.still byteLoop byteLoopLoop 0 e c₂ := .inside he
    (@Step.edge _ _ _ _ _ _ Machine.still.semantics byteLoop e 0 _ rfl
      (@Take.condBr _ _ _ ⟨1, .signless⟩ true rfl) rfl) (by decide +kernel) (by decide)
  have h₃ : Iteration Machine.still byteLoop byteLoopLoop 0 e c₃ := .inside h₂
    (@Step.edge _ _ _ _ _ _ Machine.still.semantics byteLoop c₂ 0 _ rfl
      (@Take.condBr _ _ _ ⟨1, .signless⟩ true rfl) rfl) (by decide +kernel) (by decide)
  have h₄ : Iteration Machine.still byteLoop byteLoopLoop 0 e c₄ := .inside h₃
    (@Step.op _ _ _ _ _ _ Machine.still.semantics byteLoop c₃ _ _ _ rfl .constant rfl)
    (by decide +kernel) (by decide)
  have h₅ : Iteration Machine.still byteLoop byteLoopLoop 0 e c₅ := .inside h₄
    (@Step.op _ _ _ _ _ _ Machine.still.semantics byteLoop c₄ _ _ _ rfl
      (@Exec.add _ _ _ _ u8 250 1 ()) rfl) (by decide +kernel) (by decide)
  have h₆ : Iteration Machine.still byteLoop byteLoopLoop 0 e c₆ := .inside h₅
    (@Step.edge _ _ _ _ _ _ Machine.still.semantics byteLoop c₅ 0 _ rfl .goto rfl)
    (by decide +kernel) (by decide)
  have hc : Iteration Machine.still byteLoop byteLoopLoop 1 e c := .back h₆
    (@Step.edge _ _ _ _ _ _ Machine.still.semantics byteLoop c₆ 0 _ rfl .goto rfl) rfl rfl
  have hiv := (classifyArg_sound (S := Machine.still) hf natural_byteLoop hph 2 0).1
  have hinv := (classifyArg_sound (S := Machine.still) hf natural_byteLoop hph 2 1).2
  exact ⟨hcounter, hflag, e, c, hc, ⟨rfl, rfl⟩, hiv 250 1 hcounter 1 e c hc, hinv hflag 1 e c hc⟩

end Sound

end CudaOxide.Mir
