import CudaOxide.Mir.Canonicalize.ArmRun

/-!
# Replacing the checked step

* `CheckedStep.insertPlain`, `foldCheckedStep` — the rewrite: a plain step in place of the sum that
  was read back, a jump in place of the branch, and the dead operations of the chain erased.
* `Inserted`, `insertPlain_simulates`, `insertPlain_simulated` — with the plain step the function
  runs as before, and runs no other way.
-/

namespace CudaOxide.Mir

open Lib Lib.Ssa

variable {β : Type*} [DecidableEq β] {ρ M : Type*} {S : Machine ρ M} {f : Function β}

/-! ### The rewrite -/

/-- An identifier no operation of the function has. -/
def freshId (f : Function β) : ℕ :=
  ((f.blocks.flatMap fun b => (f.body b).ops).map (·.id)).foldr max 0 + 1

namespace CheckedStep

/-- The value of the plain step. -/
def next (_ : CheckedStep f) : Value β := .result (freshId f) 0

/-- `replace_all_uses_with`: every use of the sum reads the plain step. -/
def renamed (step : CheckedStep f) (v : Value β) : Value β := if v = step.sum then step.next else v

/-- The plain `add` or `sub`, of the type of the sum. -/
def plain (step : CheckedStep f) : Op β OpCode where
  id := freshId f
  code := ⟨if step.subtract then .sub else .add,
    ((definingOp f step.sum).map (·.code.types)).getD []⟩
  operands := [step.counter, step.amount]
  results := 1

/-- The operations of a block behind the replacement of the sum; the plain step stands last in the
arm. -/
def ops (step : CheckedStep f) (b : β) : List (Op β OpCode) :=
  ((f.body b).ops ++ if b = step.arm then [step.plain] else []).map fun op =>
    { op with operands := op.operands.map step.renamed }

/-- The branch of the arm becomes a jump, with the operands that the branch had before. -/
def terminator (step : CheckedStep f) (b : β) : Terminator β TermKind :=
  if b = step.arm then ⟨.goto, [], [⟨step.inRange, step.inRangeOperands⟩]⟩
  else
    { code := (f.body b).terminator.code
      operands := (f.body b).terminator.operands.map step.renamed
      edges := (f.body b).terminator.edges.map fun e => ⟨e.target, e.operands.map step.renamed⟩ }

/-- The function with the plain step, before anything is erased. -/
def insertPlain (step : CheckedStep f) : Function β where
  entry := f.entry
  blocks := f.blocks
  body b := ⟨(f.body b).arguments, step.ops b, step.terminator b⟩
  entry_mem := f.entry_mem
  edge_mem := by
    intro b hb e he
    have he : e ∈ (step.terminator b).edges := he
    unfold terminator at he
    split at he
    · rw [List.mem_singleton.mp he]
      exact mem_blocks_of_incoming step.uses
    · obtain ⟨e', he', rfl⟩ := List.mem_map.mp he
      show e'.target ∈ f.blocks
      exact f.edge_mem hb he'

end CheckedStep

/-- Erase an operation of the chain, unless something still reads it; the store goes when it is the
only use of the slot. -/
def eraseDead (slot : Value β) (f : Function β) (op : Op β OpCode) : Function β :=
  let dead : Bool :=
    match op.code.kind with
    | .store _ => (usersOf f slot).length = 1
    | _ => (List.range op.results).all fun k => usersOf f (.result op.id k) = []
  if dead then f.erase [op.id] else f

/-- `fold_checked_step` -/
def foldCheckedStep (step : CheckedStep f) : Function β :=
  step.chain.reverse.foldl (eraseDead step.slot) step.insertPlain

/-! ### The new value -/

omit [DecidableEq β] in

/-- The new operation has an id that no other one has. -/
theorem id_lt_freshId {b : β} {i : ℕ} {op : Op β OpCode} (h : f.At b i op) : op.id < freshId f := by
  have hmem : op.id ∈ (f.blocks.flatMap fun b => (f.body b).ops).map (·.id) :=
    List.mem_map.mpr ⟨op, List.mem_flatMap.mpr ⟨b, h.1, List.mem_of_getElem? h.2⟩, rfl⟩
  have hle : ∀ l : List ℕ, ∀ x ∈ l, x ≤ l.foldr max 0 := by
    intro l
    induction l with
    | nil => simp
    | cons y l ih =>
      intro x hx
      rcases List.mem_cons.mp hx with rfl | hx
      · exact le_max_left _ _
      · exact (ih x hx).trans (le_max_right _ _)
  exact Nat.lt_succ_of_le (hle _ _ hmem)

/-- No use reads the new value before the rewrite. -/
theorem CheckedStep.ne_next (step : CheckedStep f) {v : Value β} {b : β} {i : ℕ}
    (hv : f.Avail v b i) : v ≠ step.next := by
  cases v with
  | arg a k => exact fun h => by cases h
  | result id k =>
    obtain ⟨a, j, op, hop, rfl, -⟩ := hv
    intro h
    have hid : op.id = freshId f := (Value.result.inj h).1
    exact (id_lt_freshId hop).ne hid

namespace CheckedStep.Matched

variable {fuel index : ℕ} {lp : Loop β} {step : CheckedStep f} {st : Scan β}
  {pair flag lo hi : Value β} {overflow : Edge β} {a₀ a₁ : β} {c c' : Config β (Val ρ) M}

/-- The sum is loaded in the arm, behind every store. -/
theorem sum_spec (hm : step.Matched fuel lp index st pair flag lo hi overflow) (hf : f.WellFormed)
    (hr : f.graph.Reachable step.arm) :
    ∃ k load, f.At step.arm k load ∧ step.sum = .result load.id 0 ∧ load.code.kind = .load false ∧
      (∃ i store p, i < k ∧ f.At step.arm i store ∧ store.code.kind = .store false ∧
        store.operands = [p, pair] ∧ st.slot = some p) ∧
      ∃ a, load.operands = [a] ∧ st.addresses 0 = some a := by
  have hseen := hm.seen
  have hin := hr.mem_nodes
  obtain ⟨k, load, hk, hload, hkind, hsum, a, hops, ha⟩ := hseen.loaded 0 _ hm.sum
  obtain ⟨j, fieldAddr, hj, hfieldAddr, -, rfl, i, store, hi, hstore, hkind'⟩ :=
    hseen.addresses 0 a ha
  obtain ⟨p, pair', a', b', subtract', hops', hslot, hchecked⟩ :=
    (hseen.role i store (hi.trans hj) hstore).slot_of_store hkind'
  obtain rfl : pair = pair' := by
    rw [hm.checked, Option.some.injEq] at hchecked
    exact (Prod.mk.inj hchecked).1
  have hjk : j < k := hf.lt_of_avail ⟨hin, hfieldAddr⟩
    (hf.operands hr ⟨hin, hload⟩ _ (hops ▸ List.mem_cons_self))
  exact ⟨k, load, ⟨hin, hload⟩, hsum, hkind,
    ⟨i, store, p, hi.trans hjk, ⟨hin, hstore⟩, hkind', hops',
    hslot⟩, _, hops, ha⟩

/-- No operation of the arm reads the sum; those that are skipped have no operands when they run. -/
theorem sum_not_mem (hm : step.Matched fuel lp index st pair flag lo hi overflow)
    (hf : f.WellFormed)
    (hr : f.graph.Reachable step.arm) {n : ℕ} {op : Op β OpCode} (hop : f.At step.arm n op)
    (hskip : ¬Skipped op.code.kind) : step.sum ∉ op.operands := by
  intro hmem
  have hseen := hm.seen
  have hin := hr.mem_nodes
  obtain ⟨k, load, hload, hsum, hkind, ⟨i, store, p, hik, hstore, hkind', hops', hslot⟩, a,
    hops, ha⟩ :=
    hm.sum_spec hf hr
  -- so the operation stands behind the load
  have hlt : ∀ {j : ℕ} {op' : Op β OpCode}, f.At step.arm j op' → step.sum ∈ op'.operands → k < j :=
    fun hop' hmem' => hf.lt_of_avail hload (hsum ▸ hf.operands hr hop' _ hmem')
  have hkn := hlt hop hmem
  cases hseen.role n op hop.lt_last hop.2 with
  | skip h => exact hskip h
  | checked _ _ hchecked =>
    -- the store needs the pair
    rw [hm.checked, Option.some.injEq] at hchecked
    have hpair := hf.operands hr hstore pair (hops' ▸ List.mem_cons_of_mem _ List.mem_cons_self)
    rw [(Prod.mk.inj hchecked).1] at hpair
    have := hf.lt_of_avail hop hpair
    omega
  | store hkind'' _ _ _ =>
    have := hseen.store_unique i store n op hstore.lt_last hstore.2 hkind' hop.lt_last hop.2 hkind''
    omega
  | @fieldAddr _ p' _ hoperands hslot' _ =>
    obtain rfl : p = p' := Option.some.inj (hslot.symm.trans hslot')
    rw [hoperands, List.mem_singleton] at hmem
    have := hlt hstore (hops' ▸ hmem ▸ List.mem_cons_self)
    omega
  | load _ hoperands haddress _ =>
    -- an address is no loaded value
    obtain ⟨j, fieldAddr, -, hfieldAddr, hkind'', heq, -⟩ := hseen.addresses _ _ haddress
    rw [hoperands, List.mem_singleton] at hmem
    rw [← hmem, hsum] at heq
    have hsame := hf.eq_of_id hload ⟨hin, hfieldAddr⟩ (Value.result.inj heq).1
    rw [hsame, hkind''] at hkind
    cases hkind
  | not _ hoperands hloaded _ =>
    -- the sum and the flag are loaded from different addresses
    obtain ⟨j, load', -, hload', -, heq, a', hops'', ha'⟩ := hseen.loaded 1 _ hloaded
    rw [hoperands, List.mem_singleton] at hmem
    rw [← hmem, hsum] at heq
    obtain rfl := hf.eq_of_id hload ⟨hin, hload'⟩ (Value.result.inj heq).1
    rw [hops, List.cons.injEq] at hops''
    rw [← hops''.1] at ha'
    obtain ⟨j₀, addr₀, -, haddr₀, hkind₀, heq₀, -⟩ := hseen.addresses 0 _ ha
    obtain ⟨j₁, addr₁, -, haddr₁, hkind₁, heq₁, -⟩ := hseen.addresses 1 _ ha'
    rw [heq₀] at heq₁
    obtain rfl := hf.eq_of_id ⟨hin, haddr₀⟩ ⟨hin, haddr₁⟩ (Value.result.inj heq₁).1
    rw [hkind₀] at hkind₁
    cases hkind₁

end CheckedStep.Matched

/-! ### With the plain step -/

/-- The states of the function with the plain step.  It is one operation ahead between the plain
step and the jump. -/
structure Inserted (step : CheckedStep f) (c c' : Config β (Val ρ) M) : Prop where
  block : c'.block = c.block
  mem : c'.mem = c.mem
  env : ∀ v, v ≠ step.next → c'.env v = c.env v
  sum : f.graph.Dominates step.arm c.block → c.block ≠ step.arm → c'.env step.next = c.env step.sum
  pc : c'.pc = c.pc ∨ (c.block = step.arm ∧ c.pc = f.last step.arm ∧ c'.pc = c.pc + 1 ∧
    c'.env step.next = c.env step.sum)

namespace CheckedStep

variable (step : CheckedStep f)

/-- The plain operation adds or subtracts. -/
theorem plain_kind : step.plain.code.kind = .add ∨ step.plain.code.kind = .sub := by
  show (if step.subtract then OpKind.sub else .add) = _ ∨
    (if step.subtract then OpKind.sub else .add) = _
  cases step.subtract
  · exact .inl rfl
  · exact .inr rfl

/-- The operations of the function are kept, their operands renamed. -/
theorem ops_of_lt {b : β} {i : ℕ} {op : Op β OpCode} (h : (f.body b).ops[i]? = some op) :
    (step.insertPlain.body b).ops[i]? =
      some { op with operands := op.operands.map step.renamed } := by
  show (List.map _ _)[i]? = _
  rw [List.getElem?_map, List.getElem?_append_left (List.getElem?_eq_some_iff.mp h).1, h]
  rfl

/-- The operations of the new function are the old ones and the plain step. -/
theorem ops_cases {b : β} {i : ℕ} {op' : Op β OpCode}
    (h : (step.insertPlain.body b).ops[i]? = some op') :
    (∃ op, (f.body b).ops[i]? = some op ∧
      op' = { op with operands := op.operands.map step.renamed }) ∨
    (b = step.arm ∧ i = f.last b ∧
      op' = { step.plain with operands := step.plain.operands.map step.renamed }) := by
  have h : (((f.body b).ops ++ if b = step.arm then [step.plain] else []).map fun op =>
    ({ op with operands := op.operands.map step.renamed } : Op β OpCode))[i]? = some op' := h
  rw [List.getElem?_map, Option.map_eq_some_iff] at h
  obtain ⟨op, hop, rfl⟩ := h
  rw [List.getElem?_append] at hop
  split at hop
  · exact .inl ⟨op, hop, rfl⟩
  · rename_i hlen
    split at hop
    · rename_i harm
      obtain ⟨hi, heq⟩ := List.getElem?_eq_some_iff.mp hop
      rw [List.length_singleton] at hi
      rw [List.getElem_singleton] at heq
      refine .inr ⟨harm, ?_, by rw [heq]⟩
      show i = (f.body b).ops.length
      omega
    · cases hop

/-- The plain step is the last operation of the arm. -/
theorem ops_last : (step.insertPlain.body step.arm).ops[f.last step.arm]? =
    some { step.plain with operands := step.plain.operands.map step.renamed } := by
  show (List.map _ _)[(f.body step.arm).ops.length]? = _
  rw [if_pos rfl, List.getElem?_map, List.getElem?_append_right le_rfl, Nat.sub_self]
  rfl

/-- The arm has one operation more. -/
theorem last_arm : step.insertPlain.last step.arm = f.last step.arm + 1 := by
  show (List.map _ _).length = _
  rw [List.length_map, List.length_append, if_pos rfl]
  rfl

/-- Other blocks have as many operations as before. -/
theorem last_of_ne {b : β} (h : b ≠ step.arm) : step.insertPlain.last b = f.last b := by
  show (List.map _ _).length = _
  rw [List.length_map, List.length_append, if_neg h]
  rfl

/-- The arm jumps to the block that is in range. -/
theorem terminator_arm : (step.insertPlain.body step.arm).terminator =
    ⟨.goto, [], [⟨step.inRange, step.inRangeOperands⟩]⟩ := if_pos rfl

/-- Other blocks keep their terminator, its operands renamed. -/
theorem terminator_of_ne {b : β} (h : b ≠ step.arm) : (step.insertPlain.body b).terminator =
    { code := (f.body b).terminator.code
      operands := (f.body b).terminator.operands.map step.renamed
      edges := (f.body b).terminator.edges.map fun e => ⟨e.target, e.operands.map step.renamed⟩ } :=
  if_neg h

/-- The edges of other blocks are kept, their operands renamed. -/
theorem edges_of_ne {b : β} {i : ℕ} (h : b ≠ step.arm) :
    (step.insertPlain.body b).terminator.edges[i]? = ((f.body b).terminator.edges[i]?).map
      fun e => ⟨e.target, e.operands.map step.renamed⟩ := by
  rw [step.terminator_of_ne h]
  exact List.getElem?_map ..

/-- Only the sum is renamed. -/
theorem renamed_of_ne {v : Value β} (h : v ≠ step.sum) : step.renamed v = v := if_neg h

end CheckedStep

section Inserted

variable {step : CheckedStep f} {c c' d d' : Config β (Val ρ) M} {fuel index : ℕ} {lp : Loop β}
  {st : Scan β} {pair flag lo hi : Value β} {overflow : Edge β} {a₀ a₁ : β}

/-- The sum is the result of a load in the arm. -/
theorem CheckedStep.Matched.sum_at (hm : step.Matched fuel lp index st pair flag lo hi overflow) :
    ∃ k load, f.At step.arm k load ∧ step.sum = .result load.id 0 := by
  obtain ⟨k, load, -, hload, -, hsum, -⟩ := hm.seen.loaded 0 _ hm.sum
  exact ⟨k, load, ⟨mem_blocks_of_incoming hm.uses, hload⟩, hsum⟩

/-- A use that is renamed reads the same value. -/
theorem Inserted.env_renamed (h : Inserted step c c')
    (hm : step.Matched fuel lp index st pair flag lo hi overflow) (hf : f.WellFormed) {v : Value β}
    {i : ℕ} (hv : f.Avail v c.block i) (hne : v = step.sum → c.block ≠ step.arm) :
    c'.env (step.renamed v) = c.env v := by
  by_cases hsum : v = step.sum
  · obtain ⟨k, load, hload, heq⟩ := hm.sum_at
    rw [CheckedStep.renamed, if_pos hsum, hsum]
    refine h.sum (hf.dominates_of_avail hload (k := 0) (i := i) ?_) (hne hsum)
    rwa [← heq, ← hsum]
  · rw [step.renamed_of_ne hsum]
    exact h.env v (step.ne_next hv)

/-- The operands of an operation that runs have the same values as before. -/
theorem Inserted.map_renamed (h : Inserted step c c')
    (hm : step.Matched fuel lp index st pair flag lo hi overflow) (hf : f.WellFormed)
    (hc : Reaches S.semantics f c) {op : Op β OpCode} (hop : (f.body c.block).ops[c.pc]? = some op)
    (hskip : Skipped op.code.kind → op.operands = []) :
    (op.operands.map step.renamed).map c'.env = op.operands.map c.env := by
  rw [List.map_map]
  refine List.map_congr_left fun v hv => ?_
  have hr := hc.reachable.1
  have hat : f.At c.block c.pc op := ⟨hc.mem_blocks, hop⟩
  refine h.env_renamed hm hf (hf.operands hr hat v hv) ?_
  rintro rfl harm
  rw [harm] at hr hat
  refine hm.sum_not_mem hf hr hat (fun hs => ?_) hv
  rw [hskip hs] at hv
  cases hv

/-- What the scan skips has no operands. -/
theorem Exec.skipped_inv {code : OpCode} {args rs : List (Val ρ)} {m m' : M}
    (h : Exec S code args m rs m') (hskip : Skipped code.kind) : args = [] := by
  cases h with
  | constant | storageLive | storageDead => rfl
  | @arith code' args' r m' hforeign _ =>
    revert hskip hforeign
    rcases code with ⟨kind, types⟩
    cases kind with
    | constant value =>
      cases value with
      | none => exact fun _ h => h
      | some c => exact fun _ h => by cases h
    | _ =>
      intro hskip hforeign
      first | exact hskip.elim | exact hforeign.elim
  | _ => cases hskip

/-- An operation leaves the two states related. -/
theorem Inserted.op (h : Inserted step c c')
    (hm : step.Matched fuel lp index st pair flag lo hi overflow) (hf : f.WellFormed)
    (hc : Reaches S.semantics f c) {op : Op β OpCode} (hop : (f.body c.block).ops[c.pc]? = some op)
    (hpc : c'.pc = c.pc) (rs : List (Val ρ)) (m : M) :
    Inserted step ⟨c.block, c.pc + 1, setResults op.id rs c.env, m⟩
      ⟨c'.block, c'.pc + 1, setResults op.id rs c'.env, m⟩ where
  block := h.block
  mem := rfl
  env := setResults_congr (E := fun v => v = step.next) rs h.env
  sum hdom hne := by
    have hat : f.At c.block c.pc op := ⟨hc.mem_blocks, hop⟩
    obtain ⟨k, load, hload, heq⟩ := hm.sum_at
    have hnext : setResults op.id rs c'.env step.next = c'.env step.next :=
      setResults_of_ne (id_lt_freshId hat).ne'
    have hsum : setResults op.id rs c.env step.sum = c.env step.sum := by
      rw [heq]
      exact setResults_of_ne fun hid => hne (hf.unique hat hload hid.symm).1
    show setResults op.id rs c'.env step.next = setResults op.id rs c.env step.sum
    rw [hnext, hsum, h.sum hdom hne]
  pc := .inl (by rw [hpc])

/-- So does an edge, if the new value is there wherever the sum may be read. -/
theorem Inserted.edge {env : Value β → Val ρ} (henv : ∀ v, v ≠ step.next → env v = c.env v)
    (hm : step.Matched fuel lp index st pair flag lo hi overflow) {b : β}
      (vs : List (Val ρ)) (m : M)
    (hnext : f.graph.Dominates step.arm b → b ≠ step.arm → env step.next = c.env step.sum) :
    Inserted step ⟨b, 0, setArgs b vs c.env, m⟩ ⟨b, 0, setArgs b vs env, m⟩ where
  block := rfl
  mem := rfl
  env v hv := by
    cases v with
    | result id k => exact henv _ hv
    | arg a k =>
      show (if a = b then _ else _) = (if a = b then _ else _)
      rw [henv _ hv]
  sum hdom hne := by
    obtain ⟨k, load, -, heq⟩ := hm.sum_at
    have hsum : setArgs b vs c.env step.sum = c.env step.sum := by
      rw [heq]
      rfl
    show env step.next = setArgs b vs c.env step.sum
    rw [hsum, hnext hdom hne]
  pc := .inl rfl

/-- The edge into a block that the arm dominates comes from the arm or from another such block. -/
theorem Inserted.next_of_edge (h : Inserted step c c') {b : β} (hsucc : b ∈ f.graph.succs c.block)
    (harm : c.block ≠ step.arm) (hdom : f.graph.Dominates step.arm b) (hne : b ≠ step.arm) :
    c'.env step.next = c.env step.sum :=
  h.sum (hdom.of_edge hne.symm hsucc) harm

/-- The plain step computes what the checked one has put into the sum. -/
theorem exec_plain {ty : IntegerType} {x y : BitVec ty.width} {m m' : M} {rs : List (Val ρ)} :
    Exec S step.plain.code [.int ty x, .int ty y] m rs m' ↔
      rs = [.int ty (plainStep step.subtract x y)] ∧ m' = m := by
  have hcode : step.plain.code = ⟨if step.subtract then .sub else .add, step.plain.code.types⟩ :=
    rfl
  rw [hcode]
  unfold plainStep
  cases step.subtract with
  | false =>
    constructor
    · intro h
      obtain ⟨z, hz, rfl⟩ := Exec.add_left h
      rw [Val.int.injEq] at hz
      rw [← eq_of_heq hz.2]
      exact ⟨rfl, h.mem_eq (fun v => (by simp)) fun n => (by simp)⟩
    · rintro ⟨rfl, rfl⟩
      exact .add
  | true =>
    constructor
    · intro h
      obtain ⟨z, hz, rfl⟩ := Exec.sub_right h
      rw [Val.int.injEq] at hz
      rw [← eq_of_heq hz.2]
      exact ⟨rfl, h.mem_eq (fun v => (by simp)) fun n => (by simp)⟩
    · rintro ⟨rfl, rfl⟩
      exact .sub

/-- The operands of the checked operation are no sums. -/
theorem CheckedStep.Matched.counter_amount
    (hm : step.Matched fuel lp index st pair flag lo hi overflow) (hf : f.WellFormed)
    (hr : f.graph.Reachable step.arm) :
    ∀ v ∈ [step.counter, step.amount], f.Avail v step.arm (f.last step.arm) ∧ v ≠ step.sum := by
  obtain ⟨k, op, hk, hop, hkind, hpair⟩ := hm.seen.checked _ hm.checked
  obtain ⟨a, b, hops, hchecked⟩ := (hm.seen.role k op hk hop).checked_of_kind hkind
  rw [hm.checked, Option.some.injEq] at hchecked
  obtain ⟨rfl, hrest⟩ := Prod.mk.inj (Prod.mk.inj hchecked).2
  obtain ⟨rfl, -⟩ := Prod.mk.inj hrest
  have hat : f.At step.arm k op := ⟨hr.mem_nodes, hop⟩
  rw [← hops]
  intro v hv
  refine ⟨(hf.operands hr hat v hv).mono hk.le, ?_⟩
  rintro rfl
  refine hm.sum_not_mem hf hr hat (fun hskip => ?_) hv
  rw [hkind] at hskip
  unfold checkedKind at hskip
  split at hskip <;> exact hskip

/-- The two functions start alike. -/
theorem Inserted.start (step : CheckedStep f) (hc : Initial f c) : Inserted step c c where
  block := rfl
  mem := rfl
  env _ _ := rfl
  sum hdom hne := by
    rw [hc.1] at hdom hne
    exact absurd hdom.eq_entry.symm hne
  pc := .inl rfl

/-- Before the end of its block, neither state is ahead. -/
theorem Inserted.pc_eq (h : Inserted step c c') {op : Op β OpCode}
    (hop : (f.body c.block).ops[c.pc]? = some op) : c'.pc = c.pc := by
  rcases h.pc with hpc | ⟨harm, hlast, -⟩
  · exact hpc
  · have hlt := (List.getElem?_eq_some_iff.mp hop).1
    rw [hlast, harm] at hlt
    exact absurd hlt (lt_irrefl _)

/-- The plain step reads what the checked one has read. -/
theorem Inserted.map_step (h : Inserted step c c')
    (hm : step.Matched fuel lp index st pair flag lo hi overflow) (hf : f.WellFormed)
    (hc : Reaches S.semantics f c) (hblock : c.block = step.arm) :
    ([step.counter, step.amount].map step.renamed).map c'.env =
      [step.counter, step.amount].map c.env := by
  rw [List.map_map]
  refine List.map_congr_left fun v hv => ?_
  obtain ⟨hav, hne⟩ := hm.counter_amount hf (hblock ▸ hc.reachable.1) v hv
  rw [← hblock] at hav
  exact h.env_renamed hm hf hav fun heq => absurd heq hne

/-- It changes nothing but the new value. -/
theorem setResults_next {r : Val ρ} (env : Value β → Val ρ) (v : Value β) (hv : v ≠ step.next) :
    setResults (freshId f) [r] env v = env v := by
  refine setResults_of_not (E := fun v => v = step.next) (fun k hk => ?_) v hv
  obtain rfl : k = 0 := Nat.lt_one_iff.mp hk
  rfl

/-- Up to the insertion the program counters agree. -/
theorem Inserted.pc_of_op (h : Inserted step c c') {op : Op β OpCode}
    (hop : (f.body c.block).ops[c'.pc]? = some op) : c'.pc = c.pc := by
  rcases h.pc with hpc | ⟨harm, hlast, hpc, -⟩
  · exact hpc
  · have hlt := (List.getElem?_eq_some_iff.mp hop).1
    rw [hpc, hlast, harm] at hlt
    exact absurd hlt Nat.not_succ_lt_self

/-- At the end of the arm the new function makes the plain step, unless it has just made it. -/
theorem Inserted.plain (h : Inserted step c c')
    (hm : step.Matched fuel lp index st pair flag lo hi overflow)
    (hS : S.ReadsBack) (hf : f.WellFormed) (hl : lp.Natural f.graph)
    (harms : headerArms f lp = some (a₀, a₁)) (hc : Reaches S.semantics f c)
    (hblock : c.block = step.arm) (hpc : c.pc = f.last step.arm) :
    ∃ env, Relation.ReflTransGen (Step S.semantics step.insertPlain) c'
        ⟨step.arm, f.last step.arm + 1, env, c.mem⟩ ∧
      (∀ v, v ≠ step.next → env v = c.env v) ∧ env step.next = c.env step.sum := by
  rcases h.pc with hpc' | ⟨-, -, hpc', hnext⟩
  · obtain ⟨⟨ty, x, y, hcounter, hamount, hsum⟩, -⟩ := hm.env_sum hS hf hl harms hc hblock hpc
    refine ⟨setResults (freshId f) [.int ty (plainStep step.subtract x y)] c'.env, ?_, ?_, ?_⟩
    · refine .single ?_
      have hop := step.ops_last
      rw [← hpc, ← hpc', ← hblock, ← h.block] at hop
      have hlen : [Val.int (ρ := ρ) ty (plainStep step.subtract x y)].length =
        step.plain.results := rfl
      have hstep := Step.op (S := S.semantics) (c := c') (m := c'.mem) hop ?_ hlen
      · rw [h.block, hblock, hpc', hpc, h.mem] at hstep
        exact hstep
      · show Exec S step.plain.code
          (([step.counter, step.amount].map step.renamed).map c'.env) _ _ _
        rw [h.map_step hm hf hc hblock, List.map_cons, List.map_singleton, hcounter, hamount]
        exact exec_plain.mpr ⟨rfl, rfl⟩
    · intro v hv
      exact (setResults_next _ v hv).trans (h.env v hv)
    · rw [hsum]
      exact setResults_self rfl
  · refine ⟨c'.env, ?_, h.env, hnext⟩
    have heq : c' = ⟨step.arm, f.last step.arm + 1, c'.env, c.mem⟩ := by
      rcases c' with ⟨block, pc, env, mem⟩
      obtain rfl : block = step.arm := h.block.trans hblock
      obtain rfl : pc = f.last step.arm + 1 := hpc ▸ hpc'
      obtain rfl : mem = c.mem := h.mem
      rfl
    rw [← heq]

/-- Outside the arm the terminators go the same way. -/
theorem Inserted.take_iff (h : Inserted step c c')
    (hm : step.Matched fuel lp index st pair flag lo hi overflow) (hf : f.WellFormed)
    (hr : f.graph.Reachable c.block) (harm : c.block ≠ step.arm) {i : ℕ} :
    Take S (step.insertPlain.body c'.block).terminator.code
        ((step.insertPlain.body c'.block).terminator.operands.map c'.env) i ↔
      Take S (f.body c.block).terminator.code
        ((f.body c.block).terminator.operands.map c.env) i := by
  rw [h.block, step.terminator_of_ne harm]
  have hread : ((f.body c.block).terminator.operands.map step.renamed).map c'.env =
      (f.body c.block).terminator.operands.map c.env := by
    rw [List.map_map]
    exact List.map_congr_left fun v hv =>
      h.env_renamed hm hf (hf.terminator hr v hv) fun _ => harm
  rw [hread]

/-- The operands of an edge have the same values, outside the arm. -/
theorem Inserted.map_edge (h : Inserted step c c')
    (hm : step.Matched fuel lp index st pair flag lo hi overflow) (hf : f.WellFormed)
    (hr : f.graph.Reachable c.block) (harm : c.block ≠ step.arm) {e : Edge β}
    (he : e ∈ (f.body c.block).terminator.edges) :
    (e.operands.map step.renamed).map c'.env = e.operands.map c.env := by
  rw [List.map_map]
  exact List.map_congr_left fun v hv =>
    h.env_renamed hm hf ((hf.edges hr e he).2 v hv) fun _ => harm

/-- Outside the arm the program counters agree. -/
theorem Inserted.pc_of_ne (h : Inserted step c c') (harm : c.block ≠ step.arm) : c'.pc = c.pc := by
  rcases h.pc with hpc | ⟨heq, -⟩
  · exact hpc
  · exact absurd heq harm

/-- **The plain step.**  Each run of the function is one of the function with the plain step. -/
theorem insertPlain_simulates (hS : S.ReadsBack) (hf : f.WellFormed) (hl : lp.Natural f.graph)
    (harms : headerArms f lp = some (a₀, a₁))
    (hm : step.Matched fuel lp index st pair flag lo hi overflow) :
    Simulation S.semantics f step.insertPlain
      fun c c' => Reaches S.semantics f c ∧ Inserted step c c' where
  start c hc := ⟨c, hc, .initial hc, .start step hc⟩
  forth := by
    rintro c c' d ⟨hc, h⟩ hs
    have hd := hc.step hs
    cases hs with
    -- an operation that is kept is executed on the renamed values
    | @op op rs m hop hx hlen =>
      have hpc := h.pc_eq hop
      have hop' := step.ops_of_lt hop
      rw [← hpc, ← h.block] at hop'
      refine ⟨_, .single (.op hop' ?_ hlen), hd, h.op hm hf hc hop hpc rs m⟩
      have hargs := h.map_renamed hm hf hc hop fun hskip =>
        List.map_eq_nil_iff.mp (Exec.skipped_inv hx hskip)
      show Exec S op.code ((op.operands.map step.renamed).map c'.env) c'.mem rs m
      rw [hargs, h.mem]
      exact hx
    | @edge i e hpc htake he =>
      have hsucc := hc.mem_succs he
      have hr := hc.reachable.1
      have hedge := (hf.edges hr e (List.mem_of_getElem? he)).2
      by_cases harm : c.block = step.arm
      · -- the branch of the arm finds the flag clear
        rw [harm] at hpc htake he
        rw [hm.branch] at htake
        obtain ⟨-, ty, hty, hflag⟩ := hm.env_sum hS hf hl harms hc harm hpc
        obtain rfl := hm.take_eq_zero hty hflag htake
        rw [hm.edges] at he
        obtain rfl : ⟨step.inRange, step.inRangeOperands⟩ = e := Option.some.inj he
        obtain ⟨env, hsteps, henv, hnext⟩ := h.plain hm hS hf hl harms hc harm hpc
        have hreads : step.inRangeOperands.map env = step.inRangeOperands.map c.env :=
          List.map_congr_left fun v hv => henv v (step.ne_next (hedge v hv))
        refine ⟨_,
          hsteps.tail (.edge ?_ ?_ (i := 0) (e := ⟨step.inRange, step.inRangeOperands⟩) ?_),
          hd, ?_⟩
        · exact step.last_arm.symm
        · rw [step.terminator_arm]
          exact .goto
        · rw [step.terminator_arm]
          rfl
        · rw [hreads]
          exact Inserted.edge henv hm _ _ fun _ _ => hnext
      -- outside the arm only names have changed
      · have harm' : c'.block ≠ step.arm := h.block ▸ harm
        have hreads := h.map_edge hm hf hr harm (List.mem_of_getElem? he)
        refine ⟨_, .single (.edge ?_ ((h.take_iff hm hf hr harm).mpr htake)
          (e := ⟨e.target, e.operands.map step.renamed⟩) ?_), hd, ?_⟩
        · rw [step.last_of_ne harm', h.pc_of_ne harm, hpc, h.block]
        · rw [h.block, step.edges_of_ne harm, he]
          rfl
        · rw [hreads, h.mem]
          exact Inserted.edge h.env hm _ _ fun hdom hne => h.next_of_edge hsucc harm hdom hne

/-- The new function runs no other way; `hone` is what a conditional branch has: one condition. -/
theorem insertPlain_simulated (hS : S.ReadsBack) (hf : f.WellFormed) (hl : lp.Natural f.graph)
    (harms : headerArms f lp = some (a₀, a₁))
    (hm : step.Matched fuel lp index st pair flag lo hi overflow)
    (hone : (f.body step.arm).terminator.operands.length = 1) :
    Simulation S.semantics step.insertPlain f
      fun c' c => Reaches S.semantics f c ∧ Inserted step c c' where
  start c hc := ⟨c, hc, .initial hc, .start step hc⟩
  forth := by
    rintro c' c d' ⟨hc, h⟩ hs
    have hr := hc.reachable
    cases hs with
    | @op op' rs m hop' hx hlen =>
      -- either an operation of the function or the plain step
      rcases step.ops_cases hop' with ⟨op, hop, rfl⟩ | ⟨harm, hlast, rfl⟩
      · rw [h.block] at hop
        have hpc := h.pc_of_op hop
        rw [hpc] at hop
        have hargs := h.map_renamed hm hf hc hop fun hskip =>
          List.map_eq_nil_iff.mp (List.map_eq_nil_iff.mp (Exec.skipped_inv hx hskip))
        have hs : Step S.semantics f c ⟨c.block, c.pc + 1, setResults op.id rs c.env, m⟩ := by
          refine .op hop ?_ hlen
          rw [← hargs, ← h.mem]
          exact hx
        exact ⟨_, .single hs, hc.step hs, h.op hm hf hc hop hpc rs m⟩
      · -- the plain step, before the branch of the arm
        rw [h.block] at harm hlast
        have hpc : c'.pc = c.pc ∧ c.pc = f.last step.arm := by
          rw [← harm]
          rcases h.pc with hpc | ⟨-, hlast', hpc, -⟩
          · exact ⟨hpc, hpc ▸ hlast⟩
          · rw [← harm] at hlast'
            omega
        obtain ⟨⟨ty, x, y, hcounter, hamount, hsum⟩, -⟩ :=
          hm.env_sum hS hf hl harms hc harm hpc.2
        have hx : Exec S step.plain.code
            (([step.counter, step.amount].map step.renamed).map c'.env) c'.mem rs m := hx
        rw [h.map_step hm hf hc harm, List.map_cons, List.map_singleton, hcounter, hamount] at hx
        obtain ⟨rfl, rfl⟩ := exec_plain.mp hx
        refine ⟨c, .refl, hc, h.block, h.mem, fun v hv => ?_, fun _ hne => absurd harm hne, .inr
          ⟨harm, hpc.2, ?_, ?_⟩⟩
        · exact (setResults_next _ v hv).trans (h.env v hv)
        · show c'.pc + 1 = _
          rw [hpc.1]
        · rw [hsum]
          exact setResults_self rfl
    | @edge i e hpc htake he =>
      by_cases harm : c.block = step.arm
      -- the new branch of the arm is taken behind the plain step
      · rw [h.block, harm, step.last_arm] at hpc
        rw [h.block, harm, step.terminator_arm] at htake he
        have hlast := hr.2
        rw [harm] at hlast
        rcases h.pc with hpc' | ⟨-, hpc₀, -, hnext⟩
        · omega
        · obtain ⟨-, ty, hty, hflag⟩ := hm.env_sum hS hf hl harms hc harm hpc₀
          obtain rfl : i = 0 := by
            cases htake with
            | goto => rfl
          obtain rfl : ⟨step.inRange, step.inRangeOperands⟩ = e := Option.some.inj he
          have hedges := hm.edges
          rw [← harm] at hedges
          have hreads : step.inRangeOperands.map c'.env = step.inRangeOperands.map c.env := by
            have hav := (hf.edges hr.1 ⟨step.inRange, step.inRangeOperands⟩
              (hedges ▸ List.mem_cons_self)).2
            exact List.map_congr_left fun v hv => h.env v (step.ne_next (hav v hv))
          have hs : Step S.semantics f c
              ⟨step.inRange, 0, setArgs step.inRange (step.inRangeOperands.map c.env) c.env,
                c.mem⟩ := by
            refine .edge (i := 0) (e := ⟨step.inRange, step.inRangeOperands⟩) ?_ ?_ ?_
            · rw [harm]
              exact hpc₀
            · rw [harm, hm.branch]
              exact hm.take_zero hone hty hflag
            · rw [hedges]
              rfl
          refine ⟨_, .single hs, hc.step hs, ?_⟩
          rw [hreads, h.mem]
          exact Inserted.edge h.env hm _ _ fun _ _ => hnext
      -- outside the arm only names have changed
      · have harm' : c'.block ≠ step.arm := h.block ▸ harm
        rw [h.block, step.edges_of_ne harm] at he
        obtain ⟨e₀, he₀, rfl⟩ := Option.map_eq_some_iff.mp he
        have hs : Step S.semantics f c
            ⟨e₀.target, 0, setArgs e₀.target (e₀.operands.map c.env) c.env, c.mem⟩ := by
          refine .edge ?_ ((h.take_iff hm hf hr.1 harm).mp htake) he₀
          rw [← h.pc_of_ne harm, hpc, step.last_of_ne harm', h.block]
        refine ⟨_, .single hs, hc.step hs, ?_⟩
        rw [h.map_edge hm hf hr.1 harm (List.mem_of_getElem? he₀), h.mem]
        exact Inserted.edge h.env hm _ _
          fun hdom hne => h.next_of_edge (hc.mem_succs he₀) harm hdom hne

end Inserted

end CudaOxide.Mir
