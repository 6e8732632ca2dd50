import CudaOxide.Mir.Canonicalize.FoldStep

/-!
# Erasing the checked step

* `foldl_eraseDead` — what the loop over the chain erases nobody reads.
* `CheckedStep.Unseen` — what has to be known of memory when the store into the slot goes: no run of
  the function notices.  Where the store stays, equality of memories will do.
* `matchCheckedStep_sound` — no run sets the flag, and each run is one of the rewritten function.
-/

namespace CudaOxide.Mir

open Lib Lib.Ssa

variable {β : Type*} [DecidableEq β] {ρ M : Type*} {S : Machine ρ M} {f : Function β}

/-! ### What is erased -/

/-- One step of the loop over the chain. -/
theorem eraseDead_cases (slot : Value β) (g : Function β) (op : Op β OpCode) :
    eraseDead slot g op = g ∨ (eraseDead slot g op = g.erase [op.id] ∧
      ((∃ volatile, op.code.kind = .store volatile) ∨
        ∀ k < op.results, usersOf g (.result op.id k) = [])) := by
  unfold eraseDead
  simp only
  cases hkind : op.code.kind with
  | store volatile =>
    by_cases hdead : (usersOf g slot).length = 1
    · exact .inr ⟨if_pos (decide_eq_true hdead), .inl ⟨volatile, rfl⟩⟩
    · exact .inl (if_neg (by simpa using hdead))
  | _ =>
    by_cases hdead : ((List.range op.results).all fun k => usersOf g (.result op.id k) = []) = true
    · refine .inr ⟨if_pos hdead, .inr fun k hk => ?_⟩
      exact of_decide_eq_true (List.all_eq_true.mp hdead k (List.mem_range.mpr hk))
    · exact .inl (if_neg hdead)

/-- What is erased comes from the list, and nothing reads it, unless it is a store. -/
theorem foldl_eraseDead (slot : Value β) (l : List (Op β OpCode)) (g : Function β) :
    ∃ ids, l.foldl (eraseDead slot) g = g.erase ids ∧
      ∀ id ∈ ids, ∃ op ∈ l, op.id = id ∧ ((∃ volatile, op.code.kind = .store volatile) ∨
        ∀ k < op.results, ∀ b ∈ g.blocks, .result op.id k ∉ (g.erase ids).operands b) := by
  induction l generalizing g with
  | nil => exact ⟨[], Func.erase_nil.symm, fun id h => by cases h⟩
  | cons op l ih =>
    obtain ⟨ids, hfold, hids⟩ := ih (eraseDead slot g op)
    rw [List.foldl_cons, hfold]
    rcases eraseDead_cases slot g op with heq | ⟨heq, hdead⟩
    · rw [heq] at hids ⊢
      refine ⟨ids, rfl, fun id hid => ?_⟩
      obtain ⟨op', hop', hrest⟩ := hids id hid
      exact ⟨op', List.mem_cons_of_mem _ hop', hrest⟩
    · rw [heq, Func.erase_erase] at hids
      rw [heq]
      refine ⟨op.id :: ids, Func.erase_erase, fun id hid => ?_⟩
      rcases List.mem_cons.mp hid with rfl | hid
      · refine ⟨op, List.mem_cons_self, rfl, hdead.imp_right fun hnone k hk b hb hmem => ?_⟩
        have huse : b ∈ usersOf g (.result op.id k) :=
          mem_usersOf.mpr ⟨hb, Func.operands_erase_subset hmem⟩
        rw [hnone k hk] at huse
        cases huse
      · obtain ⟨op', hop', hrest⟩ := hids id hid
        exact ⟨op', List.mem_cons_of_mem _ hop', hrest⟩

/-! ### The rewritten function -/

/-- The operation is still there behind the rewrite. -/
def CheckedStep.Stays (step : CheckedStep f) (op : Op β OpCode) : Prop :=
  ∃ b ∈ f.blocks, ∃ op' ∈ ((foldCheckedStep step).body b).ops, op'.id = op.id

/-- Memories that `Q` relates differ in nothing but what the erased store wrote, and no run of the
function notices: the slot is private to the chain. -/
structure CheckedStep.Unseen (S : Machine ρ M) (step : CheckedStep f) (Q : M → M → Prop) :
    Prop where
  refl : ∀ m, Q m m
  gone : ∀ c, Reaches S.semantics f c → ∀ op, (f.body c.block).ops[c.pc]? = some op →
    op.code.kind = .store false → ¬step.Stays op → ∀ rs m',
      Exec S op.code (op.operands.map c.env) c.mem rs m' →
    ∀ m₂, Q c.mem m₂ → Q m' m₂
  stays : ∀ c, Reaches S.semantics f c → ∀ op, (f.body c.block).ops[c.pc]? = some op →
    step.Stays op → ∀ rs m', Exec S op.code (op.operands.map c.env) c.mem rs m' →
    ∀ m₂, Q c.mem m₂ → ∃ m₂', Exec S op.code (op.operands.map c.env) m₂ rs m₂' ∧ Q m' m₂'

/-- The states of the rewritten function: every value that is neither new nor of the chain is as
before, and the new one is the sum. -/
structure Folded (step : CheckedStep f) (Q : M → M → Prop) (c c' : Config β (Val ρ) M) : Prop where
  block : c'.block = c.block
  mem : Q c.mem c'.mem
  env : ∀ v, v ≠ step.next → (∀ op ∈ step.chain, ∀ k, v ≠ .result op.id k) → c'.env v = c.env v
  sum : f.graph.Dominates step.arm c.block → c.block ≠ step.arm → c'.env step.next = c.env step.sum

section Fold

variable {step : CheckedStep f} {fuel index : ℕ} {lp : Loop β} {st : Scan β}
  {pair flag lo hi : Value β} {overflow : Edge β} {a₀ a₁ : β} {Q : M → M → Prop}
  {c c' : Config β (Val ρ) M} {op : Op β OpCode} {rs : List (Val ρ)} {m m' m₂ : M}

/-- The operations of the chain stand in the arm, each with a role. -/
theorem CheckedStep.Matched.chain_at
    (hm : step.Matched fuel lp index st pair flag lo hi overflow) (hop : op ∈ step.chain) :
    ∃ k, f.At step.arm k op ∧ st.Role op := by
  rw [hm.chain] at hop
  obtain ⟨k, op', hk, hop', rfl⟩ := hm.seen.chain op hop
  exact ⟨k, ⟨mem_blocks_of_incoming hm.uses, hop'⟩, hm.seen.role k op' hk hop'⟩

/-- An operation that runs in the function with the plain step runs in the function it is made
of. -/
theorem Inserted.exec (h : Inserted step c c')
    (hm : step.Matched fuel lp index st pair flag lo hi overflow) (hf : f.WellFormed)
    (hc : Reaches S.semantics f c) (hop : (f.body c.block).ops[c.pc]? = some op)
    (hx : Exec S op.code ((op.operands.map step.renamed).map c'.env) c'.mem rs m') :
    (op.operands.map step.renamed).map c'.env = op.operands.map c.env ∧
      Exec S op.code (op.operands.map c.env) c.mem rs m' := by
  have hargs := h.map_renamed hm hf hc hop fun hskip =>
    List.map_eq_nil_iff.mp (List.map_eq_nil_iff.mp (hx.skipped_inv hskip))
  rw [hargs, h.mem] at hx
  exact ⟨hargs, hx⟩

/-- Erased operations leave related memories related. -/
theorem CheckedStep.Unseen.erased (hQ : step.Unseen S Q) (hc : Reaches S.semantics f c)
    (hop : (f.body c.block).ops[c.pc]? = some op) (hrole : st.Role op) (hgone : ¬step.Stays op)
    (hx : Exec S op.code (op.operands.map c.env) c.mem rs m') (hm₂ : Q c.mem m₂) : Q m' m₂ := by
  by_cases hkind : op.code.kind = .store false
  · exact hQ.gone c hc op hop hkind hgone rs m' hx m₂ hm₂
  · rwa [hx.mem_eq (hrole.pure hkind).1 (hrole.pure hkind).2]

/-- The plain step does not look at the memory. -/
theorem exec_plain_mem {args : List (Val ρ)} (hx : Exec S step.plain.code args m rs m')
    (hm₂ : Q m m₂) : ∃ m₂', Exec S step.plain.code args m₂ rs m₂' ∧ Q m' m₂' := by
  rcases step.plain_kind with hkind | hkind
  · rw [hx.mem_eq (by simp [hkind]) (by simp [hkind])]
    exact ⟨m₂, hx.of_pure (by simp [hkind]) (by simp [hkind]) (by simp [hkind]) m₂, hm₂⟩
  · rw [hx.mem_eq (by simp [hkind]) (by simp [hkind])]
    exact ⟨m₂, hx.of_pure (by simp [hkind]) (by simp [hkind]) (by simp [hkind]) m₂, hm₂⟩

/-- The values that are erased. -/
def CheckedStep.Dead (step : CheckedStep f) (ids : List ℕ) (v : Value β) : Prop :=
  ∃ op ∈ step.chain, op.id ∈ ids ∧ (∀ volatile, op.code.kind ≠ .store volatile) ∧
    ∃ k < op.results, v = .result op.id k

/-- An operation of the chain that is not dead has a reader outside. -/
theorem CheckedStep.Matched.not_dead
    (hm : step.Matched fuel lp index st pair flag lo hi overflow) (hf : f.WellFormed) {ids : List ℕ}
    (hids : ∀ id ∈ ids, ∃ op ∈ step.chain.reverse, op.id = id ∧
      ((∃ volatile, op.code.kind = .store volatile) ∨
        ∀ k < op.results, ∀ b ∈ f.blocks, .result op.id k ∉
          (step.insertPlain.erase ids).operands b))
    {b : β} (hb : b ∈ f.blocks) {v : Value β} (hv : v ∈ (step.insertPlain.erase ids).operands b) :
    ¬step.Dead ids v := by
  rintro ⟨op, hop, hid, hkind, k, hk, rfl⟩
  obtain ⟨op₂, hop₂, hid₂, hdead⟩ := hids _ hid
  obtain ⟨i, hat, -⟩ := hm.chain_at hop
  obtain ⟨j, hat₂, -⟩ := hm.chain_at (List.mem_reverse.mp hop₂)
  obtain rfl := hf.eq_of_id hat hat₂ hid₂.symm
  rcases hdead with ⟨volatile, hstore⟩ | hdead
  · exact hkind volatile hstore
  · exact hdead k hk b hb hv

/-- **The rewrite.**  Each run of the function is one of the rewritten function. -/
theorem foldCheckedStep_simulates (hS : S.ReadsBack) (hf : f.WellFormed) (hl : lp.Natural f.graph)
    (harms : headerArms f lp = some (a₀, a₁))
    (hm : step.Matched fuel lp index st pair flag lo hi overflow)
    (hone : (f.body step.arm).terminator.operands.length = 1) (hQ : step.Unseen S Q) :
    ∃ R, Simulation S.semantics f (foldCheckedStep step) R ∧ ∀ c c', R c c' →
      Folded step Q c c' := by
  obtain ⟨ids, hfold, hids⟩ := foldl_eraseDead step.slot step.chain.reverse step.insertPlain
  have hfold : foldCheckedStep step = step.insertPlain.erase ids := hfold
  have hback := insertPlain_simulated hS hf hl harms hm hone
  have herase : Simulation S.semantics step.insertPlain (step.insertPlain.erase ids)
      fun c c' => Reaches S.semantics step.insertPlain c ∧
        Erased step.insertPlain ids (step.Dead ids) Q c c' := by
    refine simulation_erase hQ.refl (fun b hb v hv => hm.not_dead hf hids hb hv) ?_ ?_
    · intro c' hc' op' hop' hid rs m' hx hlen
      obtain ⟨c, -, hc, h⟩ := hback.reaches hc'
      obtain ⟨op₂, hop₂, hid₂, -⟩ := hids _ hid
      obtain ⟨j, hat₂, hrole⟩ := hm.chain_at (List.mem_reverse.mp hop₂)
      rcases step.ops_cases hop' with ⟨op, hop, rfl⟩ | ⟨-, -, rfl⟩
      · rw [h.block] at hop
        rw [h.pc_of_op hop] at hop
        obtain rfl := hf.eq_of_id ⟨hc.mem_blocks, hop⟩ hat₂ hid₂.symm
        have hx := (h.exec hm hf hc hop hx).2
        have hlen : rs.length = op.results := hlen
        have hgone : ¬step.Stays op := by
          rintro ⟨b, -, op', hop', hid'⟩
          rw [hfold] at hop'
          have hno := of_decide_eq_true (List.mem_filter.mp hop').2
          rw [hid'] at hno
          exact hno hid
        refine ⟨fun k hk => ⟨op, List.mem_reverse.mp hop₂, hid, fun volatile hkind => ?_,
          k, hk, rfl⟩,
          fun m₂ hm₂ => hQ.erased hc hop hrole hgone hx (h.mem ▸ hm₂)⟩
        -- a store has no results
        have hk : k < op.results := hk
        rw [← hlen, hx.eq_nil_of_store hkind] at hk
        exact absurd hk (Nat.not_lt_zero k)
      · exact absurd hid₂ (id_lt_freshId hat₂).ne
    · intro c' hc' op' hop' hid rs m' hx m₂ hm₂
      obtain ⟨c, -, hc, h⟩ := hback.reaches hc'
      rcases step.ops_cases hop' with ⟨op, hop, rfl⟩ | ⟨-, -, rfl⟩
      · rw [h.block] at hop
        rw [h.pc_of_op hop] at hop
        obtain ⟨hargs, hx⟩ := h.exec hm hf hc hop hx
        have hstays : step.Stays op := by
          refine ⟨c'.block, hc'.mem_blocks, { op with operands := op.operands.map step.renamed },
            ?_, rfl⟩
          rw [hfold]
          exact List.mem_filter.mpr ⟨List.mem_of_getElem? hop', decide_eq_true hid⟩
        show ∃ m₂', Exec S op.code ((op.operands.map step.renamed).map c'.env) m₂ rs m₂' ∧ Q m' m₂'
        rw [hargs]
        exact hQ.stays c hc op hop hstays rs m' hx m₂ (h.mem ▸ hm₂)
      · exact exec_plain_mem hx hm₂
  have hboth := (insertPlain_simulates hS hf hl harms hm).trans herase
  rw [← hfold] at hboth
  refine ⟨_, hboth, ?_⟩
  rintro c c'' ⟨c', ⟨hc, hI⟩, -, hE⟩
  refine ⟨hE.block.trans hI.block, hI.mem ▸ hE.mem, fun v hv hno => ?_, fun hdom hne => ?_⟩
  · rw [hE.env v, hI.env v hv]
    rintro ⟨op, hop, -, -, k, -, heq⟩
    exact hno op hop k heq
  · rw [hE.env step.next, hI.sum hdom hne]
    rintro ⟨op, hop, -, -, k, -, heq⟩
    obtain ⟨i, hat, -⟩ := hm.chain_at hop
    exact (id_lt_freshId hat).ne (Value.result.inj heq).1.symm

/-- **Folding the checked step.**  In every run that enters the arm the checked operation computes
the plain step and a clear flag; with the plain step and the jump the function runs as before, and
runs no other way; and each run is one of the function without the dead operations. -/
theorem matchCheckedStep_sound (hS : S.ReadsBack) (hf : f.WellFormed) (hl : lp.Natural f.graph)
    (harms : headerArms f lp = some (a₀, a₁)) (hstep : matchCheckedStep fuel f lp index = some step)
    (hone : (f.body step.arm).terminator.operands.length = 1) :
    (∀ c, Reaches S.semantics f c → c.block = step.arm → ∀ k op subtract, f.At step.arm k op →
      k < c.pc → op.code.kind = checkedKind subtract →
      subtract = step.subtract ∧ op.operands = [step.counter, step.amount] ∧
      ∃ (ty ty' : IntegerType) (x y : BitVec ty.width), ty'.width = 1 ∧
        c.env step.counter = .int ty x ∧ c.env step.amount = .int ty y ∧
        c.env (.result op.id 0) = .tuple [.int ty (plainStep subtract x y), .ofBool ty' false]) ∧
    (Simulation S.semantics f step.insertPlain
        (fun c c' => Reaches S.semantics f c ∧ Inserted step c c') ∧
      Simulation S.semantics step.insertPlain f
        fun c' c => Reaches S.semantics f c ∧ Inserted step c c') ∧
    ∀ Q, step.Unseen S Q → ∃ R, Simulation S.semantics f (foldCheckedStep step) R ∧
      ∀ c c', R c c' → Folded step Q c c' := by
  obtain ⟨st, pair, flag, lo, hi, overflow, hm⟩ := matchCheckedStep_spec hstep
  refine ⟨fun c hc hblock k op subtract hop hk hkind => ?_,
    ⟨insertPlain_simulates hS hf hl harms hm, insertPlain_simulated hS hf hl harms hm hone⟩,
    fun Q hQ => foldCheckedStep_simulates hS hf hl harms hm hone hQ⟩
  obtain ⟨hsub, hops, -, hvalue⟩ := hm.env_checked hf hl harms hc hblock hop hk hkind
  exact ⟨hsub, hops, hvalue⟩

end Fold

/-- A memory that is one slot: it has the address `none`, its fields have the addresses `some i`. -/
def Machine.slot : Machine (Option ℕ) (List (Val (Option ℕ))) where
  fieldAddr _ i := .other (some i)
  load a m v := ∃ i, a = .other (some i) ∧ m[i]? = some v
  store p v _ m' := p = .other none ∧ v = .tuple m'
  arith _ _ _ := False
  -- the only other operation gives the address of the slot
  other _ _ _ m rs m' := rs = [.other none] ∧ m' = m
  take _ _ _ := False

/-- A slot gives back what was stored. -/
theorem readsBack_slot : Machine.slot.ReadsBack := by
  rintro p fields m m' i v ⟨-, hstore⟩ ⟨j, haddr, hload⟩
  cases hstore
  cases haddr
  exact hload

/-- `for i in 0..10` with a signed counter. -/
def rangeLoop : Function ℕ where
  entry := 0
  blocks := [0, 1, 2, 3, 4, 5]
  body b :=
    match b with
    | 0 => ⟨0, [⟨0, ⟨.constant (some 0), [.int ⟨32, .signed⟩]⟩, [], 1⟩,
        ⟨1, ⟨.constant (some 10), [.int ⟨32, .signed⟩]⟩, [], 1⟩,
        ⟨2, ⟨.constant (some 1), [.int ⟨32, .signed⟩]⟩, [], 1⟩, ⟨3, ⟨.other 0, [.other 0]⟩, [], 1⟩],
        ⟨.goto, [], [⟨1, [.result 0 0]⟩]⟩⟩
    | 1 => ⟨1, [⟨4, ⟨.cmp .lt, [.int ⟨1, .unsigned⟩]⟩, [.arg 1 0, .result 1 0], 1⟩],
        ⟨.condBr, [.result 4 0], [⟨2, []⟩, ⟨3, []⟩]⟩⟩
    | 2 => ⟨0, [⟨5, ⟨.checkedAdd, [.other 1]⟩, [.arg 1 0, .result 2 0], 1⟩,
        ⟨6, ⟨.store false, []⟩, [.result 3 0, .result 5 0], 0⟩,
        ⟨7, ⟨.fieldAddr (some 0), [.other 2]⟩, [.result 3 0], 1⟩,
        ⟨8, ⟨.load false, [.int ⟨32, .signed⟩]⟩, [.result 7 0], 1⟩,
        ⟨9, ⟨.fieldAddr (some 1), [.other 2]⟩, [.result 3 0], 1⟩,
        ⟨10, ⟨.load false, [.int ⟨1, .unsigned⟩]⟩, [.result 9 0], 1⟩,
        ⟨11, ⟨.not, [.int ⟨1, .unsigned⟩]⟩, [.result 10 0], 1⟩],
        ⟨.condBr, [.result 11 0], [⟨4, []⟩, ⟨5, []⟩]⟩⟩
    | 3 => ⟨0, [], ⟨.goto, [], [⟨1, [.arg 1 0]⟩]⟩⟩
    | 4 => ⟨0, [], ⟨.goto, [], [⟨1, [.result 8 0]⟩]⟩⟩
    | _ => ⟨0, [], ⟨.other 0 false, [], []⟩⟩
  entry_mem := by decide
  edge_mem := by decide

/-- The loop of the example. -/
def rangeLoopLoop : Loop ℕ := ⟨1, [3, 4], LoopInfo.loopBlocks rangeLoop.graph 1 [3, 4], none, []⟩

/-- The loop of the example is natural. -/
theorem natural_rangeLoop : rangeLoopLoop.Natural rangeLoop.graph := by
  have hlatch : ∀ k, k ∈ [3, 4] ↔ rangeLoop.graph.IsLatch 1 k := by
    intro k
    constructor
    · intro hk
      simp only [List.mem_cons, List.not_mem_nil, or_false] at hk
      rcases hk with rfl | rfl
      · exact ⟨by decide, by decide, Flowgraph.dominates_iff.mp (by decide +kernel)⟩
      · exact ⟨by decide, by decide, Flowgraph.dominates_iff.mp (by decide +kernel)⟩
    · rintro ⟨hk, hedge, hdom⟩
      have hnode : k ∈ [0, 1, 2, 3, 4, 5] := hk
      simp only [List.mem_cons, List.not_mem_nil, or_false] at hnode
      rcases hnode with rfl | rfl | rfl | rfl | rfl | rfl
      · exact absurd (Flowgraph.dominates_iff.mpr hdom) (by decide +kernel)
      · exact absurd hedge (by decide)
      · exact absurd hedge (by decide)
      · decide
      · decide
      · exact absurd hedge (by decide)
  exact ⟨hlatch, fun b => LoopInfo.mem_loopBlocks hlatch⟩

/-- The step of the counter, behind the test. -/
def rangeLoopStep : CheckedStep rangeLoop :=
  (matchCheckedStep 2 rangeLoop rangeLoopLoop 0).get (by decide +kernel)

/-- All of the slot is erased, so its memory may be anything. -/
theorem unseen_rangeLoop : rangeLoopStep.Unseen Machine.slot fun _ _ => True where
  refl _ := trivial
  gone _ _ _ _ _ _ _ _ _ _ _ := trivial
  stays c hc op hop hstays rs m' hx m₂ _ := by
    have hno : ∀ b ∈ rangeLoop.blocks, ∀ op ∈ (rangeLoop.body b).ops,
        (∃ b ∈ rangeLoop.blocks, ∃ op' ∈ ((foldCheckedStep rangeLoopStep).body b).ops,
          op'.id = op.id) →
        ∀ volatile, op.code.kind ≠ .store volatile ∧ op.code.kind ≠ .load volatile := by
      decide +kernel
    have hkind := hno c.block hc.mem_blocks op (List.mem_of_getElem? hop) hstays
    rcases op with ⟨id, ⟨kind, types⟩, operands, results⟩
    by_cases hother : ∃ n, kind = .other n
    · obtain ⟨n, rfl⟩ := hother
      cases hx with
      | other hx => exact ⟨m₂, .other ⟨hx.1, rfl⟩, trivial⟩
      | arith hforeign _ => cases hforeign
    · exact ⟨m₂, hx.of_pure (fun v => (hkind v).1) (fun v => (hkind v).2)
        (fun n hn => hother ⟨n, hn⟩) m₂, trivial⟩

/-- Nothing but the plain step stays in the arm. -/
theorem matchCheckedStep_sound_rangeLoop :
    ((foldCheckedStep rangeLoopStep).body 2).ops.map (·.code.kind) = [.add] ∧
    ∃ R, Simulation Machine.slot.semantics rangeLoop (foldCheckedStep rangeLoopStep) R ∧
      ∀ c c', R c c' → Folded rangeLoopStep (fun _ _ => True) c c' := by
  refine ⟨by decide +kernel, ?_⟩
  have harms : headerArms rangeLoop rangeLoopLoop = some (2, 3) := by decide +kernel
  have hstep : matchCheckedStep 2 rangeLoop rangeLoopLoop 0 = some rangeLoopStep :=
    (Option.some_get _).symm
  exact (matchCheckedStep_sound readsBack_slot (Func.wellFormed_of_isSsa (by decide +kernel))
    natural_rangeLoop harms hstep (by decide +kernel)).2.2 _ unseen_rangeLoop

end CudaOxide.Mir
