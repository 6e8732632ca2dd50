import CudaOxide.Lib.Flowgraph

/-!
# Programs in SSA form

Functions whose blocks take arguments.  A value is an argument of a block or a result of an
operation; each operation stands at one place, and each edge passes values to the arguments of its
target.  What an operation does, and where a terminator goes, are parameters.

* `Func.Avail`, `Func.WellFormed` — each use stands where every path from the entry has passed the
  definition.
* `Step`, `Reaches` — running a function, one operation or one edge at a time.
* `executed` — what dominance is for: at every reachable point, each operation that dominates the
  point has the results it computes from the *current* values of its operands.
* `Reaches.passed` — the memory an operation of the same block was executed in.
-/

namespace CudaOxide.Lib.Ssa

/-! ### Functions -/

/-- A value is named by where it is defined. -/
inductive Value (β : Type*) where
  | arg (block : β) (index : ℕ)
  | result (op : ℕ) (index : ℕ)
  deriving DecidableEq, Repr

/-- An operation with its results. -/
structure Op (β κ : Type*) where
  id : ℕ
  code : κ
  operands : List (Value β)
  /-- The number of results. -/
  results : ℕ

/-- A successor of a terminator, with the operands for the arguments of the target. -/
structure Edge (β : Type*) where
  target : β
  operands : List (Value β)

/-- The end of a block, with an edge to each successor. -/
structure Terminator (β τ : Type*) where
  code : τ
  operands : List (Value β)
  edges : List (Edge β)

/-- A block: arguments, operations, a terminator. -/
structure Block (β κ τ : Type*) where
  /-- The number of arguments. -/
  arguments : ℕ
  ops : List (Op β κ)
  terminator : Terminator β τ

/-- A function whose edges stay inside it. -/
structure Func (β κ τ : Type*) where
  entry : β
  blocks : List β
  body : β → Block β κ τ
  entry_mem : entry ∈ blocks
  edge_mem : ∀ {b}, b ∈ blocks → ∀ {e}, e ∈ (body b).terminator.edges → e.target ∈ blocks

variable {β κ τ V M : Type*} [DecidableEq β]

namespace Func

variable {f : Func β κ τ}

/-- The blocks and their edges. -/
def graph (f : Func β κ τ) : Flowgraph β where
  nodes := f.blocks
  entry := f.entry
  succs b := if b ∈ f.blocks then (f.body b).terminator.edges.map (·.target) else []
  entry_mem := f.entry_mem
  edge_mem := by
    intro a b h
    split at h
    · rename_i ha
      obtain ⟨e, he, rfl⟩ := List.mem_map.mp h
      exact ⟨ha, f.edge_mem ha he⟩
    · cases h

/-- The successors of a block are the targets of its edges. -/
theorem mem_succs {a b : β} :
    b ∈ f.graph.succs a ↔ a ∈ f.blocks ∧ ∃ e ∈ (f.body a).terminator.edges, e.target = b := by
  show b ∈ (if a ∈ f.blocks then (f.body a).terminator.edges.map (·.target) else []) ↔ _
  split
  · rename_i ha
    simp [ha]
  · rename_i ha
    simp [ha]

/-- The operation `op` is the `i`-th one of block `b`. -/
def At (f : Func β κ τ) (b : β) (i : ℕ) (op : Op β κ) : Prop :=
  b ∈ f.blocks ∧ (f.body b).ops[i]? = some op

/-- The place behind the last operation of a block, where its terminator stands. -/
def last (f : Func β κ τ) (b : β) : ℕ := (f.body b).ops.length

/-- Every path to the place `i` of `b` goes over the place `j` of `a`. -/
def Before (f : Func β κ τ) (a : β) (j : ℕ) (b : β) (i : ℕ) : Prop :=
  (a = b ∧ j < i) ∨ (a ≠ b ∧ f.graph.Dominates a b)

/-- The value `v` may be used at the place `i` of `b`. -/
def Avail (f : Func β κ τ) (v : Value β) (b : β) (i : ℕ) : Prop :=
  match v with
  | .arg a k => k < (f.body a).arguments ∧ f.graph.Dominates a b
  | .result id k => ∃ a j op, f.At a j op ∧ op.id = id ∧ k < op.results ∧ f.Before a j b i

/-- SSA form.  Nothing is asked of unreachable blocks. -/
structure WellFormed (f : Func β κ τ) : Prop where
  unique : ∀ {b i op b' i' op'}, f.At b i op → f.At b' i' op' → op.id = op'.id → b = b' ∧ i = i'
  operands : ∀ {b i op}, f.graph.Reachable b → f.At b i op → ∀ v ∈ op.operands, f.Avail v b i
  terminator : ∀ {b}, f.graph.Reachable b →
    ∀ v ∈ (f.body b).terminator.operands, f.Avail v b (f.last b)
  edges : ∀ {b}, f.graph.Reachable b → ∀ e ∈ (f.body b).terminator.edges,
    e.operands.length = (f.body e.target).arguments ∧ ∀ v ∈ e.operands, f.Avail v b (f.last b)

/-! ### Values -/

/-- The block a value names as its own has it as an argument. -/
def Declared (f : Func β κ τ) : Value β → Prop
  | .arg a k => k < (f.body a).arguments
  | .result _ _ => True

/-- All operands of a block, those of its terminator and of its edges among them. -/
def operands (f : Func β κ τ) (b : β) : List (Value β) :=
  (f.body b).ops.flatMap (·.operands) ++ ((f.body b).terminator.operands ++
    (f.body b).terminator.edges.flatMap (·.operands))

section Operands

variable {b : β} {i : ℕ} {v : Value β}

omit [DecidableEq β] in

/-- A block reads the operands of its operations, -/
theorem mem_operands_of_op {op : Op β κ} (h : (f.body b).ops[i]? = some op) (hv : v ∈ op.operands) :
    v ∈ f.operands b :=
  List.mem_append_left _ (List.mem_flatMap.mpr ⟨op, List.mem_of_getElem? h, hv⟩)

omit [DecidableEq β] in

/-- of its terminator, -/
theorem mem_operands_of_terminator (hv : v ∈ (f.body b).terminator.operands) : v ∈ f.operands b :=
  List.mem_append_right _ (List.mem_append_left _ hv)

omit [DecidableEq β] in

/-- and of its edges. -/
theorem mem_operands_of_edge {e : Edge β} (h : e ∈ (f.body b).terminator.edges)
    (hv : v ∈ e.operands) : v ∈ f.operands b :=
  List.mem_append_right _ (List.mem_append_right _ (List.mem_flatMap.mpr ⟨e, h, hv⟩))

end Operands

/-! ### Places -/

variable {a b c : β} {i j k : ℕ}

omit [DecidableEq β] in

/-- An operation stands in front of the terminator. -/
theorem At.lt_last {op : Op β κ} (h : f.At b i op) : i < f.last b :=
  (List.getElem?_eq_some_iff.mp h.2).1

/-- A place before another one is in a dominating block. -/
theorem Before.dominates (h : f.Before a j b i) : f.graph.Dominates a b := by
  rcases h with ⟨rfl, -⟩ | ⟨-, h⟩
  · exact Flowgraph.Dominates.refl _ _
  · exact h

/-- Later places in a block. -/
theorem Before.mono (h : f.Before a j b i) (hik : i ≤ k) : f.Before a j b k := by
  rcases h with ⟨rfl, hj⟩ | h
  · exact .inl ⟨rfl, hj.trans_le hik⟩
  · exact .inr h

/-- Being before is transitive, where the last block is reached. -/
theorem Before.trans (hr : f.graph.Reachable c) (hab : f.Before a j b i) (hbc : f.Before b i c k) :
    f.Before a j c k := by
  rcases hab with ⟨rfl, hj⟩ | ⟨hne, hab⟩
  · rcases hbc with ⟨rfl, hi⟩ | hbc
    · exact .inl ⟨rfl, hj.trans hi⟩
    · exact .inr hbc
  · have hac := hab.trans hbc.dominates
    by_cases h : a = c
    · have hbc' := hbc.dominates
      rw [← h] at hbc' hr
      exact absurd (hab.antisymm hbc' hr) hne
    · exact .inr ⟨h, hac⟩

/-- No place lies before itself. -/
theorem Before.irrefl (h : f.Before b i b i) : False := by
  rcases h with ⟨-, h⟩ | ⟨h, -⟩
  · exact lt_irrefl _ h
  · exact h rfl

/-- What lies before the start of a block lies before the end of each predecessor. -/
theorem Before.of_edge (h : f.Before a j c 0) (hj : j < f.last a) (he : c ∈ f.graph.succs b) :
    f.Before a j b (f.last b) := by
  rcases h with ⟨-, h⟩ | ⟨hne, h⟩
  · exact absurd h (Nat.not_lt_zero _)
  · by_cases hab : a = b
    · rw [hab] at hj
      exact .inl ⟨hab, hj⟩
    · exact .inr ⟨hab, h.of_edge hne he⟩

/-- What is available stays so further down. -/
theorem Avail.mono {v : Value β} (h : f.Avail v b i) (hik : i ≤ k) : f.Avail v b k := by
  cases v with
  | arg a n => exact h
  | result id n =>
    obtain ⟨a, j, op, hop, hid, hn, hb⟩ := h
    exact ⟨a, j, op, hop, hid, hn, hb.mono hik⟩

/-- A value that may be used at one place may be used at every place behind it. -/
theorem Avail.trans {v : Value β} (hr : f.graph.Reachable b) (h : f.Avail v a j)
    (hab : f.Before a j b i) : f.Avail v b i := by
  cases v with
  | arg c n => exact ⟨h.1, h.2.trans hab.dominates⟩
  | result id n =>
    obtain ⟨c, k, op, hop, hid, hn, hb⟩ := h
    exact ⟨c, k, op, hop, hid, hn, hb.trans hr hab⟩

/-- What is available at the end of a block stays so in each block that it strictly dominates. -/
theorem Avail.of_dominates {v : Value β} (h : f.Avail v a (f.last a))
    (hd : f.graph.Dominates a b) (hno : ¬f.graph.Dominates b a) :
    f.Avail v b i ∧ ∀ k, v ≠ .arg b k := by
  cases v with
  | arg c n =>
    refine ⟨⟨h.1, h.2.trans hd⟩, fun k heq => ?_⟩
    rw [Value.arg.injEq] at heq
    exact hno (heq.1 ▸ h.2)
  | result id n =>
    refine ⟨?_, fun k heq => by cases heq⟩
    obtain ⟨c, j, op, hop, hid, hn, hb⟩ := h
    have hca := hb.dominates
    have hcb : c ≠ b := fun heq => hno (heq ▸ hca)
    exact ⟨c, j, op, hop, hid, hn, .inr ⟨hcb, hca.trans hd⟩⟩

/-- Each operand of a reachable block is available at its end. -/
theorem WellFormed.avail (hf : f.WellFormed) (hb : f.graph.Reachable b) {v : Value β}
    (hv : v ∈ f.operands b) : f.Avail v b (f.last b) := by
  rcases List.mem_append.mp hv with hop | hterm
  · obtain ⟨op, hop, hv⟩ := List.mem_flatMap.mp hop
    obtain ⟨i, hi⟩ := List.mem_iff_getElem?.mp hop
    have hat : f.At b i op := ⟨hb.mem_nodes, hi⟩
    exact (hf.operands hb hat v hv).mono hat.lt_last.le
  · rcases List.mem_append.mp hterm with hv | hedge
    · exact hf.terminator hb v hv
    · obtain ⟨e, he, hv⟩ := List.mem_flatMap.mp hedge
      exact (hf.edges hb e he).2 v hv

/-- An identifier names one operation. -/
theorem WellFormed.eq_of_id (hf : f.WellFormed) {op op' : Op β κ} (h : f.At b i op)
    (h' : f.At a j op') (hid : op.id = op'.id) : op = op' := by
  obtain ⟨rfl, rfl⟩ := hf.unique h h' hid
  exact Option.some.inj (h.2.symm.trans h'.2)

/-- Inside a block, a result is available only behind its operation. -/
theorem WellFormed.lt_of_avail (hf : f.WellFormed) {op : Op β κ} (h : f.At b j op)
    (hv : f.Avail (.result op.id k) b i) : j < i := by
  obtain ⟨c, m, op', hop', hid, -, hbefore⟩ := hv
  obtain ⟨rfl, rfl⟩ := hf.unique hop' h hid
  rcases hbefore with ⟨-, hlt⟩ | ⟨hne, -⟩
  · exact hlt
  · exact absurd rfl hne

/-- A result is available only where the block of its operation dominates. -/
theorem WellFormed.dominates_of_avail (hf : f.WellFormed) {op : Op β κ} (h : f.At a j op)
    (hv : f.Avail (.result op.id k) b i) : f.graph.Dominates a b := by
  obtain ⟨c, m, op', hop', hid, -, hbefore⟩ := hv
  obtain ⟨rfl, rfl⟩ := hf.unique hop' h hid
  exact hbefore.dominates

/-! ### Checking SSA form -/

/-- `v` may be used at the place `i` of `b`, as a program decides it. -/
def avail (f : Func β κ τ) (v : Value β) (b : β) (i : ℕ) : Bool :=
  match v with
  | .arg a k => k < (f.body a).arguments && f.graph.dominates a b
  | .result id k => f.blocks.any fun a => (List.range (f.last a)).any fun j =>
      ((f.body a).ops[j]?).any fun op => op.id = id && k < op.results &&
        ((a = b && j < i) || (a ≠ b && f.graph.dominates a b))

/-- The test says what is available. -/
theorem avail_sound {v : Value β} (h : f.avail v b i = true) : f.Avail v b i := by
  cases v with
  | arg a k =>
    simp only [avail, Bool.and_eq_true, decide_eq_true_eq] at h
    exact ⟨h.1, Flowgraph.dominates_iff.mp h.2⟩
  | result id k =>
    simp only [avail, List.any_eq_true, List.mem_range, Option.any_eq_true, Bool.and_eq_true,
      Bool.or_eq_true, decide_eq_true_eq] at h
    obtain ⟨a, ha, j, -, op, hop, ⟨hid, hk⟩, hb⟩ := h
    exact ⟨a, j, op, ⟨ha, hop⟩, hid, hk, hb.imp_right (.imp_right Flowgraph.dominates_iff.mp)⟩

/-- SSA form, with the conditions for every block. -/
def isSsa (f : Func β κ τ) : Bool :=
  f.blocks.all fun b =>
    ((List.range (f.last b)).all fun i => ((f.body b).ops[i]?).all fun op =>
      op.operands.all (f.avail · b i) &&
        f.blocks.all fun b' => (List.range (f.last b')).all fun i' =>
          ((f.body b').ops[i']?).all fun op' => op.id ≠ op'.id || (b = b' && i = i')) &&
    (f.body b).terminator.operands.all (f.avail · b (f.last b)) &&
    (f.body b).terminator.edges.all fun e =>
      e.operands.length = (f.body e.target).arguments && e.operands.all (f.avail · b (f.last b))

/-- The test of a function says that it is well formed. -/
theorem wellFormed_of_isSsa (h : f.isSsa = true) : f.WellFormed := by
  simp only [isSsa, List.all_eq_true, List.mem_range, Option.all_eq_true, Bool.and_eq_true,
    Bool.or_eq_true, decide_eq_true_eq] at h
  refine ⟨fun {b i op b' i' op'} hop hop' hid => ?_, fun {b i op} hb hop v hv => ?_,
    fun {b} hb v hv => ?_, fun {b} hb e he => ?_⟩
  · have := ((h b hop.1).1.1 i hop.lt_last op hop.2).2 b' hop'.1 i' hop'.lt_last op' hop'.2
    exact this.resolve_left fun hne => hne hid
  · exact avail_sound (((h b hb.mem_nodes).1.1 i hop.lt_last op hop.2).1 v hv)
  · exact avail_sound ((h b hb.mem_nodes).1.2 v hv)
  · obtain ⟨hlen, hav⟩ := (h b hb.mem_nodes).2 e he
    exact ⟨hlen, fun v hv => avail_sound (hav v hv)⟩

end Func

/-! ### Running a function -/

/-- What operations compute and where terminators go. -/
structure Semantics (κ τ V M : Type*) where
  /-- `exec code vs m rs m'`: on operand values `vs` and memory `m`. -/
  exec : κ → List V → M → List V → M → Prop
  /-- `take code vs i`: the terminator takes its `i`-th edge. -/
  take : τ → List V → ℕ → Prop

/-- A state of a run: the next operation is the `pc`-th one of `block`. -/
structure Config (β V M : Type*) where
  block : β
  pc : ℕ
  env : Value β → V
  mem : M

/-- The arguments of `b` get the values `vs`. -/
def setArgs (b : β) (vs : List V) (env : Value β → V) : Value β → V
  | .arg a k => if a = b then (vs[k]?).getD (env (.arg a k)) else env (.arg a k)
  | .result id k => env (.result id k)

/-- The results of the operation `id` get the values `rs`. -/
def setResults (id : ℕ) (rs : List V) (env : Value β → V) : Value β → V
  | .arg a k => env (.arg a k)
  | .result id' k => if id' = id then (rs[k]?).getD (env (.result id' k)) else env (.result id' k)

/-- One operation, or one edge. -/
inductive Step (S : Semantics κ τ V M) (f : Func β κ τ) : Config β V M → Config β V M → Prop
  | op {c : Config β V M} {op : Op β κ} {rs : List V} {m : M} :
    (f.body c.block).ops[c.pc]? = some op → S.exec op.code (op.operands.map c.env) c.mem rs m →
    rs.length = op.results → Step S f c ⟨c.block, c.pc + 1, setResults op.id rs c.env, m⟩
  | edge {c : Config β V M} {i : ℕ} {e : Edge β} :
    c.pc = f.last c.block →
    S.take (f.body c.block).terminator.code ((f.body c.block).terminator.operands.map c.env) i →
    (f.body c.block).terminator.edges[i]? = some e →
    Step S f c ⟨e.target, 0, setArgs e.target (e.operands.map c.env) c.env, c.mem⟩

/-- A run may start at the entry, with any values. -/
def Initial (f : Func β κ τ) (c : Config β V M) : Prop := c.block = f.entry ∧ c.pc = 0

/-- A run from the entry leads to `c`. -/
inductive Reaches (S : Semantics κ τ V M) (f : Func β κ τ) : Config β V M → Prop
  | initial {c : Config β V M} : Initial f c → Reaches S f c
  | step {c d : Config β V M} : Reaches S f c → Step S f c d → Reaches S f d

section Env

variable {id id' : ℕ} {k : ℕ} {a b : β} {vs rs : List V} {env : Value β → V}

/-- The arguments of other blocks stay. -/
theorem setArgs_arg_of_ne (h : a ≠ b) : setArgs b vs env (.arg a k) = env (.arg a k) := if_neg h

/-- The argument of the block is the value that is passed. -/
theorem setArgs_arg_self {x : V} (h : vs[k]? = some x) : setArgs b vs env (.arg b k) = x := by
  rw [setArgs, if_pos rfl, h]
  rfl

@[simp] theorem setArgs_result : setArgs b vs env (.result id k) = env (.result id k) := rfl

omit [DecidableEq β] in
@[simp] theorem setResults_arg : setResults id rs env (.arg a k) = env (.arg a k) := rfl

omit [DecidableEq β] in

/-- The results of other operations stay. -/
theorem setResults_of_ne (h : id' ≠ id) :
    setResults id rs env (.result id' k) = env (.result (β := β) id' k) := if_neg h

omit [DecidableEq β] in

/-- The result is the value that is computed. -/
theorem setResults_self {x : V} (h : rs[k]? = some x) :
    setResults id rs env (.result (β := β) id k) = x := by
  rw [setResults, if_pos rfl, h]
  rfl

end Env

section Run

variable {S : Semantics κ τ V M} {f : Func β κ τ} {c d : Config β V M}

/-- A run follows the edges of the graph and stays inside the blocks it enters. -/
theorem Reaches.reachable (h : Reaches S f c) :
    f.graph.Reachable c.block ∧ c.pc ≤ f.last c.block := by
  induction h with
  | initial h =>
    rw [h.1, h.2]
    exact ⟨.entry not_false, Nat.zero_le _⟩
  | step _ hs ih =>
    cases hs with
    | op hop _ _ => exact ⟨ih.1, (List.getElem?_eq_some_iff.mp hop).1⟩
    | edge _ _ he =>
      refine ⟨ih.1.step (Func.mem_succs.mpr ⟨ih.1.mem_nodes, _, List.mem_of_getElem? he, rfl⟩), ?_⟩
      exact Nat.zero_le _

/-- A run stays in the blocks of the function. -/
theorem Reaches.mem_blocks (h : Reaches S f c) : c.block ∈ f.blocks := h.reachable.1.mem_nodes

/-- The edge a run takes is one of the graph. -/
theorem Reaches.mem_succs {e : Edge β} {i : ℕ} (h : Reaches S f c)
    (he : (f.body c.block).terminator.edges[i]? = some e) : e.target ∈ f.graph.succs c.block :=
  Func.mem_succs.mpr ⟨h.mem_blocks, e, List.mem_of_getElem? he, rfl⟩

/-- The results of `op` are what it computes from the current values of its operands. -/
def Executed (S : Semantics κ τ V M) (op : Op β κ) (env : Value β → V) : Prop :=
  ∃ m rs m', S.exec op.code (op.operands.map env) m rs m' ∧ rs.length = op.results ∧
    ∀ k r, rs[k]? = some r → env (.result op.id k) = r

omit [DecidableEq β] in
/-- It stays so while its operands and its results do. -/
theorem Executed.congr {op : Op β κ} {env env' : Value β → V} (h : Executed S op env)
    (hops : ∀ v ∈ op.operands, env' v = env v)
    (hres : ∀ k, env' (.result op.id k) = env (.result op.id k)) : Executed S op env' := by
  obtain ⟨m, rs, m', hx, hlen, hrs⟩ := h
  refine ⟨m, rs, m', ?_, hlen, fun k r hk => (hres k).trans (hrs k r hk)⟩
  rwa [List.map_congr_left hops]

/-- What an operation does to a value that may be used before it: nothing. -/
theorem setResults_of_avail (hf : f.WellFormed) {b : β} {i : ℕ} {op : Op β κ}
    (hop : f.At b i op) {v : Value β} (hv : f.Avail v b i) (rs : List V) (env : Value β → V) :
    setResults op.id rs env v = env v := by
  cases v with
  | arg a k => rfl
  | result id k =>
    obtain ⟨a, j, op', hop', hid, -, hb⟩ := hv
    refine setResults_of_ne fun heq => ?_
    obtain ⟨rfl, rfl⟩ := hf.unique hop' hop (hid.trans heq)
    exact hb.irrefl

/-- A step leaves the values alone that are available before it, but for the arguments of a block it
enters. -/
theorem env_of_step (hf : f.WellFormed) (hc : Reaches S f c) (hs : Step S f c d) {v : Value β}
    (hv : f.Avail v c.block c.pc) (hne : d.pc = 0 → ∀ k, v ≠ .arg d.block k) :
    d.env v = c.env v := by
  cases hs with
  | op hop _ _ => exact setResults_of_avail hf ⟨hc.mem_blocks, hop⟩ hv _ _
  | edge _ _ _ =>
    cases v with
    | result id k => rfl
    | arg a k =>
      refine setArgs_arg_of_ne fun heq => hne rfl k ?_
      rw [heq]

/-- **Dominance.**  At every point of every run, each operation before the point is executed. -/
theorem executed (hf : f.WellFormed) (hc : Reaches S f c) {a : β} {j : ℕ} {op : Op β κ}
    (hop : f.At a j op) (hb : f.Before a j c.block c.pc) : Executed S op c.env := by
  induction hc with
  | initial h =>
    rw [h.1, h.2] at hb
    rcases hb with ⟨-, hlt⟩ | ⟨hne, hdom⟩
    · exact absurd hlt (Nat.not_lt_zero _)
    · exact absurd hdom.eq_entry hne
  | @step c d hc hs ih =>
    have hr := hc.reachable
    cases hs with
    | @op cur rs m hcur hx hlen =>
      have hcur' : f.At c.block c.pc cur := ⟨hc.mem_blocks, hcur⟩
      by_cases hthis : a = c.block ∧ j = c.pc
      · -- the operation just executed; its operands are defined before it
        obtain ⟨rfl, rfl⟩ := hthis
        have heq : op = cur := Option.some.inj (hop.2.symm.trans hcur)
        subst heq
        refine ⟨c.mem, rs, m, ?_, hlen, fun k r hk => setResults_self hk⟩
        rw [List.map_congr_left fun v hv =>
          setResults_of_avail hf hop (hf.operands hr.1 hop v hv) rs c.env]
        exact hx
      · have hbefore : f.Before a j c.block c.pc := by
          rcases hb with ⟨rfl, hlt⟩ | hb
          · exact .inl ⟨rfl, by grind⟩
          · exact .inr hb
        have ha : f.graph.Reachable a := hbefore.dominates.reachable hr.1
        refine (ih hbefore).congr (fun v hv => ?_) fun k => setResults_of_ne fun heq => ?_
        · exact setResults_of_avail hf hcur' ((hf.operands ha hop v hv).trans hr.1 hbefore) rs c.env
        · exact hthis (hf.unique hop hcur' heq)
    | @edge i e hpc _ he =>
      have hsucc := hc.mem_succs he
      have hdom : a ≠ e.target ∧ f.graph.Dominates a e.target := by
        rcases hb with ⟨-, hlt⟩ | hb
        · exact absurd hlt (Nat.not_lt_zero _)
        · exact hb
      have hbefore : f.Before a j c.block c.pc := by
        rw [hpc]
        exact Func.Before.of_edge (.inr hdom) hop.lt_last hsucc
      have ha : f.graph.Reachable a := hbefore.dominates.reachable hr.1
      refine (ih hbefore).congr (fun v hv => ?_) fun k => rfl
      cases v with
      | result id k => rfl
      | arg t k =>
        -- an argument of the target would be defined before and behind `op`
        refine setArgs_arg_of_ne ?_
        rintro rfl
        have hta : f.graph.Dominates e.target a := (hf.operands ha hop _ hv).2
        exact hdom.1 (hdom.2.antisymm hta ha)

/-- The operation leaves the memory as it is. -/
def Pure (S : Semantics κ τ V M) (code : κ) : Prop :=
  ∀ vs m rs m', S.exec code vs m rs m' → m' = m

/-- **The last pass.**  Inside a block, each operation behind the run was executed from a state of
the run.  Since then no value available behind it changed, nor the memory, if the operations in
between are pure. -/
theorem Reaches.passed (hf : f.WellFormed) (hc : Reaches S f c) {j : ℕ} {op : Op β κ}
    (hop : f.At c.block j op) (hj : j < c.pc) :
    ∃ c₀ rs m, Reaches S f c₀ ∧ c₀.block = c.block ∧ c₀.pc = j ∧
      S.exec op.code (op.operands.map c₀.env) c₀.mem rs m ∧ rs.length = op.results ∧
      (∀ v, f.Avail v c.block (j + 1) → c.env v = setResults op.id rs c₀.env v) ∧
      ((∀ i op', f.At c.block i op' → j < i → i < c.pc → Pure S op'.code) → c.mem = m) := by
  induction hc with
  | initial h =>
    rw [h.2] at hj
    exact absurd hj (Nat.not_lt_zero _)
  | @step c d hc hs ih =>
    cases hs with
    | @op cur rs m hcur hx hlen =>
      rcases Nat.lt_succ_iff_lt_or_eq.mp hj with hlt | rfl
      · obtain ⟨c₀, rs₀, m₀, hc₀, hblock, hpc, hx₀, hlen₀, henv, hmem⟩ := ih hop hlt
        refine ⟨c₀, rs₀, m₀, hc₀, hblock, hpc, hx₀, hlen₀, fun v hv => ?_, fun hpure => ?_⟩
        · rw [← henv v hv]
          exact setResults_of_avail hf ⟨hc.mem_blocks, hcur⟩ (hv.mono hlt) _ _
        · show m = m₀
          rw [hpure _ cur ⟨hc.mem_blocks, hcur⟩ hlt (Nat.lt_succ_self _) _ _ _ _ hx]
          exact hmem fun i op' hi hji hic => hpure i op' hi hji (Nat.lt_succ_of_lt hic)
      · obtain rfl : op = cur := Option.some.inj (hop.2.symm.trans hcur)
        exact ⟨c, rs, m, hc, rfl, rfl, hx, hlen, fun v _ => rfl, fun _ => rfl⟩
    | edge _ _ _ => exact absurd hj (Nat.not_lt_zero _)

end Run

/-! ### Comparing two functions -/

/-- Each step of one of the functions is one of the other, between states that `R` relates. -/
structure Bisimulation (S : Semantics κ τ V M) (f f' : Func β κ τ)
    (R : Config β V M → Config β V M → Prop) : Prop where
  start : ∀ c, Initial f c → ∃ c', Initial f' c' ∧ R c c'
  start' : ∀ c', Initial f' c' → ∃ c, Initial f c ∧ R c c'
  forth : ∀ {c c' d}, R c c' → Step S f c d → ∃ d', Step S f' c' d' ∧ R d d'
  back : ∀ {c c' d'}, R c c' → Step S f' c' d' → ∃ d, Step S f c d ∧ R d d'

namespace Bisimulation

variable {S : Semantics κ τ V M} {f f' f'' : Func β κ τ}
  {R R' : Config β V M → Config β V M → Prop}

/-- A function is bisimilar to itself. -/
theorem refl (S : Semantics κ τ V M) (f : Func β κ τ) : Bisimulation S f f fun c c' => c' = c where
  start c hc := ⟨c, hc, rfl⟩
  start' c hc := ⟨c, hc, rfl⟩
  forth h hs := ⟨_, h ▸ hs, rfl⟩
  back h hs := ⟨_, h ▸ hs, rfl⟩

/-- Bisimulations can be chained. -/
theorem trans (h : Bisimulation S f f' R) (h' : Bisimulation S f' f'' R') :
    Bisimulation S f f'' fun c c'' => ∃ c', R c c' ∧ R' c' c'' where
  start c hc := by
    obtain ⟨c', hc', hR⟩ := h.start c hc
    obtain ⟨c'', hc'', hR'⟩ := h'.start c' hc'
    exact ⟨c'', hc'', c', hR, hR'⟩
  start' c'' hc'' := by
    obtain ⟨c', hc', hR'⟩ := h'.start' c'' hc''
    obtain ⟨c, hc, hR⟩ := h.start' c' hc'
    exact ⟨c, hc, c', hR, hR'⟩
  forth := by
    rintro c c'' d ⟨c', hR, hR'⟩ hs
    obtain ⟨d', hs', hd⟩ := h.forth hR hs
    obtain ⟨d'', hs'', hd'⟩ := h'.forth hR' hs'
    exact ⟨d'', hs'', d', hd, hd'⟩
  back := by
    rintro c c'' d'' ⟨c', hR, hR'⟩ hs
    obtain ⟨d', hs', hd'⟩ := h'.back hR' hs
    obtain ⟨d, hs'', hd⟩ := h.back hR hs'
    exact ⟨d, hs'', d', hd, hd'⟩

/-- Each run of the first function is one of the second. -/
theorem reaches (h : Bisimulation S f f' R) {c : Config β V M} (hc : Reaches S f c) :
    ∃ c', Reaches S f' c' ∧ R c c' := by
  induction hc with
  | initial hi =>
    obtain ⟨c', hi', hR⟩ := h.start _ hi
    exact ⟨c', .initial hi', hR⟩
  | step _ hs ih =>
    obtain ⟨c', hc', hR⟩ := ih
    obtain ⟨d', hs', hR'⟩ := h.forth hR hs
    exact ⟨d', hc'.step hs', hR'⟩

end Bisimulation

end CudaOxide.Lib.Ssa
