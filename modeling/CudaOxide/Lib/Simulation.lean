import CudaOxide.Lib.Ssa

/-!
# Simulations of SSA functions

A rewrite that drops operations makes fewer steps than the function it starts from.

* `Simulation` — each step of a function is matched by some steps of the other one, or by none;
  simulations compose (`Simulation.trans`) and follow runs (`Simulation.reaches`).
* `Func.erase`, `simulation_erase` — dropping operations whose results nobody reads.  Memories are
  compared by a relation: equality for operations without effect, and for a store a relation that
  does not see the stored value.
-/

namespace CudaOxide.Lib.Ssa

variable {β κ τ V M : Type*} [DecidableEq β]

/-- Each step of `f` is matched by steps of `f'`, possibly none. -/
structure Simulation (S : Semantics κ τ V M) (f f' : Func β κ τ)
    (R : Config β V M → Config β V M → Prop) : Prop where
  start : ∀ c, Initial f c → ∃ c', Initial f' c' ∧ R c c'
  forth : ∀ {c c' d}, R c c' → Step S f c d → ∃ d', Relation.ReflTransGen (Step S f') c' d' ∧ R d d'

namespace Simulation

variable {S : Semantics κ τ V M} {f f' f'' : Func β κ τ}
  {R R' : Config β V M → Config β V M → Prop} {c c' d : Config β V M}

/-- A function simulates itself. -/
theorem refl (S : Semantics κ τ V M) (f : Func β κ τ) : Simulation S f f fun c c' => c' = c where
  start c hc := ⟨c, hc, rfl⟩
  forth h hs := ⟨_, .single (h ▸ hs), rfl⟩

/-- A sequence of steps is matched by a sequence of steps. -/
theorem steps (h : Simulation S f f' R) (hR : R c c')
    (hs : Relation.ReflTransGen (Step S f) c d) :
    ∃ d', Relation.ReflTransGen (Step S f') c' d' ∧ R d d' := by
  induction hs with
  | refl => exact ⟨c', .refl, hR⟩
  | tail _ hs ih =>
    obtain ⟨d', hs', hd⟩ := ih
    obtain ⟨e', hs'', he⟩ := h.forth hd hs
    exact ⟨e', hs'.trans hs'', he⟩

/-- Simulations can be chained. -/
theorem trans (h : Simulation S f f' R) (h' : Simulation S f' f'' R') :
    Simulation S f f'' fun c c'' => ∃ c', R c c' ∧ R' c' c'' where
  start c hc := by
    obtain ⟨c', hc', hR⟩ := h.start c hc
    obtain ⟨c'', hc'', hR'⟩ := h'.start c' hc'
    exact ⟨c'', hc'', c', hR, hR'⟩
  forth := by
    rintro c c'' d ⟨c', hR, hR'⟩ hs
    obtain ⟨d', hs', hd⟩ := h.forth hR hs
    obtain ⟨d'', hs'', hd'⟩ := h'.steps hR' hs'
    exact ⟨d'', hs'', d', hd, hd'⟩

/-- What is reached goes on to what it steps to. -/
theorem reaches_steps (hc : Reaches S f c) (hs : Relation.ReflTransGen (Step S f) c d) :
    Reaches S f d := by
  induction hs with
  | refl => exact hc
  | tail _ hs ih => exact ih.step hs

/-- Each run of the first function is one of the second. -/
theorem reaches (h : Simulation S f f' R) (hc : Reaches S f c) :
    ∃ c', Reaches S f' c' ∧ R c c' := by
  induction hc with
  | initial hi =>
    obtain ⟨c', hi', hR⟩ := h.start _ hi
    exact ⟨c', .initial hi', hR⟩
  | step _ hs ih =>
    obtain ⟨c', hc', hR⟩ := ih
    obtain ⟨d', hs', hR'⟩ := h.forth hR hs
    exact ⟨d', reaches_steps hc' hs', hR'⟩

end Simulation

/-! ### Erasing operations -/

namespace Func

/-- `f` without the operations `ids`. -/
def erase (f : Func β κ τ) (ids : List ℕ) : Func β κ τ where
  entry := f.entry
  blocks := f.blocks
  body b := { f.body b with ops := (f.body b).ops.filter (·.id ∉ ids) }
  entry_mem := f.entry_mem
  edge_mem := f.edge_mem

/-- The place in `f.erase ids` of the place `i` of block `b`. -/
def kept (f : Func β κ τ) (ids : List ℕ) (b : β) (i : ℕ) : ℕ :=
  (((f.body b).ops.take i).filter (·.id ∉ ids)).length

variable {f : Func β κ τ} {ids : List ℕ} {i : ℕ} {b : β} {op : Op β κ}

omit [DecidableEq β] in

/-- One more operation is kept, or erased. -/
theorem kept_succ (h : (f.body b).ops[i]? = some op) :
    f.kept ids b (i + 1) = f.kept ids b i + if op.id ∉ ids then 1 else 0 := by
  rw [kept, List.take_add_one, h, Option.toList_some, List.filter_append, List.length_append]
  congr 1
  by_cases hid : op.id ∈ ids
  · simp [hid]
  · simp [hid]

omit [DecidableEq β] in
/-- An operation that stays is found at its place. -/
theorem getElem?_erase (h : (f.body b).ops[i]? = some op) (hid : op.id ∉ ids) :
    ((f.erase ids).body b).ops[f.kept ids b i]? = some op := by
  obtain ⟨hi, rfl⟩ := List.getElem?_eq_some_iff.mp h
  show ((f.body b).ops.filter (·.id ∉ ids))[f.kept ids b i]? = _
  have hsplit : (f.body b).ops.filter (·.id ∉ ids) =
      ((f.body b).ops.take i).filter (·.id ∉ ids) ++
        (f.body b).ops[i] :: ((f.body b).ops.drop (i + 1)).filter (·.id ∉ ids) := by
    conv_lhs => rw [← List.take_append_drop i (f.body b).ops, List.drop_eq_getElem_cons hi]
    rw [List.filter_append, List.filter_cons_of_pos (by simpa using hid)]
  rw [hsplit, kept, List.getElem?_append_right le_rfl, Nat.sub_self]
  rfl

omit [DecidableEq β] in

/-- The operations of a block that are kept. -/
theorem last_erase : (f.erase ids).last b = f.kept ids b (f.last b) := by
  rw [kept, last, last, List.take_length]
  rfl

omit [DecidableEq β] in

/-- Erasing nothing. -/
theorem erase_nil : f.erase [] = f := by
  have hbody : (f.erase []).body = f.body := by
    funext b
    show { f.body b with ops := (f.body b).ops.filter (·.id ∉ []) } = f.body b
    simp
  unfold erase at hbody ⊢
  congr

omit [DecidableEq β] in

/-- Erasing twice. -/
theorem erase_erase {ids' : List ℕ} : (f.erase ids).erase ids' = f.erase (ids ++ ids') := by
  unfold erase
  congr 1
  funext b
  simp only [List.filter_filter, List.mem_append, not_or, Bool.decide_and, Bool.and_comm]

omit [DecidableEq β] in

/-- A function with less operations reads no more. -/
theorem operands_erase_subset : (f.erase ids).operands b ⊆ f.operands b := by
  intro v hv
  rcases List.mem_append.mp hv with hop | hterm
  · obtain ⟨op, hop, hv⟩ := List.mem_flatMap.mp hop
    exact List.mem_append_left _
      (List.mem_flatMap.mpr ⟨op, List.mem_of_mem_filter hop, hv⟩)
  · exact List.mem_append_right _ hterm

end Func

section Erase

variable {S : Semantics κ τ V M} {f : Func β κ τ} {Q : M → M → Prop} {ids : List ℕ}
  {E : Value β → Prop}

/-- The states of `f` and of `f.erase ids`; the values `E` are those that were erased. -/
structure Erased (f : Func β κ τ) (ids : List ℕ) (E : Value β → Prop) (Q : M → M → Prop)
    (c c' : Config β V M) : Prop where
  block : c'.block = c.block
  pc : c'.pc = f.kept ids c.block c.pc
  mem : Q c.mem c'.mem
  env : ∀ v, ¬E v → c'.env v = c.env v

omit [DecidableEq β] in

/-- Results that are written to both environments keep them alike outside the erased values. -/
theorem setResults_congr {env env' : Value β → V} {id : ℕ} (rs : List V)
    (h : ∀ v, ¬E v → env' v = env v) (v : Value β) (hv : ¬E v) :
    setResults id rs env' v = setResults id rs env v := by
  cases v with
  | arg a k => exact h _ hv
  | result id' k =>
    show (if id' = id then _ else _) = (if id' = id then _ else _)
    rw [h _ hv]

omit [DecidableEq β] in
/-- An operation changes nothing but its results. -/
theorem setResults_of_not {env : Value β → V} {id : ℕ} {rs : List V}
    (hE : ∀ k < rs.length, E (.result id k)) (v : Value β) (hv : ¬E v) :
    setResults id rs env v = env v := by
  cases v with
  | arg a k => rfl
  | result id' k =>
    by_cases hid : id' = id
    · subst hid
      have hk : rs.length ≤ k := by
        by_contra hlt
        exact hv (hE k (not_le.mp hlt))
      rw [setResults, if_pos rfl, List.getElem?_eq_none hk]
      rfl
    · exact setResults_of_ne hid

/-- **Erasing operations.**  Nothing that stays reads their results, and in no run their effects on
memory are seen by what stays. -/
theorem simulation_erase (hrefl : ∀ m, Q m m)
    (hunused : ∀ b ∈ f.blocks, ∀ v ∈ (f.erase ids).operands b, ¬E v)
    (herased : ∀ c : Config β V M, Reaches S f c → ∀ op, (f.body c.block).ops[c.pc]? = some op →
      op.id ∈ ids → ∀ rs m', S.exec op.code (op.operands.map c.env) c.mem rs m' →
      rs.length = op.results → (∀ k < op.results, E (.result op.id k)) ∧ ∀ m₂, Q c.mem m₂ → Q m' m₂)
    (hkept : ∀ c : Config β V M, Reaches S f c → ∀ op, (f.body c.block).ops[c.pc]? = some op →
      op.id ∉ ids → ∀ rs m', S.exec op.code (op.operands.map c.env) c.mem rs m' →
      ∀ m₂, Q c.mem m₂ → ∃ m₂', S.exec op.code (op.operands.map c.env) m₂ rs m₂' ∧ Q m' m₂') :
    Simulation S f (f.erase ids) fun c c' => Reaches S f c ∧ Erased f ids E Q c c' where
  start c hc := by
    refine ⟨c, hc, .initial hc, rfl, ?_, hrefl _, fun _ _ => rfl⟩
    rw [hc.2]
    rfl
  forth := by
    -- an erased operation is not executed, the others are
    rintro c c' d ⟨hc, hE⟩ hs
    have hd := hc.step hs
    have hreads : ∀ vs : List (Value β), (∀ v ∈ vs, v ∈ (f.erase ids).operands c.block) →
        vs.map c'.env = vs.map c.env := fun vs hvs =>
      List.map_congr_left fun v hv => hE.env v (hunused _ hc.mem_blocks v (hvs v hv))
    cases hs with
    -- only operations that are kept move the counter of the erased function
    | @op op rs m hop hx hlen =>
      by_cases hid : op.id ∈ ids
      -- an erased result is read by nobody, so its value may be missing
      · obtain ⟨hresults, hQ⟩ := herased c hc op hop hid _ _ hx hlen
        refine ⟨c', .refl, hd, hE.block, ?_, hQ _ hE.mem, fun v hv => ?_⟩
        · rw [hE.pc, Func.kept_succ hop, if_neg (not_not.mpr hid), add_zero]
        · show c'.env v = setResults op.id rs c.env v
          rw [setResults_of_not (hlen ▸ hresults) v hv, hE.env v hv]
      · obtain ⟨m', hx', hm'⟩ := hkept c hc op hop hid _ _ hx _ hE.mem
        have hop' : ((f.erase ids).body c'.block).ops[c'.pc]? = some op := by
          rw [hE.block, hE.pc]
          exact Func.getElem?_erase hop hid
        have hvs := hreads op.operands fun v hv =>
          Func.mem_operands_of_op (hE.block ▸ hop') hv
        refine ⟨_, .single (.op hop' (hvs ▸ hx') hlen), hd, hE.block, ?_, hm',
          setResults_congr rs hE.env⟩
        rw [hE.pc, Func.kept_succ hop, if_pos hid]
    -- an edge reads what is kept, and passes it on
    | @edge i e hpc htake he =>
      have hvs := hreads (f.body c.block).terminator.operands fun v hv =>
        Func.mem_operands_of_terminator (f := f.erase ids) hv
      have hes := hreads e.operands fun v hv =>
        Func.mem_operands_of_edge (f := f.erase ids) (List.mem_of_getElem? he) hv
      have hpc' : c'.pc = (f.erase ids).last c'.block := by
        rw [hE.block, hE.pc, Func.last_erase, hpc]
      have he' : ((f.erase ids).body c'.block).terminator.edges[i]? = some e := by
        rw [hE.block]
        exact he
      refine ⟨_, .single (.edge hpc' ?_ he'), hd, rfl, ?_, hE.mem, fun v hv => ?_⟩
      · rw [hE.block]
        exact hvs ▸ htake
      · rfl
      · rw [hes]
        cases v with
        | result id k => exact hE.env _ hv
        | arg a k =>
          show (if a = e.target then _ else _) = (if a = e.target then _ else _)
          rw [hE.env _ hv]

end Erase

end CudaOxide.Lib.Ssa
