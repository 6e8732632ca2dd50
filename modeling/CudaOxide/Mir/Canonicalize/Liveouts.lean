import CudaOxide.Mir.LoopInfo
import CudaOxide.Mir.Program

/-!
# Routing live-out values through block arguments

Before full unrolling, a use of a header argument outside the loop is rewritten: the blocks between
the loop and the use get an argument for it, and every edge into them passes the value on.

* `propagate` — the walk from the users back to the loop.
* `closeLiveout` — the rewrite for one header argument.
* `closeHeaderLiveouts_sound` — the rewritten function takes the same steps, and every operation
  and every edge reads the values it read before; a loop that is not supported is left as it is.
-/

namespace CudaOxide.Mir

open Lib Lib.Ssa

/-- `CanonicalizeOutcome` -/
inductive CanonicalizeOutcome where
  | unchanged
  | changed
  | unsupported (why : String)
  deriving DecidableEq, Repr

variable {β : Type*} [DecidableEq β]

/-! ### The rewrite -/

/-- The arguments of the header of a loop. -/
def headerArgs (f : Function β) (lp : Loop β) : List (Value β) :=
  (List.range (f.body lp.header).arguments).map fun i => .arg lp.header i

/-- The walk back from the users of live-outs: every block that an outside path leads from the loop
to a user over. `none` when the fuel runs out. -/
def propagate (f : Function β) (lp : Loop β) :
    ℕ → List β → List β → Option (Except String (List β))
  | _, seen, [] => some (.ok seen)
  | 0, _, _ :: _ => none
  | fuel + 1, seen, block :: work =>
    if block ∈ seen then propagate f lp fuel seen work
    else if incoming f block = [] then
      some (.error "a loop-carried live-out is reachable from outside the loop")
    else if ∃ p ∈ incoming f block, (f.body p.1).terminator.code.isBranch = false then
      some (.error "a live-out edge does not expose branch operands")
    else
      let sources := ((incoming f block).map (·.1)).filter (· ∉ lp.blocks)
      propagate f lp fuel (block :: seen) (sources.reverse ++ work)

/-- The argument that block `b` gets: the next free one. -/
def own (f : Function β) (b : β) : Value β := .arg b (f.body b).arguments

/-- An operand in block `b` after the rewrite: outside the loop a use of `h` reads the argument of
its own block. -/
def routed (lp : Loop β) (f : Function β) (h : Value β) (b : β) (v : Value β) : Value β :=
  if v = h ∧ b ∉ lp.blocks then own f b else v

/-- What is appended to the operands of an edge from `b` to `target`. -/
def passed (lp : Loop β) (region : List β) (f : Function β) (h : Value β) (b target : β) :
    List (Value β) :=
  if target ∈ region then [if b ∈ lp.blocks then h else own f b] else []

/-- An operation with its uses of the value routed. -/
def closeOp (lp : Loop β) (f : Function β) (h : Value β) (b : β) (op : Op β OpCode) :
    Op β OpCode :=
  { op with operands := op.operands.map (routed lp f h b) }

/-- An edge with its uses routed and the value passed on. -/
def closeEdge (lp : Loop β) (region : List β) (f : Function β) (h : Value β) (b : β) (e : Edge β) :
    Edge β :=
  ⟨e.target, e.operands.map (routed lp f h b) ++ passed lp region f h b e.target⟩

/-- The rewrite for one header argument `h`: push an argument onto every block of `region`, append
an operand to every edge into one of them, and replace the uses outside the loop. -/
def closeLiveout (lp : Loop β) (region : List β) (f : Function β) (h : Value β) : Function β where
  entry := f.entry
  blocks := f.blocks
  body b :=
    { arguments := (f.body b).arguments + if b ∈ region then 1 else 0
      ops := (f.body b).ops.map (closeOp lp f h b)
      terminator :=
        { code := (f.body b).terminator.code
          operands := (f.body b).terminator.operands.map (routed lp f h b)
          edges := (f.body b).terminator.edges.map (closeEdge lp region f h b) } }
  entry_mem := f.entry_mem
  edge_mem := by
    intro b hb e' he'
    obtain ⟨e, he, rfl⟩ := List.mem_map.mp he'
    show e.target ∈ f.blocks
    exact f.edge_mem hb he

/-- The blocks outside the loop that use `h`. -/
def outsideUsers (f : Function β) (lp : Loop β) (h : Value β) : List β :=
  (usersOf f h).filter (· ∉ lp.blocks)

/-- The header arguments with a use outside the loop. -/
def liveouts (f : Function β) (lp : Loop β) : List (Value β) :=
  (headerArgs f lp).filter fun h => outsideUsers f lp h ≠ []

/-- `close_header_liveouts`. The hash set of users has some order; it only picks which of two
reasons is reported. -/
def closeHeaderLiveouts (fuel : ℕ) (f : Function β) (lp : Loop β) :
    Option (CanonicalizeOutcome × Function β) :=
  if liveouts f lp = [] then some (.unchanged, f)
  else
    match propagate f lp fuel [] ((liveouts f lp).flatMap (outsideUsers f lp)) with
    | none => none
    | some (.error why) => some (.unsupported why, f)
    | some (.ok region) => some (.changed, (liveouts f lp).foldl (closeLiveout lp region) f)

/-! ### The walk -/

section Walk

variable {f : Function β} {lp : Loop β} {fuel : ℕ} {seen work region : List β}

/-- What the walk keeps true: all it has seen lies outside the loop and leads to a user, and the
sources of the edges into it lie in the loop, were seen, or are still to be visited. -/
structure Walk (f : Function β) (lp : Loop β) (start seen work : List β) : Prop where
  outside : ∀ b, b ∈ seen ∨ b ∈ work → b ∉ lp.blocks
  closed : ∀ b ∈ seen, ∀ p ∈ incoming f b, p.1 ∈ lp.blocks ∨ p.1 ∈ seen ∨ p.1 ∈ work
  users : ∀ b ∈ start, b ∈ seen ∨ b ∈ work
  reaches : ∀ b, b ∈ seen ∨ b ∈ work → f.graph.Around (· = lp.header) b →
    ∃ u ∈ start, f.graph.Around (· = lp.header) u

/-- The propagation ends with a region that is closed. -/
theorem Walk.propagate {start : List β} (hh : lp.header ∈ lp.blocks)
    (hw : Walk f lp start seen work)
    (hp : propagate f lp fuel seen work = some (.ok region)) : Walk f lp start region [] := by
  induction fuel generalizing seen work with
  | zero =>
    cases work with
    | nil =>
      rw [Mir.propagate] at hp
      cases hp
      exact hw
    | cons block work => cases hp
  | succ fuel ih =>
    cases work with
    | nil =>
      rw [Mir.propagate] at hp
      cases hp
      exact hw
    | cons block work =>
      rw [Mir.propagate] at hp
      split at hp
      · rename_i hseen
        have hskip : ∀ b, b ∈ seen ∨ b ∈ block :: work → b ∈ seen ∨ b ∈ work := by
          rintro b (hb | hb)
          · exact .inl hb
          · rcases List.mem_cons.mp hb with rfl | hb
            · exact .inl hseen
            · exact .inr hb
        refine ih ⟨fun b hb => hw.outside b (hb.imp_right (List.mem_cons_of_mem _)), ?_,
          fun b hb => hskip b (hw.users b hb),
          fun b hb => hw.reaches b (hb.imp_right (List.mem_cons_of_mem _))⟩ hp
        exact fun b hb p hpb => (hw.closed b hb p hpb).imp_right (hskip _)
      split at hp
      · cases hp
      split at hp
      · cases hp
      have hblock : block ∉ lp.blocks := hw.outside block (.inr List.mem_cons_self)
      -- the new entries of the worklist are the outside sources of the edges into `block`
      have hnew : ∀ b, b ∈ block :: seen ∨
          b ∈ (((incoming f block).map (·.1)).filter (· ∉ lp.blocks)).reverse ++ work →
          (b ∈ seen ∨ b ∈ block :: work) ∨ (b ∉ lp.blocks ∧ ∃ p ∈ incoming f block, p.1 = b) := by
        rintro b (hb | hb)
        · rcases List.mem_cons.mp hb with rfl | hb
          · exact .inl (.inr List.mem_cons_self)
          · exact .inl (.inl hb)
        · rcases List.mem_append.mp hb with hb | hb
          · obtain ⟨hmem, hout⟩ := List.mem_filter.mp (List.mem_reverse.mp hb)
            obtain ⟨p, hpm, rfl⟩ := List.mem_map.mp hmem
            exact .inr ⟨of_decide_eq_true hout, p, hpm, rfl⟩
          · exact .inl (.inr (List.mem_cons_of_mem _ hb))
      have hold : ∀ b, b ∈ seen ∨ b ∈ block :: work → b ∈ block :: seen ∨
          b ∈ (((incoming f block).map (·.1)).filter (· ∉ lp.blocks)).reverse ++ work := by
        rintro b (hb | hb)
        · exact .inl (List.mem_cons_of_mem _ hb)
        · rcases List.mem_cons.mp hb with rfl | hb
          · exact .inl List.mem_cons_self
          · exact .inr (List.mem_append_right _ hb)
      refine ih ⟨fun b hb => ?_, fun b hb p hpb => ?_, fun b hb => hold b (hw.users b hb),
        fun b hb hpath => ?_⟩ hp
      · rcases hnew b hb with hb | ⟨hb, -⟩
        · exact hw.outside b hb
        · exact hb
      · rcases List.mem_cons.mp hb with rfl | hb
        · by_cases hin : p.1 ∈ lp.blocks
          · exact .inl hin
          · refine .inr (.inr (List.mem_append_left _ (List.mem_reverse.mpr ?_)))
            exact List.mem_filter.mpr ⟨List.mem_map.mpr ⟨p, hpb, rfl⟩, decide_eq_true hin⟩
        · exact (hw.closed b hb p hpb).imp_right (hold _)
      · rcases hnew b hb with hb | ⟨-, p, hpm, rfl⟩
        · exact hw.reaches b hb hpath
        · obtain ⟨ha, he, ht⟩ := mem_incoming.mp hpm
          refine hw.reaches block (.inr List.mem_cons_self) (.step hpath ?_ fun heq => ?_)
          · exact Func.mem_succs.mpr ⟨ha, p.2, he, ht⟩
          · exact hblock (heq ▸ hh)

end Walk

/-! ### The walk ends -/

/-- The number of edges into the blocks that the walk has not seen. -/
def unseenEdges (f : Function β) (seen : List β) : ℕ :=
  ∑ b ∈ f.blocks.toFinset.filter (· ∉ seen), (incoming f b).length

/-- Visiting a block takes its edges off the count. -/
theorem unseenEdges_cons {f : Function β} {seen : List β} {block : β} (hb : block ∈ f.blocks)
    (hseen : block ∉ seen) :
    unseenEdges f (block :: seen) + (incoming f block).length = unseenEdges f seen := by
  have herase : f.blocks.toFinset.filter (· ∉ block :: seen) =
      (f.blocks.toFinset.filter (· ∉ seen)).erase block := by
    ext b
    simp only [Finset.mem_filter, Finset.mem_erase, List.mem_cons, not_or]
    tauto
  have hmem : block ∈ f.blocks.toFinset.filter (· ∉ seen) :=
    Finset.mem_filter.mpr ⟨List.mem_toFinset.mpr hb, hseen⟩
  rw [unseenEdges, herase, Finset.sum_erase_add _ _ hmem]
  rfl

/-- Each visit takes an entry off the worklist or trades a block's edges for new entries. -/
theorem propagate_isSome {f : Function β} {lp : Loop β} {fuel : ℕ} {seen work : List β}
    (hfuel : work.length + unseenEdges f seen ≤ fuel) :
    (propagate f lp fuel seen work).isSome = true := by
  induction fuel generalizing seen work with
  | zero =>
    have hwork : work = [] := List.eq_nil_of_length_eq_zero (by omega)
    rw [hwork, propagate]
    rfl
  | succ fuel ih =>
    cases work with
    | nil =>
      rw [propagate]
      rfl
    | cons block work =>
      rw [List.length_cons] at hfuel
      rw [propagate]
      split
      · exact ih (by omega)
      rename_i hseen
      split
      · rfl
      rename_i hincoming
      split
      · rfl
      have hb : block ∈ f.blocks := by
        obtain ⟨p, hp⟩ := List.exists_mem_of_ne_nil _ hincoming
        obtain ⟨ha, he, rfl⟩ := mem_incoming.mp hp
        exact f.edge_mem ha he
      have hsum := unseenEdges_cons hb hseen
      have hnew : (((incoming f block).map (·.1)).filter (· ∉ lp.blocks)).length ≤
          (incoming f block).length :=
        (List.length_filter_le _ _).trans_eq (List.length_map _)
      refine ih ?_
      rw [List.length_append, List.length_reverse]
      omega

/-- The pass returns. -/
theorem closeHeaderLiveouts_isSome (f : Function β) (lp : Loop β) :
    ∃ fuel, (closeHeaderLiveouts fuel f lp).isSome = true := by
  set start := (liveouts f lp).flatMap (outsideUsers f lp) with hstart
  refine ⟨start.length + unseenEdges f [], ?_⟩
  have hsome : (propagate f lp (start.length + unseenEdges f []) [] start).isSome = true :=
    propagate_isSome (le_refl _)
  obtain ⟨r, hr⟩ := Option.isSome_iff_exists.mp hsome
  rw [closeHeaderLiveouts, ← hstart, hr]
  split
  · rfl
  · cases r <;> rfl

/-! ### One header argument -/

section Rewrite

variable {V M : Type*} {S : Semantics OpCode TermKind V M} {f f' f'' : Function β} {lp : Loop β}
  {region : List β} {h : Value β} {hs : List (Value β)} {c c' c'' : Config β V M}

/-- What the rewrite for the header arguments `hs` rests on. -/
structure Region (f : Function β) (lp : Loop β) (region : List β) (hs : List (Value β)) : Prop where
  header : ∀ h ∈ hs, ∃ i, h = .arg lp.header i ∧ i < (f.body lp.header).arguments
  header_mem : lp.header ∈ lp.blocks
  outside : ∀ b ∈ region, b ∉ lp.blocks
  entry : f.entry ∉ region
  closed : ∀ b ∈ region, ∀ a, b ∈ f.graph.succs a → a ∈ lp.blocks ∨ a ∈ region
  users : ∀ h ∈ hs, ∀ b ∈ f.blocks, b ∉ lp.blocks → h ∈ f.operands b → b ∈ region
  declared : ∀ b, f.graph.Reachable b → ∀ v ∈ f.operands b, f.Declared v
  lengths : ∀ b, f.graph.Reachable b → ∀ e ∈ (f.body b).terminator.edges,
    e.operands.length = (f.body e.target).arguments

/-- The states of the two functions: inside the region, the argument of the current block holds the
value of `h`. -/
structure Carries (f : Function β) (region : List β) (h : Value β) (c c' : Config β V M) :
    Prop where
  block : c'.block = c.block
  pc : c'.pc = c.pc
  mem : c'.mem = c.mem
  env : ∀ v, f.Declared v → c'.env v = c.env v
  own : c.block ∈ region → c'.env (own f c.block) = c.env h

/-- A rewritten operand has the value that the operand had. -/
theorem Carries.reads (hr : Region f lp region hs) (hh : h ∈ hs) (hc : Reaches S f c)
    (hC : Carries f region h c c') {v : Value β} (hv : v ∈ f.operands c.block) :
    c'.env (routed lp f h c.block v) = c.env v := by
  unfold routed
  split
  · rename_i hcond
    obtain ⟨rfl, hout⟩ := hcond
    exact hC.own (hr.users v hh c.block hc.mem_blocks hout hv)
  · exact hC.env v (hr.declared _ hc.reachable.1 v hv)

/-- Routed operands read what the operands of the function read. -/
theorem Carries.map_reads (hr : Region f lp region hs) (hh : h ∈ hs) (hc : Reaches S f c)
    (hC : Carries f region h c c') {vs : List (Value β)} (hvs : ∀ v ∈ vs, v ∈ f.operands c.block) :
    (vs.map (routed lp f h c.block)).map c'.env = vs.map c.env := by
  rw [List.map_map]
  exact List.map_congr_left fun v hv => hC.reads hr hh hc (hvs v hv)

/-- An edge into the region passes the value of `h` on. -/
theorem Carries.passes (hr : Region f lp region hs) (hh : h ∈ hs)
    (hC : Carries f region h c c') {target : β} (ht : target ∈ f.graph.succs c.block) :
    (passed lp region f h c.block target).map c'.env =
      if target ∈ region then [c.env h] else [] := by
  unfold passed
  split
  · rename_i hregion
    rw [List.map_singleton]
    congr 1
    split
    · obtain ⟨i, rfl, hi⟩ := hr.header h hh
      exact hC.env _ hi
    · rename_i hout
      exact hC.own ((hr.closed target hregion _ ht).resolve_left hout)
  · rfl

/-- An operation keeps the states related. -/
theorem Carries.op (hr : Region f lp region hs) (hh : h ∈ hs) (hC : Carries f region h c c')
    (id : ℕ) (rs : List V) (m : M) :
    Carries f region h ⟨c.block, c.pc + 1, setResults id rs c.env, m⟩
      ⟨c'.block, c'.pc + 1, setResults id rs c'.env, m⟩ := by
  obtain ⟨i, rfl, -⟩ := hr.header h hh
  refine ⟨hC.block, congrArg (· + 1) hC.pc, rfl, fun v hv => ?_, hC.own⟩
  cases v with
  | arg a k => exact hC.env _ hv
  | result id' k =>
    show (if id' = id then _ else _) = (if id' = id then _ else _)
    rw [hC.env _ hv]

/-- An edge keeps the states related. -/
theorem Carries.edge (hr : Region f lp region hs) (hh : h ∈ hs) (hc : Reaches S f c)
    (hC : Carries f region h c c') {i : ℕ} {e : Edge β}
    (he : (f.body c.block).terminator.edges[i]? = some e) :
    Carries f region h ⟨e.target, 0, setArgs e.target (e.operands.map c.env) c.env, c.mem⟩
      ⟨e.target, 0, setArgs e.target ((e.operands.map (routed lp f h c.block) ++
        passed lp region f h c.block e.target).map c'.env) c'.env, c'.mem⟩ := by
  have hmem := List.mem_of_getElem? he
  have hlen := hr.lengths _ hc.reachable.1 e hmem
  rw [List.map_append, hC.map_reads hr hh hc fun v hv => Func.mem_operands_of_edge hmem hv,
    hC.passes hr hh (hc.mem_succs he)]
  refine ⟨rfl, rfl, hC.mem, fun v hv => ?_, fun hregion => ?_⟩
  · cases v with
    | result id k => exact hC.env _ hv
    | arg a k =>
      by_cases ha : a = e.target
      · subst ha
        have hk : k < (e.operands.map c.env).length := by
          rw [List.length_map, hlen]
          exact hv
        have hget := List.getElem?_eq_getElem hk
        refine (setArgs_arg_self ?_).trans (setArgs_arg_self hget).symm
        rw [List.getElem?_append_left hk, hget]
      · exact ((setArgs_arg_of_ne ha).trans (hC.env _ hv)).trans (setArgs_arg_of_ne ha).symm
  · obtain ⟨j, rfl, -⟩ := hr.header h hh
    have hne : lp.header ≠ e.target := fun heq => hr.outside _ hregion (heq ▸ hr.header_mem)
    refine (setArgs_arg_self ?_).trans (setArgs_arg_of_ne hne).symm
    rw [if_pos hregion, List.getElem?_append_right (by rw [List.length_map, hlen]), List.length_map,
      hlen, Nat.sub_self]
    rfl

/-- The operations of the closed function. -/
theorem closeLiveout_op {op : Op β OpCode} {b : β} {i : ℕ}
    (hop : (f.body b).ops[i]? = some op) :
    ((closeLiveout lp region f h).body b).ops[i]? = some (closeOp lp f h b op) := by
  show ((f.body b).ops.map _)[i]? = _
  rw [List.getElem?_map, hop]
  rfl

/-- The edges of the closed function. -/
theorem closeLiveout_edge {e : Edge β} {b : β} {i : ℕ}
    (he : (f.body b).terminator.edges[i]? = some e) :
    ((closeLiveout lp region f h).body b).terminator.edges[i]? =
      some (closeEdge lp region f h b e) := by
  show ((f.body b).terminator.edges.map _)[i]? = _
  rw [List.getElem?_map, he]
  rfl

/-- Every operation of the closed function comes from one of the function. -/
theorem exists_op {op' : Op β OpCode} {b : β} {i : ℕ}
    (hop : ((closeLiveout lp region f h).body b).ops[i]? = some op') :
    ∃ op, (f.body b).ops[i]? = some op ∧ closeOp lp f h b op = op' :=
  Option.map_eq_some_iff.mp (List.getElem?_map.symm.trans hop)

/-- Every edge of the closed function comes from one of the function. -/
theorem exists_edge {e' : Edge β} {b : β} {i : ℕ}
    (he : ((closeLiveout lp region f h).body b).terminator.edges[i]? = some e') :
    ∃ e, (f.body b).terminator.edges[i]? = some e ∧ closeEdge lp region f h b e = e' :=
  Option.map_eq_some_iff.mp (List.getElem?_map.symm.trans he)

/-- Blocks keep the number of their operations. -/
theorem last_closeLiveout (b : β) : (closeLiveout lp region f h).last b = f.last b :=
  List.length_map _

/-- The rewrite for one header argument changes no step. -/
theorem bisimulation_closeLiveout (hr : Region f lp region hs) (hh : h ∈ hs) :
    Bisimulation S f (closeLiveout lp region f h)
      fun c c' => Reaches S f c ∧ Carries f region h c c' where
  start c hc := by
    refine ⟨c, hc, .initial hc, rfl, rfl, rfl, fun v _ => rfl, fun hregion => ?_⟩
    exact absurd (hc.1 ▸ hregion) hr.entry
  start' c hc := by
    refine ⟨c, hc, .initial hc, rfl, rfl, rfl, fun v _ => rfl, fun hregion => ?_⟩
    exact absurd (hc.1 ▸ hregion) hr.entry
  forth := by
    -- the closed function follows: the routed operands read the same values
    rintro c c' d ⟨hc, hC⟩ hs
    have hd := hc.step hs
    cases hs with
    | @op op rs m hop hx hlen =>
      have hop' : ((closeLiveout lp region f h).body c'.block).ops[c'.pc]? =
          some (closeOp lp f h c.block op) := by
        rw [hC.block, hC.pc]
        exact closeLiveout_op hop
      refine ⟨_, .op hop' ?_ hlen, hd, hC.op hr hh op.id rs m⟩
      show S.exec op.code ((op.operands.map _).map c'.env) c'.mem rs m
      rw [hC.map_reads hr hh hc fun v hv => Func.mem_operands_of_op hop hv, hC.mem]
      exact hx
    | @edge i e hpc htake he =>
      have he' : ((closeLiveout lp region f h).body c'.block).terminator.edges[i]? =
          some (closeEdge lp region f h c.block e) := by
        rw [hC.block]
        exact closeLiveout_edge he
      refine ⟨_, .edge ?_ ?_ he', hd, hC.edge hr hh hc he⟩
      · rw [hC.block, hC.pc, last_closeLiveout, hpc]
      · rw [hC.block]
        show S.take _ (((f.body c.block).terminator.operands.map _).map c'.env) i
        rw [hC.map_reads hr hh hc fun v hv => Func.mem_operands_of_terminator hv]
        exact htake
  back := by
    -- and is followed: its operations and edges are those of the function
    rintro c c' d' ⟨hc, hC⟩ hs
    cases hs with
    | @op op' rs m hop' hx hlen =>
      rw [hC.block, hC.pc] at hop'
      obtain ⟨op, hop, rfl⟩ := exists_op hop'
      have hx : S.exec op.code ((op.operands.map _).map c'.env) c'.mem rs m := hx
      rw [hC.map_reads hr hh hc fun v hv => Func.mem_operands_of_op hop hv, hC.mem] at hx
      have hs : Step S f c _ := .op hop hx hlen
      exact ⟨_, hs, hc.step hs, hC.op hr hh op.id rs m⟩
    | @edge i e' hpc htake he' =>
      rw [hC.block] at he' htake
      obtain ⟨e, he, rfl⟩ := exists_edge he'
      have htake' : S.take _ (((f.body c.block).terminator.operands.map _).map c'.env) i := htake
      rw [hC.map_reads hr hh hc fun v hv => Func.mem_operands_of_terminator hv] at htake'
      rw [hC.block, hC.pc, last_closeLiveout] at hpc
      have hs : Step S f c _ := .edge hpc htake' he
      exact ⟨_, hs, hc.step hs, hC.edge hr hh hc he⟩

/-! ### All of them -/

/-- The states of two functions at the same place: every operand that `f` reads there, `f'` reads
with the same value. An edge of `f'` may pass more values, after the old ones. -/
structure Agrees (f f' : Function β) (c c' : Config β V M) : Prop where
  block : c'.block = c.block
  pc : c'.pc = c.pc
  mem : c'.mem = c.mem
  env : ∀ v, f.Declared v → c'.env v = c.env v
  op : ∀ op : Op β OpCode, (f.body c.block).ops[c.pc]? = some op → ∃ op' : Op β OpCode,
    (f'.body c.block).ops[c.pc]? = some op' ∧
    op'.id = op.id ∧ op'.code = op.code ∧ op'.operands.map c'.env = op.operands.map c.env
  terminator : (f'.body c.block).terminator.code = (f.body c.block).terminator.code ∧
    (f'.body c.block).terminator.operands.map c'.env =
      (f.body c.block).terminator.operands.map c.env
  edges : ∀ (i : ℕ) (e : Edge β), (f.body c.block).terminator.edges[i]? = some e →
    ∃ e' : Edge β, (f'.body c.block).terminator.edges[i]? = some e' ∧ e'.target = e.target ∧
      (e'.operands.map c'.env).take e.operands.length = e.operands.map c.env

omit [DecidableEq β] in

/-- A configuration agrees with itself. -/
theorem Agrees.refl (f : Function β) (c : Config β V M) : Agrees f f c c :=
  ⟨rfl, rfl, rfl, fun _ _ => rfl, fun op hop => ⟨op, hop, rfl, rfl, rfl⟩, ⟨rfl, rfl⟩,
    fun _ e he => ⟨e, he, rfl, by rw [← List.length_map (f := c.env), List.take_length]⟩⟩

omit [DecidableEq β] in

/-- Agreement can be chained. -/
theorem Agrees.trans (hdecl : ∀ v, f.Declared v → f'.Declared v) (h : Agrees f f' c c')
    (h' : Agrees f' f'' c' c'') : Agrees f f'' c c'' where
  block := h'.block.trans h.block
  pc := h'.pc.trans h.pc
  mem := h'.mem.trans h.mem
  env v hv := (h'.env v (hdecl v hv)).trans (h.env v hv)
  op op hop := by
    obtain ⟨op', hop', hid', hcode', hval'⟩ := h.op op hop
    rw [← h.block, ← h.pc] at hop'
    obtain ⟨op'', hop'', hid'', hcode'', hval''⟩ := h'.op op' hop'
    rw [h.block, h.pc] at hop''
    exact ⟨op'', hop'', hid''.trans hid', hcode''.trans hcode', hval''.trans hval'⟩
  terminator := by
    have ht := h'.terminator
    rw [h.block] at ht
    exact ⟨ht.1.trans h.terminator.1, ht.2.trans h.terminator.2⟩
  edges i e he := by
    obtain ⟨e', he', ht', hval'⟩ := h.edges i e he
    rw [← h.block] at he'
    obtain ⟨e'', he'', ht'', hval''⟩ := h'.edges i e' he'
    rw [h.block] at he''
    refine ⟨e'', he'', ht''.trans ht', ?_⟩
    -- the values for `e` are the first ones for `e'`, and those the first ones for `e''`
    have hlen : e.operands.length ≤ e'.operands.length := by
      have := congrArg List.length hval'
      rw [List.length_take, List.length_map, List.length_map] at this
      omega
    rw [← hval', ← hval'', List.take_take, min_eq_left hlen]

/-- Configurations that carry the value agree. -/
theorem Carries.agrees (hr : Region f lp region hs) (hh : h ∈ hs) (hc : Reaches S f c)
    (hC : Carries f region h c c') : Agrees f (closeLiveout lp region f h) c c' where
  block := hC.block
  pc := hC.pc
  mem := hC.mem
  env := hC.env
  op op hop := ⟨closeOp lp f h c.block op, closeLiveout_op hop, rfl, rfl,
    hC.map_reads hr hh hc fun v hv => Func.mem_operands_of_op hop hv⟩
  terminator :=
    ⟨rfl, hC.map_reads hr hh hc fun v hv => Func.mem_operands_of_terminator hv⟩
  edges i e he := by
    refine ⟨closeEdge lp region f h c.block e, closeLiveout_edge he, rfl, ?_⟩
    have hmap := hC.map_reads hr hh hc fun v hv =>
      Func.mem_operands_of_edge (List.mem_of_getElem? he) hv
    rw [closeEdge, List.map_append, hmap, List.take_left' (List.length_map _)]

/-- Declared values stay declared. -/
theorem declared_closeLiveout {v : Value β} (hv : f.Declared v) :
    (closeLiveout lp region f h).Declared v := by
  cases v with
  | result id k => trivial
  | arg a k => exact Nat.lt_add_right _ hv

/-- Where the operands of the rewritten function come from. -/
theorem mem_operands_closeLiveout {b : β} {v : Value β}
    (hv : v ∈ (closeLiveout lp region f h).operands b) :
    (∃ u ∈ f.operands b, routed lp f h b u = v) ∨
      ∃ e ∈ (f.body b).terminator.edges, v ∈ passed lp region f h b e.target := by
  rcases List.mem_append.mp hv with hops | hterm
  · obtain ⟨op', hop', hv⟩ := List.mem_flatMap.mp hops
    obtain ⟨op, hop, rfl⟩ := List.mem_map.mp hop'
    obtain ⟨u, hu, rfl⟩ := List.mem_map.mp hv
    exact .inl ⟨u, List.mem_append_left _ (List.mem_flatMap.mpr ⟨op, hop, hu⟩), rfl⟩
  rcases List.mem_append.mp hterm with hv | hedge
  · obtain ⟨u, hu, rfl⟩ := List.mem_map.mp hv
    exact .inl ⟨u, Func.mem_operands_of_terminator hu, rfl⟩
  · obtain ⟨e', he', hv⟩ := List.mem_flatMap.mp hedge
    obtain ⟨e, he, rfl⟩ := List.mem_map.mp he'
    rcases List.mem_append.mp hv with hv | hv
    · obtain ⟨u, hu, rfl⟩ := List.mem_map.mp hv
      exact .inl ⟨u, Func.mem_operands_of_edge he hu, rfl⟩
    · exact .inr ⟨e, he, hv⟩

/-- Outside the loop the rewritten function reads no header argument that `f` does not read there,
and not `h`. -/
theorem mem_operands_outside (hh : lp.header ∈ lp.blocks) {b : β} (hb : b ∉ lp.blocks) {i : ℕ}
    (hmem : .arg lp.header i ∈ (closeLiveout lp region f h).operands b) :
    .arg lp.header i ∈ f.operands b ∧ .arg lp.header i ≠ h := by
  have hne : own f b ≠ .arg lp.header i := by
    intro heq
    rw [own, Value.arg.injEq] at heq
    exact hb (heq.1 ▸ hh)
  rcases mem_operands_closeLiveout hmem with ⟨u, hu, hroute⟩ | ⟨e, -, hpass⟩
  · unfold routed at hroute
    split at hroute
    · exact absurd hroute hne
    · rename_i hcond
      subst hroute
      exact ⟨hu, fun heq => hcond ⟨heq, hb⟩⟩
  · rw [passed, if_neg hb] at hpass
    split at hpass
    · exact absurd (List.mem_singleton.mp hpass).symm hne
    · cases hpass

/-- Closing keeps the graph. -/
theorem graph_closeLiveout : (closeLiveout lp region f h).graph = f.graph := by
  have hsuccs : (closeLiveout lp region f h).graph.succs = f.graph.succs := by
    funext b
    show (if b ∈ f.blocks then ((f.body b).terminator.edges.map _).map _ else []) =
      if b ∈ f.blocks then _ else []
    rw [List.map_map]
    rfl
  unfold Func.graph at hsuccs ⊢
  simp only [Flowgraph.mk.injEq]
  exact ⟨rfl, rfl, hsuccs⟩

/-- The rewrite for one header argument leaves what the rewrite for the others rests on. -/
theorem Region.closeLiveout (hr : Region f lp region (h :: hs)) :
    Region (closeLiveout lp region f h) lp region hs where
  header g hg := by
    -- closing one argument keeps the others as they are
    obtain ⟨i, rfl, hi⟩ := hr.header g (List.mem_cons_of_mem _ hg)
    exact ⟨i, rfl, Nat.lt_add_right _ hi⟩
  header_mem := hr.header_mem
  outside := hr.outside
  entry := hr.entry
  closed b hb a ha := hr.closed b hb a (graph_closeLiveout (f := f) ▸ ha)
  users g hg b hb hout hmem := by
    obtain ⟨i, rfl, -⟩ := hr.header g (List.mem_cons_of_mem _ hg)
    exact hr.users _ (List.mem_cons_of_mem _ hg) b hb hout
      (mem_operands_outside hr.header_mem hout hmem).1
  declared b hb v hv := by
    rw [graph_closeLiveout] at hb
    have hown : b ∈ region → (Mir.closeLiveout lp region f h).Declared (own f b) := by
      intro hregion
      show _ < _ + (if b ∈ region then 1 else 0)
      rw [if_pos hregion]
      exact Nat.lt_succ_self _
    have hh : (Mir.closeLiveout lp region f h).Declared h := by
      obtain ⟨i, rfl, hi⟩ := hr.header h List.mem_cons_self
      exact declared_closeLiveout (v := .arg lp.header i) hi
    -- what the closed function reads is a routed value or one that is passed on
    rcases mem_operands_closeLiveout hv with ⟨u, hu, rfl⟩ | ⟨e, he, hpass⟩
    · unfold routed
      split
      · rename_i hcond
        obtain ⟨rfl, hout⟩ := hcond
        exact hown (hr.users u List.mem_cons_self b hb.mem_nodes hout hu)
      · exact declared_closeLiveout (hr.declared b hb u hu)
    · unfold passed at hpass
      split at hpass
      · rename_i hregion
        rw [List.mem_singleton.mp hpass]
        split
        · exact hh
        · rename_i hout
          have hsucc : e.target ∈ f.graph.succs b :=
            Func.mem_succs.mpr ⟨hb.mem_nodes, e, he, rfl⟩
          exact hown ((hr.closed _ hregion b hsucc).resolve_left hout)
      · cases hpass
  lengths b hb e' he' := by
    rw [graph_closeLiveout] at hb
    -- an edge into the region carries one value more, and its target has one argument more
    obtain ⟨e, he, rfl⟩ := List.mem_map.mp he'
    show (e.operands.map _ ++ passed lp region f h b e.target).length =
      (f.body e.target).arguments + if e.target ∈ region then 1 else 0
    rw [List.length_append, List.length_map, hr.lengths b hb e he, passed]
    split <;> rfl

/-- The rewrite for all header arguments changes no step. -/
theorem bisimulation_foldl (hr : Region f lp region hs) :
    ∃ R, Bisimulation S f (hs.foldl (closeLiveout lp region) f) R ∧
      ∀ c c', R c c' → Agrees f (hs.foldl (closeLiveout lp region) f) c c' := by
  induction hs generalizing f with
  | nil => exact ⟨_, .refl S f, fun c c' h => h ▸ .refl f c⟩
  | cons h hs ih =>
    obtain ⟨R, hR, hagree⟩ := ih hr.closeLiveout
    refine ⟨_, (bisimulation_closeLiveout hr List.mem_cons_self).trans hR, ?_⟩
    rintro c c'' ⟨c', ⟨hc, hC⟩, hcc⟩
    exact (hC.agrees hr List.mem_cons_self hc).trans (fun v => declared_closeLiveout)
      (hagree _ _ hcc)

/-- Outside the loop no header argument that is closed is used. -/
theorem mem_operands_foldl (hh : lp.header ∈ lp.blocks) {b : β} (hb : b ∉ lp.blocks) {i : ℕ}
    (hmem : .arg lp.header i ∈ (hs.foldl (closeLiveout lp region) f).operands b) :
    .arg lp.header i ∈ f.operands b ∧ .arg lp.header i ∉ hs := by
  induction hs generalizing f with
  | nil => exact ⟨hmem, List.not_mem_nil⟩
  | cons h hs ih =>
    obtain ⟨hmem', hnot⟩ := ih hmem
    obtain ⟨hmem'', hne⟩ := mem_operands_outside hh hb hmem'
    exact ⟨hmem'', fun hin => (List.mem_cons.mp hin).elim hne hnot⟩

end Rewrite

/-! ### The pass -/

section Pass

variable {V M : Type*} {S : Semantics OpCode TermKind V M} {f f' : Function β} {lp : Loop β}
  {fuel : ℕ} {outcome : CanonicalizeOutcome}

omit [DecidableEq β] in

/-- Header arguments are the arguments of the header. -/
theorem mem_headerArgs {h : Value β} (hmem : h ∈ headerArgs f lp) :
    ∃ i, h = .arg lp.header i ∧ i < (f.body lp.header).arguments := by
  obtain ⟨i, hi, rfl⟩ := List.mem_map.mp hmem
  exact ⟨i, rfl, List.mem_range.mp hi⟩

/-- Outside users are the blocks outside the loop that use the value. -/
theorem mem_outsideUsers {h : Value β} {b : β} :
    b ∈ outsideUsers f lp h ↔ (b ∈ f.blocks ∧ h ∈ f.operands b) ∧ b ∉ lp.blocks := by
  rw [outsideUsers, List.mem_filter, mem_usersOf, decide_eq_true_eq]

/-- The walk back from the users of live-outs finds a region the rewrite may rest on. -/
theorem region_of_propagate (hf : f.WellFormed) (hh : lp.header ∈ lp.blocks) {hs : List (Value β)}
    (hsub : ∀ h ∈ hs, h ∈ headerArgs f lp) {region : List β}
    (hp : propagate f lp fuel [] (hs.flatMap (outsideUsers f lp)) = some (.ok region)) :
    Region f lp region hs := by
  set start := hs.flatMap (outsideUsers f lp) with hstart
  have hmem : ∀ b, b ∈ start ↔ ∃ h ∈ hs, b ∈ f.blocks ∧ h ∈ f.operands b ∧ b ∉ lp.blocks := by
    intro b
    simp only [hstart, List.mem_flatMap, mem_outsideUsers, and_assoc]
  have hwalk : Walk f lp start region [] := by
    refine Walk.propagate hh ⟨?_, ?_, fun b hb => .inr hb, ?_⟩ hp
    · rintro b (hb | hb)
      · cases hb
      · obtain ⟨h, -, -, -, hout⟩ := (hmem b).mp hb
        exact hout
    · intro b hb
      cases hb
    · rintro b (hb | hb) hpath
      · cases hb
      · exact ⟨b, hb, hpath⟩
  have hin : ∀ {b}, b ∈ region ∨ b ∈ [] → b ∈ region := fun hb => hb.resolve_right List.not_mem_nil
  refine ⟨fun h hhs => mem_headerArgs (hsub h hhs), hh,
    fun b hb => hwalk.outside b (.inl hb), ?_, ?_,
    ?_, ?_, fun b hb e he => (hf.edges hb e he).1⟩
  · -- from the entry a path around the header would lead to a use of one of its arguments
    intro hentry
    have hne : f.entry ≠ lp.header := fun heq => hwalk.outside _ (.inl hentry) (heq ▸ hh)
    obtain ⟨u, hu, hpath⟩ := hwalk.reaches _ (.inl hentry) (.entry hne)
    obtain ⟨h, hhs, -, huse, -⟩ := (hmem u).mp hu
    obtain ⟨i, rfl, -⟩ := mem_headerArgs (hsub h hhs)
    exact (hf.avail hpath.reachable huse).2 hpath
  · intro b hb a ha
    obtain ⟨hablk, e, he, ht⟩ := Func.mem_succs.mp ha
    exact (hwalk.closed b hb (a, e) (mem_incoming.mpr ⟨hablk, he, ht⟩)).imp_right hin
  · intro h hhs b hb hout huse
    exact hin (hwalk.users b ((hmem b).mpr ⟨h, hhs, hb, huse, hout⟩))
  · intro b hb v hv
    have hav := hf.avail hb hv
    cases v with
    | arg a k => exact hav.1
    | result id k => trivial

/-- **Live-outs are routed soundly.**  When a change is reported, the rewritten function takes the
same steps as `f`, on every path: related states are at the same place, and each operation, each
terminator and each edge there reads the values that it read in `f`. Outside the loop no use of a
header argument is left. When no change is reported, the function is the same.  The pass returns. -/
theorem closeHeaderLiveouts_sound (hf : f.WellFormed) (hh : lp.header ∈ lp.blocks)
    (h : closeHeaderLiveouts fuel f lp = some (outcome, f')) :
    (outcome = .changed →
      (∃ R, Bisimulation S f f' R ∧ ∀ c c', R c c' → Agrees f f' c c') ∧
      ∀ b ∈ f.blocks, b ∉ lp.blocks → ∀ i < (f.body lp.header).arguments,
        .arg lp.header i ∉ f'.operands b) ∧
    (outcome ≠ .changed → f' = f) ∧ ∃ fuel, (closeHeaderLiveouts fuel f lp).isSome = true := by
  have hreturns := closeHeaderLiveouts_isSome f lp
  unfold closeHeaderLiveouts at h
  split at h
  · cases h
    exact ⟨fun hno => (by cases hno), fun _ => rfl, hreturns⟩
  split at h
  · cases h
  · cases h
    exact ⟨fun hno => (by cases hno), fun _ => rfl, hreturns⟩
  · rename_i region hp
    cases h
    have hr := region_of_propagate hf hh (fun h hmem => List.mem_of_mem_filter hmem) hp
    refine ⟨fun _ => ⟨bisimulation_foldl hr, fun b hb hout i hi huse => ?_⟩,
      fun hno => absurd rfl hno, hreturns⟩
    obtain ⟨huse, hnot⟩ := mem_operands_foldl hh hout huse
    have huser : b ∈ outsideUsers f lp (.arg lp.header i) := mem_outsideUsers.mpr ⟨⟨hb, huse⟩, hout⟩
    exact hnot (List.mem_filter.mpr ⟨List.mem_map.mpr ⟨i, List.mem_range.mpr hi, rfl⟩,
      decide_eq_true (List.ne_nil_of_mem huser)⟩)

/-- The entry is a block of the example. -/
private theorem counterReturned_entry : 0 ∈ [0, 1, 2, 3, 4, 5] := List.mem_cons_self

/-- A loop whose counter is read behind it: the header `1` leaves for `3` and the latch `2` for `4`,
and both go on to `5`, which returns `i`. -/
def counterReturned : Function ℕ where
  entry := 0
  blocks := [0, 1, 2, 3, 4, 5]
  body b :=
    match b with
    | 0 => ⟨2, [], ⟨.goto, [], [⟨1, [.arg 0 0, .arg 0 1]⟩]⟩⟩
    | 1 => ⟨2, [], ⟨.condBr, [.arg 1 1], [⟨2, []⟩, ⟨3, []⟩]⟩⟩
    | 2 => ⟨0, [], ⟨.condBr, [.arg 1 1], [⟨1, [.arg 1 0, .arg 1 1]⟩, ⟨4, []⟩]⟩⟩
    | 5 => ⟨0, [], ⟨.other 0 false, [.arg 1 0], []⟩⟩
    | _ => ⟨0, [], ⟨.goto, [], [⟨5, []⟩]⟩⟩
  entry_mem := counterReturned_entry
  edge_mem := by decide

/-- The loop of the example. -/
def counterLoop : Loop ℕ := ⟨1, [2], {1, 2}, none, []⟩

/-- Both exits and the block behind them get an argument for `i`, the edges in between pass it on,
and the last block returns its own. -/
theorem closeHeaderLiveouts_sound_counterReturned :
    closeHeaderLiveouts 3 counterReturned counterLoop =
      some (.changed, closeLiveout counterLoop [3, 4, 5] counterReturned (.arg 1 0)) ∧
    ((closeLiveout counterLoop [3, 4, 5] counterReturned (.arg 1 0)).body 4).terminator.edges =
      [⟨5, [.arg 4 0]⟩] ∧
    ((closeLiveout counterLoop [3, 4, 5] counterReturned (.arg 1 0)).body 5).terminator.operands =
      [.arg 5 0] ∧
    ∀ S : Machine ℕ ℕ, ∃ R, Bisimulation S.semantics counterReturned
      (closeLiveout counterLoop [3, 4, 5] counterReturned (.arg 1 0)) R := by
  have hpass : closeHeaderLiveouts 3 counterReturned counterLoop =
      some (.changed, closeLiveout counterLoop [3, 4, 5] counterReturned (.arg 1 0)) := by rfl
  refine ⟨hpass, by rfl, by rfl, fun S => ?_⟩
  have hf : Func.WellFormed counterReturned := Func.wellFormed_of_isSsa (by decide +kernel)
  obtain ⟨⟨R, hR, -⟩, -⟩ :=
    (closeHeaderLiveouts_sound (S := S.semantics) hf (by decide) hpass).1 rfl
  exact ⟨R, hR⟩

end Pass

end CudaOxide.Mir
