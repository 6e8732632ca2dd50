import CudaOxide.Lib.Flowgraph

/-!
# The loops of a function

`LoopInfo.compute` reads the loops off a control-flow graph and its dominator tree: the back edges
give the headers and latches, a backward walk from the latches gives the blocks, and the sizes of
the loops give the nesting.

* `latchesByHeader` — step 1, the back edges grouped by header.
* `loopBlocks` — step 2, the backward walk (`mem_loopBlocks`: it finds the natural loop).
* `parentIn`, `bySize` — step 3, the nesting.
* `compute_correct` — the whole analysis.

The dominator tree is a parameter, and so is the order in which a hash map hands out its entries.
-/

namespace CudaOxide.Mir

open Lib Lib.Flowgraph

variable {β : Type*}

/-- One loop. -/
structure Loop (β : Type*) where
  header : β
  latches : List β
  /-- Every block in the loop, the header and the latches included. -/
  blocks : Finset β
  /-- The loop that immediately encloses this one. -/
  parent : Option ℕ
  /-- The loops nested directly inside this one. -/
  children : List ℕ

/-- Every loop of a region, and for each block the loop that most tightly encloses it. -/
structure LoopInfo (β : Type*) where
  loops : List (Loop β)
  topLevel : List ℕ
  innermost : β → Option ℕ

namespace LoopInfo

variable [DecidableEq β]

/-! ### The analysis -/

/-- `latches_by_header.entry(header).or_default().push(latch)`. -/
def pushLatch (header latch : β) : List (β × List β) → List (β × List β)
  | [] => [(header, [latch])]
  | (h, latches) :: rest =>
    if h = header then (h, latches ++ [latch]) :: rest
    else (h, latches) :: pushLatch header latch rest

/-- Step 1: the back edges, grouped by the header they land on. -/
def latchesByHeader (g : Flowgraph β) (dom : β → β → Bool) : List (β × List β) :=
  g.nodes.foldl (fun m block =>
    (g.succs block).foldl (fun m succ => if dom succ block then pushLatch succ block m else m) m) []

/-- The nodes with an edge to `b`. -/
def predecessors (g : Flowgraph β) (b : β) : List β := g.nodes.filter fun p => b ∈ g.succs p

/-- Step 2: the header, the latches, and everything a backward walk from the latches finds before
it meets a block it has already seen. -/
def loopBlocks (g : Flowgraph β) (header : β) (latches : List β) : Finset β :=
  (Worklist.saturate (predecessors g) (g.nodes.length + 1)
    (Worklist.mark latches ({header}, []))).1

/-- The blocks of the `i`-th loop. -/
def blocksOf (loops : List (Loop β)) (i : ℕ) : Finset β :=
  (loops[i]?).elim ∅ (·.blocks)

/-- Step 3: the loops by the number of their blocks, smallest first. -/
def bySize (loops : List (Loop β)) : List ℕ :=
  (List.range loops.length).insertionSort fun i j =>
    (blocksOf loops i).card ≤ (blocksOf loops j).card

/-- Loop `m` is larger than `l` and holds its header. -/
def holds (loops : List (Loop β)) (l m : ℕ) : Bool :=
  (blocksOf loops l).card < (blocksOf loops m).card &&
    (loops[l]?).elim false fun loop => loop.header ∈ blocksOf loops m

/-- The first loop behind `i` in `order` that holds its header. -/
def parentIn (loops : List (Loop β)) (i : ℕ) : List ℕ → Option ℕ
  | [] => none
  | l :: rest => if l = i then rest.find? (holds loops i) else parentIn loops i rest

/-- The loops of a graph with dominator tree `dom`; `hashOrder` is the order in which the map from
headers to latches is iterated. -/
def compute (g : Flowgraph β) (dom : β → β → Bool)
    (hashOrder : List (β × List β) → List (β × List β)) : LoopInfo β :=
  let loops := (hashOrder (latchesByHeader g dom)).map fun entry =>
    ⟨entry.1, entry.2, loopBlocks g entry.1 entry.2, none, []⟩
  let order := bySize loops
  let ids := List.range loops.length
  { loops := loops.mapIdx fun i l =>
      { l with
        parent := parentIn loops i order
        children := ids.filter fun c => parentIn loops c order = some i }
    topLevel := ids.filter fun i => parentIn loops i order = none
    -- the first entry for a block stays, so the smallest loop wins
    innermost b := order.find? fun i => b ∈ blocksOf loops i }

/-! ### Step 1 -/

/-- `m` groups the pairs of `P` by header. -/
structure Groups (P : β → β → Prop) (m : List (β × List β)) : Prop where
  nodup : (m.map Prod.fst).Nodup
  mem : ∀ h latches, (h, latches) ∈ m → ∀ l, l ∈ latches ↔ P h l
  ne_nil : ∀ h latches, (h, latches) ∈ m → latches ≠ []
  exists_mem : ∀ h l, P h l → h ∈ m.map Prod.fst

omit [DecidableEq β] in

/-- The headers of a grouping. -/
theorem Groups.mem_headers {P : β → β → Prop} {m : List (β × List β)} (hm : Groups P m)
    {h : β} : h ∈ m.map Prod.fst ↔ ∃ l, P h l := by
  constructor
  · intro hh
    obtain ⟨entry, hentry, rfl⟩ := List.mem_map.mp hh
    obtain ⟨l, hl⟩ := List.exists_mem_of_ne_nil _ (hm.ne_nil entry.1 entry.2 hentry)
    exact ⟨l, (hm.mem entry.1 entry.2 hentry l).mp hl⟩
  · rintro ⟨l, hl⟩
    exact hm.exists_mem h l hl

/-- A push adds one header. -/
theorem map_fst_pushLatch (header latch : β) (m : List (β × List β)) :
    ∀ h, h ∈ (pushLatch header latch m).map Prod.fst ↔ h = header ∨ h ∈ m.map Prod.fst := by
  intro h
  induction m with
  | nil => simp [pushLatch]
  | cons entry rest ih =>
    unfold pushLatch
    split
    · rename_i heq
      simp only [List.map_cons, List.mem_cons]
      constructor
      · exact .inr
      · rintro (rfl | hmem)
        · exact .inl heq.symm
        · exact hmem
    · simp only [List.map_cons, List.mem_cons, ih]
      tauto

/-- A push names no header twice. -/
theorem nodup_pushLatch (header latch : β) {m : List (β × List β)}
    (hm : (m.map Prod.fst).Nodup) : ((pushLatch header latch m).map Prod.fst).Nodup := by
  induction m with
  | nil => simp [pushLatch]
  | cons entry rest ih =>
    rw [List.map_cons, List.nodup_cons] at hm
    unfold pushLatch
    split
    · rw [List.map_cons, List.nodup_cons]
      exact hm
    · rename_i hne
      rw [List.map_cons, List.nodup_cons]
      refine ⟨fun hmem => ?_, ih hm.2⟩
      rcases (map_fst_pushLatch header latch rest _).mp hmem with h | h
      · exact hne h
      · exact hm.1 h

/-- An entry after a push: the pushed one, or an old one of another header. -/
theorem mem_pushLatch {header latch : β} {m : List (β × List β)} (hm : (m.map Prod.fst).Nodup)
    {h : β} {latches : List β} (hmem : (h, latches) ∈ pushLatch header latch m) :
    (h ≠ header ∧ (h, latches) ∈ m) ∨
      (h = header ∧ ((∃ old, (h, old) ∈ m ∧ latches = old ++ [latch]) ∨
        (h ∉ m.map Prod.fst ∧ latches = [latch]))) := by
  induction m with
  | nil =>
    simp only [pushLatch, List.mem_singleton, Prod.mk.injEq] at hmem
    exact .inr ⟨hmem.1, .inr ⟨by simp, hmem.2⟩⟩
  | cons entry rest ih =>
    rw [List.map_cons, List.nodup_cons] at hm
    unfold pushLatch at hmem
    split at hmem
    · rename_i heq
      rcases List.mem_cons.mp hmem with hfirst | hrest
      · simp only [Prod.mk.injEq] at hfirst
        obtain ⟨rfl, rfl⟩ := hfirst
        exact .inr ⟨heq, .inl ⟨_, List.mem_cons_self, rfl⟩⟩
      · refine .inl ⟨fun hh => hm.1 ?_, List.mem_cons_of_mem _ hrest⟩
        rw [heq, ← hh]
        exact List.mem_map_of_mem hrest
    · rename_i hne
      rcases List.mem_cons.mp hmem with hfirst | hrest
      · simp only [Prod.mk.injEq] at hfirst
        obtain ⟨rfl, rfl⟩ := hfirst
        exact .inl ⟨hne, List.mem_cons_self⟩
      · rcases ih hm.2 hrest with ⟨h1, h2⟩ | ⟨h1, ⟨old, h2, h3⟩ | ⟨h2, h3⟩⟩
        · exact .inl ⟨h1, List.mem_cons_of_mem _ h2⟩
        · exact .inr ⟨h1, .inl ⟨old, List.mem_cons_of_mem _ h2, h3⟩⟩
        · refine .inr ⟨h1, .inr ⟨?_, h3⟩⟩
          simp only [List.map_cons, List.mem_cons, not_or]
          exact ⟨fun hh => hne (by rw [← hh, h1]), h2⟩

/-- A push adds one back edge to its group. -/
theorem Groups.push {P : β → β → Prop} {m : List (β × List β)} (hm : Groups P m)
    (header latch : β) :
    Groups (fun h l => P h l ∨ (h = header ∧ l = latch)) (pushLatch header latch m) := by
  refine ⟨nodup_pushLatch header latch hm.nodup, ?_, ?_, ?_⟩
  · intro h latches hmem l
    rcases mem_pushLatch hm.nodup hmem with ⟨hne, hold⟩ | ⟨heq, ⟨old, hold, rfl⟩ | ⟨hnew, rfl⟩⟩
    · rw [hm.mem h latches hold l]
      simp [hne]
    · rw [List.mem_append, hm.mem h old hold l, List.mem_singleton]
      simp [heq]
    · have hP : ¬P h l := fun hP => hnew (hm.exists_mem h l hP)
      simp only [List.mem_singleton, hP, false_or]
      exact ⟨fun hl => ⟨heq, hl⟩, And.right⟩
  · intro h latches hmem
    rcases mem_pushLatch hm.nodup hmem with ⟨-, hold⟩ | ⟨-, ⟨old, -, rfl⟩ | ⟨-, rfl⟩⟩
    · exact hm.ne_nil h latches hold
    · simp
    · simp
  · intro h l hP
    rw [map_fst_pushLatch]
    rcases hP with hP | ⟨rfl, -⟩
    · exact .inr (hm.exists_mem h l hP)
    · exact .inl rfl

omit [DecidableEq β] in

/-- A grouping is one of equivalent edges. -/
theorem Groups.congr {P Q : β → β → Prop} {m : List (β × List β)} (hm : Groups P m)
    (hPQ : ∀ h l, P h l ↔ Q h l) : Groups Q m := by
  have : P = Q := funext fun h => funext fun l => propext (hPQ h l)
  rwa [← this]

/-- Grouping the back edges out of one block. -/
theorem Groups.successors {P : β → β → Prop} {m : List (β × List β)} (hm : Groups P m)
    (dom : β → β → Bool) (block : β) (succs : List β) :
    Groups (fun h l => P h l ∨ (l = block ∧ h ∈ succs ∧ dom h block = true))
      (succs.foldl (fun m succ => if dom succ block then pushLatch succ block m else m) m) := by
  induction succs generalizing P m with
  | nil => exact hm.congr fun h l => by simp
  | cons succ rest ih =>
    rw [List.foldl_cons]
    split
    · rename_i hdom
      refine (ih (hm.push succ block)).congr fun h l => ?_
      simp only [List.mem_cons]
      constructor
      · rintro ((hP | ⟨rfl, rfl⟩) | ⟨rfl, hmem, hd⟩)
        · exact .inl hP
        · exact .inr ⟨rfl, .inl rfl, hdom⟩
        · exact .inr ⟨rfl, .inr hmem, hd⟩
      · rintro (hP | ⟨rfl, rfl | hmem, hd⟩)
        · exact .inl (.inl hP)
        · exact .inl (.inr ⟨rfl, rfl⟩)
        · exact .inr ⟨rfl, hmem, hd⟩
    · rename_i hdom
      refine (ih hm).congr fun h l => ?_
      simp only [List.mem_cons]
      constructor
      · rintro (hP | ⟨rfl, hmem, hd⟩)
        · exact .inl hP
        · exact .inr ⟨rfl, .inr hmem, hd⟩
      · rintro (hP | ⟨rfl, rfl | hmem, hd⟩)
        · exact .inl hP
        · exact absurd hd hdom
        · exact .inr ⟨rfl, hmem, hd⟩

section Compute

variable {g : Flowgraph β} {dom : β → β → Bool}

/-- Step 1 finds the latches of every header. -/
theorem groups_latchesByHeader (hdom : ∀ a b, dom a b = true ↔ g.Dominates a b) :
    Groups g.IsLatch (latchesByHeader g dom) := by
  have hfold : ∀ (blocks : List β) (P : β → β → Prop) (m : List (β × List β)), Groups P m →
      Groups (fun h l => P h l ∨ (l ∈ blocks ∧ h ∈ g.succs l ∧ dom h l = true))
        (blocks.foldl (fun m block => (g.succs block).foldl
          (fun m succ => if dom succ block then pushLatch succ block m else m) m) m) := by
    intro blocks
    induction blocks with
    | nil => exact fun P m hm => hm.congr fun h l => by simp
    | cons block rest ih =>
      intro P m hm
      rw [List.foldl_cons]
      refine (ih _ _ (hm.successors dom block (g.succs block))).congr fun h l => ?_
      simp only [List.mem_cons]
      constructor
      · rintro ((hP | ⟨rfl, hmem, hd⟩) | ⟨hl, hmem, hd⟩)
        · exact .inl hP
        · exact .inr ⟨.inl rfl, hmem, hd⟩
        · exact .inr ⟨.inr hl, hmem, hd⟩
      · rintro (hP | ⟨rfl | hl, hmem, hd⟩)
        · exact .inl (.inl hP)
        · exact .inl (.inr ⟨rfl, hmem, hd⟩)
        · exact .inr ⟨hl, hmem, hd⟩
  refine (hfold g.nodes (fun _ _ => False) [] ⟨by simp, by simp, by simp, by simp⟩).congr
    fun h l => ?_
  simp only [false_or, hdom, IsLatch]

/-! ### Step 2 -/

/-- **The backward walk finds the natural loop.** -/
theorem mem_loopBlocks {header : β} {latches : List β}
    (hl : ∀ l, l ∈ latches ↔ g.IsLatch header l) {b : β} :
    b ∈ loopBlocks g header latches ↔ b ∈ g.loopOf header := by
  unfold loopBlocks
  set st := Worklist.mark latches ({header}, []) with hst
  -- the walk starts from the header and the latches
  have hseen : ∀ x, x ∈ st.1 ↔ x = header ∨ x ∈ latches := by
    intro x
    rw [hst, Worklist.mem_mark, Finset.mem_singleton]
  have hwork : ∀ x ∈ st.2, x ∈ latches ∧ x ≠ header := by
    intro x hx
    rcases Worklist.mem_mark_work hx with h | ⟨h, hn⟩
    · cases h
    · exact ⟨h, fun heq => hn (Finset.mem_singleton.mpr heq)⟩
  have hpreds : ∀ x y, y ∈ predecessors g x ↔ x ∈ g.succs y := by
    intro x y
    simp only [predecessors, List.mem_filter, decide_eq_true_eq]
    exact ⟨And.right, fun h => ⟨(g.edge_mem h).1, h⟩⟩
  constructor
  -- what it marks goes back from a latch without passing the header
  · intro hb
    have hsound := Worklist.saturate_sound
      (Q := fun x => ∃ l, g.IsLatch header l ∧ g.Back header x l) _ ?_ ?_ hb
    · rcases hsound with h | h
      · rcases (hseen b).mp h with rfl | h
        · exact self_mem_loopOf g _
        · by_cases hbh : b = header
          · exact .inl hbh
          · exact .inr ⟨b, (hl b).mp h, .refl hbh⟩
      · exact .inr h
    · rintro x ⟨l, hlatch, hback⟩ y hy
      by_cases hyh : y = header
      · exact .inl ((hseen y).mpr (.inl hyh))
      · exact .inr ⟨l, hlatch, .step hyh ((hpreds x y).mp hy) hback⟩
    · intro x hx
      obtain ⟨hmem, hne⟩ := hwork x hx
      exact ⟨x, (hl x).mp hmem, .refl hne⟩
  -- the fuel suffices: every block is marked once
  · have hdone : (Worklist.saturate (predecessors g) (g.nodes.length + 1) st).2 = [] := by
      refine Worklist.saturate_done g.nodes.toFinset ?_ ?_ ?_
      · intro x _ y hy
        exact List.mem_toFinset.mpr (g.edge_mem ((hpreds x y).mp hy)).1
      · intro x hx
        exact List.mem_toFinset.mpr ((hl x).mp (hwork x hx).1).1
      · have hmeasure : (g.nodes.toFinset \ st.1).card + st.2.length =
            (g.nodes.toFinset \ {header}).card + ([] : List β).length := by
          rw [hst]
          exact Worklist.mark_measure _ fun x hx => List.mem_toFinset.mpr ((hl x).mp hx).1
        rw [hmeasure]
        have hle := Finset.card_le_card
          (Finset.sdiff_subset (s := g.nodes.toFinset) (t := ({header} : Finset β)))
        have hlen := List.toFinset_card_le g.nodes
        simp only [List.length_nil]
        omega
    have hclosed : ∀ x ∈ (Worklist.saturate (predecessors g) (g.nodes.length + 1) st).1,
        x = header ∨ ∀ y ∈ predecessors g x,
          y ∈ (Worklist.saturate (predecessors g) (g.nodes.length + 1) st).1 := by
      intro x hx
      refine Worklist.saturate_closed (· = header) _ (fun z hz => ?_) hdone hx
      rcases Worklist.work_of_mark hz with h | h
      · exact .inr (.inl (Finset.mem_singleton.mp h))
      · exact .inl h
    -- by induction on the path back from a latch
    rintro (rfl | ⟨l, hlatch, hback⟩)
    · exact Worklist.saturate_mono _ ((hseen _).mpr (.inl rfl))
    · induction hback with
      | refl => exact Worklist.saturate_mono _ ((hseen _).mpr (.inr ((hl _).mpr hlatch)))
      | step _ he hrest ih =>
        exact ((hclosed _ (ih hlatch)).resolve_left hrest.left_ne) _ ((hpreds _ _).mpr he)

/-! ### Step 3 -/

omit [DecidableEq β] in
/-- In a list sorted by `f`, the first element with a property is a least one with it. -/
theorem find?_least {f : ℕ → ℕ} {order : List ℕ} (hs : order.Pairwise fun i j => f i ≤ f j)
    {p : ℕ → Bool} {i : ℕ} (h : order.find? p = some i) :
    i ∈ order ∧ p i = true ∧ ∀ j ∈ order, p j = true → f i ≤ f j := by
  obtain ⟨hp, as, bs, rfl, hbefore⟩ := List.find?_eq_some_iff_append.mp h
  refine ⟨by simp, hp, fun j hj hpj => ?_⟩
  rcases List.mem_append.mp hj with hj | hj
  · have := hbefore j hj
    rw [hpj] at this
    cases this
  · rcases List.mem_cons.mp hj with rfl | hj
    · exact le_rfl
    · exact List.rel_of_pairwise_cons (List.pairwise_append.mp hs).2.1 hj

omit [DecidableEq β] in

/-- The order by size lists every loop. -/
theorem mem_bySize {loops : List (Loop β)} {i : ℕ} : i ∈ bySize loops ↔ i < loops.length := by
  rw [bySize, (List.perm_insertionSort _ _).mem_iff, List.mem_range]

omit [DecidableEq β] in

/-- The order by size is ascending. -/
theorem bySize_sorted (loops : List (Loop β)) :
    (bySize loops).Pairwise fun i j => (blocksOf loops i).card ≤ (blocksOf loops j).card := by
  have : IsTrans ℕ fun i j => (blocksOf loops i).card ≤ (blocksOf loops j).card :=
    ⟨fun _ _ _ => le_trans⟩
  have : Std.Total fun i j => (blocksOf loops i).card ≤ (blocksOf loops j).card :=
    ⟨fun _ _ => le_total _ _⟩
  exact List.pairwise_insertionSort _ _

/-- The parent is looked for behind the loop. -/
theorem parentIn_append {loops : List (Loop β)} {i : ℕ} {before after : List ℕ}
    (hi : i ∉ before) :
    parentIn loops i (before ++ i :: after) = after.find? (holds loops i) := by
  induction before with
  | nil => simp [parentIn]
  | cons j rest ih =>
    simp only [List.mem_cons, not_or] at hi
    rw [List.cons_append, parentIn, if_neg (Ne.symm hi.1), ih hi.2]

/-- The loops a graph has, with distinct headers; nothing is said about their nesting. -/
structure Found (g : Flowgraph β) (loops : List (Loop β)) : Prop where
  distinct : loops.Pairwise fun l m => l.header ≠ m.header
  header_mem : ∀ l ∈ loops, l.header ∈ g.nodes
  latches : ∀ l ∈ loops, ∀ k, k ∈ l.latches ↔ g.IsLatch l.header k
  blocks : ∀ l ∈ loops, (l.blocks : Set β) = g.loopOf l.header

section Nesting

variable {loops : List (Loop β)} {i j k : ℕ} {l m : Loop β}

omit [DecidableEq β] in

/-- The blocks of a loop that is found. -/
theorem blocksOf_eq (h : loops[i]? = some l) : blocksOf loops i = l.blocks := by
  rw [blocksOf, h]
  rfl

omit [DecidableEq β] in

/-- Two loops of one header are one. -/
theorem Found.eq_of_header (hf : Found g loops) (hi : loops[i]? = some l)
    (hj : loops[j]? = some m) (h : l.header = m.header) : i = j := by
  obtain ⟨hi', rfl⟩ := List.getElem?_eq_some_iff.mp hi
  obtain ⟨hj', rfl⟩ := List.getElem?_eq_some_iff.mp hj
  have hpair := List.pairwise_iff_getElem.mp hf.distinct
  rcases lt_trichotomy i j with hlt | heq | hgt
  · exact absurd h (hpair i j hi' hj' hlt)
  · exact heq
  · exact absurd h.symm (hpair j i hj' hi' hgt)

omit [DecidableEq β] in

/-- A header is a block of its loop. -/
theorem Found.header_mem_blocks (hf : Found g loops) (hi : loops[i]? = some l) :
    l.header ∈ l.blocks := by
  rw [← Finset.mem_coe, hf.blocks l (List.mem_of_getElem? hi)]
  exact self_mem_loopOf g _

omit [DecidableEq β] in
/-- Two loops with different headers are disjoint, or one lies strictly inside the other. -/
theorem Found.laminar (hf : Found g loops) (hr : ∀ b ∈ g.nodes, g.Reachable b) (hl : l ∈ loops)
    (hm : m ∈ loops) (hne : l.header ≠ m.header) :
    Disjoint l.blocks m.blocks ∨ l.blocks ⊂ m.blocks ∨ m.blocks ⊂ l.blocks := by
  have := loopOf_laminar hr (hf.header_mem l hl) (hf.header_mem m hm) hne
  rw [← hf.blocks l hl, ← hf.blocks m hm] at this
  rw [← Finset.disjoint_coe, ← Finset.coe_ssubset, ← Finset.coe_ssubset]
  exact this

omit [DecidableEq β] in
/-- Of two loops that share a block, one that is not larger lies inside the other. -/
theorem Found.subset_of_card_le (hf : Found g loops) (hr : ∀ b ∈ g.nodes, g.Reachable b)
    (hi : loops[i]? = some l) (hj : loops[j]? = some m) {b : β} (hbl : b ∈ l.blocks)
    (hbm : b ∈ m.blocks) (hcard : l.blocks.card ≤ m.blocks.card) : l.blocks ⊆ m.blocks := by
  by_cases hne : l.header = m.header
  · have hij := hf.eq_of_header hi hj hne
    rw [hij, hj, Option.some.injEq] at hi
    rw [hi]
  rcases hf.laminar hr (List.mem_of_getElem? hi) (List.mem_of_getElem? hj) hne with h | h | h
  · exact absurd hbm (Finset.disjoint_left.mp h hbl)
  · exact h.1
  · exact absurd (Finset.card_lt_card h) (not_lt.mpr hcard)

/-- A larger loop that holds the header of another one encloses it. -/
theorem Found.holds_iff (hf : Found g loops) (hr : ∀ b ∈ g.nodes, g.Reachable b)
    (hi : loops[i]? = some l) (hj : loops[j]? = some m) :
    holds loops i j = true ↔ l.blocks ⊂ m.blocks := by
  simp only [holds, blocksOf_eq hi, blocksOf_eq hj, hi, Option.elim_some, Bool.and_eq_true,
    decide_eq_true_eq]
  constructor
  · rintro ⟨hcard, hmem⟩
    have hsub := hf.subset_of_card_le hr hi hj (hf.header_mem_blocks hi) hmem hcard.le
    refine Finset.ssubset_iff_subset_ne.mpr ⟨hsub, fun heq => ?_⟩
    rw [heq] at hcard
    exact lt_irrefl _ hcard
  · intro h
    exact ⟨Finset.card_lt_card h, h.1 (hf.header_mem_blocks hi)⟩

/-- Behind a loop in the order of sizes stand all loops that enclose it. -/
theorem Found.exists_after (hi : loops[i]? = some l) :
    ∃ after : List ℕ, parentIn loops i (bySize loops) = after.find? (holds loops i) ∧
      (after.Pairwise fun j k => (blocksOf loops j).card ≤ (blocksOf loops k).card) ∧
      (∀ j ∈ after, j < loops.length) ∧
      ∀ j m, loops[j]? = some m → l.blocks ⊂ m.blocks → j ∈ after := by
  have hmem : i ∈ bySize loops := mem_bySize.mpr (List.getElem?_eq_some_iff.mp hi).1
  obtain ⟨before, after, horder, hnot⟩ := List.eq_append_cons_of_mem hmem
  have hsorted := bySize_sorted loops
  rw [horder] at hsorted
  obtain ⟨-, hcons, hcross⟩ := List.pairwise_append.mp hsorted
  refine ⟨after, by rw [horder, parentIn_append hnot], (List.pairwise_cons.mp hcons).2, ?_, ?_⟩
  · intro j hj
    refine mem_bySize.mp ?_
    rw [horder]
    exact List.mem_append_right _ (List.mem_cons_of_mem _ hj)
  · intro j m hj hsub
    have hjmem : j ∈ bySize loops := mem_bySize.mpr (List.getElem?_eq_some_iff.mp hj).1
    have hcard := Finset.card_lt_card hsub
    rw [← blocksOf_eq hi, ← blocksOf_eq hj] at hcard
    rw [horder] at hjmem
    rcases List.mem_append.mp hjmem with h | h
    · exact absurd hcard (not_lt.mpr (hcross j h i List.mem_cons_self))
    · rcases List.mem_cons.mp h with rfl | h
      · exact absurd hcard (lt_irrefl _)
      · exact h

/-- The recorded parent is the least loop that encloses a loop. -/
theorem Found.parentIn_eq_some (hf : Found g loops) (hr : ∀ b ∈ g.nodes, g.Reachable b)
    (hi : loops[i]? = some l) (hp : parentIn loops i (bySize loops) = some k) :
    ∃ m, loops[k]? = some m ∧ l.blocks ⊂ m.blocks ∧
      ∀ m' ∈ loops, l.blocks ⊂ m'.blocks → m.blocks ⊆ m'.blocks := by
  obtain ⟨after, hparent, hsorted, hlt, hall⟩ := exists_after hi
  obtain ⟨hmem, hholds, hleast⟩ := find?_least hsorted (hparent.symm.trans hp)
  obtain ⟨m, hk⟩ : ∃ m, loops[k]? = some m := ⟨_, List.getElem?_eq_getElem (hlt k hmem)⟩
  have hsub := (hf.holds_iff hr hi hk).mp hholds
  refine ⟨_, hk, hsub, fun m' hm' hsub' => ?_⟩
  obtain ⟨j, hj⟩ := List.mem_iff_getElem?.mp hm'
  have hcard := hleast j (hall j m' hj hsub') ((hf.holds_iff hr hi hj).mpr hsub')
  rw [blocksOf_eq hk, blocksOf_eq hj] at hcard
  have hheader := hf.header_mem_blocks hi
  exact hf.subset_of_card_le hr hk hj (hsub.1 hheader) (hsub'.1 hheader) hcard

/-- A loop without a parent is in no larger one. -/
theorem Found.parentIn_eq_none (hf : Found g loops) (hr : ∀ b ∈ g.nodes, g.Reachable b)
    (hi : loops[i]? = some l) (hp : parentIn loops i (bySize loops) = none) :
    ∀ m ∈ loops, ¬l.blocks ⊂ m.blocks := by
  intro m hm hsub
  obtain ⟨after, hparent, -, -, hall⟩ := exists_after hi
  obtain ⟨j, hj⟩ := List.mem_iff_getElem?.mp hm
  have := List.find?_eq_none.mp (hparent.symm.trans hp) j (hall j m hj hsub)
  exact this ((hf.holds_iff hr hi hj).mpr hsub)

end Nesting

/-! ### The whole analysis -/

/-- What the analysis says about a graph. -/
structure Correct (g : Flowgraph β) (info : LoopInfo β) : Prop where
  /-- There is one loop for each block a back edge lands on. -/
  headers : (∀ h, (∃ l ∈ info.loops, l.header = h) ↔ ∃ k, g.IsLatch h k) ∧
    info.loops.Pairwise fun l m => l.header ≠ m.header
  /-- The latches are the sources of the back edges. -/
  latches : ∀ l ∈ info.loops, ∀ k, k ∈ l.latches ↔ g.IsLatch l.header k
  /-- The blocks are the header and what reaches a latch without passing through it. -/
  blocks : ∀ l ∈ info.loops, ∀ b, b ∈ l.blocks ↔
    b = l.header ∨ ∃ k ∈ l.latches, g.Back l.header b k
  /-- Loops with distinct headers are disjoint or strictly nested. -/
  laminar : ∀ l ∈ info.loops, ∀ m ∈ info.loops, l.header ≠ m.header →
    Disjoint l.blocks m.blocks ∨ l.blocks ⊂ m.blocks ∨ m.blocks ⊂ l.blocks
  /-- The parent is the least loop that strictly encloses a loop. -/
  parent : ∀ l ∈ info.loops,
    (∀ p, l.parent = some p → ∃ m, info.loops[p]? = some m ∧ l.blocks ⊂ m.blocks ∧
      ∀ m' ∈ info.loops, l.blocks ⊂ m'.blocks → m.blocks ⊆ m'.blocks) ∧
    (l.parent = none → ∀ m ∈ info.loops, ¬l.blocks ⊂ m.blocks)
  /-- The innermost loop of a block is the smallest one that contains it. -/
  innermost : ∀ b,
    (∀ i, info.innermost b = some i → ∃ m, info.loops[i]? = some m ∧ b ∈ m.blocks ∧
      ∀ m' ∈ info.loops, b ∈ m'.blocks → m.blocks ⊆ m'.blocks) ∧
    (info.innermost b = none → ∀ m ∈ info.loops, b ∉ m.blocks)

/-- Steps 1 and 2 find the loops, in whatever order the map is iterated. -/
theorem found_map (hdom : ∀ a b, dom a b = true ↔ g.Dominates a b) {m : List (β × List β)}
    (hm : m.Perm (latchesByHeader g dom)) :
    Found g (m.map fun entry => ⟨entry.1, entry.2, loopBlocks g entry.1 entry.2, none, []⟩) := by
  have hgroups := groups_latchesByHeader hdom
  have hmem : ∀ entry ∈ m, ∀ k, k ∈ entry.2 ↔ g.IsLatch entry.1 k := fun entry hentry =>
    hgroups.mem entry.1 entry.2 (hm.mem_iff.mp hentry)
  refine ⟨?_, ?_, ?_, ?_⟩
  · rw [List.pairwise_map]
    have hnodup : (m.map Prod.fst).Nodup := (hm.map _).nodup_iff.mpr hgroups.nodup
    exact List.pairwise_map.mp hnodup
  · intro l hl
    obtain ⟨entry, hentry, rfl⟩ := List.mem_map.mp hl
    -- a header is listed with at least one latch
    obtain ⟨k, hk⟩ := hgroups.mem_headers.mp (List.mem_map_of_mem (hm.mem_iff.mp hentry))
    exact (g.edge_mem hk.2.1).2
  · intro l hl
    obtain ⟨entry, hentry, rfl⟩ := List.mem_map.mp hl
    exact hmem entry hentry
  · intro l hl
    obtain ⟨entry, hentry, rfl⟩ := List.mem_map.mp hl
    ext b
    exact mem_loopBlocks (hmem entry hentry)

/-- **The loop analysis is correct.** -/
theorem compute_correct (hdom : ∀ a b, dom a b = true ↔ g.Dominates a b)
    (hr : ∀ b ∈ g.nodes, g.Reachable b) {hashOrder : List (β × List β) → List (β × List β)}
    (horder : ∀ m, (hashOrder m).Perm m) : Correct g (compute g dom hashOrder) := by
  have hperm := horder (latchesByHeader g dom)
  have hf := found_map hdom hperm
  have hheaders : ∀ h, h ∈ (hashOrder (latchesByHeader g dom)).map Prod.fst ↔
      ∃ k, g.IsLatch h k := by
    intro h
    rw [(hperm.map Prod.fst).mem_iff]
    exact (groups_latchesByHeader hdom).mem_headers
  unfold compute
  set loops : List (Loop β) := (hashOrder (latchesByHeader g dom)).map
    fun entry => ⟨entry.1, entry.2, loopBlocks g entry.1 entry.2, none, []⟩ with hloops
  -- nesting a loop changes neither its blocks nor its latches
  set nest : ℕ → Loop β → Loop β := fun i l =>
    { l with
      parent := parentIn loops i (bySize loops)
      children := (List.range loops.length).filter
        fun c => parentIn loops c (bySize loops) = some i } with hnest
  have hget : ∀ i, (loops.mapIdx nest)[i]? = (loops[i]?).map (nest i) := fun i =>
    List.getElem?_mapIdx
  have hmem : ∀ l ∈ loops.mapIdx nest, ∃ i m, loops[i]? = some m ∧ l = nest i m := by
    intro l hl
    obtain ⟨i, hi⟩ := List.mem_iff_getElem?.mp hl
    rw [hget, Option.map_eq_some_iff] at hi
    obtain ⟨m, hm, rfl⟩ := hi
    exact ⟨i, m, hm, rfl⟩
  have hof : ∀ i m, loops[i]? = some m → nest i m ∈ loops.mapIdx nest := by
    intro i m hi
    refine List.mem_iff_getElem?.mpr ⟨i, ?_⟩
    rw [hget, hi]
    rfl
  refine ⟨⟨fun h => ?_, ?_⟩, ?_, ?_, ?_, ?_, ?_⟩
  · rw [← hheaders h]
    constructor
    · rintro ⟨l, hl, rfl⟩
      obtain ⟨i, m, hi, rfl⟩ := hmem l hl
      obtain ⟨entry, hentry, rfl⟩ := List.mem_map.mp (List.mem_of_getElem? hi)
      exact List.mem_map_of_mem hentry
    · intro hh
      obtain ⟨entry, hentry, rfl⟩ := List.mem_map.mp hh
      obtain ⟨i, hi⟩ := List.mem_iff_getElem?.mp
        (List.mem_map_of_mem (f := fun entry : β × List β =>
          (⟨entry.1, entry.2, loopBlocks g entry.1 entry.2, none, []⟩ : Loop β)) hentry)
      exact ⟨_, hof i _ hi, rfl⟩
  · rw [List.pairwise_iff_getElem]
    intro i j hi hj hlt
    simp only [List.length_mapIdx] at hi hj
    simp only [List.getElem_mapIdx]
    exact List.pairwise_iff_getElem.mp hf.distinct i j hi hj hlt
  · intro l hl k
    obtain ⟨i, m, hi, rfl⟩ := hmem l hl
    exact hf.latches m (List.mem_of_getElem? hi) k
  · intro l hl b
    obtain ⟨i, m, hi, rfl⟩ := hmem l hl
    have hb : b ∈ m.blocks ↔ b ∈ g.loopOf m.header := by
      rw [← hf.blocks m (List.mem_of_getElem? hi), Finset.mem_coe]
    refine hb.trans ?_
    show (b = m.header ∨ ∃ k, g.IsLatch m.header k ∧ g.Back m.header b k) ↔ _
    simp only [← hf.latches m (List.mem_of_getElem? hi)]
    exact Iff.rfl
  · intro l hl l' hl' hne
    obtain ⟨i, m, hi, rfl⟩ := hmem l hl
    obtain ⟨j, m', hj, rfl⟩ := hmem l' hl'
    exact hf.laminar (l := m) (m := m') hr (List.mem_of_getElem? hi) (List.mem_of_getElem? hj) hne
  · intro l hl
    obtain ⟨i, m, hi, rfl⟩ := hmem l hl
    refine ⟨fun p hp => ?_, fun hp l' hl' => ?_⟩
    · obtain ⟨m', hm', hsub, hleast⟩ := hf.parentIn_eq_some hr hi hp
      refine ⟨nest p m', by rw [hget, hm']; rfl, hsub, fun l' hl' hsub' => ?_⟩
      obtain ⟨j, m'', hj, rfl⟩ := hmem l' hl'
      exact hleast m'' (List.mem_of_getElem? hj) hsub'
    · obtain ⟨j, m'', hj, rfl⟩ := hmem l' hl'
      exact hf.parentIn_eq_none hr hi hp m'' (List.mem_of_getElem? hj)
  · intro b
    refine ⟨fun i hi => ?_, fun hnone l' hl' => ?_⟩
    · obtain ⟨hmemi, hbi, hleast⟩ := find?_least (bySize_sorted loops) hi
      obtain ⟨m, hm⟩ : ∃ m, loops[i]? = some m :=
        ⟨_, List.getElem?_eq_getElem (mem_bySize.mp hmemi)⟩
      rw [blocksOf_eq hm, decide_eq_true_eq] at hbi
      refine ⟨nest i m, by rw [hget, hm]; rfl, hbi, fun l' hl' hb' => ?_⟩
      obtain ⟨j, m', hj, rfl⟩ := hmem l' hl'
      have hcard := hleast j (mem_bySize.mpr (List.getElem?_eq_some_iff.mp hj).1)
        (by rw [blocksOf_eq hj]; exact decide_eq_true hb')
      rw [blocksOf_eq hm, blocksOf_eq hj] at hcard
      exact hf.subset_of_card_le (l := m) (m := m') hr hm hj hbi hb' hcard
    · obtain ⟨j, m', hj, rfl⟩ := hmem l' hl'
      have := List.find?_eq_none.mp hnone j (mem_bySize.mpr (List.getElem?_eq_some_iff.mp hj).1)
      rw [blocksOf_eq hj, decide_eq_true_eq] at this
      exact this

end Compute

/-- Two nested loops: block 1 heads the outer one, block 2 the inner one, and 4 is behind both. -/
def nested : Flowgraph (Fin 5) where
  nodes := List.finRange 5
  entry := 0
  succs := ![[1], [2, 4], [3, 1], [2], []]
  entry_mem := List.mem_finRange _
  edge_mem _ := ⟨List.mem_finRange _, List.mem_finRange _⟩

/-- Every block of the example is reachable. -/
theorem nested_reachable (b : Fin 5) : nested.Reachable b := by
  have h0 : nested.Reachable 0 := .entry not_false
  have h1 : nested.Reachable 1 := h0.step (by decide)
  have h2 : nested.Reachable 2 := h1.step (by decide)
  have h3 : nested.Reachable 3 := h2.step (by decide)
  have h4 : nested.Reachable 4 := h1.step (by decide)
  fin_cases b
  · exact h0
  · exact h1
  · exact h2
  · exact h3
  · exact h4

/-- The example is computed right. -/
theorem compute_correct_nested : Correct nested (compute nested nested.dominates id) :=
  compute_correct (fun _ _ => dominates_iff) (fun b _ => nested_reachable b) fun _ => .refl _

end LoopInfo

end CudaOxide.Mir
