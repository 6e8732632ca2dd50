import Mathlib

/-!
# Flowgraphs, dominance and natural loops

A flowgraph is a finite graph with an entry.  This file has the facts about one that analyses of
programs rest on.

* `Worklist.saturate` — the usual worklist: pop a node, add its unseen neighbours.  It computes
  the closure of its start (`saturate_sound`, `saturate_closed`, `saturate_done`).
* `Flowgraph.Dominates` — `d` dominates `b` when no path from the entry reaches `b` around `d`.
  On reachable nodes it is a partial order whose down-sets are chains (`antisymm`, `total`), and
  it moves back along edges (`of_edge`).
* `Flowgraph.loopOf` — the natural loop of a header: the header and what reaches one of its
  latches around it.  Two natural loops are disjoint or one lies strictly inside the other
  (`loopOf_laminar`).
-/

namespace CudaOxide.Lib

/-! ### The worklist -/

namespace Worklist

variable {α : Type*} [DecidableEq α]

/-- Add the unseen ones of `xs` to the seen set and to the worklist. -/
def mark (xs : List α) (st : Finset α × List α) : Finset α × List α :=
  xs.foldl (fun st x => if x ∈ st.1 then st else (insert x st.1, x :: st.2)) st

/-- Pop nodes and mark their neighbours, `fuel` times at most. -/
def saturate (next : α → List α) : ℕ → Finset α × List α → Finset α × List α
  | 0, st => st
  | fuel + 1, st =>
    match st.2 with
    | [] => st
    | x :: work => saturate next fuel (mark (next x) (st.1, work))

variable {next : α → List α} {xs : List α} {st : Finset α × List α}

@[simp] theorem mark_nil : mark [] st = st := rfl

/-- Marking one node and then the others. -/
theorem mark_cons {x : α} :
    mark (x :: xs) st = mark xs (if x ∈ st.1 then st else (insert x st.1, x :: st.2)) := rfl

@[simp] theorem mem_mark {y : α} : y ∈ (mark xs st).1 ↔ y ∈ st.1 ∨ y ∈ xs := by
  induction xs generalizing st with
  | nil => simp
  | cons x xs ih =>
    rw [mark_cons, ih]
    split
    · rename_i hx
      simp only [List.mem_cons]
      by_cases hy : y = x
      · simp [hy, hx]
      · simp [hy]
    · simp only [Finset.mem_insert, List.mem_cons]
      tauto

/-- What is on the worklist was there before or is new. -/
theorem mem_mark_work {y : α} (h : y ∈ (mark xs st).2) : y ∈ st.2 ∨ (y ∈ xs ∧ y ∉ st.1) := by
  induction xs generalizing st with
  | nil => exact .inl h
  | cons x xs ih =>
    rw [mark_cons] at h
    split at h
    · rcases ih h with hy | ⟨hy, hn⟩
      · exact .inl hy
      · exact .inr ⟨List.mem_cons_of_mem _ hy, hn⟩
    · rename_i hx
      rcases ih h with hy | ⟨hy, hn⟩
      · rcases List.mem_cons.mp hy with rfl | hy
        · exact .inr ⟨List.mem_cons_self, hx⟩
        · exact .inl hy
      · simp only [Finset.mem_insert, not_or] at hn
        exact .inr ⟨List.mem_cons_of_mem _ hy, hn.2⟩

/-- Work that was there is still to do. -/
theorem mem_work_of_mark {y : α} (h : y ∈ st.2) : y ∈ (mark xs st).2 := by
  induction xs generalizing st with
  | nil => exact h
  | cons x xs ih =>
    rw [mark_cons]
    split
    · exact ih h
    · exact ih (List.mem_cons_of_mem _ h)

/-- Every new node goes on the worklist. -/
theorem work_of_mark {y : α} (h : y ∈ (mark xs st).1) : y ∈ st.1 ∨ y ∈ (mark xs st).2 := by
  induction xs generalizing st with
  | nil => exact .inl h
  | cons x xs ih =>
    rw [mark_cons] at h ⊢
    split
    · rename_i hx
      rw [if_pos hx] at h
      exact ih h
    · rename_i hx
      rw [if_neg hx] at h
      rcases ih h with hy | hy
      · rcases Finset.mem_insert.mp hy with rfl | hy
        · exact .inr (mem_work_of_mark List.mem_cons_self)
        · exact .inl hy
      · exact .inr hy

/-- Each node that goes on the worklist leaves the unseen ones. -/
theorem mark_measure (all : Finset α) (hxs : ∀ x ∈ xs, x ∈ all) :
    (all \ (mark xs st).1).card + (mark xs st).2.length =
      (all \ st.1).card + st.2.length := by
  induction xs generalizing st with
  | nil => rfl
  | cons x xs ih =>
    have hall := hxs x List.mem_cons_self
    rw [mark_cons, ih fun y hy => hxs y (List.mem_cons_of_mem _ hy)]
    split
    · rfl
    · rename_i hx
      have hmem : x ∈ all \ st.1 := Finset.mem_sdiff.mpr ⟨hall, hx⟩
      have hpos : 0 < (all \ st.1).card := Finset.card_pos.mpr ⟨x, hmem⟩
      have herase : all \ insert x st.1 = (all \ st.1).erase x := by
        ext y
        simp only [Finset.mem_sdiff, Finset.mem_insert, Finset.mem_erase, not_or]
        tauto
      simp only [herase, Finset.card_erase_of_mem hmem, List.length_cons]
      omega

/-- What is marked stays marked. -/
theorem saturate_mono (fuel : ℕ) {x : α} (hx : x ∈ st.1) : x ∈ (saturate next fuel st).1 := by
  induction fuel generalizing st with
  | zero => exact hx
  | succ fuel ih =>
    unfold saturate
    split
    · exact hx
    · exact ih (mem_mark.mpr (.inl hx))

/-- **Soundness.**  Only nodes that `Q` follows along edges are added. -/
theorem saturate_sound {Q : α → Prop} (fuel : ℕ) (hQ : ∀ x, Q x → ∀ y ∈ next x, y ∈ st.1 ∨ Q y)
    (hwork : ∀ x ∈ st.2, Q x) {x : α} (hx : x ∈ (saturate next fuel st).1) : x ∈ st.1 ∨ Q x := by
  induction fuel generalizing st with
  | zero => exact .inl hx
  | succ fuel ih =>
    unfold saturate at hx
    split at hx
    · exact .inl hx
    · rename_i y work hst
      have hy : Q y := hwork y (by rw [hst]; exact List.mem_cons_self)
      have hnew : ∀ z ∈ next y, z ∉ st.1 → Q z := fun z hz hn =>
        (hQ y hy z hz).resolve_left hn
      have hx' : x ∈ (mark (next y) (st.1, work)).1 ∨ Q x := by
        refine ih ?_ ?_ hx
        · intro z hz u hu
          rcases hQ z hz u hu with h | h
          · exact .inl (mem_mark.mpr (.inl h))
          · exact .inr h
        · intro z hz
          rcases mem_mark_work hz with h | ⟨h, hn⟩
          · exact hwork z (by rw [hst]; exact List.mem_cons_of_mem _ h)
          · exact hnew z h hn
      rcases hx' with h | h
      · rcases mem_mark.mp h with h | h
        · exact .inl h
        · by_cases hz : x ∈ st.1
          · exact .inl hz
          · exact .inr (hnew x h hz)
      · exact .inr h

/-- Enough fuel empties the worklist. -/
theorem saturate_done (all : Finset α) (hnext : ∀ x ∈ all, ∀ y ∈ next x, y ∈ all) {fuel : ℕ}
    (hwork : ∀ x ∈ st.2, x ∈ all) (hfuel : (all \ st.1).card + st.2.length ≤ fuel) :
    (saturate next fuel st).2 = [] := by
  induction fuel generalizing st with
  | zero =>
    have : st.2.length = 0 := by omega
    exact List.eq_nil_of_length_eq_zero this
  | succ fuel ih =>
    unfold saturate
    split
    · rename_i hst
      exact hst
    · rename_i x work hst
      have hx : x ∈ all := hwork x (by rw [hst]; exact List.mem_cons_self)
      have hsub : ∀ y ∈ next x, y ∈ all := hnext x hx
      refine ih (fun y hy => ?_) ?_
      · rcases mem_mark_work hy with h | ⟨h, -⟩
        · exact hwork y (by rw [hst]; exact List.mem_cons_of_mem _ h)
        · exact hsub y h
      · rw [mark_measure all hsub]
        rw [hst, List.length_cons] at hfuel
        simp only
        omega

/-- **Completeness.**  When the worklist is empty, the neighbours of every node that went over it
have been seen; `done` is the part of the start that needs no visit. -/
theorem saturate_closed (done : α → Prop) (fuel : ℕ)
    (hinv : ∀ x ∈ st.1, x ∈ st.2 ∨ done x ∨ ∀ y ∈ next x, y ∈ st.1)
    (hempty : (saturate next fuel st).2 = []) {x : α} (hx : x ∈ (saturate next fuel st).1) :
    done x ∨ ∀ y ∈ next x, y ∈ (saturate next fuel st).1 := by
  induction fuel generalizing st with
  | zero =>
    rcases hinv x hx with h | h | h
    · rw [show st.2 = [] from hempty] at h
      cases h
    · exact .inl h
    · exact .inr h
  | succ fuel ih =>
    unfold saturate at hempty hx ⊢
    split
    · rename_i hst
      rw [hst] at hinv hx
      rcases hinv x hx with h | h | h
      · cases h
      · exact .inl h
      · exact .inr h
    · rename_i y work hst
      rw [hst] at hinv hempty hx
      refine ih (fun z hz => ?_) hempty hx
      rcases work_of_mark hz with hz' | hz'
      · rcases hinv z hz' with h | h | h
        · rcases List.mem_cons.mp h with rfl | h
          · exact .inr (.inr fun u hu => mem_mark.mpr (.inr hu))
          · exact .inl (mem_work_of_mark h)
        · exact .inr (.inl h)
        · exact .inr (.inr fun u hu => mem_mark.mpr (.inl (h u hu)))
      · exact .inl hz'

end Worklist

/-! ### Flowgraphs -/

/-- A finite graph with an entry.  Edges stay inside the graph. -/
structure Flowgraph (α : Type*) where
  nodes : List α
  entry : α
  succs : α → List α
  entry_mem : entry ∈ nodes
  edge_mem : ∀ {a b : α}, b ∈ succs a → a ∈ nodes ∧ b ∈ nodes

namespace Flowgraph

variable {α : Type*} {g : Flowgraph α} {a b c d h l : α}

/-- `g.Around S b`: a path from the entry to `b` that never touches `S`. -/
inductive Around (g : Flowgraph α) (S : α → Prop) : α → Prop
  | entry : ¬S g.entry → Around g S g.entry
  | step {a b : α} : Around g S a → b ∈ g.succs a → ¬S b → Around g S b

/-- Some path leads from the entry to `b`. -/
def Reachable (g : Flowgraph α) (b : α) : Prop := g.Around (fun _ => False) b

/-- Every path from the entry to `b` goes through `d`. -/
def Dominates (g : Flowgraph α) (d b : α) : Prop := ¬g.Around (· = d) b

/-- A node is outside what it avoids. -/
theorem Around.not_mem {S : α → Prop} (hb : g.Around S b) : ¬S b := by
  cases hb with
  | entry hS => exact hS
  | step _ _ hS => exact hS

/-- Avoiding more is avoiding less. -/
theorem Around.mono {S T : α → Prop} (hTS : ∀ x, T x → S x) (hb : g.Around S b) :
    g.Around T b := by
  induction hb with
  | entry hS => exact .entry fun hT => hS (hTS _ hT)
  | step _ he hS ih => exact .step ih he fun hT => hS (hTS _ hT)

/-- A node that is reached around a set is reached. -/
theorem Around.reachable {S : α → Prop} (hb : g.Around S b) : g.Reachable b :=
  hb.mono fun _ => False.elim

/-- The successors of a reachable node are reachable. -/
theorem Reachable.step (ha : g.Reachable a) (he : b ∈ g.succs a) : g.Reachable b :=
  Around.step ha he not_false

/-- A reachable node is one of the graph. -/
theorem Reachable.mem_nodes (hb : g.Reachable b) : b ∈ g.nodes := by
  induction hb with
  | entry => exact g.entry_mem
  | step _ he _ _ => exact (g.edge_mem he).2

namespace Dominates

/-- Every node dominates itself. -/
theorem refl (g : Flowgraph α) (a : α) : g.Dominates a a := fun h => h.not_mem rfl

/-- A strict dominator of a node dominates each of its predecessors. -/
theorem of_edge (hd : g.Dominates d c) (hne : d ≠ c) (he : c ∈ g.succs b) : g.Dominates d b :=
  fun hb => hd (.step hb he hne.symm)

/-- Only the entry dominates the entry. -/
theorem eq_entry (hd : g.Dominates d g.entry) : d = g.entry := by
  by_contra hne
  exact hd (.entry fun h => hne h.symm)

/-- A dominator of a reachable node is reachable. -/
theorem reachable (hab : g.Dominates a b) (hb : g.Reachable b) : g.Reachable a := by
  by_contra ha
  have hpath : ∀ x, g.Reachable x → g.Around (· = a) x := by
    intro x hx
    induction hx with
    | entry => exact .entry fun he => ha (he ▸ .entry not_false)
    | step hy he _ ih => exact .step ih he fun hz => ha (hz ▸ Reachable.step hy he)
  exact hab (hpath b hb)

/-- On the path to the first of two nodes the other one is not met. -/
theorem antisymm (hab : g.Dominates a b) (hba : g.Dominates b a) (hr : g.Reachable a) :
    a = b := by
  by_contra hne
  -- until one of the two is met, the path is around both
  have hpath : ∀ x, g.Reachable x → g.Around (fun y => y = a ∨ y = b) x := by
    intro x hx
    induction hx with
    | entry =>
      refine .entry ?_
      rintro (h | h)
      · rw [← h] at hba
        exact hne (hba.eq_entry.trans h).symm
      · rw [← h] at hab
        exact hne (hab.eq_entry.trans h)
    | step _ he _ ih =>
      refine .step ih he ?_
      rintro (rfl | rfl)
      · exact hba (.step (ih.mono fun y hy => .inr hy) he hne)
      · exact hab (.step (ih.mono fun y hy => .inl hy) he fun h => hne h.symm)
  exact (hpath a hr).not_mem (.inl rfl)

/-- Two dominators of one reachable node are comparable. -/
theorem total (ha : g.Dominates a c) (hb : g.Dominates b c) (hr : g.Reachable c) :
    g.Dominates a b ∨ g.Dominates b a := by
  by_contra hno
  simp only [Dominates, not_or, not_not] at hno
  obtain ⟨hb', ha'⟩ := hno
  -- a path around one of the two can be rerouted around the other where it meets the first
  have hpath : ∀ x, g.Reachable x → g.Around (· = a) x ∨ g.Around (· = b) x := by
    intro x hx
    induction hx with
    | entry =>
      by_cases hea : g.entry = a
      · rw [hea]
        exact .inr ha'
      · exact .inl (.entry hea)
    | @step y z _ he _ ih =>
      rcases ih with hy | hy
      · by_cases hza : z = a
        · rw [hza]
          exact .inr ha'
        · exact .inl (.step hy he hza)
      · by_cases hzb : z = b
        · rw [hzb]
          exact .inl hb'
        · exact .inr (.step hy he hzb)
  rcases hpath c hr with h | h
  · exact ha h
  · exact hb h

/-- Domination is transitive. -/
theorem trans (hab : g.Dominates a b) (hbc : g.Dominates b c) : g.Dominates a c := by
  intro hc
  by_cases hr : g.Around (fun y => y = a ∨ y = b) c
  · exact hbc (hr.mono fun y hy => .inr hy)
  · -- the path around `a` goes through `b`
    have hpath : ∀ x, g.Around (· = a) x → g.Around (fun y => y = a ∨ y = b) x := by
      intro x hx
      induction hx with
      | entry hne =>
        refine .entry ?_
        rintro (h | h)
        · exact hne h
        · exact hab (h ▸ .entry hne)
      | step hy he hne ih =>
        refine .step ih he ?_
        rintro (h | rfl)
        · exact hne h
        · exact hab (.step hy he hne)
    exact hr (hpath c hc)

end Dominates

/-! ### Deciding dominance -/

/-- The nodes a forward walk from the entry finds when it never enters `d`. -/
def walkAround [DecidableEq α] (g : Flowgraph α) (d : α) : Finset α :=
  if g.entry = d then ∅
  else
    (Worklist.saturate (fun a => (g.succs a).filter (· ≠ d)) (g.nodes.length + 1)
      ({g.entry}, [g.entry])).1

/-- The walk around a node finds what is reached without it. -/
theorem mem_walkAround [DecidableEq α] : b ∈ g.walkAround d ↔ g.Around (· = d) b := by
  unfold walkAround
  -- around the entry nothing is reachable
  split
  · rename_i hentry
    simp only [Finset.notMem_empty, false_iff]
    intro hb
    induction hb with
    | entry hne => exact hne hentry
    | step _ _ _ ih => exact ih
  rename_i hentry
  -- the worklist has fuel for every node
  have hdone : (Worklist.saturate (fun a => (g.succs a).filter (· ≠ d)) (g.nodes.length + 1)
      ({g.entry}, [g.entry])).2 = [] := by
    apply Worklist.saturate_done g.nodes.toFinset
    · intro x _ y hy
      exact List.mem_toFinset.mpr (g.edge_mem (List.mem_of_mem_filter hy)).2
    · intro x hx
      rw [List.mem_singleton.mp hx]
      exact List.mem_toFinset.mpr g.entry_mem
    · have hle := Finset.card_le_card (Finset.sdiff_subset (s := g.nodes.toFinset) (t := {g.entry}))
      have hlen := List.toFinset_card_le g.nodes
      simp only [List.length_singleton]
      omega
  constructor
  -- what the worklist finds is reachable around `d`
  · intro hb
    refine (Worklist.saturate_sound (Q := g.Around (· = d)) _ ?_ ?_ hb).elim ?_ id
    · intro x hx y hy
      simp only [List.mem_filter, decide_eq_true_eq] at hy
      exact .inr (.step hx hy.1 hy.2)
    · intro x hx
      rw [List.mem_singleton.mp hx]
      exact .entry hentry
    · intro hx
      rw [Finset.mem_singleton.mp hx]
      exact .entry hentry
  -- what is reachable around `d` is found, by induction on the path
  · intro hb
    induction hb with
    | entry => exact Worklist.saturate_mono _ (Finset.mem_singleton_self _)
    | step _ he hne ih =>
      have hclosed := Worklist.saturate_closed (fun _ => False) _
        (fun x hx => .inl (by simpa using hx)) hdone ih
      refine hclosed.resolve_left not_false _ ?_
      simp only [List.mem_filter, decide_eq_true_eq]
      exact ⟨he, hne⟩

/-- Dominance, as a program decides it. -/
def dominates [DecidableEq α] (g : Flowgraph α) (d b : α) : Bool := b ∉ g.walkAround d

/-- The test decides domination. -/
theorem dominates_iff [DecidableEq α] : g.dominates d b = true ↔ g.Dominates d b := by
  simp only [dominates, decide_eq_true_eq, mem_walkAround, Dominates]

/-! ### Natural loops -/

/-- `g.Back h b l`: a path from `b` to `l` that does not touch `h`. -/
inductive Back (g : Flowgraph α) (h : α) : α → α → Prop
  | refl {l : α} : l ≠ h → Back g h l l
  | step {a b l : α} : a ≠ h → b ∈ g.succs a → Back g h b l → Back g h a l

/-- Behind a header there is no way through it. -/
theorem Back.left_ne (hb : g.Back h b l) : b ≠ h := by
  cases hb with
  | refl hne => exact hne
  | step hne _ _ => exact hne

/-- Ways around a header can be joined. -/
theorem Back.trans (hab : g.Back h a b) (hbl : g.Back h b l) : g.Back h a l := by
  induction hab with
  | refl => exact hbl
  | step hne he _ ih => exact .step hne he (ih hbl)

/-- A path around `h` goes on along a path that does not touch `h`. -/
theorem Around.back (hb : g.Around (· = h) b) (hbl : g.Back h b l) : g.Around (· = h) l := by
  induction hbl with
  | refl => exact hb
  | step _ he hrest ih => exact ih (.step hb he hrest.left_ne)

/-- `l` is a latch of `h`: it branches back to `h`, which dominates it. -/
def IsLatch (g : Flowgraph α) (h l : α) : Prop :=
  l ∈ g.nodes ∧ h ∈ g.succs l ∧ g.Dominates h l

/-- The natural loop of a header: the header, and what reaches a latch around it. -/
def loopOf (g : Flowgraph α) (h : α) : Set α :=
  {b | b = h ∨ ∃ l, g.IsLatch h l ∧ g.Back h b l}

theorem self_mem_loopOf (g : Flowgraph α) (h : α) : h ∈ g.loopOf h := .inl rfl

/-- The header dominates its loop. -/
theorem dominates_of_mem_loopOf (hb : b ∈ g.loopOf h) : g.Dominates h b := by
  rcases hb with rfl | ⟨l, ⟨-, -, hdom⟩, hback⟩
  · exact .refl g _
  · exact fun haround => hdom (haround.back hback)

/-- A loop is entered through its header only. -/
theorem mem_loopOf_of_edge (he : b ∈ g.succs a) (hb : b ∈ g.loopOf h)
    (hne : b ≠ h) : a ∈ g.loopOf h := by
  by_cases hah : a = h
  · exact .inl hah
  rcases hb with rfl | ⟨l, hl, hback⟩
  · exact absurd rfl hne
  · exact .inr ⟨l, hl, .step hah he hback⟩

/-- Every node of a loop is reached from the header inside the loop: on a path from the entry, the
part behind the last visit of the header lies in the loop. -/
theorem back_of_mem_loopOf {k : α} (hr : g.Reachable b) (hb : b ∈ g.loopOf h)
    (hk : k ∉ g.loopOf h) : g.Back k h b := by
  have hkh : h ≠ k := fun heq => hk (heq ▸ self_mem_loopOf g h)
  induction hr with
  | entry =>
    rw [(dominates_of_mem_loopOf hb).eq_entry] at hkh ⊢
    exact .refl hkh
  | @step a b _ he _ ih =>
    by_cases hbh : b = h
    · rw [hbh]
      exact .refl hkh
    have ha := mem_loopOf_of_edge he hb hbh
    have hak : a ≠ k := fun heq => hk (heq ▸ ha)
    have hbk : b ≠ k := fun heq => hk (heq ▸ hb)
    exact (ih ha).trans (.step hak he (.refl hbk))

/-- A path that leaves from inside a loop to one of its latches stays inside. -/
theorem Back.avoids {k : α} (hl : g.IsLatch h l) (hb : g.Back h b l) (hk : k ∉ g.loopOf h) :
    g.Back k b l := by
  induction hb with
  | @refl l hne =>
    refine .refl fun heq => hk ?_
    rw [← heq]
    exact .inr ⟨l, hl, .refl hne⟩
  | @step a b l hne he hrest ih =>
    refine .step (fun heq => hk ?_) he (ih hl)
    rw [← heq]
    exact .inr ⟨l, hl, .step hne he hrest⟩

/-- A loop whose header lies in another loop lies inside it, when it leaves out the other header. -/
theorem loopOf_subset {h₁ h₂ : α} (hmem : h₂ ∈ g.loopOf h₁) (hout : h₁ ∉ g.loopOf h₂) :
    g.loopOf h₂ ⊆ g.loopOf h₁ := by
  rintro x (rfl | ⟨l, hl, hback⟩)
  · exact hmem
  · rcases hmem with heq | ⟨l₁, hl₁, hback₁⟩
    · rw [heq] at hout
      exact absurd (self_mem_loopOf g h₁) hout
    · -- around `h₁` to the latch of `h₂`, over to `h₂`, and on to the latch of `h₁`
      have hxl := hback.avoids hl hout
      have hl₁' : l ≠ h₁ := by
        intro heq
        rw [← heq] at hout
        refine hout (.inr ⟨l, hl, .refl ?_⟩)
        exact fun h => hout (h ▸ self_mem_loopOf g h₂)
      exact .inr ⟨l₁, hl₁, hxl.trans (.step hl₁' hl.2.1 hback₁)⟩

/-- The nodes of a loop are nodes of the graph. -/
theorem mem_nodes_of_mem_loopOf (hh : h ∈ g.nodes) (hb : b ∈ g.loopOf h) : b ∈ g.nodes := by
  rcases hb with rfl | ⟨l, hl, hback⟩
  · exact hh
  · cases hback with
    | refl => exact hl.1
    | step _ he _ => exact (g.edge_mem he).1

/-- Of two headers whose loops meet, the dominating one has the larger loop. -/
theorem loopOf_ssubset {h₁ h₂ : α} (hr : ∀ x ∈ g.nodes, g.Reachable x) (hh₁ : h₁ ∈ g.nodes)
    (hne : h₁ ≠ h₂) (hdom : g.Dominates h₁ h₂) (hb₁ : b ∈ g.loopOf h₁) (hb₂ : b ∈ g.loopOf h₂) :
    g.loopOf h₂ ⊂ g.loopOf h₁ := by
  have hout : h₁ ∉ g.loopOf h₂ := fun hmem =>
    hne (hdom.antisymm (dominates_of_mem_loopOf hmem) (hr h₁ hh₁))
  have hmem : h₂ ∈ g.loopOf h₁ := by
    rcases hb₁ with rfl | ⟨l, hl, hback⟩
    · exact absurd hb₂ hout
    · have hbmem := mem_nodes_of_mem_loopOf hh₁ (.inr ⟨l, hl, hback⟩)
      exact .inr ⟨l, hl, (back_of_mem_loopOf (hr b hbmem) hb₂ hout).trans hback⟩
  exact ⟨loopOf_subset hmem hout, fun hsub => hout (hsub (self_mem_loopOf g h₁))⟩

/-- **Natural loops are laminar.**  Two loops with different headers are disjoint, or one lies
strictly inside the other. -/
theorem loopOf_laminar {h₁ h₂ : α} (hr : ∀ x ∈ g.nodes, g.Reachable x) (hh₁ : h₁ ∈ g.nodes)
    (hh₂ : h₂ ∈ g.nodes) (hne : h₁ ≠ h₂) :
    Disjoint (g.loopOf h₁) (g.loopOf h₂) ∨ g.loopOf h₁ ⊂ g.loopOf h₂ ∨
      g.loopOf h₂ ⊂ g.loopOf h₁ := by
  by_cases hdisj : Disjoint (g.loopOf h₁) (g.loopOf h₂)
  · exact .inl hdisj
  right
  obtain ⟨b, hb₁, hb₂⟩ := Set.not_disjoint_iff.mp hdisj
  have hbr := hr b (mem_nodes_of_mem_loopOf hh₁ hb₁)
  rcases (dominates_of_mem_loopOf hb₁).total (dominates_of_mem_loopOf hb₂) hbr with hdom | hdom
  · exact .inr (loopOf_ssubset hr hh₁ hne hdom hb₁ hb₂)
  · exact .inl (loopOf_ssubset hr hh₂ hne.symm hdom hb₂ hb₁)

end Flowgraph

end CudaOxide.Lib
