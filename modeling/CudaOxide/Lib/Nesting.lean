import CudaOxide.Lib.Splice

/-!
# Nested regions of a text

A text is read from left to right.  Delimiters open and close regions, and between them lie leaves.
A region has the extent of its delimiters (`outer`) and the extent between them (`inner`); while it
is open, both reach to the end of the text.

* `Nest.Nested` — the invariant of a reader at the position `front`.
* `Nested.leaf`, `Nested.opening`, `Nested.closing` — what the reader does keeps it.
* `Nested.pairwise`, `Nested.innermost_of_leaf`, `Nested.innermost_of_parent` — two regions are
  nested or apart, and leaves and regions are recorded under the smallest region around them.
-/

namespace CudaOxide.Lib

/-- A region of a text, and the position of the region around it in the list of regions. -/
structure Region where
  outer : Span
  inner : Span
  parent : Option ℕ
  deriving DecidableEq, Repr

namespace Region

/-- The extent lies between the delimiters of the region. -/
def Encloses (r : Region) (x : Span) : Prop := r.inner.start ≤ x.start ∧ x.stop ≤ r.inner.stop

/-- Two regions, in the order of their beginnings, are nested or apart. -/
def NestedOrApart (r s : Region) : Prop := r.Encloses s.outer ∨ r.outer.stop ≤ s.outer.start

/-- The region ends at the delimiter `c`. -/
def close (r : Region) (c : Span) : Region :=
  ⟨⟨r.outer.start, c.stop⟩, ⟨r.inner.start, c.start⟩, r.parent⟩

end Region

/-- The region `p` is the smallest one around `x`. -/
def Innermost (regions : List Region) (p : ℕ) (x : Span) : Prop :=
  ∃ q : Region, regions[p]? = some q ∧ q.Encloses x ∧
    ∀ (k : ℕ) (r : Region), regions[k]? = some r → r.Encloses x → k = p ∨ r.Encloses q.outer

/-- What the reader has built: the regions, the open ones from the inside out, and the leaves with
the region each was read in. -/
structure Nest where
  regions : List Region
  stack : List ℕ
  leaves : List (ℕ × Span)

namespace Nest

/-- A leaf is read in the region `p`. -/
def leaf (n : Nest) (p : ℕ) (x : Span) : Nest := { n with leaves := n.leaves ++ [(p, x)] }

/-- A region begins at the delimiter `o`, inside the innermost open one. -/
def opening (n : Nest) (limit : ℕ) (o : Span) : Nest :=
  { n with
    regions := n.regions ++ [⟨⟨o.start, limit⟩, ⟨o.stop, limit⟩, n.stack.head?⟩]
    stack := n.regions.length :: n.stack }

/-- The innermost open region ends at the delimiter `c`. -/
def closing (n : Nest) (t : ℕ) (r : Region) (c : Span) : Nest :=
  { n with
    regions := n.regions.set t (r.close c)
    stack := n.stack.tail }

/-- The invariant of a reader that stands at `front` in a text of the length `limit`. -/
structure Nested (limit front : ℕ) (n : Nest) : Prop where
  front_le : front ≤ limit
  shape : ∀ (k : ℕ) (r : Region), n.regions[k]? = some r → r.inner.start ≤ r.inner.stop ∧
    r.inner.stop ≤ r.outer.stop ∧ r.inner.start ≤ front
  opened : ∀ (k : ℕ) (r : Region), n.regions[k]? = some r → k ∈ n.stack →
    r.inner.stop = limit ∧ r.outer.stop = limit
  closed : ∀ (k : ℕ) (r : Region), n.regions[k]? = some r → k ∉ n.stack → r.outer.stop ≤ front
  root : ∃ r : Region, n.regions[0]? = some r ∧ r.parent = none
  stack_root : n.stack.getLast? = some 0
  stack_gt : n.stack.Pairwise (· > ·)
  stack_lt : ∀ k ∈ n.stack, k < n.regions.length
  starts : ∀ (j k : ℕ) (r s : Region), j < k → n.regions[j]? = some r → n.regions[k]? = some s →
    r.inner.start ≤ s.outer.start ∧ s.outer.start < s.inner.start
  laminar : ∀ (j k : ℕ) (r s : Region), j < k → n.regions[j]? = some r → n.regions[k]? = some s →
    r.NestedOrApart s
  /-- The regions between a region and its parent had ended before. -/
  parents : ∀ (k : ℕ) (r : Region), k ≠ 0 → n.regions[k]? = some r →
    ∃ (p : ℕ) (q : Region), r.parent = some p ∧ p < k ∧
      n.regions[p]? = some q ∧ q.Encloses r.outer ∧
      ∀ (m : ℕ) (t : Region), p < m → m < k → n.regions[m]? = some t → t.outer.stop ≤ r.outer.start
  leaves : ∀ (p : ℕ) (x : Span), (p, x) ∈ n.leaves → x.start < x.stop ∧ x.stop ≤ front ∧
    ∃ q : Region, n.regions[p]? = some q ∧ q.Encloses x ∧
      ∀ (m : ℕ) (t : Region), p < m → n.regions[m]? = some t →
        t.outer.stop ≤ x.start ∨ x.stop ≤ t.outer.start

/-! ### What a list with one more or one other region holds -/

/-- The positions of a list with one more element. -/
theorem getElem?_concat {α : Type} {xs : List α} {y a : α} {k : ℕ} (h : (xs ++ [y])[k]? = some a) :
    (k < xs.length ∧ xs[k]? = some a) ∨ (k = xs.length ∧ a = y) := by
  rcases Nat.lt_trichotomy k xs.length with hlt | rfl | hgt
  · left
    rw [List.getElem?_append_left hlt] at h
    exact ⟨hlt, h⟩
  · right
    rw [List.getElem?_concat_length] at h
    exact ⟨rfl, (Option.some.inj h).symm⟩
  · rw [List.getElem?_eq_none (by rw [List.length_append, List.length_singleton]; omega)] at h
    cases h

/-- The positions of a list of one element. -/
theorem getElem?_single {α : Type} {y a : α} {k : ℕ} (h : [y][k]? = some a) : k = 0 ∧ a = y := by
  cases k with
  | zero => exact ⟨rfl, (Option.some.inj h).symm⟩
  | succ k => cases h

/-- The positions of a list with another element at `t`. -/
theorem getElem?_set {α : Type} {xs : List α} {y a : α} {t k : ℕ} (h : (xs.set t y)[k]? = some a) :
    (k = t ∧ a = y) ∨ (k ≠ t ∧ xs[k]? = some a) := by
  by_cases hk : t = k
  · left
    rw [List.getElem?_set, if_pos hk] at h
    split at h
    · exact ⟨hk.symm, (Option.some.inj h).symm⟩
    · cases h
  · right
    rw [List.getElem?_set, if_neg hk] at h
    exact ⟨fun h => hk h.symm, h⟩

namespace Nested

variable {limit front : ℕ} {n : Nest}

/-- Before the first character, the root is open. -/
theorem initial (limit : ℕ) : Nested limit 0 ⟨[⟨⟨0, limit⟩, ⟨0, limit⟩, none⟩], [0], []⟩ := by
  constructor
  case front_le => exact Nat.zero_le _
  case shape =>
    intro k r hr
    obtain ⟨rfl, rfl⟩ := getElem?_single hr
    exact ⟨Nat.zero_le _, le_refl _, le_refl _⟩
  case opened =>
    intro k r hr _
    obtain ⟨rfl, rfl⟩ := getElem?_single hr
    exact ⟨rfl, rfl⟩
  case closed =>
    intro k r hr hk
    obtain ⟨rfl, rfl⟩ := getElem?_single hr
    exact absurd (List.mem_singleton_self 0) hk
  case root => exact ⟨_, rfl, rfl⟩
  case stack_root => rfl
  case stack_gt => exact List.pairwise_singleton _ _
  case stack_lt =>
    intro k hk
    rw [List.mem_singleton.mp hk]
    exact Nat.zero_lt_one
  case starts =>
    intro j k r s hjk _ hs
    obtain ⟨rfl, rfl⟩ := getElem?_single hs
    exact absurd hjk (Nat.not_lt_zero _)
  case laminar =>
    intro j k r s hjk _ hs
    obtain ⟨rfl, rfl⟩ := getElem?_single hs
    exact absurd hjk (Nat.not_lt_zero _)
  case parents =>
    intro k r hk hr
    exact absurd (getElem?_single hr).1 hk
  case leaves =>
    intro p x hx
    cases hx

/-- The reader moves on. -/
theorem advance (h : Nested limit front n) {front' : ℕ} (hle : front ≤ front')
    (hlimit : front' ≤ limit) : Nested limit front' n where
  front_le := hlimit
  shape k r hr := by
    have := h.shape k r hr
    omega
  opened := h.opened
  closed k r hr hk := le_trans (h.closed k r hr hk) hle
  root := h.root
  stack_root := h.stack_root
  stack_gt := h.stack_gt
  stack_lt := h.stack_lt
  starts := h.starts
  laminar := h.laminar
  parents := h.parents
  leaves p x hx := by
    obtain ⟨hlt, hstop, hrest⟩ := h.leaves p x hx
    exact ⟨hlt, le_trans hstop hle, hrest⟩

/-- A region after the innermost open one has ended. -/
theorem closed_of_gt_head (h : Nested limit front n) {p m : ℕ} {t : Region}
    (hp : n.stack.head? = some p) (hm : p < m) (ht : n.regions[m]? = some t) :
    t.outer.stop ≤ front := by
  apply h.closed m t ht
  obtain ⟨rest, hstack⟩ := List.head?_eq_some_iff.mp hp
  have hgt := h.stack_gt
  rw [hstack, List.pairwise_cons] at hgt
  rw [hstack, List.mem_cons]
  rintro (rfl | hmem)
  · exact lt_irrefl _ hm
  · exact absurd (hgt.1 m hmem) (by omega)

/-- The innermost open region goes on to the end of the text. -/
theorem head_open (h : Nested limit front n) {p : ℕ} (hp : n.stack.head? = some p) :
    ∃ q : Region, n.regions[p]? = some q ∧ q.inner.start ≤ front ∧ q.inner.stop = limit ∧
      q.outer.stop = limit := by
  have hmem := List.mem_of_mem_head? hp
  have hget := List.getElem?_eq_getElem (h.stack_lt p hmem)
  obtain ⟨hinner, houter⟩ := h.opened p _ hget hmem
  exact ⟨_, hget, (h.shape p _ hget).2.2, hinner, houter⟩

/-- A leaf is read in the innermost open region. -/
theorem leaf (h : Nested limit front n) {p : ℕ} {x : Span} (hp : n.stack.head? = some p)
    (hstart : front ≤ x.start) (hlt : x.start < x.stop) (hlimit : x.stop ≤ limit) :
    Nested limit x.stop (n.leaf p x) := by
  obtain ⟨q, hq, hqstart, hqstop, -⟩ := h.head_open hp
  have hadv : Nested limit x.stop n := h.advance (by omega) hlimit
  refine { hadv with leaves := ?_ }
  intro p' x' hx
  rcases List.mem_append.mp hx with hold | hnew
  · exact hadv.leaves p' x' hold
  · cases List.mem_singleton.mp hnew
    refine ⟨hlt, le_refl _, q, hq, ⟨by omega, by omega⟩, ?_⟩
    intro m t hm ht
    exact .inl (le_trans (h.closed_of_gt_head hp hm ht) hstart)

/-- The root is always open. -/
theorem stack_ne_nil (h : Nested limit front n) : n.stack ≠ [] := by
  intro hnil
  have := h.stack_root
  rw [hnil] at this
  cases this

/-- A region begins behind everything that was read. -/
theorem opening (h : Nested limit front n) {o : Span} (hstart : front ≤ o.start)
    (hlt : o.start < o.stop) (hlimit : o.stop ≤ limit) :
    Nested limit o.stop (n.opening limit o) := by
  have hnil := h.stack_ne_nil
  obtain ⟨p, rest, hstack⟩ := List.exists_cons_of_ne_nil hnil
  have hp : n.stack.head? = some p := by rw [hstack]; rfl
  obtain ⟨q, hq, hqstart, hqstop, -⟩ := h.head_open hp
  have hpl : p < n.regions.length := h.stack_lt p (List.mem_of_mem_head? hp)
  -- a new region is added at the end, so the others keep their place
  have hkeep : ∀ {k : ℕ} {r : Region}, n.regions[k]? = some r →
      (n.opening limit o).regions[k]? = some r := by
    intro k r hr
    exact (List.getElem?_append_left (List.getElem?_eq_some_iff.mp hr).1).trans hr
  -- each part is looked at for the regions that were there and for the new one
  constructor
  case front_le => exact hlimit
  case shape =>
    intro k r hr
    rcases getElem?_concat hr with ⟨-, hold⟩ | ⟨-, rfl⟩
    · have := h.shape k r hold
      omega
    · exact ⟨hlimit, le_refl _, le_refl _⟩
  case opened =>
    intro k r hr hk
    rcases getElem?_concat hr with ⟨hlt, hold⟩ | ⟨-, rfl⟩
    · rcases List.mem_cons.mp hk with rfl | hmem
      · exact absurd hlt (lt_irrefl _)
      · exact h.opened k r hold hmem
    · exact ⟨rfl, rfl⟩
  case closed =>
    intro k r hr hk
    rcases getElem?_concat hr with ⟨-, hold⟩ | ⟨rfl, -⟩
    · have := h.closed k r hold fun hmem => hk (List.mem_cons_of_mem _ hmem)
      omega
    · exact absurd List.mem_cons_self hk
  case root =>
    obtain ⟨r, hr, hparent⟩ := h.root
    exact ⟨r, hkeep hr, hparent⟩
  case stack_root =>
    show (n.regions.length :: n.stack).getLast? = some 0
    rw [List.getLast?_cons, h.stack_root]
    rfl
  case stack_gt =>
    exact List.pairwise_cons.mpr ⟨fun k hk => h.stack_lt k hk, h.stack_gt⟩
  case stack_lt =>
    intro k hk
    show k < (n.regions ++ _).length
    rw [List.length_append, List.length_singleton]
    rcases List.mem_cons.mp hk with rfl | hmem
    · exact Nat.lt_succ_self _
    · exact Nat.lt_succ_of_lt (h.stack_lt k hmem)
  case starts =>
    intro j k r s hjk hr hs
    rcases getElem?_concat hs with ⟨hk, hs⟩ | ⟨rfl, rfl⟩
    · rcases getElem?_concat hr with ⟨-, hr⟩ | ⟨rfl, -⟩
      · exact h.starts j k r s hjk hr hs
      · exact absurd (hjk.trans hk) (lt_irrefl _)
    · rcases getElem?_concat hr with ⟨-, hr⟩ | ⟨rfl, -⟩
      · exact ⟨le_trans (h.shape j r hr).2.2 hstart, hlt⟩
      · exact absurd hjk (lt_irrefl _)
  case laminar =>
    intro j k r s hjk hr hs
    rcases getElem?_concat hs with ⟨hk, hs⟩ | ⟨rfl, rfl⟩
    · rcases getElem?_concat hr with ⟨-, hr⟩ | ⟨rfl, -⟩
      · exact h.laminar j k r s hjk hr hs
      · exact absurd (hjk.trans hk) (lt_irrefl _)
    · rcases getElem?_concat hr with ⟨-, hr⟩ | ⟨rfl, -⟩
      · -- an open region encloses the new one, the others have ended
        by_cases hmem : j ∈ n.stack
        · left
          exact ⟨le_trans (h.shape j r hr).2.2 hstart, (h.opened j r hr hmem).1.ge⟩
        · right
          exact le_trans (h.closed j r hr hmem) hstart
      · exact absurd hjk (lt_irrefl _)
  case parents =>
    intro k r hk hr
    rcases getElem?_concat hr with ⟨hlen, hr⟩ | ⟨rfl, rfl⟩
    -- no region comes between an old one and its parent
    · obtain ⟨p', q', hparent, hlt', hq', henc, hbetween⟩ := h.parents k r hk hr
      refine ⟨p', q', hparent, hlt', hkeep hq', henc, ?_⟩
      intro m t hpm hmk ht
      rcases getElem?_concat ht with ⟨-, ht⟩ | ⟨rfl, -⟩
      · exact hbetween m t hpm hmk ht
      · exact absurd (hmk.trans hlen) (lt_irrefl _)
    -- the parent of the new one is the head of the stack
    · refine ⟨p, q, hp, hpl, hkeep hq, ⟨le_trans hqstart hstart, hqstop.ge⟩, ?_⟩
      intro m t hpm hmk ht
      rcases getElem?_concat ht with ⟨-, ht⟩ | ⟨rfl, -⟩
      · exact le_trans (h.closed_of_gt_head hp hpm ht) hstart
      · exact absurd hmk (lt_irrefl _)
  case leaves =>
    intro p' x hx
    obtain ⟨hxlt, hstop, q', hq', henc, hafter⟩ := h.leaves p' x hx
    refine ⟨hxlt, by omega, q', hkeep hq', henc, ?_⟩
    intro m t hpm ht
    rcases getElem?_concat ht with ⟨-, ht⟩ | ⟨-, rfl⟩
    · exact hafter m t hpm ht
    · exact .inr (le_trans hstop hstart)

/-- The innermost open region is open once. -/
theorem notMem_tail (h : Nested limit front n) {t : ℕ} (ht : n.stack.head? = some t) :
    t ∉ n.stack.tail := by
  obtain ⟨rest, hstack⟩ := List.head?_eq_some_iff.mp ht
  have hgt := h.stack_gt
  rw [hstack, List.pairwise_cons] at hgt
  rw [hstack]
  intro hmem
  exact lt_irrefl _ (hgt.1 t hmem)

/-- It is the root only when nothing else is open. -/
theorem head_pos (h : Nested limit front n) {t : ℕ} (ht : n.stack.head? = some t)
    (hmore : n.stack.length ≠ 1) : 0 < t := by
  obtain ⟨rest, hstack⟩ := List.head?_eq_some_iff.mp ht
  have hgt := h.stack_gt
  have hlast := h.stack_root
  rw [hstack] at hgt hlast hmore
  cases rest with
  | nil => exact absurd rfl hmore
  | cons u us =>
    rw [List.getLast?_cons_cons] at hlast
    exact (List.pairwise_cons.mp hgt).1 0 (List.mem_of_getLast? hlast)

/-- The outermost open region is the root, the others are not. -/
theorem pos_of_mem_drop (h : Nested limit front n) {k : ℕ} (hk : k ∈ n.stack.reverse.drop 1) :
    k ∈ n.stack ∧ 0 < k := by
  have hgt := List.pairwise_reverse.mpr h.stack_gt
  have hlast := h.stack_root
  rw [← List.head?_reverse] at hlast
  obtain ⟨rest, hstack⟩ := List.head?_eq_some_iff.mp hlast
  rw [hstack] at hk hgt
  refine ⟨?_, (List.pairwise_cons.mp hgt).1 k hk⟩
  rw [← List.mem_reverse, hstack]
  exact List.mem_cons_of_mem _ hk

/-! ### A region ends -/

section Closing

variable {t : ℕ} {r s : Region} {c : Span} {k : ℕ}

/-- The other regions stay. -/
theorem closing_get_of_ne (hk : k ≠ t) (hs : n.regions[k]? = some s) :
    (n.closing t r c).regions[k]? = some s :=
  (List.getElem?_set_ne hk.symm).trans hs

/-- The region that ended. -/
theorem closing_get (hr : n.regions[t]? = some r) :
    (n.closing t r c).regions[t]? = some (r.close c) :=
  List.getElem?_set_self (List.getElem?_eq_some_iff.mp hr).1

/-- The region that ends reaches less far than before. -/
theorem close_stop_le (h : Nested limit front n) (ht : n.stack.head? = some t)
    (hr : n.regions[t]? = some r) (hlimit : c.stop ≤ limit) :
    (r.close c).outer.stop ≤ r.outer.stop := by
  rw [(h.opened t r hr (List.mem_of_mem_head? ht)).2]
  exact hlimit

/-- Regions inside it have ended before it does, and those around it go on. -/
theorem closing_laminar (h : Nested limit front n) (ht : n.stack.head? = some t)
    (hr : n.regions[t]? = some r) (hstart : front ≤ c.start) (hlimit : c.stop ≤ limit)
    (j k : ℕ) (s s' : Region) (hjk : j < k) (hs : (n.closing t r c).regions[j]? = some s)
    (hs' : (n.closing t r c).regions[k]? = some s') : s.NestedOrApart s' := by
  have hstop := h.close_stop_le (c := c) ht hr hlimit
  rcases getElem?_set hs with ⟨rfl, rfl⟩ | ⟨-, hold⟩
  · rcases getElem?_set hs' with ⟨rfl, -⟩ | ⟨-, hold'⟩
    · exact absurd hjk (lt_irrefl _)
    · rcases h.laminar j k r s' hjk hr hold' with henc | hapart
      · exact .inl ⟨henc.1, le_trans (h.closed_of_gt_head ht hjk hold') hstart⟩
      · exact .inr (le_trans hstop hapart)
  · rcases getElem?_set hs' with ⟨rfl, rfl⟩ | ⟨-, hold'⟩
    · rcases h.laminar j k s r hjk hold hr with henc | hapart
      · exact .inl ⟨henc.1, le_trans hstop henc.2⟩
      · exact .inr hapart
    · exact h.laminar j k s s' hjk hold hold'

/-- A region keeps its parent, which encloses it also when one of the two ends. -/
theorem closing_parents (h : Nested limit front n) (ht : n.stack.head? = some t)
    (hr : n.regions[t]? = some r) (hstart : front ≤ c.start) (hlimit : c.stop ≤ limit)
    (k : ℕ) (s : Region) (hk : k ≠ 0) (hs : (n.closing t r c).regions[k]? = some s) :
    ∃ (p : ℕ) (q : Region), s.parent = some p ∧ p < k ∧
      (n.closing t r c).regions[p]? = some q ∧ q.Encloses s.outer ∧
      ∀ (m : ℕ) (u : Region), p < m → m < k → (n.closing t r c).regions[m]? = some u →
        u.outer.stop ≤ s.outer.start := by
  have hstop := h.close_stop_le (c := c) ht hr hlimit
  rcases getElem?_set hs with ⟨rfl, rfl⟩ | ⟨hkt, hold⟩
  · obtain ⟨p, q, hparent, hpk, hq, henc, hbetween⟩ := h.parents k r hk hr
    refine ⟨p, q, hparent, hpk, closing_get_of_ne hpk.ne hq, ⟨henc.1, le_trans hstop henc.2⟩, ?_⟩
    intro m u hpm hmk hu
    rcases getElem?_set hu with ⟨rfl, -⟩ | ⟨-, hu⟩
    · exact absurd hmk (lt_irrefl _)
    · exact hbetween m u hpm hmk hu
  · obtain ⟨p, q, hparent, hpk, hq, henc, hbetween⟩ := h.parents k s hk hold
    have hbetween' : ∀ (m : ℕ) (u : Region), p < m → m < k →
        (n.closing t r c).regions[m]? = some u → u.outer.stop ≤ s.outer.start := by
      intro m u hpm hmk hu
      rcases getElem?_set hu with ⟨rfl, rfl⟩ | ⟨-, hu⟩
      · exact le_trans hstop (hbetween m r hpm hmk hr)
      · exact hbetween m u hpm hmk hu
    by_cases hpt : p = t
    · subst hpt
      obtain rfl := Option.some.inj (hq.symm.trans hr)
      refine ⟨p, _, hparent, hpk, closing_get hr, ?_, hbetween'⟩
      exact ⟨henc.1, le_trans (h.closed_of_gt_head ht hpk hold) hstart⟩
    · exact ⟨p, q, hparent, hpk, closing_get_of_ne hpt hq, henc, hbetween'⟩

/-- The leaves stay in the region that each was read in. -/
theorem closing_leaves (h : Nested limit front n) (ht : n.stack.head? = some t)
    (hr : n.regions[t]? = some r) (hstart : front ≤ c.start) (hlt : c.start < c.stop)
    (hlimit : c.stop ≤ limit) (p : ℕ) (x : Span) (hx : (p, x) ∈ n.leaves) :
    x.start < x.stop ∧ x.stop ≤ c.stop ∧
      ∃ q : Region, (n.closing t r c).regions[p]? = some q ∧ q.Encloses x ∧
        ∀ (m : ℕ) (u : Region), p < m → (n.closing t r c).regions[m]? = some u →
          u.outer.stop ≤ x.start ∨ x.stop ≤ u.outer.start := by
  obtain ⟨hxlt, hxstop, q, hq, henc, hafter⟩ := h.leaves p x hx
  have hafter' : ∀ (m : ℕ) (u : Region), p < m → (n.closing t r c).regions[m]? = some u →
      u.outer.stop ≤ x.start ∨ x.stop ≤ u.outer.start := by
    intro m u hpm hu
    rcases getElem?_set hu with ⟨rfl, rfl⟩ | ⟨-, hu⟩
    · exact (hafter m r hpm hr).imp_left (le_trans (h.close_stop_le ht hr hlimit))
    · exact hafter m u hpm hu
  refine ⟨hxlt, by omega, ?_⟩
  by_cases hpt : p = t
  · subst hpt
    obtain rfl := Option.some.inj (hq.symm.trans hr)
    exact ⟨_, closing_get hr, ⟨henc.1, le_trans hxstop hstart⟩, hafter'⟩
  · exact ⟨q, closing_get_of_ne hpt hq, henc, hafter'⟩

/-- The innermost open region ends; the regions inside it have ended before. -/
theorem closing (h : Nested limit front n) (ht : n.stack.head? = some t)
    (hmore : n.stack.length ≠ 1) (hr : n.regions[t]? = some r)
    (hstart : front ≤ c.start) (hlt : c.start < c.stop) (hlimit : c.stop ≤ limit) :
    Nested limit c.stop (n.closing t r c) := by
  obtain ⟨rest, hstack⟩ := List.head?_eq_some_iff.mp ht
  have hrstart := (h.shape t r hr).2.2
  have hgt := h.stack_gt
  rw [hstack, List.pairwise_cons] at hgt
  have hlast := h.stack_root
  have hpos : 0 < t := h.head_pos ht hmore
  -- the head leaves the stack
  have htail : (n.closing t r c).stack = rest := by
    show n.stack.tail = rest
    rw [hstack]
    rfl
  -- each part is looked at for the region that is closed and for the others
  constructor
  case front_le => exact hlimit
  case shape =>
    intro k s hs
    rcases getElem?_set hs with ⟨-, rfl⟩ | ⟨-, hs⟩
    · exact ⟨le_trans hrstart hstart, hlt.le, by show r.inner.start ≤ c.stop; omega⟩
    · have := h.shape k s hs
      omega
  case opened =>
    intro k s hs hk
    rw [htail] at hk
    rcases getElem?_set hs with ⟨rfl, -⟩ | ⟨-, hs⟩
    · exact absurd (hgt.1 k hk) (lt_irrefl _)
    · exact h.opened k s hs (by rw [hstack]; exact List.mem_cons_of_mem _ hk)
  case closed =>
    intro k s hs hk
    rw [htail] at hk
    rcases getElem?_set hs with ⟨-, rfl⟩ | ⟨hkt, hs⟩
    · exact le_refl _
    · have := h.closed k s hs (by rw [hstack, List.mem_cons]; exact not_or.mpr ⟨hkt, hk⟩)
      omega
  case root =>
    obtain ⟨s, hs, hparent⟩ := h.root
    exact ⟨s, closing_get_of_ne hpos.ne hs, hparent⟩
  case stack_root =>
    rw [htail]
    cases rest with
    | nil => exact absurd (by rw [hstack]; rfl) hmore
    | cons u us => rwa [hstack, List.getLast?_cons_cons] at hlast
  case stack_gt =>
    rw [htail]
    exact hgt.2
  case stack_lt =>
    intro k hk
    rw [htail] at hk
    show k < (n.regions.set t (r.close c)).length
    rw [List.length_set]
    exact h.stack_lt k (by rw [hstack]; exact List.mem_cons_of_mem _ hk)
  -- closing moves no start
  case starts =>
    intro j k s s' hjk hs hs'
    rcases getElem?_set hs with ⟨rfl, rfl⟩ | ⟨-, hold⟩
    · rcases getElem?_set hs' with ⟨rfl, -⟩ | ⟨-, hold'⟩
      · exact absurd hjk (lt_irrefl _)
      · exact h.starts j k r s' hjk hr hold'
    · rcases getElem?_set hs' with ⟨rfl, rfl⟩ | ⟨-, hold'⟩
      · exact h.starts j k s r hjk hold hr
      · exact h.starts j k s s' hjk hold hold'
  case laminar => exact h.closing_laminar ht hr hstart hlimit
  case parents => exact h.closing_parents ht hr hstart hlimit
  case leaves => exact h.closing_leaves ht hr hstart hlt hlimit

end Closing

/-! ### What the invariant says -/

/-- Regions that begin later and enclose a leaf or a region begin outside it. -/
theorem innermost (h : Nested limit front n) {p : ℕ} {q : Region} {x : Span}
    (hq : n.regions[p]? = some q) (henc : q.Encloses x) (hx : x.start < x.stop)
    (hafter : ∀ (m : ℕ) (t : Region), p < m → n.regions[m]? = some t → ¬t.Encloses x) :
    Innermost n.regions p x := by
  refine ⟨q, hq, henc, ?_⟩
  intro k r hr hrx
  rcases Nat.lt_trichotomy k p with hlt | heq | hgt
  · right
    rcases h.laminar k p r q hlt hr hq with hin | hapart
    · exact hin
    · -- `r` would have ended before `q` began
      have hr' := h.shape k r hr
      have hq' := h.starts k p r q hlt hr hq
      obtain ⟨h₁, h₂⟩ := henc
      obtain ⟨h₃, h₄⟩ := hrx
      omega
  · exact .inl heq
  · exact absurd hrx (hafter k r hgt hr)

/-- **A leaf is recorded under the smallest region around it.** -/
theorem innermost_of_leaf (h : Nested limit front n) {p : ℕ} {x : Span} (hx : (p, x) ∈ n.leaves) :
    Innermost n.regions p x := by
  obtain ⟨hlt, -, q, hq, henc, hafter⟩ := h.leaves p x hx
  apply h.innermost hq henc hlt
  rintro m t hpm ht ⟨h₁, h₂⟩
  have hstarts := (h.starts p m q t hpm hq ht).2
  have hshape := h.shape m t ht
  rcases hafter m t hpm ht with hbefore | hbehind
  · omega
  · omega

/-- **The parent of a region is the smallest region around it.** -/
theorem innermost_of_parent (h : Nested limit front n) {k : ℕ} {r : Region}
    (hr : n.regions[k]? = some r) :
    (k = 0 ∧ r.parent = none) ∨ ∃ p < k, r.parent = some p ∧ Innermost n.regions p r.outer := by
  by_cases hk : k = 0
  · left
    obtain ⟨s, hs, hparent⟩ := h.root
    subst hk
    rw [hr] at hs
    exact ⟨rfl, by rw [Option.some.inj hs]; exact hparent⟩
  · right
    obtain ⟨p, q, hparent, hpk, hq, henc, hbetween⟩ := h.parents k r hk hr
    have hself := h.shape k r hr
    have hstart := (h.starts p k q r hpk hq hr).2
    refine ⟨p, hpk, hparent, h.innermost hq henc (by omega) ?_⟩
    rintro m t hpm ht ⟨h₁, h₂⟩
    rcases Nat.lt_trichotomy m k with hlt | rfl | hgt
    · have := hbetween m t hpm hlt ht
      have := h.shape m t ht
      omega
    · obtain rfl := Option.some.inj (hr.symm.trans ht)
      omega
    · have := h.starts k m r t hgt hr ht
      omega

/-- **Two regions are nested or apart.** -/
theorem pairwise (h : Nested limit front n) : n.regions.Pairwise Region.NestedOrApart := by
  rw [List.pairwise_iff_getElem]
  intro j k hj hk hjk
  exact h.laminar j k _ _ hjk (List.getElem?_eq_getElem hj) (List.getElem?_eq_getElem hk)

end Nested
end Nest
end CudaOxide.Lib
