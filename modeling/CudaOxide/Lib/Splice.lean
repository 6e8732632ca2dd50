import Mathlib

namespace CudaOxide.Lib

/-!
# Offset maps of spliced sequences

A sequence is rewritten by replacing pieces of it.  A `Splice` says which piece of the source
became which piece of the destination; between two splices both sides advance in step (`Aligned`).
`through` carries an offset across; on a boundary that a splice leaves ambiguous, a `Side` decides.

* `through_mono`, `through_left_le_right` — the map is monotone, and the sides are ordered.
* `through_swap_left`, `through_swap_right` — there and back loses nothing of a range,
  unless a splice with an empty destination follows another splice immediately.
* `through_swap_outside` — a position outside the splices comes back to itself.

Everything is symmetric: `Splice.swap` turns a map round.
-/

/-- The half-open range `start..stop`. -/
structure Span where
  start : ℕ
  stop : ℕ
  deriving DecidableEq, Repr

/-- Which end of a piece an offset inside it goes to. -/
inductive Side where
  | left
  | right
  deriving DecidableEq, Repr

/-- The side of a span. -/
def Side.pick : Side → Span → ℕ
  | left, s => s.start
  | right, s => s.stop

/-- The piece `src` of the source became the piece `dst` of the destination. -/
structure Splice where
  src : Span
  dst : Span
  deriving DecidableEq, Repr

namespace Splice

/-- The splice in the other direction. -/
def swap (s : Splice) : Splice := ⟨s.dst, s.src⟩

@[simp] theorem swap_src (s : Splice) : s.swap.src = s.dst := rfl

@[simp] theorem swap_dst (s : Splice) : s.swap.dst = s.src := rfl

/-- Where an offset of the closed source piece goes. -/
def edge (side : Side) (s : Splice) (x : ℕ) : ℕ :=
  if s.src.start = s.src.stop then side.pick s.dst
  else if x = s.src.start then s.dst.start
  else if x = s.src.stop then s.dst.stop
  else side.pick s.dst

/-- Where an offset goes, when `x₀` and `y₀` are corresponding offsets and `x₀ ≤ x`. -/
def through (side : Side) : ℕ → ℕ → List Splice → ℕ → ℕ
  | x₀, y₀, [], x => y₀ + (x - x₀)
  | x₀, y₀, s :: ss, x =>
    if x < s.src.start then y₀ + (x - x₀)
    else if x ≤ s.src.stop then s.edge side x
    else through side s.src.stop s.dst.stop ss x

/-- A text is mapped through the first splice, or behind it. -/
theorem through_cons {side : Side} {s : Splice} {ss : List Splice} {x₀ y₀ x : ℕ} :
    through side x₀ y₀ (s :: ss) x =
      if x < s.src.start then y₀ + (x - x₀)
      else if x ≤ s.src.stop then s.edge side x
      else through side s.src.stop s.dst.stop ss x := rfl

/-- The way back through the first splice, or behind it. -/
theorem through_swap_cons {side : Side} {s : Splice} {ss : List Splice} {x₀ y₀ y : ℕ} :
    through side y₀ x₀ ((s :: ss).map swap) y =
      if y < s.dst.start then x₀ + (y - y₀)
      else if y ≤ s.dst.stop then s.swap.edge side y
      else through side s.dst.stop s.src.stop (ss.map swap) y := rfl

/-- Before the first splice both sides advance in step. -/
theorem through_before {side : Side} {ss : List Splice} {x₀ y₀ x : ℕ}
    (h : ∀ s ∈ ss, x < s.src.start) : through side x₀ y₀ ss x = y₀ + (x - x₀) := by
  cases ss with
  | nil => rfl
  | cons s ss => rw [through_cons, if_pos (h s List.mem_cons_self)]

/-- From `x₀` and `y₀` on, both sides advance in step between the splices. -/
def Aligned : ℕ → ℕ → List Splice → Prop
  | _, _, [] => True
  | x₀, y₀, s :: ss =>
    x₀ ≤ s.src.start ∧ y₀ ≤ s.dst.start ∧ s.src.start + y₀ = s.dst.start + x₀ ∧
      s.src.start ≤ s.src.stop ∧ s.dst.start ≤ s.dst.stop ∧ Aligned s.src.stop s.dst.stop ss

/-- A splice that follows another immediately has something to show. -/
def Shown (ss : List Splice) : Prop :=
  ss.IsChain fun s t => s.src.stop = t.src.start → t.dst.start < t.dst.stop

/-- `x` is the start of no spliced element. -/
def Outside (ss : List Splice) (x : ℕ) : Prop := ∀ s ∈ ss, x < s.src.start ∨ s.src.stop ≤ x

variable {side : Side} {s : Splice} {ss : List Splice} {x₀ y₀ x y : ℕ}

/-- A side lies in its span. -/
theorem pick_mem (side : Side) {d : Span} (h : d.start ≤ d.stop) :
    d.start ≤ side.pick d ∧ side.pick d ≤ d.stop := by
  cases side with
  | left => exact ⟨le_rfl, h⟩
  | right => exact ⟨h, le_rfl⟩

/-- So does the edge of a splice. -/
theorem edge_mem (side : Side) (x : ℕ) (h : s.dst.start ≤ s.dst.stop) :
    s.dst.start ≤ s.edge side x ∧ s.edge side x ≤ s.dst.stop := by
  unfold edge
  split_ifs
  · exact pick_mem side h
  · exact ⟨le_rfl, h⟩
  · exact ⟨h, le_rfl⟩
  · exact pick_mem side h

/-- Edges do not go back. -/
theorem edge_mono (h : s.dst.start ≤ s.dst.stop) (hx : s.src.start ≤ x) (hxy : x ≤ y)
    (hy : y ≤ s.src.stop) : s.edge side x ≤ s.edge side y := by
  have hpick := pick_mem side h
  unfold edge
  split_ifs <;> omega

/-- The splices of the way back are aligned. -/
theorem Aligned.swap (h : Aligned x₀ y₀ ss) : Aligned y₀ x₀ (ss.map Splice.swap) := by
  induction ss generalizing x₀ y₀ with
  | nil => trivial
  | cons s ss ih =>
    obtain ⟨hx, hy, hstep, hsrc, hdst, hrest⟩ := h
    exact ⟨hy, hx, hstep.symm, hdst, hsrc, ih hrest⟩

/-! ### Order -/

/-- No offset is mapped in front of the start. -/
theorem le_through (side : Side) (x : ℕ) (h : Aligned x₀ y₀ ss) : y₀ ≤ through side x₀ y₀ ss x := by
  induction ss generalizing x₀ y₀ with
  | nil => exact Nat.le_add_right _ _
  | cons s ss ih =>
    obtain ⟨-, hy, -, -, hdst, hrest⟩ := h
    have hedge := edge_mem side x hdst
    have hih := ih hrest
    unfold through
    split_ifs
    · omega
    · omega
    · omega

/-- No splice ends in front of the start. -/
theorem le_stop_of_mem (h : Aligned x₀ y₀ ss) (hs : s ∈ ss) : y₀ ≤ s.dst.stop := by
  induction ss generalizing x₀ y₀ with
  | nil => cases hs
  | cons t ss ih =>
    obtain ⟨-, hy, -, -, hdst, hrest⟩ := h
    rcases List.mem_cons.mp hs with rfl | hs
    · omega
    · have := ih hrest hs
      omega

/-- Up to the end of a splice, everything goes up to the end of its destination. -/
theorem through_le_of_mem (h : Aligned x₀ y₀ ss) (hs : s ∈ ss) (hx₀ : x₀ ≤ x)
    (hx : x ≤ s.src.stop) : through side x₀ y₀ ss x ≤ s.dst.stop := by
  induction ss generalizing x₀ y₀ with
  | nil => cases hs
  | cons t ss ih =>
    obtain ⟨hx', hy', hstep, hsrc, hdst, hrest⟩ := h
    have hedge := edge_mem side x hdst
    -- the place of `x` against the first splice: before it, inside it, behind it
    rcases List.mem_cons.mp hs with rfl | hs
    · unfold through
      split_ifs
      · omega
      · omega
    · have hle := le_stop_of_mem hrest hs
      unfold through
      split_ifs with h1 h2
      · omega
      · omega
      · exact ih hrest hs (by omega)

/-- **The map is monotone**: by induction on the splices, with the text in front of the first one
cut off. -/
theorem through_mono (h : Aligned x₀ y₀ ss) (hx₀ : x₀ ≤ x) (hxy : x ≤ y) :
    through side x₀ y₀ ss x ≤ through side x₀ y₀ ss y := by
  induction ss generalizing x₀ y₀ with
  | nil =>
    show y₀ + (x - x₀) ≤ y₀ + (y - x₀)
    omega
  | cons s ss ih =>
    obtain ⟨hx', hy', hstep, hsrc, hdst, hrest⟩ := h
    have hedge := edge_mem side x hdst
    have hedge' := edge_mem side y hdst
    have hrest' := le_through side y hrest
    -- `x` before the first splice, and then `y` anywhere
    unfold through
    by_cases h1 : x < s.src.start
    · rw [if_pos h1]
      split_ifs
      · omega
      · omega
      · omega
    by_cases h2 : x ≤ s.src.stop
    · rw [if_neg h1, if_pos h2, if_neg (by omega)]
      split_ifs with h3
      · exact edge_mono hdst (by omega) hxy h3
      · omega
    · rw [if_neg h1, if_neg h2, if_neg (by omega), if_neg (by omega)]
      exact ih hrest (by omega)

/-- The left side is not right of the right one. -/
theorem through_left_le_right (h : Aligned x₀ y₀ ss) :
    through .left x₀ y₀ ss x ≤ through .right x₀ y₀ ss x := by
  induction ss generalizing x₀ y₀ with
  | nil => exact le_rfl
  | cons s ss ih =>
    obtain ⟨-, -, -, -, hdst, hrest⟩ := h
    unfold through
    split_ifs
    · exact le_rfl
    · unfold edge Side.pick
      split_ifs <;> omega
    · exact ih hrest

/-- The offsets behind the last splice. -/
def endpoint : ℕ → ℕ → List Splice → ℕ × ℕ
  | x₀, y₀, [] => (x₀, y₀)
  | _, _, s :: ss => endpoint s.src.stop s.dst.stop ss

/-- The end is not in front of the start. -/
theorem le_endpoint (h : Aligned x₀ y₀ ss) :
    x₀ ≤ (endpoint x₀ y₀ ss).1 ∧ y₀ ≤ (endpoint x₀ y₀ ss).2 := by
  induction ss generalizing x₀ y₀ with
  | nil => exact ⟨le_rfl, le_rfl⟩
  | cons s ss ih =>
    obtain ⟨hx, hy, -, hsrc, hdst, hrest⟩ := h
    exact ⟨(hx.trans hsrc).trans (ih hrest).1, (hy.trans hdst).trans (ih hrest).2⟩

/-- A splice of the list has its sides in order, and ends inside the text. -/
theorem Aligned.of_mem (h : Aligned x₀ y₀ ss) (hs : s ∈ ss) :
    s.src.start ≤ s.src.stop ∧ s.dst.start ≤ s.dst.stop ∧
      s.src.stop ≤ (endpoint x₀ y₀ ss).1 := by
  induction ss generalizing x₀ y₀ with
  | nil => cases hs
  | cons t ss ih =>
    obtain ⟨-, -, -, hsrc, hdst, hrest⟩ := h
    rcases List.mem_cons.mp hs with rfl | hs
    · exact ⟨hsrc, hdst, (le_endpoint hrest).1⟩
    · exact ih hrest hs

@[simp] theorem endpoint_swap :
    endpoint y₀ x₀ (ss.map swap) = (endpoint x₀ y₀ ss).swap := by
  induction ss generalizing x₀ y₀ with
  | nil => rfl
  | cons s ss ih => exact ih

/-- Behind the last splice, nothing goes further than the common rest. -/
theorem through_le_endpoint (h : Aligned x₀ y₀ ss) (hx : (endpoint x₀ y₀ ss).1 ≤ x) :
    through side x₀ y₀ ss x ≤ (endpoint x₀ y₀ ss).2 + (x - (endpoint x₀ y₀ ss).1) := by
  induction ss generalizing x₀ y₀ with
  | nil => exact le_rfl
  | cons s ss ih =>
    obtain ⟨-, -, -, hsrc, hdst, hrest⟩ := h
    have hend := le_endpoint hrest
    have hedge := edge_mem side x hdst
    have hih := ih hrest hx
    change (endpoint s.src.stop s.dst.stop ss).1 ≤ x at hx
    rw [through_cons]
    show _ ≤ (endpoint s.src.stop s.dst.stop ss).2 + _
    split_ifs
    · omega
    · omega
    · exact hih

/-! ### There and back -/

/-- Behind a splice everything lands behind its destination, unless a splice with an empty
destination follows immediately. -/
theorem lt_through (h : Aligned x₀ y₀ ss) (hx : x₀ < x)
    (hhead : ∀ s ∈ ss.head?, x₀ = s.src.start → s.dst.start < s.dst.stop)
    (hside : side = .right ∨ Outside ss x) : y₀ < through side x₀ y₀ ss x := by
  cases ss with
  | nil =>
    show y₀ < y₀ + (x - x₀)
    omega
  | cons s ss =>
    obtain ⟨hx', hy', hstep, hsrc, hdst, hrest⟩ := h
    have hshown := hhead s rfl
    have hedge := edge_mem side x hdst
    have hle := le_through side x hrest
    -- the gap in front keeps its length, so it moves both ends alike
    unfold through
    by_cases h1 : x < s.src.start
    · rw [if_pos h1]
      omega
    by_cases h2 : x ≤ s.src.stop
    · rw [if_neg h1, if_pos h2]
      -- an immediate splice must show something, or nothing lies before its end
      by_cases htouch : x₀ = s.src.start
      · -- inside an immediate splice, only its end can be meant
        have hpos := hshown htouch
        rcases hside with rfl | hout
        · have hright : Side.right.pick s.dst = s.dst.stop := rfl
          unfold edge
          split_ifs <;> omega
        · have hend := hout s List.mem_cons_self
          unfold edge
          split_ifs <;> omega
      · omega
    · rw [if_neg h1, if_neg h2]
      omega

/-- The head of a list that shows its insertions. -/
theorem Shown.head (h : Shown (s :: ss)) :
    ∀ t ∈ ss.head?, s.src.stop = t.src.start → t.dst.start < t.dst.stop := by
  intro t ht
  cases ss with
  | nil => cases ht
  | cons u ss =>
    cases ht
    exact (List.isChain_cons_cons.mp h).1

/-- The tail of one. -/
theorem Shown.tail (h : Shown (s :: ss)) : Shown ss := by
  cases ss with
  | nil => exact .nil
  | cons u ss => exact (List.isChain_cons_cons.mp h).2

/-- The left edge, there and back. -/
theorem edge_swap_left (hx : s.src.start ≤ x) :
    s.swap.edge .left (s.edge .left x) ≤ x := by
  have hleft : ∀ d, Side.left.pick d = d.start := fun _ => rfl
  unfold edge
  simp only [swap_src, swap_dst, hleft]
  split_ifs <;> omega

/-- The right edge, there and back. -/
theorem edge_swap_right (hx : x ≤ s.src.stop) :
    x ≤ s.swap.edge .right (s.edge .right x) := by
  have hright : ∀ d, Side.right.pick d = d.stop := fun _ => rfl
  unfold edge
  simp only [swap_src, swap_dst, hright]
  split_ifs <;> omega

/-- There and back on the left goes back, never forward. -/
theorem through_swap_left (h : Aligned x₀ y₀ ss) (hx : x₀ ≤ x) :
    through .left y₀ x₀ (ss.map swap) (through .left x₀ y₀ ss x) ≤ x := by
  induction ss generalizing x₀ y₀ with
  | nil =>
    show x₀ + (y₀ + (x - x₀) - y₀) ≤ x
    omega
  | cons s ss ih =>
    obtain ⟨hx', hy', hstep, hsrc, hdst, hrest⟩ := h
    -- a gap goes back to itself
    rw [through_swap_cons, through_cons]
    by_cases h1 : x < s.src.start
    · rw [if_pos h1, if_pos (by omega)]
      omega
    by_cases h2 : x ≤ s.src.stop
    · have hedge := edge_mem .left x hdst
      rw [if_neg h1, if_pos h2, if_neg (by omega), if_pos hedge.2]
      exact edge_swap_left (by omega)
    · have hle := le_through .left x hrest
      rw [if_neg h1, if_neg h2, if_neg (by omega)]
      -- behind the splice, the image may still touch the end of the splice
      split_ifs
      · have hedge : s.swap.edge .left (through .left s.src.stop s.dst.stop ss x) ≤ s.src.stop :=
          (edge_mem (s := s.swap) .left _ hsrc).2
        omega
      · exact ih hrest (by omega)

/-- There and back on the right goes forward, never back. -/
theorem through_swap_right (h : Aligned x₀ y₀ ss) (hshown : Shown ss) (hx : x₀ ≤ x) :
    x ≤ through .right y₀ x₀ (ss.map swap) (through .right x₀ y₀ ss x) := by
  induction ss generalizing x₀ y₀ with
  | nil =>
    show x ≤ x₀ + (y₀ + (x - x₀) - y₀)
    omega
  | cons s ss ih =>
    obtain ⟨hx', hy', hstep, hsrc, hdst, hrest⟩ := h
    rw [through_swap_cons, through_cons]
    by_cases h1 : x < s.src.start
    · rw [if_pos h1, if_pos (by omega)]
      omega
    by_cases h2 : x ≤ s.src.stop
    · have hedge := edge_mem .right x hdst
      rw [if_neg h1, if_pos h2, if_neg (by omega), if_pos hedge.2]
      exact edge_swap_right h2
    · have hlt := lt_through hrest (not_le.mp h2) hshown.head (.inl rfl)
      rw [if_neg h1, if_neg h2, if_neg (by omega), if_neg (by omega)]
      exact ih hrest hshown.tail (by omega)

/-- What is not spliced comes back to itself. -/
theorem through_swap_outside (h : Aligned x₀ y₀ ss) (hshown : Shown ss) (hx : x₀ ≤ x)
    (hout : Outside ss x) :
    through .right y₀ x₀ (ss.map swap) (through side x₀ y₀ ss x) = x := by
  induction ss generalizing x₀ y₀ with
  | nil =>
    show x₀ + (y₀ + (x - x₀) - y₀) = x
    omega
  | cons s ss ih =>
    obtain ⟨hx', hy', hstep, hsrc, hdst, hrest⟩ := h
    have hout' : Outside ss x := fun t ht => hout t (List.mem_cons_of_mem _ ht)
    have hs := hout s List.mem_cons_self
    rw [through_swap_cons, through_cons]
    by_cases h1 : x < s.src.start
    · rw [if_pos h1, if_pos (by omega)]
      omega
    by_cases h2 : x ≤ s.src.stop
    · have hedge := edge_mem side x hdst
      rw [if_neg h1, if_pos h2, if_neg (by omega), if_pos hedge.2]
      -- outside every splice, only its two ends can be meant
      have hright : ∀ d, Side.right.pick d = d.stop := fun _ => rfl
      have hpick := pick_mem side hdst
      unfold edge
      simp only [swap_src, swap_dst, hright]
      split_ifs <;> omega
    · have hlt : s.dst.stop < through side s.src.stop s.dst.stop ss x :=
        lt_through hrest (not_le.mp h2) hshown.head (.inr hout')
      rw [if_neg h1, if_neg h2, if_neg (by omega), if_neg (by omega)]
      exact ih hrest hshown.tail (by omega) hout'

/-- The splices come one after the other, and where they touch neither has an empty source. -/
def Separated (ss : List Splice) : Prop :=
  ss.Pairwise fun s t => s.src.stop ≤ t.src.start ∧
    (s.src.stop = t.src.start → s.src.start < s.src.stop ∧ t.src.start < t.src.stop)

/-- Apart, the splices of the way back show their insertions. -/
theorem Separated.shown_swap (hsep : Separated ss) (h : Aligned x₀ y₀ ss) :
    Shown (ss.map swap) := by
  induction ss generalizing x₀ y₀ with
  | nil => exact .nil
  | cons s ss ih =>
    obtain ⟨hhead, htail⟩ := List.pairwise_cons.mp hsep
    obtain ⟨-, -, -, -, -, hrest⟩ := h
    have hih := ih htail hrest
    cases ss with
    | nil => exact .singleton _
    | cons t ss =>
      refine List.isChain_cons_cons.mpr ⟨?_, hih⟩
      intro htouch
      obtain ⟨hle, hboth⟩ := hhead t List.mem_cons_self
      obtain ⟨-, -, hstep, -, -, -⟩ := hrest
      change s.dst.stop = t.dst.start at htouch
      show t.src.start < t.src.stop
      exact (hboth (by omega)).2

/-- Where two splices touch, their destinations do. -/
theorem Separated.dst_touch {t : Splice} (hsep : Separated ss) (h : Aligned x₀ y₀ ss)
    (hs : s ∈ ss) (ht : t ∈ ss) (htouch : s.src.stop = t.src.start)
    (hpos : t.src.start < t.src.stop) (hord : s.src.start ≤ s.src.stop) :
    t.dst.start = s.dst.stop := by
  induction ss generalizing x₀ y₀ with
  | nil => cases hs
  | cons u ss ih =>
    obtain ⟨hhead, htail⟩ := List.pairwise_cons.mp hsep
    obtain ⟨-, -, -, -, -, hrest⟩ := h
    rcases List.mem_cons.mp hs with rfl | hs'
    · rcases List.mem_cons.mp ht with rfl | ht
      · omega
      · -- nothing fits between them, so `t` is the next one
        cases ss with
        | nil => cases ht
        | cons v ss =>
          obtain ⟨-, -, hstep, hv, -, -⟩ := hrest
          rcases List.mem_cons.mp ht with rfl | ht
          · omega
          · have hsv := hhead v List.mem_cons_self
            have hvt := (List.pairwise_cons.mp htail).1 t ht
            have := hsv.2 (by omega)
            omega
    · rcases List.mem_cons.mp ht with rfl | ht'
      · have := (hhead s hs').1
        omega
      · exact ih htail hrest hs' ht'

/-- A splice with an empty destination behind another loses its source on the way back. -/
theorem through_swap_hidden {t : Splice} (h : Aligned x₀ y₀ ss) (hs : s ∈ ss) (ht : t ∈ ss)
    (hx₀ : x₀ ≤ t.src.stop) (htouch : t.dst.stop = s.dst.stop) (hlt : s.src.stop < t.src.stop) :
    through .right y₀ x₀ (ss.map swap) (through .right x₀ y₀ ss t.src.stop) < t.src.stop := by
  have hfirst : through .right x₀ y₀ ss t.src.stop ≤ s.dst.stop :=
    htouch ▸ through_le_of_mem h ht hx₀ le_rfl
  have hback : through .right y₀ x₀ (ss.map swap) (through .right x₀ y₀ ss t.src.stop) ≤
      s.src.stop :=
    through_le_of_mem (s := s.swap) h.swap (List.mem_map_of_mem hs) (le_through _ _ h) hfirst
  exact hback.trans_lt hlt

end Splice

end CudaOxide.Lib
