import CudaOxide.Cute.Alignment
import CudaOxide.Cute.LeftInverse
import CudaOxide.Cute.TileToShape

namespace CudaOxide.Cute

open Lib Strided

/-!
# The algebra in a build without overflow checks

The layout algebra computes with plain `i64` operators, so its results depend on the build.  The
other modules prove their theorems about a build with checks; here the two builds are compared.

* `crd2idx_agrees`, `coalesce_agrees` — what a build with checks returns, every build returns.
* `complement_agrees`, `rightInverse_agrees`, `leftInverse_agrees`, `makeLayoutTv_agrees`,
  `zippedDivide_agrees`, `tileToShape_agrees`, `maxAlignment_agrees` — the same for the functions
  of the algebra, so that their theorems hold in every build as long as no operation overflows.
  Where one does, a build without checks can return a wrong result (`complement_wraps`,
  `leftInverse_wraps`, `maxAlignment_wraps`).
-/

variable {ε : Type} [Build]

/-! ### What a build with checks returns, every build returns -/

section Agrees

open Run

/-- A sum that a build with checks returns is the sum of every build. -/
theorem add_agrees (a b : ℤ) : Agrees (@I64.add ε .checked a b) (I64.add a b) :=
  I64.exact_agrees _

/-- The same for differences. -/
theorem sub_agrees (a b : ℤ) : Agrees (@I64.sub ε .checked a b) (I64.sub a b) :=
  I64.exact_agrees _

/-- The same for products. -/
theorem mul_agrees (a b : ℤ) : Agrees (@I64.mul ε .checked a b) (I64.mul a b) :=
  I64.exact_agrees _

/-- The same for absolute values. -/
theorem abs_agrees (a : ℤ) : Agrees (@I64.abs ε .checked a) (I64.abs a) :=
  I64.exact_agrees _

mutual

/-- By recursion over the tree, which both builds walk alike. -/
theorem size_agrees : (t : IntTuple) → Agrees (@IntTuple.size ε .checked t) t.size
  | .leaf v => .refl (.ok v)
  | .tuple ts => sizeFrom_agrees 1 ts

theorem sizeFrom_agrees (acc : ℤ) : (ts : List IntTuple) →
    Agrees (@IntTuple.sizeFrom ε .checked acc ts) (IntTuple.sizeFrom acc ts)
  | [] => .refl (.ok acc)
  | t :: ts => (size_agrees t).bind fun _ => (mul_agrees _ _).bind fun acc => sizeFrom_agrees acc ts

end

mutual

/-- The evaluator makes its recursive calls and its sums in the same order in both builds. -/
theorem crd2idx_agrees : (s c d : IntTuple) → Agrees (@crd2idx ε .checked c s d) (crd2idx c s d)
  | .leaf _, .leaf _, .leaf _ => (Agrees.debugAssert _).bind fun _ => mul_agrees _ _
  | .tuple ss, .tuple cs, .tuple ds =>
    (Agrees.debugAssert _).bind fun _ => crd2idxTuple_agrees ss cs ds 0
  | .tuple ss, .leaf c, .tuple ds =>
    (Agrees.debugAssert _).bind fun _ => crd2idxFlat_agrees ss ds c 0
  | .leaf _, .tuple _, _ => .refl _
  | .leaf _, .leaf _, .tuple _ => .refl _
  | .tuple _, .tuple _, .leaf _ => .refl _
  | .tuple _, .leaf _, .leaf _ => .refl _

theorem crd2idxTuple_agrees : (ss cs ds : List IntTuple) → (sum : ℤ) →
    Agrees (@crd2idxTuple ε .checked sum cs ss ds) (crd2idxTuple sum cs ss ds)
  | s :: ss, c :: cs, d :: ds, sum =>
    (crd2idx_agrees s c d).bind fun _ => (add_agrees _ _).bind fun sum =>
      crd2idxTuple_agrees ss cs ds sum
  | [], _, _, _ => by simp [crd2idxTuple]
  | _ :: _, [], _, _ => .refl _
  | _ :: _, _ :: _, [], _ => .refl _

theorem crd2idxFlat_agrees : (ss ds : List IntTuple) → (rem idx : ℤ) →
    Agrees (@crd2idxFlat ε .checked rem idx ss ds) (crd2idxFlat rem idx ss ds)
  | s :: ss, d :: ds, rem, idx =>
    (size_agrees s).bind fun sz => .bind (.refl _) fun c =>
      (crd2idx_agrees s (.leaf c) d).bind fun _ => (add_agrees _ _).bind fun idx =>
        .bind (.refl (I64.div rem sz)) fun rem => crd2idxFlat_agrees ss ds rem idx
  | [], _, _, _ => by simp [crd2idxFlat]
  | _ :: _, [], _, _ => .refl _

end

/-- The span of a layout in both builds. -/
theorem cosize_agrees (l : Layout) : Agrees (@Layout.cosize ε .checked l) l.cosize :=
  (size_agrees l.shape).bind fun n => .ite (.refl (.ok 0)) <|
    (crd2idx_agrees l.shape (.leaf (n - 1)) l.stride).bind fun _ => add_agrees _ _

/-- The loop of `coalesce`: by induction on the modes that are left. -/
theorem coalesceFrom_agrees (ms out : List (ℤ × ℤ)) :
    Agrees (@coalesceFrom ε .checked out ms) (coalesceFrom out ms) := by
  induction ms generalizing out with
  | nil => exact .refl _
  | cons m ms ih =>
    unfold coalesceFrom
    refine .ite (ih out) ?_
    cases out with
    | nil => exact ih _
    | cons last rest =>
      refine (mul_agrees _ _).bind fun _ => .ite ?_ (ih _)
      exact (mul_agrees _ _).bind fun _ => ih _

/-- What `coalesce` returns with checks, it returns without. -/
theorem coalesce_agrees (l : Layout) : Agrees (@coalesce ε .checked l) (coalesce l) :=
  (coalesceFrom_agrees l.flatModes []).bind fun _ => .refl _

/-- The rounded quotient. -/
theorem ceilDiv_agrees (a b : ℤ) : Agrees (@ceilDiv .checked ε a b) (ceilDiv a b) :=
  (add_agrees a b).bind fun _ => (sub_agrees _ _).bind fun _ => .refl _

/-- The strides of a compact layout, by induction on its extents. -/
theorem runningStrides_agrees (ss : List ℤ) (p : ℤ) :
    Agrees (@Layout.runningStrides ε .checked p ss) (Layout.runningStrides p ss) := by
  induction ss generalizing p with
  | nil => exact .refl _
  | cons s ss ih => exact (mul_agrees _ _).bind fun _ => (ih _).bind fun _ => .refl _

/-! ### The functions of the algebra -/

/-- The loop of `compose_int`, by induction on the modes that are left. -/
theorem composeFrom_agrees (ms : List (ℤ × ℤ)) (n q : ℤ) (out : List (ℤ × ℤ)) :
    Agrees (@composeFrom .checked n q out ms) (composeFrom n q out ms) := by
  induction ms generalizing n q out with
  | nil => exact .refl _
  | cons m ms ih =>
    cases ms with
    | nil =>
      unfold composeFrom
      refine .ite ((mul_agrees _ _).bind fun _ => .refl _) (.ite ?_ (coalesce_agrees _))
      exact (mul_agrees _ _).bind fun _ => coalesce_agrees _
    | cons m' ms =>
      unfold composeFrom
      refine .bind (.refl _) fun r => (abs_agrees q).bind fun absq => .ite (.refl _) ?_
      refine (ceilDiv_agrees _ _).bind fun _ => (ceilDiv_agrees _ _).bind fun _ => ?_
      refine (mul_agrees _ _).bind fun _ => .ite (ih _ _ _) (.bind (.refl _) fun _ => ?_)
      refine .ite (.refl _) ((mul_agrees _ _).bind fun _ => ?_)
      exact .bind (.refl _) fun _ => ih _ _ _

/-- The same of the composition with one integer. -/
theorem composeInt_agrees (a : Layout) (n q : ℤ) :
    Agrees (@composeInt .checked a n q) (composeInt a n q) := by
  unfold composeInt
  refine .ite (.refl _) ((coalesce_agrees a).bind fun ac => ?_)
  split
  · exact (mul_agrees _ _).bind fun _ => .refl _
  · exact composeFrom_agrees _ _ _ _

mutual

/-- The same of the composition with a tree, leaf by leaf. -/
theorem compositionTree_agrees (a : Layout) : (s d : IntTuple) →
    Agrees (@compositionTree .checked a s d) (compositionTree a s d)
  | .tuple bs, .tuple bd => (compositionAll_agrees a bs bd).bind fun _ => .refl _
  | .leaf s, .leaf d => composeInt_agrees a s d
  | .tuple _, .leaf _ => .refl _
  | .leaf _, .tuple _ => .refl _

theorem compositionAll_agrees (a : Layout) : (bs bd : List IntTuple) →
    Agrees (@compositionAll .checked a bs bd) (compositionAll a bs bd)
  | s :: bs, d :: bd => (compositionTree_agrees a s d).bind fun _ =>
    (compositionAll_agrees a bs bd).bind fun _ => .refl _
  | [], _ => by simp [compositionAll]
  | _ :: _, [] => .refl _

end

/-- The loop of `complement`. -/
theorem complementFrom_agrees (ms : List (ℤ × ℤ)) (hi p : ℤ) :
    Agrees (@complementFrom .checked hi p ms) (complementFrom hi p ms) := by
  induction ms generalizing p with
  | nil => exact .refl _
  | cons m ms ih =>
    cases ms with
    | nil =>
      refine .bind (.refl _) fun r => .ite (.refl _) (.bind (.refl _) fun gap => ?_)
      exact (mul_agrees _ _).bind fun _ => (ceilDiv_agrees _ _).bind fun _ => .refl _
    | cons m' ms =>
      refine .bind (.refl _) fun r => .ite (.refl _) (.bind (.refl _) fun gap => ?_)
      exact (mul_agrees _ _).bind fun _ => (ih _).bind fun _ => .refl _

/-- **`complement` in every build.** -/
theorem complement_agrees (l : Layout) (hi : ℤ) :
    Agrees (@complement .checked l hi) (complement l hi) := by
  refine (coalesce_agrees _).bind fun f => .ite ?_ ?_
  · refine .bind ?_ fun all => coalesce_agrees all
    exact (runningStrides_agrees _ _).bind fun _ => .refl _
  · exact (complementFrom_agrees _ _ _).bind fun _ => coalesce_agrees _

/-- The loop of `right_inverse`. -/
theorem consumeChain_agrees (dsa : List (ℤ × ℤ × ℤ)) (current : ℤ) :
    Agrees (@consumeChain .checked current dsa) (consumeChain current dsa) := by
  induction dsa generalizing current with
  | nil => exact .refl _
  | cons e dsa ih =>
    refine .ite (ih _) (.ite (.refl _) ?_)
    exact (mul_agrees _ _).bind fun _ => (ih _).bind fun _ => .refl _

/-- What `right_inverse` returns with checks, it returns without. -/
theorem rightInverse_agrees (a : Layout) :
    Agrees (@rightInverse .checked a) (rightInverse a) := by
  refine (coalesce_agrees a).bind fun ac => .ite (.refl _) ?_
  refine (runningStrides_agrees _ _).bind fun _ => ?_
  exact (consumeChain_agrees _ _).bind fun _ => coalesce_agrees _

/-- **`left_inverse` in every build.** -/
theorem leftInverse_agrees (a : Layout) : Agrees (@leftInverse .checked a) (leftInverse a) :=
  (cosize_agrees a).bind fun hi => (complement_agrees a hi).bind fun _ => rightInverse_agrees _

/-- A division is a complement and a composition. -/
theorem logicalDivide_agrees (a b : Layout) :
    Agrees (@logicalDivide .checked a b) (logicalDivide a b) :=
  (size_agrees a.shape).bind fun n => (complement_agrees b n).bind fun _ =>
    compositionTree_agrees a _ _

/-- **`max_alignment` in every build.** -/
theorem maxAlignment_agrees (l : Layout) :
    Agrees (@maxAlignment .checked l) (maxAlignment l) := by
  refine .ite (.refl _) (.ite (.refl _) ?_)
  refine (coalesce_agrees l).bind fun flat => (rightInverse_agrees flat).bind fun inverse => ?_
  refine (logicalDivide_agrees flat inverse).bind fun permuted => ?_
  split
  · exact (size_agrees _).bind fun _ => .refl _
  · exact .refl _

/-- A vector width is read off a division by the right inverse. -/
theorem ComposedLayout.maxAlignment_agrees (l : ComposedLayout) :
    Agrees (@maxAlignment .checked l) l.maxAlignment :=
  (Cute.maxAlignment_agrees l.outer).bind fun _ => .refl _

/-- A product is a complement and a composition. -/
theorem logicalProduct_agrees (a b : Layout) :
    Agrees (@logicalProduct .checked a b) (logicalProduct a b) := by
  refine (size_agrees a.shape).bind fun size => (cosize_agrees b).bind fun cosize => ?_
  refine (mul_agrees size cosize).bind fun hi => (complement_agrees a hi).bind fun comp => ?_
  exact (compositionTree_agrees comp _ _).bind fun _ => .refl _

/-- The modes of a zipped product are paired without arithmetic. -/
theorem zipPairs_agrees (blockFirst : Bool) (block reps : List Layout) :
    Agrees (@zipPairs .checked blockFirst block reps) (zipPairs blockFirst block reps) := by
  induction block generalizing reps with
  | nil => simp [zipPairs]
  | cons bm block ih =>
    cases reps with
    | nil => exact .refl _
    | cons rm reps => exact (coalesce_agrees _).bind fun _ => (ih reps).bind fun _ => .refl _

/-- What a zipped product returns with checks, it returns without. -/
theorem zippedProduct_agrees (a b : Layout) (blockFirst : Bool) :
    Agrees (@zippedProduct .checked a b blockFirst) (zippedProduct a b blockFirst) := by
  refine (logicalProduct_agrees _ _).bind fun lp => ?_
  split
  · exact .ite (.refl _) ((zipPairs_agrees _ _ _).bind fun _ => .refl _)
  · exact .refl _

/-- The sizes of the modes. -/
theorem modeSizes_agrees (ms : List Layout) :
    Agrees (@modeSizes .checked ms) (modeSizes ms) := by
  induction ms with
  | nil => exact .refl _
  | cons m ms ih => exact (size_agrees m.shape).bind fun _ => ih.bind fun _ => .refl _

/-- **`make_layout_tv` in every build.** -/
theorem makeLayoutTv_agrees (thr val : Layout) :
    Agrees (@makeLayoutTv .checked thr val) (makeLayoutTv thr val) := by
  refine (zippedProduct_agrees thr val false).bind fun layoutMn => ?_
  refine (modeSizes_agrees _).bind fun tilerMn => (rightInverse_agrees layoutMn).bind fun inv => ?_
  refine (size_agrees thr.shape).bind fun t => (size_agrees val.shape).bind fun v => ?_
  refine .bind ?_ fun _ => .refl _
  refine .bind ?_ fun c => compositionTree_agrees inv _ _
  exact (runningStrides_agrees _ _).bind fun _ => .refl _

/-- The division of every mode. -/
theorem divideModes_agrees (modes : List Layout) (ts : List ℤ) :
    Agrees (@divideModes .checked modes ts) (divideModes modes ts) := by
  induction modes generalizing ts with
  | nil => simp [divideModes]
  | cons mode modes ih =>
    cases ts with
    | nil => exact .refl _
    | cons t ts =>
      refine (logicalDivide_agrees _ _).bind fun divided => ?_
      split
      · exact (ih ts).bind fun _ => .refl _
      · exact .refl _

/-- **`zipped_divide` in every build.** -/
theorem zippedDivide_agrees (a : Layout) (tileShape : List ℤ) :
    Agrees (@zippedDivide .checked a tileShape) (zippedDivide a tileShape) :=
  .bind (.refl _) fun _ => (divideModes_agrees _ _).bind fun _ => .refl _

/-- **`tile_to_shape` in every build.** -/
theorem tileToShape_agrees (atom : Layout) (target : List ℤ) (order : List ℕ) :
    Agrees (@tileToShape .checked atom target order) (tileToShape atom target order) := by
  refine .bind (.refl _) fun _ => .bind (.refl _) fun reps => .bind (.refl _) fun strides => ?_
  exact .bind (.refl _) fun _ => (logicalProduct_agrees _ _).bind fun _ => .refl _

end Agrees

end CudaOxide.Cute
