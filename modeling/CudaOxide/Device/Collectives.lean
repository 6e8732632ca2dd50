import CudaOxide.Lib.Exchange

/-!
# Reductions and scans of a warp

`warp_reduce` and `warp_scan` of a tile, and the scan of the live lanes of a partial warp
(`cuda-device/src/cooperative_groups.rs`).  All lanes of a group take part in every shuffle, so a
collective maps the values of the lanes to the values of the lanes.

* `ReduceOp` — a commutative monoid; `sum`, `minU`, … are those of the source, on the integers.
* `WarpTile` — the shuffles of a tile, which do not leave it.
* `warpReduce_eq`, `warpScan_eq`, `scanContiguousWarpPrefix_eq` — what the lanes receive.
-/

namespace CudaOxide.Device

open Lib

variable {T : Type}

/-! ### The operations -/

/-- The values of the first `n` lanes, combined in order. -/
def foldLanes (combine : T → T → T) (identity : T) (v : ℕ → T) (n : ℕ) : T :=
  (List.range n).foldl (fun acc j => combine acc (v j)) identity

/-- `ReduceOp<T>` -/
structure ReduceOp (T : Type) where
  identity : T
  combine : T → T → T
  combine_assoc : ∀ a b c, combine (combine a b) c = combine a (combine b c)
  combine_comm : ∀ a b, combine a b = combine b a
  identity_combine : ∀ a, combine identity a = a
  /-- `redux.sync`, where the operation has a full-warp form and the target has the instruction -/
  redux : Option ((ℕ → T) → T)
  redux_eq : ∀ instruction ∈ redux, ∀ v, instruction v = foldLanes combine identity v 32

namespace ReduceOp

/-- The fold over the first `n` values. -/
def fold (op : ReduceOp T) (v : ℕ → T) (n : ℕ) : T := foldLanes op.combine op.identity v n

/-- The operation as a multiplication. -/
abbrev commMonoid (op : ReduceOp T) : CommMonoid T where
  mul := op.combine
  one := op.identity
  mul_assoc := op.combine_assoc
  mul_comm := op.combine_comm
  one_mul := op.identity_combine
  mul_one a := (op.combine_comm a op.identity).trans (op.identity_combine a)

/-- The operation on a target that has the instruction. -/
def withRedux (op : ReduceOp T) : ReduceOp T where
  __ := op
  redux := some fun v => op.fold v 32
  redux_eq := by
    rintro _ ⟨⟩ v
    rfl

/-- Wrapping addition, of signed and unsigned integers. -/
def sum (w : ℕ) : ReduceOp (BitVec w) where
  identity := 0
  combine := (· + ·)
  combine_assoc := BitVec.add_assoc
  combine_comm := BitVec.add_comm
  identity_combine := BitVec.zero_add
  redux := none
  redux_eq := by simp

/-- `if a < b { a } else { b }`, in the order of `key`, with a greatest element. -/
def least (key : T → ℤ) (hinj : Function.Injective key) (top : T) (htop : ∀ a, key a ≤ key top) :
    ReduceOp T where
  identity := top
  combine a b := if key a < key b then a else b
  combine_assoc a b c := by split_ifs <;> first | rfl | omega
  combine_comm a b := by
    split_ifs with hab hba hba
    · exact absurd hab hba.not_gt
    · rfl
    · rfl
    · exact hinj (le_antisymm (not_lt.mp hba) (not_lt.mp hab)).symm
  identity_combine a := if_neg (htop a).not_gt
  redux := none
  redux_eq := by simp

/-- The minimum of unsigned numbers. -/
def minU (w : ℕ) : ReduceOp (BitVec w) :=
  least (fun a => a.toNat) (fun _ _ h => BitVec.eq_of_toNat_eq (Int.ofNat_inj.mp h))
    (BitVec.allOnes w)
    fun a => by
      have hlt := a.isLt
      rw [BitVec.toNat_allOnes]
      omega

/-- The maximum of unsigned numbers. -/
def maxU (w : ℕ) : ReduceOp (BitVec w) :=
  least (fun a => -a.toNat) (fun _ _ h => BitVec.eq_of_toNat_eq (Int.ofNat_inj.mp (neg_inj.mp h))) 0
    fun a => by
      rw [BitVec.ofNat_eq_ofNat, BitVec.toNat_ofNat, Nat.zero_mod]
      omega

/-- The minimum of signed numbers. -/
def minS (w : ℕ) : ReduceOp (BitVec w) :=
  least BitVec.toInt (fun _ _ h => BitVec.eq_of_toInt_eq h) (BitVec.intMax w) fun a => by
    rw [BitVec.toInt_intMax]
    exact BitVec.toInt_le

/-- The maximum of signed numbers. -/
def maxS (w : ℕ) (hw : 0 < w) : ReduceOp (BitVec w) :=
  least (fun a => -a.toInt) (fun _ _ h => BitVec.eq_of_toInt_eq (neg_inj.mp h)) (BitVec.intMin w)
    fun a => by
      rw [BitVec.toInt_intMin_of_pos hw]
      exact neg_le_neg (BitVec.le_toInt a)

/-- The conjunction of bits. -/
def bitAnd (w : ℕ) : ReduceOp (BitVec w) where
  identity := BitVec.allOnes w
  combine := (· &&& ·)
  combine_assoc := BitVec.and_assoc
  combine_comm := BitVec.and_comm
  identity_combine _ := BitVec.allOnes_and
  redux := none
  redux_eq := by simp

/-- The disjunction of bits. -/
def bitOr (w : ℕ) : ReduceOp (BitVec w) where
  identity := 0
  combine := (· ||| ·)
  combine_assoc := BitVec.or_assoc
  combine_comm := BitVec.or_comm
  identity_combine _ := BitVec.zero_or
  redux := none
  redux_eq := by simp

/-- The exclusive disjunction of bits. -/
def bitXor (w : ℕ) : ReduceOp (BitVec w) where
  identity := 0
  combine := (· ^^^ ·)
  combine_assoc := BitVec.xor_assoc
  combine_comm := BitVec.xor_comm
  identity_combine _ := BitVec.zero_xor
  redux := none
  redux_eq := by simp

end ReduceOp

/-! ### The tiles of a warp -/

/-- `shfl.sync.bfly` -/
def shuffleXorSync (v : ℕ → T) (laneMask lane : ℕ) : T := v (lane ^^^ (laneMask &&& 31))

/-- `shfl.sync.up`: without a lane to read from, a lane reads its own value. -/
def shuffleUpSync (v : ℕ → T) (delta lane : ℕ) : T :=
  if delta &&& 31 ≤ lane then v (lane - (delta &&& 31)) else v lane

/-- `WarpTile<N>`, with the assertion of `tiled_partition`. -/
structure WarpTile where
  size : ℕ
  valid : size = 1 ∨ size = 2 ∨ size = 4 ∨ size = 8 ∨ size = 16 ∨ size = 32

namespace WarpTile

variable (W : WarpTile)

/-- `thread_rank`: the lane's number in its tile. -/
def threadRank (lane : ℕ) : ℕ := lane &&& (W.size - 1)

/-- The mask, or zero where the partner lies in another tile. -/
def xorOperandOrSelf (lane laneMask : ℕ) : ℕ :=
  if W.size = 32 ∨ W.threadRank lane ^^^ (laneMask &&& 31) < W.size then laneMask else 0

/-- The delta, or zero where the partner lies in another tile. -/
def upOperandOrSelf (lane delta : ℕ) : ℕ :=
  if W.size = 32 ∨ delta &&& 31 ≤ W.threadRank lane then delta else 0

/-- `shfl_xor` -/
def shflXor (v : ℕ → T) (laneMask lane : ℕ) : T :=
  shuffleXorSync v (W.xorOperandOrSelf lane laneMask) lane

/-- `shfl_up` -/
def shflUp (v : ℕ → T) (delta lane : ℕ) : T :=
  shuffleUpSync v (W.upOperandOrSelf lane delta) lane

end WarpTile

/-- The full warp. -/
def fullWarp : WarpTile := ⟨32, by decide⟩

/-! ### The collectives -/

/-- The loop of `warp_reduce`. -/
def reduceFrom (op : ReduceOp T) (W : WarpTile) (delta : ℕ) (acc : ℕ → T) : ℕ → T :=
  if delta = 0 then acc
  else reduceFrom op W (delta / 2) fun lane => op.combine (acc lane) (W.shflXor acc delta lane)
termination_by delta

/-- `warp_reduce`: the hardware's instruction where there is one, and a butterfly elsewhere. -/
def warpReduce (op : ReduceOp T) (W : WarpTile) (value : ℕ → T) : ℕ → T :=
  match if W.size = 32 then op.redux else none with
  | some instruction => fun _ => instruction value
  | none => reduceFrom op W (W.size / 2) value

/-- The loop of both scans, over a group of `bound` lanes with its ranks and its shuffle. -/
def scanFrom (op : ReduceOp T) (rank : ℕ → ℕ) (shflUp : (ℕ → T) → ℕ → ℕ → T) (bound delta : ℕ)
    (acc : ℕ → T) : ℕ → T :=
  if 0 < delta ∧ delta < bound then
    scanFrom op rank shflUp bound (2 * delta) fun lane =>
      if delta ≤ rank lane then op.combine (acc lane) (shflUp acc delta lane) else acc lane
  else acc
termination_by bound - delta

/-- `warp_scan` -/
def warpScan (op : ReduceOp T) (W : WarpTile) (value : ℕ → T) : ℕ → T :=
  scanFrom op W.threadRank W.shflUp W.size 1 value

/-- `scan_contiguous_warp_prefix`: the rank is the lane, and the shuffle that of the hardware. -/
def scanContiguousWarpPrefix (op : ReduceOp T) (value : ℕ → T) (live : ℕ) : ℕ → T :=
  scanFrom op id shuffleUpSync live 1 value

/-! ### The shuffles stay in their tile -/

section Shuffles

variable {W : WarpTile} {v : ℕ → T} {k m q r : ℕ}

/-- The size of a tile is a power of two up to 32. -/
theorem WarpTile.size_eq (W : WarpTile) : ∃ k ≤ 5, W.size = 2 ^ k := by
  rcases W.valid with h | h | h | h | h | h
  · exact ⟨0, by decide, h⟩
  · exact ⟨1, by decide, h⟩
  · exact ⟨2, by decide, h⟩
  · exact ⟨3, by decide, h⟩
  · exact ⟨4, by decide, h⟩
  · exact ⟨5, by decide, h⟩

/-- A power of two below 32 is kept by the hardware's mask. -/
theorem two_pow_and (hm : m < 5) : 2 ^ m &&& 31 = 2 ^ m := by
  rw [show (31 : ℕ) = 2 ^ 5 - 1 from rfl, Nat.and_two_pow_sub_one_eq_mod,
    Nat.mod_eq_of_lt (Nat.pow_lt_pow_right Nat.one_lt_two hm)]

/-- The rank of a lane is its place in the tile. -/
theorem WarpTile.threadRank_add (hsize : W.size = 2 ^ k) (hr : r < 2 ^ k) :
    W.threadRank (2 ^ k * q + r) = r := by
  rw [threadRank, hsize, Nat.and_two_pow_sub_one_eq_mod, Nat.mul_add_mod, Nat.mod_eq_of_lt hr]

/-- The bits of a rank and the number of its tile do not mix. -/
theorem two_pow_mul_add_xor (hr : r < 2 ^ k) (hm : m < k) :
    (2 ^ k * q + r) ^^^ 2 ^ m = 2 ^ k * q + (r ^^^ 2 ^ m) := by
  have hflip := Nat.xor_lt_two_pow hr (Nat.pow_lt_pow_right Nat.one_lt_two hm)
  refine Nat.eq_of_testBit_eq fun b => ?_
  rw [Nat.testBit_xor, Nat.testBit_two_pow_mul_add _ hr, Nat.testBit_two_pow_mul_add _ hflip]
  split_ifs with hb
  · rw [Nat.testBit_xor]
  · rw [Nat.testBit_two_pow_of_ne (by omega), Bool.xor_false]

/-- A lane's partner in a butterfly lies in its tile. -/
theorem WarpTile.shflXor_add (hsize : W.size = 2 ^ k) (hk : k ≤ 5) (hr : r < 2 ^ k) (hm : m < k) :
    W.shflXor v (2 ^ m) (2 ^ k * q + r) = v (2 ^ k * q + (r ^^^ 2 ^ m)) := by
  have hflip := Nat.xor_lt_two_pow hr (Nat.pow_lt_pow_right Nat.one_lt_two hm)
  have hmask := two_pow_and (hm.trans_le hk)
  rw [shflXor, shuffleXorSync, xorOperandOrSelf, threadRank_add hsize hr, hmask, hsize,
    if_pos (.inr hflip), hmask, two_pow_mul_add_xor hr hm]

/-- A lane reads the value that is `2 ^ m` lanes below. -/
theorem shuffleUpSync_add (hm : m < 5) (hr : 2 ^ m ≤ r) :
    shuffleUpSync v (2 ^ m) (q + r) = v (q + (r - 2 ^ m)) := by
  rw [shuffleUpSync, two_pow_and hm, if_pos (hr.trans (Nat.le_add_left r q)), Nat.add_sub_assoc hr]

/-- The same within a tile. -/
theorem WarpTile.shflUp_add (hsize : W.size = 2 ^ k) (hr : r < 2 ^ k) (hm : m < 5)
    (hle : 2 ^ m ≤ r) :
    W.shflUp v (2 ^ m) (2 ^ k * q + r) = v (2 ^ k * q + (r - 2 ^ m)) := by
  rw [shflUp, upOperandOrSelf, threadRank_add hsize hr, two_pow_and hm, if_pos (.inr hle),
    shuffleUpSync_add hm hle]

end Shuffles

/-! ### What the lanes receive -/

section Results

variable {op : ReduceOp T} {W : WarpTile} {acc v : ℕ → T} {f : ℕ → T} {k m n q r s bound live : ℕ}

section Monoid

variable [CommMonoid T] (hmul : ∀ a b, op.combine a b = a * b) (hone : op.identity = 1)

include hmul

/-- The rest of the rounds of a reduction. -/
theorem reduceFrom_eq (hsize : W.size = 2 ^ k) (hk : k ≤ 5) (hm : m ≤ k)
    (hacc : ∀ r, r < 2 ^ k → acc (2 ^ k * q + r) = ∏ j ∈ agreeing k m r, f j) (hr : r < 2 ^ k) :
    reduceFrom op W (2 ^ m / 2) acc (2 ^ k * q + r) = ∏ j ∈ Finset.range (2 ^ k), f j := by
  -- on the bits in which the lanes still have to agree
  induction m generalizing acc with
  | zero => rw [reduceFrom, if_pos (by decide), hacc r hr, agreeing_zero]
  | succ m ih =>
    have hhalf : 2 ^ (m + 1) / 2 = 2 ^ m := by rw [pow_succ, Nat.mul_div_cancel _ Nat.two_pos]
    rw [reduceFrom, hhalf, if_neg (Nat.two_pow_pos m).ne']
    refine ih (Nat.le_of_succ_le hm) fun r hr => ?_
    rw [hmul, WarpTile.shflXor_add hsize hk hr hm]
    exact butterfly_round (g := fun r => acc (2 ^ k * q + r)) hm hacc hr

/-- The rest of the rounds of a scan: there are at most `n`. -/
theorem scanFrom_eq {rank : ℕ → ℕ} {shflUp : (ℕ → T) → ℕ → ℕ → T} (hbound : bound ≤ 32)
    (hrank : ∀ r, r < bound → rank (q + r) = r)
    (hshfl : ∀ v m r, m < 5 → 2 ^ m ≤ r → r < bound →
      shflUp v (2 ^ m) (q + r) = v (q + (r - 2 ^ m)))
    (hn : bound ≤ 2 ^ (s + n)) (hacc : ∀ r, r < bound → acc (q + r) = window f s r)
    (hr : r < bound) :
    scanFrom op rank shflUp bound (2 ^ s) acc (q + r) = ∏ j ∈ Finset.range (r + 1), f j := by
  -- on the rounds that are left; the windows grow with every one
  induction n generalizing s acc with
  | zero =>
    rw [Nat.add_zero] at hn
    rw [scanFrom, if_neg (fun h => absurd (h.2.trans_le hn) (lt_irrefl _)), hacc r hr,
      window_of_lt (hr.trans_le hn)]
  | succ n ih =>
    rw [scanFrom]
    split_ifs with h
    · rw [← pow_succ']
      refine ih (by rwa [Nat.add_right_comm]) fun r hr => ?_
      have hs : s < 5 := (Nat.pow_lt_pow_iff_right Nat.one_lt_two).mp (h.2.trans_le hbound)
      rw [scan_round, hrank r hr]
      split_ifs with hle
      · rw [hmul, hshfl acc s r hs hle hr, hacc r hr, hacc _ ((Nat.sub_le _ _).trans_lt hr)]
      · exact hacc r hr
    · -- the loop has ended before its rounds were used up
      have hle : bound ≤ 2 ^ s := by
        by_contra hlt
        exact h ⟨Nat.two_pow_pos s, not_le.mp hlt⟩
      rw [hacc r hr, window_of_lt (hr.trans_le hle)]

include hone

/-- A fold is a product in the monoid of the operation. -/
theorem foldLanes_eq : foldLanes op.combine op.identity v n = ∏ j ∈ Finset.range n, v j := by
  induction n with
  | zero => rw [foldLanes, List.range_zero, List.foldl_nil, Finset.prod_range_zero, hone]
  | succ n ih =>
    rw [foldLanes] at ih
    rw [foldLanes, List.range_succ, List.foldl_append, ih, Finset.prod_range_succ]
    exact hmul _ _

end Monoid

/-- **The reduction of a tile.**  Every lane receives the values of its tile, combined. -/
theorem warpReduce_eq (lane : ℕ) (hlane : lane < 32) :
    warpReduce op W v lane = op.fold (fun r => v (W.size * (lane / W.size) + r)) W.size := by
  let := op.commMonoid
  obtain ⟨k, hk, hsize⟩ := W.size_eq
  rw [warpReduce]
  cases hredux : if W.size = 32 then op.redux else none with
  | some instruction =>
    -- the instruction is there for the full warp only
    obtain ⟨hfull, hinstruction⟩ : W.size = 32 ∧ op.redux = some instruction := by
      split_ifs at hredux with h
      exact ⟨h, hredux⟩
    rw [hfull, Nat.div_eq_of_lt hlane]
    simp only [Nat.mul_zero, Nat.zero_add]
    exact op.redux_eq instruction hinstruction v
  | none =>
    have hlt : lane % 2 ^ k < 2 ^ k := Nat.mod_lt _ (Nat.two_pow_pos k)
    have hlanes : lane = 2 ^ k * (lane / 2 ^ k) + lane % 2 ^ k := (Nat.div_add_mod _ _).symm
    rw [ReduceOp.fold, foldLanes_eq (fun _ _ => rfl) rfl, hsize]
    conv_lhs => rw [hlanes]
    refine reduceFrom_eq (fun _ _ => rfl) hsize hk le_rfl (fun r hr => ?_) hlt
    rw [agreeing_all hr, Finset.prod_singleton]

/-- **The scan of a tile.**  A lane receives the values of its tile up to its own, combined. -/
theorem warpScan_eq (lane : ℕ) :
    warpScan op W v lane =
      op.fold (fun r => v (W.size * (lane / W.size) + r)) (lane % W.size + 1) := by
  let := op.commMonoid
  obtain ⟨k, hk, hsize⟩ := W.size_eq
  have hlt : lane % 2 ^ k < 2 ^ k := Nat.mod_lt _ (Nat.two_pow_pos k)
  have hlanes : lane = 2 ^ k * (lane / 2 ^ k) + lane % 2 ^ k := (Nat.div_add_mod _ _).symm
  rw [warpScan, ReduceOp.fold, foldLanes_eq (fun _ _ => rfl) rfl, hsize]
  conv_lhs => rw [hlanes]
  refine scanFrom_eq (s := 0) (n := k) (fun _ _ => rfl) ?_
    (fun r hr => WarpTile.threadRank_add hsize hr)
    (fun v m r hm hle hr => WarpTile.shflUp_add hsize hr hm hle) (by rw [Nat.zero_add])
    (fun r _ => (window_zero (f := fun r => v (2 ^ k * (lane / 2 ^ k) + r))).symm) hlt
  exact Nat.pow_le_pow_right Nat.two_pos hk

/-- **The scan of a partial warp.** -/
theorem scanContiguousWarpPrefix_eq (hlive : live ≤ 32) (hr : r < live) :
    scanContiguousWarpPrefix op v live r = op.fold v (r + 1) := by
  let := op.commMonoid
  have hscan : scanFrom op id shuffleUpSync live (2 ^ 0) v (0 + r) =
      ∏ j ∈ Finset.range (r + 1), v j :=
    scanFrom_eq (n := 5) (fun _ _ => rfl) hlive (fun r _ => Nat.zero_add r)
      (fun v m r hm hle _ => shuffleUpSync_add hm hle) hlive
      (fun r _ => by rw [Nat.zero_add]; exact window_zero.symm) hr
  rw [Nat.zero_add] at hscan
  rw [scanContiguousWarpPrefix, ReduceOp.fold, foldLanes_eq (fun _ _ => rfl) rfl]
  exact hscan

end Results

end CudaOxide.Device
