import CudaOxide.Device.Collectives

/-!
# Reductions and scans of a block

`block_reduce` and `block_scan` (`cuda-device/src/cooperative_groups.rs`): every warp publishes its
total in shared memory, the first warp combines the totals, and every thread reads the result.  The
phases are separated by barriers; within a phase the threads write in any order.

* `store` — the writes of a phase.
* `blockReduce`, `blockScan` — the three phases.
* `block_reduce_total`, `block_scan_inclusive` — what the threads receive, for every block size.
-/

namespace CudaOxide.Device

open Lib

variable {T : Type}

/-! ### Shared memory -/

/-- The writes between two barriers, of the threads in the order of the list. -/
def store (writes : ℕ → Option (ℕ × T)) (order : List ℕ) (smem : ℕ → Option T) : ℕ → Option T :=
  order.foldl (fun smem t =>
    match writes t with
    | some (slot, value) => Function.update smem slot (some value)
    | none => smem) smem

section Store

variable {writes : ℕ → Option (ℕ × T)} {order : List ℕ} {smem : ℕ →
  Option T} {slot t : ℕ} {value : T}

/-- The stores of an order are made one by one. -/
theorem store_cons : store writes (t :: order) smem = store writes order (store writes [t] smem) :=
  rfl

/-- A slot that is written holds the value. -/
theorem store_one_of_some (h : writes t = some (slot, value)) :
    store writes [t] smem slot = some value := by
  simp only [store, List.foldl_cons, List.foldl_nil, h, Function.update_self]

/-- The other slots stay. -/
theorem store_one_of_ne (h : ∀ value, writes t ≠ some (slot, value)) :
    store writes [t] smem slot = smem slot := by
  simp only [store, List.foldl_cons, List.foldl_nil]
  cases hwrite : writes t with
  | none => rfl
  | some w =>
    refine Function.update_of_ne (fun heq => h w.2 ?_) _ _
    rw [hwrite, heq]

/-- A slot keeps its value, if all writes to it are of this value. -/
theorem store_of_eq (hall : ∀ t ∈ order, ∀ x, writes t = some (slot, x) → x = value)
    (h : smem slot = some value) : store writes order smem slot = some value := by
  induction order generalizing smem with
  | nil => exact h
  | cons t order ih =>
    rw [store_cons]
    refine ih (fun t' ht' => hall t' (List.mem_cons_of_mem t ht')) ?_
    by_cases hwrite : ∃ x, writes t = some (slot, x)
    · obtain ⟨x, hx⟩ := hwrite
      rw [store_one_of_some hx, hall t List.mem_cons_self x hx]
    · rw [store_one_of_ne (not_exists.mp hwrite), h]

/-- **A slot is written**, whatever the order, if all writes to it are of one value. -/
theorem store_eq (hall : ∀ t ∈ order, ∀ x, writes t = some (slot, x) → x = value)
    (hsome : ∃ t ∈ order, writes t = some (slot, value)) : store writes order smem slot =
      some value := by
  induction order generalizing smem with
  | nil => exact absurd hsome (by simp)
  | cons t order ih =>
    rw [store_cons]
    have hrest := fun t' ht' => hall t' (List.mem_cons_of_mem t ht')
    obtain ⟨t', ht', hwrite⟩ := hsome
    rcases List.mem_cons.mp ht' with rfl | ht'
    · exact store_of_eq hrest (store_one_of_some hwrite)
    · exact ih hrest ⟨t', ht', hwrite⟩

end Store

/-! ### The phases -/

/-- `block_threads.div_ceil(32)` -/
def runtimeWarps (blockThreads : ℕ) : ℕ := (blockThreads + 31) / 32

/-- The live lanes of a warp. -/
def live (blockThreads warpId : ℕ) : ℕ :=
  let remaining := blockThreads - warpId * 32
  if remaining < 32 then remaining else 32

/-- The values of the lanes of a warp. -/
def lanes (value : ℕ → T) (warpId : ℕ) : ℕ → T := fun lane => value (warpId * 32 + lane)

/-- What thread `t` of `block_reduce` writes before the first barrier. -/
def publishTotal (op : ReduceOp T) (blockThreads : ℕ) (value : ℕ → T) (t : ℕ) : Option (ℕ × T) :=
  let lane := t % 32
  let warpId := t / 32
  if live blockThreads warpId = 32 then
    if lane = 0 then some (warpId, warpReduce op fullWarp (lanes value warpId) lane) else none
  else if lane + 1 = live blockThreads warpId then
    some (warpId, scanContiguousWarpPrefix op (lanes value warpId) (live blockThreads warpId) lane)
  else none

/-- `warp_inclusive` of thread `t` of `block_scan`. -/
def warpInclusive (op : ReduceOp T) (blockThreads : ℕ) (value : ℕ → T) (t : ℕ) : T :=
  if live blockThreads (t / 32) = 32 then warpScan op fullWarp (lanes value (t / 32)) (t % 32)
  else scanContiguousWarpPrefix op (lanes value (t / 32)) (live blockThreads (t / 32)) (t % 32)

/-- What thread `t` of `block_scan` writes before the first barrier. -/
def publishInclusive (op : ReduceOp T) (blockThreads : ℕ) (value : ℕ → T) (t : ℕ) :
    Option (ℕ × T) :=
  if t % 32 + 1 = live blockThreads (t / 32) then some (t / 32,
    warpInclusive op blockThreads value t)
  else none

/-- The values with which the first warp goes on; none if it reads a slot that nobody has
written. -/
def loadTotals (op : ReduceOp T) (blockThreads : ℕ) (smem : ℕ → Option T) : Option (ℕ → T) :=
  if ∀ lane < runtimeWarps blockThreads, (smem lane).isSome then
    some fun lane =>
      if lane < runtimeWarps blockThreads then (smem lane).getD op.identity else op.identity
  else none

/-- The shared memory of `block_reduce` behind the second barrier. -/
def combineTotals (op : ReduceOp T) (blockThreads : ℕ) (order : List ℕ) (smem : ℕ → Option T) :
    Option (ℕ → Option T) :=
  if 1 < runtimeWarps blockThreads then
    (loadTotals op blockThreads smem).map fun v =>
      store (fun t => if t = 0 then some (0, warpReduce op fullWarp v 0) else none) order smem
  else some smem

/-- `block_reduce`: all threads read one value.  `none` is a failed assertion, or a read of a slot
that is not initialized. -/
def blockReduce (op : ReduceOp T) (numWarps blockThreads : ℕ) (value : ℕ →
    T) (order₁ order₂ : List ℕ)
    (smem : ℕ → Option T) : Option T :=
  if runtimeWarps blockThreads ≤ numWarps then
    (combineTotals op blockThreads order₂
      (store (publishTotal op blockThreads value) order₁ smem)).bind fun smem => smem 0
  else none

/-- The exclusive prefix of a lane of the first warp. -/
def exclusive (op : ReduceOp T) (v : ℕ → T) (lane : ℕ) : T :=
  if lane = 0 then op.identity else fullWarp.shflUp (warpScan op fullWarp v) 1 lane

/-- The shared memory of `block_scan` behind the second barrier. -/
def scanTotals (op : ReduceOp T) (blockThreads : ℕ) (order : List ℕ) (smem : ℕ → Option T) :
    Option (ℕ → Option T) :=
  (loadTotals op blockThreads smem).map fun v =>
    store (fun t => if t / 32 = 0 ∧ t % 32 < runtimeWarps blockThreads then
      some (t % 32, exclusive op v (t % 32)) else none) order smem

/-- `block_scan`: what thread `t` receives. -/
def blockScan (op : ReduceOp T) (numWarps blockThreads : ℕ) (value : ℕ → T) (order₁ order₂ : List ℕ)
    (smem : ℕ → Option T) (t : ℕ) : Option T :=
  if runtimeWarps blockThreads ≤ numWarps then
    if runtimeWarps blockThreads = 1 then some (warpInclusive op blockThreads value t)
    else
      (scanTotals op blockThreads order₂
        (store (publishInclusive op blockThreads value) order₁ smem)).bind fun smem =>
          (smem (t / 32)).map fun before => op.combine before
            (warpInclusive op blockThreads value t)
  else none

/-! ### The totals of the warps -/

section Totals

variable {op : ReduceOp T} {v : ℕ → T} {m n w t slot : ℕ} {x : T} {smem : ℕ → Option T}

/-- A fold over one more thread. -/
theorem ReduceOp.fold_succ : op.fold v (n + 1) = op.combine (op.fold v n) (v n) := by
  rw [ReduceOp.fold, foldLanes, List.range_succ, List.foldl_append]
  rfl

/-- The identity is one on the right, too. -/
theorem ReduceOp.combine_identity (a : T) : op.combine a op.identity = a :=
  (op.combine_comm a op.identity).trans (op.identity_combine a)

/-- A fold over two groups is the combination of the two. -/
theorem ReduceOp.fold_add :
    op.fold v (m + n) = op.combine (op.fold v m) (op.fold (fun j => v (m + j)) n) := by
  induction n with
  | zero => exact (ReduceOp.combine_identity _).symm
  | succ n ih => rw [← Nat.add_assoc, ReduceOp.fold_succ, ReduceOp.fold_succ, ih, op.combine_assoc]

/-- A warp has at most 32 live threads. -/
theorem live_le : live n w ≤ 32 := by
  unfold live
  dsimp only
  split <;> omega

/-- A warp below the last one is full, and the last one ends with the block. -/
theorem live_eq : live n w = min 32 (n - w * 32) := by
  unfold live
  dsimp only
  split <;> omega

/-- The warps of a block are those with a live thread. -/
theorem lt_runtimeWarps : w < runtimeWarps n ↔ w * 32 < n := by
  unfold runtimeWarps
  omega

/-- A thread is a live lane of its warp. -/
theorem lane_lt_live (ht : t < n) : t % 32 < live n (t / 32) := by
  rw [live_eq]
  omega

/-- The warp of a thread of the block is one of them. -/
theorem warp_lt (ht : t < n) : t / 32 < runtimeWarps n := by
  rw [lt_runtimeWarps]
  omega

/-- The total of a warp. -/
def warpTotal (op : ReduceOp T) (n : ℕ) (v : ℕ → T) (w : ℕ) : T := op.fold (lanes v w) (live n w)

/-- The reduction of a full warp. -/
theorem warpReduce_full (v : ℕ → T) : warpReduce op fullWarp v 0 = op.fold v 32 := by
  rw [warpReduce_eq 0 (by decide)]
  simp only [fullWarp, Nat.zero_div, Nat.mul_zero, Nat.zero_add]

/-- The scan of a full warp. -/
theorem warpScan_full (v : ℕ → T) {lane : ℕ} (hlane : lane < 32) :
    warpScan op fullWarp v lane = op.fold v (lane + 1) := by
  rw [warpScan_eq]
  simp only [fullWarp, Nat.div_eq_of_lt hlane, Nat.mod_eq_of_lt hlane, Nat.mul_zero, Nat.zero_add]

/-- A thread's inclusive value is the fold over its warp up to it. -/
theorem warpInclusive_eq (ht : t < n) :
    warpInclusive op n v t = op.fold (lanes v (t / 32)) (t % 32 + 1) := by
  unfold warpInclusive
  split_ifs with hlive
  · exact warpScan_full _ (Nat.mod_lt t (by decide))
  · exact scanContiguousWarpPrefix_eq live_le (lane_lt_live ht)

/-- What is published is the total of the thread's warp. -/
theorem publishTotal_eq (ht : t < n) (h : publishTotal op n v t = some (slot, x)) :
    x = warpTotal op n v slot := by
  unfold publishTotal at h
  dsimp only at h
  split_ifs at h with hfull hlane hlast
  · obtain ⟨rfl, rfl⟩ := Prod.mk.inj (Option.some.inj h)
    rw [hlane, warpReduce_full, warpTotal, hfull]
  · obtain ⟨rfl, rfl⟩ := Prod.mk.inj (Option.some.inj h)
    rw [scanContiguousWarpPrefix_eq live_le (lane_lt_live ht), hlast, warpTotal]

/-- What is published as the last inclusive value is the same total. -/
theorem publishInclusive_eq (ht : t < n) (h : publishInclusive op n v t = some (slot, x)) :
    x = warpTotal op n v slot := by
  unfold publishInclusive at h
  split_ifs at h with hlast
  obtain ⟨rfl, rfl⟩ := Prod.mk.inj (Option.some.inj h)
  rw [warpInclusive_eq ht, hlast, warpTotal]

/-- The last live lane of a warp. -/
theorem exists_last_lane (hw : w < runtimeWarps n) :
    ∃ t < n, t / 32 = w ∧ t % 32 + 1 = live n w := by
  have hlive := live_eq (n := n) (w := w)
  rw [lt_runtimeWarps] at hw
  exact ⟨w * 32 + (live n w - 1), by omega, by omega, by omega⟩

/-- Some lane of every warp publishes. -/
theorem exists_publishTotal (hw : w < runtimeWarps n) :
    ∃ t < n, ∃ x, publishTotal op n v t = some (w, x) := by
  by_cases hfull : live n w = 32
  · -- lane zero of a full warp
    have hwarp : w * 32 / 32 = w := Nat.mul_div_cancel w (by decide)
    refine ⟨w * 32, lt_runtimeWarps.mp hw, warpReduce op fullWarp (lanes v w) 0, ?_⟩
    simp only [publishTotal, hwarp, hfull, Nat.mul_mod_left, if_true]
  · obtain ⟨t, ht, hwarp, hlane⟩ := exists_last_lane hw
    refine ⟨t, ht, scanContiguousWarpPrefix op (lanes v w) (live n w) (t % 32), ?_⟩
    simp only [publishTotal, hwarp, hfull, hlane, if_false, if_true]

/-- Some thread publishes the total of each warp. -/
theorem exists_publishInclusive (hw : w < runtimeWarps n) :
    ∃ t < n, ∃ x, publishInclusive op n v t = some (w, x) := by
  obtain ⟨t, ht, hwarp, hlane⟩ := exists_last_lane hw
  refine ⟨t, ht, warpInclusive op n v t, ?_⟩
  rw [publishInclusive, hwarp, if_pos hlane]

/-- **The first phase** leaves the total of every warp in its slot. -/
theorem store_totals {publish : ℕ → Option (ℕ × T)} {order : List ℕ}
    (horder : order.Perm (List.range n))
    (heq : ∀ t slot x, t < n → publish t = some (slot, x) → x = warpTotal op n v slot)
    (hsome : ∀ w, w < runtimeWarps n → ∃ t < n, ∃ x, publish t = some (w, x))
    (hw : w < runtimeWarps n) : store publish order smem w = some (warpTotal op n v w) := by
  have hmem : ∀ t, t ∈ order ↔ t < n := fun t => horder.mem_iff.trans List.mem_range
  obtain ⟨t, ht, x, hx⟩ := hsome w hw
  refine store_eq (fun t ht x hx => heq t w x ((hmem t).mp ht) hx) ⟨t, (hmem t).mpr ht, ?_⟩
  rw [hx, heq t w x ht hx]

/-- What the first warp loads: the totals, and the identity beyond. -/
def totals (op : ReduceOp T) (n : ℕ) (v : ℕ → T) (lane : ℕ) : T :=
  if lane < runtimeWarps n then warpTotal op n v lane else op.identity

/-- Behind the barrier, every thread loads the totals. -/
theorem loadTotals_eq (h : ∀ w, w < runtimeWarps n → smem w = some (warpTotal op n v w)) :
    loadTotals op n smem = some (totals op n v) := by
  rw [loadTotals, if_pos fun w hw => by rw [h w hw]; rfl]
  congr 1
  funext lane
  unfold totals
  split_ifs with hlane
  · rw [h lane hlane, Option.getD_some]
  · rfl

/-- **The totals of the first warps** are the values of their threads. -/
theorem fold_totals : op.fold (totals op n v) w = op.fold v (min (w * 32) n) := by
  induction w with
  | zero => rw [Nat.zero_mul, Nat.zero_min]; rfl
  | succ w ih =>
    rw [ReduceOp.fold_succ, ih, totals]
    split_ifs with hw
    · rw [lt_runtimeWarps] at hw
      have hbefore : min (w * 32) n = w * 32 := min_eq_left hw.le
      have hafter : min ((w + 1) * 32) n = w * 32 + live n w := by
        rw [live_eq]
        omega
      rw [hbefore, hafter, ReduceOp.fold_add]
      rfl
    · -- beyond the last warp the identity is loaded, and the block has ended
      rw [lt_runtimeWarps] at hw
      rw [ReduceOp.combine_identity, min_eq_right (not_lt.mp hw), min_eq_right (by omega)]

/-- No more warps than lanes. -/
theorem fold_totals_all (h : runtimeWarps n ≤ 32) : op.fold (totals op n v) 32 = op.fold v n := by
  have hn : n ≤ 32 * 32 := by
    unfold runtimeWarps at h
    omega
  rw [fold_totals, min_eq_right hn]

/-- The exclusive scan is the fold over the lanes in front. -/
theorem exclusive_eq {lane : ℕ} (hlane : lane < 32) : exclusive op v lane = op.fold v lane := by
  unfold exclusive
  split_ifs with hzero
  · rw [hzero]
    rfl
  · have hshift := WarpTile.shflUp_add (W := fullWarp) (v := warpScan op fullWarp v)
      (q := 0) (m := 0)
      (k := 5) rfl hlane (by decide) (Nat.one_le_iff_ne_zero.mpr hzero)
    simp only [Nat.mul_zero, Nat.zero_add, pow_zero] at hshift
    rw [hshift, warpScan_full _ ((Nat.sub_le _ _).trans_lt hlane),
      Nat.sub_add_cancel (Nat.one_le_iff_ne_zero.mpr hzero)]

/-- The lanes of a thread's warp, behind those of the warps before. -/
theorem fold_before_lane (ht : t < n) :
    op.combine (op.fold (totals op n v) (t / 32)) (op.fold (lanes v (t / 32)) (t % 32 + 1)) =
      op.fold v (t + 1) := by
  have hbefore : min (t / 32 * 32) n = t / 32 * 32 := min_eq_left (by omega)
  have hthread : t + 1 = t / 32 * 32 + (t % 32 + 1) := by omega
  rw [fold_totals, hbefore]
  conv_rhs => rw [hthread, ReduceOp.fold_add]
  rfl

/-- A block of one warp. -/
theorem lanes_zero (v : ℕ → T) : lanes v 0 = v := funext fun lane => by
  rw [lanes, Nat.zero_mul, Nat.zero_add]

/-- A block of one warp has no other lanes. -/
theorem runtimeWarps_eq_one (h : runtimeWarps n = 1) (ht : t < n) : t / 32 = 0 ∧ live n 0 = n := by
  rw [live_eq]
  unfold runtimeWarps at h
  omega

end Totals

/-! ### What the threads receive -/

section Block

variable {op : ReduceOp T} {v : ℕ → T} {numWarps n t : ℕ} {order₁ order₂ : List ℕ}
  {smem : ℕ → Option T}

/-- **`block_reduce` reduces the block.**  For every block size and every order of the writes, the
threads read the values of all threads, combined, unless the block has more warps than there are
slots. -/
theorem block_reduce_total (hn : 0 < n) (hcapacity : numWarps ≤ 32)
    (h₁ : order₁.Perm (List.range n)) (h₂ : order₂.Perm (List.range n)) :
    blockReduce op numWarps n v order₁ order₂ smem =
      if runtimeWarps n ≤ numWarps then some (op.fold v n) else none := by
  unfold blockReduce
  split_ifs with hfits
  swap
  · rfl
  -- behind the first barrier
  have hpublished : ∀ w, w < runtimeWarps n →
      store (publishTotal op n v) order₁ smem w = some (warpTotal op n v w) :=
    fun w => store_totals h₁ (fun t slot x => publishTotal_eq) fun w => exists_publishTotal
  unfold combineTotals
  split_ifs with hone
  · rw [loadTotals_eq hpublished, Option.map_some, Option.bind_some]
    refine store_eq (fun t _ x hx => ?_) ⟨0, h₂.mem_iff.mpr (List.mem_range.mpr hn), ?_⟩
    · split_ifs at hx
      rw [← (Prod.mk.inj (Option.some.inj hx)).2, warpReduce_full,
        fold_totals_all (hfits.trans hcapacity)]
    · rw [if_pos rfl, warpReduce_full, fold_totals_all (hfits.trans hcapacity)]
  · -- a single warp has already published the result
    have hsingle : runtimeWarps n = 1 := by
      have hzero := warp_lt hn
      omega
    rw [Option.bind_some, hpublished 0 (by omega), warpTotal, lanes_zero,
      (runtimeWarps_eq_one hsingle hn).2]

/-- The 33 threads of a full warp and a partial one. -/
theorem block_reduce_total_partial :
    blockReduce (ReduceOp.sum 32) 2 33 (fun _ => 1) (List.range 33) (List.range 33).reverse
      (fun _ => none) = some 33 :=
  (block_reduce_total (by decide) (by decide) (.refl _) (List.reverse_perm _)).trans (by decide)

/-- **`block_scan` scans the block.**  For every block size and every order of the writes, a thread
receives the values of the threads up to itself, combined. -/
theorem block_scan_inclusive (hcapacity : numWarps ≤ 32) (ht : t < n)
    (h₁ : order₁.Perm (List.range n)) (h₂ : order₂.Perm (List.range n)) :
    blockScan op numWarps n v order₁ order₂ smem t =
      if runtimeWarps n ≤ numWarps then some (op.fold v (t + 1)) else none := by
  unfold blockScan
  split_ifs with hfits hsingle
  · have hwarp := (runtimeWarps_eq_one hsingle ht).1
    have hlane : t % 32 = t := by omega
    rw [warpInclusive_eq ht, hwarp, hlane, lanes_zero]
  · have hpublished : ∀ w, w < runtimeWarps n →
        store (publishInclusive op n v) order₁ smem w = some (warpTotal op n v w) :=
      fun w => store_totals h₁ (fun t slot x => publishInclusive_eq) fun w =>
        exists_publishInclusive
    have hw := warp_lt ht
    have hlane : t / 32 < 32 := hw.trans_le (hfits.trans hcapacity)
    rw [scanTotals, loadTotals_eq hpublished, Option.map_some, Option.bind_some]
    -- lane `t / 32` of the first warp writes the slot of the warp of `t`
    have hslot : store (fun t => if t / 32 = 0 ∧ t % 32 < runtimeWarps n then
        some (t % 32, exclusive op (totals op n v) (t % 32)) else none) order₂
        (store (publishInclusive op n v) order₁ smem) (t / 32) =
          some (op.fold (totals op n v) (t / 32)) := by
      refine store_eq (fun u _ x hx => ?_) ⟨t / 32, h₂.mem_iff.mpr (List.mem_range.mpr ?_), ?_⟩
      · split_ifs at hx
        obtain ⟨hslot, rfl⟩ := Prod.mk.inj (Option.some.inj hx)
        rw [hslot, exclusive_eq hlane]
      · exact (Nat.div_le_self t 32).trans_lt ht
      · rw [Nat.div_eq_of_lt hlane, Nat.mod_eq_of_lt hlane, if_pos ⟨rfl, hw⟩, exclusive_eq hlane]
    rw [hslot, Option.map_some, warpInclusive_eq ht, fold_before_lane ht]
  · rfl

/-- The thread of the partial warp. -/
theorem block_scan_inclusive_partial :
    blockScan (ReduceOp.sum 32) 2 33 (fun _ => 1) (List.range 33) (List.range 33).reverse
      (fun _ => none) 32 = some 33 :=
  (block_scan_inclusive (by decide) (by decide) (.refl _) (List.reverse_perm _)).trans (by decide)

end Block

end CudaOxide.Device
