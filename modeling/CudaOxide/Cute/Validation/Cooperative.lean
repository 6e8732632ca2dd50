import CudaOxide.Cute.Validation.ThreadValue

namespace CudaOxide.Cute

open Lib

/-!
# Cooperative copy plans

`validate_cooperative_copy_plan` (`validation/cooperative.rs`) checks the complete assignment of
a block-wide copy from global to shared memory and returns the maps the copy is lowered with.

* `validateSourceAtomRows_spec` — every atom stays in one row of the tile.
* `validatePhysicalSmemMap_spec` — every shared byte has one writer, and the capacity is the
  least one that holds them all.
* `validateCooperativeCopyPlan_sound` — what an accepted plan guarantees.
-/

/-- The checked map of one block-wide copy. -/
structure CooperativeCopyPlan where
  /-- `[row_count, column_count]` -/
  tilerShape : List ℤ
  /-- from a thread and its local value to a cell of the tile -/
  tvLayout : Layout
  gmemByteLayout : ComposedLayout
  smemByteLayout : ComposedLayout
  threadCount : ℤ
  valuesPerThread : ℤ
  tileElements : ℤ
  /-- the elements of shared memory that the caller must provide -/
  minimumSmemCapacity : ℤ
  deriving DecidableEq

/-! ### The checks -/

/-- The size of a layout that is small enough to be enumerated. -/
def checkedPlanLayoutSize (layout : Layout) (role : String) : Run String ℤ := do
  let size ← Run.okOr layout.checkedSize s!"{role} layout size is invalid or overflows i64"
  Run.reject (maxStaticValidationElements < size)
    s!"{role} layout has {size} elements; static validation limit is {maxStaticValidationElements}"
  .ok size

/-- Strides and offsets are small, also those of modes of extent one. -/
def validatePlanLayoutArithmetic (layout : Layout) (role : String) : Run String Unit := do
  layout.stride.flatten.forM fun stride =>
    Run.reject (maxStaticLayoutOffsetMagnitude < stride.natAbs)
      (s!"{role} layout stride {stride} exceeds " ++
        s!"static magnitude limit {maxStaticLayoutOffsetMagnitude}")
  let size ← checkedPlanLayoutSize layout role
  (Int.range 0 size).forM fun coordinate => do
    let offset ← Run.okOr (layout.checkedCall (.leaf coordinate))
      s!"{role} layout coordinate {coordinate} overflows i64"
    Run.reject (maxStaticLayoutOffsetMagnitude < offset.natAbs)
      (s!"{role} layout coordinate {coordinate} maps to {offset}; " ++
        s!"static magnitude limit is {maxStaticLayoutOffsetMagnitude}")

/-- Cell `row + rows * column` of the tile lies at `row * columns + column`. -/
def validateCanonicalRowMajorTileLayout (tileLayout : Layout) (rows columns : ℤ) :
    Run String Unit := do
  let size ← checkedPlanLayoutSize tileLayout "tile"
  (Int.range 0 size).forM fun cell => do
    I64.divisor rows
    let row := cell % rows
    let column := cell / rows
    let expected ← Run.okOr
      (do let offset ← I64.checkedMul row columns; I64.checkedAdd offset column)
      "canonical row-major tile offset overflows i64"
    let actual ← Run.okOr (tileLayout.checkedCall (.leaf cell))
      s!"tile coordinate {cell} overflows i64"
    Run.reject (actual ≠ expected)
      (s!"tile layout is not canonical row-major: " ++
        s!"logical cell {cell} must map to {expected}, got {actual}")

/-- One value of an atom: its row agrees with the row seen first. -/
def checkAtomRow (tv : Layout) (tileRows thread firstValue : ℤ) (atomRow : Option ℤ)
    (value : ℤ) : Run String (Option ℤ) := do
  let cell ← Run.okOr (tv.checkedCall (tvCoord thread value))
    s!"TV ({thread},{value}) overflows i64"
  I64.divisor tileRows
  let row := cell % tileRows
  match atomRow with
  | some firstRow => do
    Run.reject (firstRow ≠ row)
      s!"thread {thread}'s atom at value {firstValue} crosses from row {firstRow} to row {row}"
    .ok (some row)
  | none => .ok (some row)

/-- No atom crosses a row of the tile. -/
def validateSourceAtomRows (tv : Layout)
    (threadCount valuesPerThread valuesPerAtom tileRows : ℤ) : Run String Unit := do
  Run.reject (valuesPerAtom < 0) "copy atom value count does not fit this host"
  (Int.range 0 threadCount).forM fun thread => do
    I64.divisor valuesPerAtom
    (rangeBy 0 valuesPerThread valuesPerAtom).forM fun firstValue => do
      let atomEnd ← Run.okOr (I64.checkedAdd firstValue valuesPerAtom)
        "copy atom value range overflows i64"
      let _ ← (Int.range firstValue atomEnd).foldlM
        (checkAtomRow tv tileRows thread firstValue) none
      .ok ()

/-- The owners of the shared bytes, and the highest byte so far. -/
abbrev SmemOwners := Ledger ℤ (ℤ × ℤ × ℤ) × ℤ

/-- One byte of one value: its place in shared memory must be free. -/
def claimByte (smemBytes : ComposedLayout) (thread value cell : ℤ) (state : SmemOwners)
    (byteInElement : ℤ) : Run String SmemOwners := do
  let (owners, lastByte) := state
  let offset ← Run.okOr (smemBytes.checkedCallWithOuterDelta (.leaf cell) byteInElement)
    s!"TV ({thread},{value}) byte {byteInElement} overflows its smem offset"
  Run.reject (offset < 0)
    s!"TV ({thread},{value}) maps byte {byteInElement} to negative smem offset {offset}"
  Run.reject (maxStaticValidationBytes ≤ offset)
    s!"smem byte offset {offset} exceeds static physical limit {maxStaticValidationBytes}"
  match owners offset with
  | some (firstThread, firstValue, firstByte) =>
    Run.fail (s!"smem byte {offset} has two owners: " ++
      s!"TV ({firstThread},{firstValue}) byte {firstByte} and " ++
      s!"TV ({thread},{value}) byte {byteInElement}")
  | none => .ok (owners.insert offset (thread, value, byteInElement), max lastByte offset)

/-- The bytes of one value. -/
def claimValue (tv : Layout) (elementBytes : ℤ) (smemBytes : ComposedLayout) (thread : ℤ)
    (state : SmemOwners) (value : ℤ) : Run String SmemOwners := do
  let cell ← Run.okOr (tv.checkedCall (tvCoord thread value))
    s!"TV ({thread},{value}) overflows i64"
  (Int.range 0 elementBytes).foldlM (claimByte smemBytes thread value cell) state

/-- Every shared byte has one owner; returns the elements that hold the highest byte. -/
def validatePhysicalSmemMap (tv : Layout) (threadCount valuesPerThread elementBytes : ℤ)
    (smemBytes : ComposedLayout) : Run String ℤ := do
  let (_, lastByte) ← (Int.range 0 threadCount).foldlM (fun state thread =>
    (Int.range 0 valuesPerThread).foldlM (claimValue tv elementBytes smemBytes thread) state)
    (Ledger.empty, -1)
  let requiredBytes ← Run.okOr (I64.checkedAdd lastByte 1)
    "required smem byte range overflows i64"
  let slack ← I64.sub elementBytes 1
  let rounded ← Run.okOr (I64.checkedAdd requiredBytes slack)
    "required smem capacity overflows i64"
  I64.divisor elementBytes
  .ok (rounded / elementBytes)

/-- The sizes of the top-level modes of the tile. -/
def tileModeSizes : List Layout → Run String (List ℤ)
  | [] => .ok []
  | mode :: modes => do
    let size ← Run.okOr mode.checkedSize "tile mode size is invalid or overflows i64"
    let sizes ← tileModeSizes modes
    .ok (size :: sizes)

/-- Validate all compile-time facts of one block-wide copy from global to shared memory. -/
def validateCooperativeCopyPlan (atomBytes : ℕ) (threadLayout valueLayout tileLayout : Layout)
    (smemLayout : ComposedLayout) (elementBytes : ℤ) : Run String CooperativeCopyPlan := do
  Run.reject (¬(atomBytes = 4 ∨ atomBytes = 8 ∨ atomBytes = 16))
    s!"copy atom must be 4, 8, or 16 bytes, got {atomBytes}"
  Run.reject (isPositivePowerOfTwo elementBytes = false)
    s!"element size must be a positive power of two, got {elementBytes} bytes"
  I64.divisor elementBytes
  Run.reject ((atomBytes : ℤ) % elementBytes ≠ 0)
    "copy atom does not contain a whole number of elements"
  let threadCount ← checkedPlanLayoutSize threadLayout "thread"
  let valuesPerThread ← checkedPlanLayoutSize valueLayout "value"
  let tileElements ← checkedPlanLayoutSize tileLayout "tile"
  let smemElements ← checkedPlanLayoutSize smemLayout.outer "shared-memory layout"
  let assignments ← Run.okOr (I64.checkedMul threadCount valuesPerThread)
    "TV assignment count overflows i64"
  Run.reject (assignments ≠ tileElements)
    s!"TV layout has {assignments} assignments for a {tileElements}-element tile"
  let tileBytes ← Run.okOr (I64.checkedMul tileElements elementBytes)
    "copy tile byte count overflows i64"
  Run.reject (maxStaticValidationBytes < tileBytes)
    s!"copy tile has {tileBytes} bytes; static byte-map limit is {maxStaticValidationBytes}"
  Run.reject (maxStaticLayoutOffsetMagnitude < smemLayout.offset.natAbs)
    (s!"shared-memory composed offset {smemLayout.offset} exceeds " ++
      s!"static magnitude limit {maxStaticLayoutOffsetMagnitude}")
  [("thread", threadLayout), ("value", valueLayout), ("tile", tileLayout),
    ("shared-memory layout", smemLayout.outer)].forM fun (name, layout) =>
      validatePlanLayoutArithmetic layout name
  (validateCompactThreadLayout threadLayout).mapErr fun error =>
    s!"invalid thread layout: {error}"
  Run.reject (maxCooperativeThreads < threadCount)
    s!"thread count {threadCount} exceeds CUDA block limit {maxCooperativeThreads}"
  let (tilerShape, tvLayout) ← (makeLayoutTv threadLayout valueLayout).mapErr fun error =>
    s!"invalid TV algebra: {error}"
  (validateTvLayout threadLayout valueLayout tilerShape tvLayout).mapErr fun error =>
    s!"invalid TV layout: {error}"
  let tileShape ← tileModeSizes tileLayout.modes
  Run.reject (tilerShape.length ≠ 2 ∨ tileShape.length ≠ 2)
    "copy_g2s v0 requires exactly two row/column tile modes"
  Run.reject (tileShape ≠ tilerShape)
    s!"tile shape {tileShape} does not match TV tiler {tilerShape}"
  (validateTvExactCoverage tvLayout threadCount valuesPerThread tileElements).mapErr fun error =>
    s!"invalid tile coverage: {error}"
  let rows ← Run.index tileShape 0
  let columns ← Run.index tileShape 1
  (validateCanonicalRowMajorTileLayout tileLayout rows columns).mapErr fun error =>
    s!"invalid tile layout: {error}"
  Run.reject (smemElements ≠ tileElements)
    s!"shared-memory layout covers {smemElements} elements but tile layout covers {tileElements}"
  I64.divisor elementBytes
  let valuesPerAtom := (atomBytes : ℤ) / elementBytes
  (validateAtomCompatibility threadCount valuesPerThread 1 valuesPerAtom).mapErr fun error =>
    s!"invalid copy atom: {error}"
  (validateSourceAtomRows tvLayout threadCount valuesPerThread valuesPerAtom rows).mapErr
    fun error => s!"global copy atom crosses a tile row: {error}"
  let gmemByteLayout ← ((ComposedLayout.fromLayout tileLayout .elements).toByteOffsets
    elementBytes).mapErr fun error => s!"invalid gmem byte layout: {error}"
  (validatePerThreadAtomContiguity tvLayout threadCount valuesPerThread atomBytes elementBytes
    gmemByteLayout atomBytes).mapErr fun error =>
      s!"global copy atom is not physically contiguous: {error}"
  let smemByteLayout ← (smemLayout.toByteOffsets elementBytes).mapErr fun error =>
    s!"invalid smem byte layout: {error}"
  (validatePerThreadAtomContiguity tvLayout threadCount valuesPerThread atomBytes elementBytes
    smemByteLayout atomBytes).mapErr fun error =>
      s!"shared-memory copy atom is not physically contiguous: {error}"
  let minimumSmemCapacity ← (validatePhysicalSmemMap tvLayout threadCount valuesPerThread
    elementBytes smemByteLayout).mapErr fun error =>
      s!"invalid physical shared-memory map: {error}"
  .ok { tilerShape, tvLayout, gmemByteLayout, smemByteLayout, threadCount, valuesPerThread,
        tileElements, minimumSmemCapacity }

/-! ### Rows and shared bytes -/

variable {tv : Layout} {threadCount valuesPerThread elementBytes : ℤ}

/-- The values of an accepted atom have one row. -/
theorem validateSourceAtomRows_spec {valuesPerAtom tileRows thread firstValue : ℤ}
    (h : validateSourceAtomRows tv threadCount valuesPerThread valuesPerAtom tileRows = .ok ())
    (hpos : 0 < valuesPerAtom) (ht : thread ∈ Set.Ico 0 threadCount)
    (hv : firstValue ∈ Set.Ico 0 valuesPerThread) (hdvd : valuesPerAtom ∣ firstValue) :
    ∃ row, ∀ v ∈ Set.Ico firstValue (firstValue + valuesPerAtom),
      ∃ c, tv.checkedCall (tvCoord thread v) = some c ∧ c % tileRows = row := by
  obtain ⟨_, _, h⟩ := Run.bind_eq_ok.mp h
  have hthread := Run.forM_eq_ok.mp h thread (Int.mem_range_iff.mpr ht)
  obtain ⟨_, _, hthread⟩ := Run.bind_eq_ok.mp hthread
  have hatom := Run.forM_eq_ok.mp hthread firstValue
    ((mem_rangeBy hpos).mpr ⟨hv.1, hv.2, by rwa [sub_zero]⟩)
  simp only [Run.bind_eq_ok, Run.okOr_eq_ok, I64.checkedAdd_eq_some] at hatom
  obtain ⟨_, ⟨_, rfl⟩, state, hloop, _⟩ := hatom
  -- the state after any pass is the row of all values so far
  have hall := Run.foldlM_collects
    (P := fun s D => ∀ v ∈ D, ∃ c, tv.checkedCall (tvCoord thread v) = some c ∧
      s = some (c % tileRows))
    (A := fun v => {v}) ?_ (D := ∅) (by simp) hloop
  · refine ⟨state.getD 0, fun v hv => ?_⟩
    obtain ⟨c, hc, hs⟩ := hall v (by simpa [Int.mem_range_iff] using hv)
    exact ⟨c, hc, by rw [hs]; rfl⟩
  · intro v _ s s' D hD hrun
    simp only [checkAtomRow, Run.bind_eq_ok, Run.okOr_eq_ok] at hrun
    obtain ⟨c, hc, _, _, hrun⟩ := hrun
    cases s with
    | none =>
      cases hrun
      rintro w (hw | rfl)
      · obtain ⟨_, _, hnone⟩ := hD w hw
        cases hnone
      · exact ⟨c, hc, rfl⟩
    | some row =>
      simp only [Run.bind_eq_ok, Run.reject_eq_ok, not_not] at hrun
      obtain ⟨_, hrow, hrun⟩ := hrun
      cases hrun
      rintro w (hw | rfl)
      · rw [← hrow]
        exact hD w hw
      · exact ⟨c, hc, rfl⟩

/-- The table records the bytes of `D`, and the last byte is the highest of them. -/
structure SmemClaims (tv : Layout) (smemBytes : ComposedLayout) (state : SmemOwners)
    (D : Set (ℤ × ℤ × ℤ)) : Prop where
  owned : state.1.Owned (byteKey tv smemBytes) D
  le_last : ∀ p ∈ D, ∃ o, byteKey tv smemBytes p = some o ∧ 0 ≤ o ∧ o ≤ state.2
  last : state.2 = -1 ∨ ∃ p ∈ D, byteKey tv smemBytes p = some state.2

variable {smemBytes : ComposedLayout} {state state' : SmemOwners} {D : Set (ℤ × ℤ × ℤ)}

/-- No byte is claimed at the start. -/
theorem smemClaims_empty : SmemClaims tv smemBytes (Ledger.empty, -1) ∅ :=
  ⟨Ledger.owned_empty, by simp, Or.inl rfl⟩

/-- A byte that is claimed was free, and is the next of its value. -/
theorem SmemClaims.claimByte {thread value cell b : ℤ} (h : SmemClaims tv smemBytes state D)
    (hcell : tv.checkedCall (tvCoord thread value) = some cell)
    (hrun : claimByte smemBytes thread value cell state b = .ok state') :
    SmemClaims tv smemBytes state' (D ∪ {(thread, value, b)}) := by
  obtain ⟨owners, lastByte⟩ := state
  simp only [Cute.claimByte, Run.bind_eq_ok, Run.okOr_eq_ok, Run.reject_eq_ok, not_lt] at hrun
  obtain ⟨o, ho, _, h0, _, _, hrun⟩ := hrun
  split at hrun
  · cases hrun
  · rename_i hfree
    cases hrun
    have hkey : byteKey tv smemBytes (thread, value, b) = some o := by
      simp only [byteKey, hcell, Option.bind_eq_bind, Option.bind_some, ho]
    refine ⟨h.owned.insert hkey hfree, ?_, ?_⟩
    · rintro p (hp | rfl)
      · obtain ⟨o', ho', h0', hle⟩ := h.le_last p hp
        exact ⟨o', ho', h0', hle.trans (le_max_left _ _)⟩
      · exact ⟨o, hkey, h0, le_max_right _ _⟩
    · by_cases hle : lastByte ≤ o
      · exact Or.inr ⟨_, Or.inr rfl, by rw [hkey, max_eq_right hle]⟩
      · rw [max_eq_left (not_le.mp hle).le]
        rcases h.last with hnone | ⟨p, hp, hlast⟩
        · exact Or.inl hnone
        · exact Or.inr ⟨p, Or.inl hp, hlast⟩

/-- The bytes of a value are claimed one after the other. -/
theorem SmemClaims.claimValue {thread value : ℤ} (h : SmemClaims tv smemBytes state D)
    (hrun : claimValue tv elementBytes smemBytes thread state value = .ok state') :
    SmemClaims tv smemBytes state'
      (D ∪ ⋃ b ∈ Int.range 0 elementBytes, {(thread, value, b)}) := by
  simp only [Cute.claimValue, Run.bind_eq_ok, Run.okOr_eq_ok] at hrun
  obtain ⟨cell, hcell, hrun⟩ := hrun
  exact Run.foldlM_collects (P := SmemClaims tv smemBytes)
    (fun b _ _ _ _ hD hpass => hD.claimByte hcell hpass) h hrun

/-- **The shared-memory map.**  No byte has two writers, all bytes lie in the capacity, and no
smaller number of elements holds them. -/
theorem validatePhysicalSmemMap_spec {capacity : ℤ} (hT : 0 < threadCount)
    (hV : 0 < valuesPerThread) (he : 0 < elementBytes)
    (h : validatePhysicalSmemMap tv threadCount valuesPerThread elementBytes smemBytes =
      .ok capacity) :
    Set.InjOn (byteKey tv smemBytes) (copyBytes threadCount valuesPerThread elementBytes) ∧
      (∀ p ∈ copyBytes threadCount valuesPerThread elementBytes,
        ∃ o ∈ Set.Ico 0 (capacity * elementBytes), byteKey tv smemBytes p = some o) ∧
      ∀ n, (∀ p ∈ copyBytes threadCount valuesPerThread elementBytes,
        ∀ o, byteKey tv smemBytes p = some o → o < n * elementBytes) → capacity ≤ n := by
  -- the loop collects the bytes of every thread and value
  obtain ⟨state, hloop, h⟩ := Run.bind_eq_ok.mp h
  have hall := Run.foldlM_collects (P := SmemClaims tv smemBytes)
    (A := fun t => ⋃ v ∈ Int.range 0 valuesPerThread, ⋃ b ∈ Int.range 0 elementBytes, {(t, v, b)})
    (fun t _ _ _ _ hD hrun => Run.foldlM_collects (P := SmemClaims tv smemBytes)
      (fun v _ _ _ _ hD hpass => hD.claimValue hpass) hD hrun) smemClaims_empty hloop
  -- the nested ranges are the set of copied bytes
  have hset : (∅ ∪ ⋃ t ∈ Int.range 0 threadCount, ⋃ v ∈ Int.range 0 valuesPerThread,
      ⋃ b ∈ Int.range 0 elementBytes, {(t, v, b)}) =
      copyBytes threadCount valuesPerThread elementBytes := by
    ext ⟨t, v, b⟩
    simp only [Set.empty_union, Set.mem_iUnion, Int.mem_range_iff, Set.mem_singleton_iff,
      Prod.mk.injEq, copyBytes, Set.mem_prod, Set.mem_Ico]
    exact ⟨fun ⟨_, ht, _, hv, _, hb, h1, h2, h3⟩ => h1 ▸ h2 ▸ h3 ▸ ⟨ht, hv, hb⟩,
      fun ⟨ht, hv, hb⟩ => ⟨t, ht, v, hv, b, hb, rfl, rfl, rfl⟩⟩
  rw [hset] at hall
  obtain ⟨owners, lastByte⟩ := state
  simp only [Run.bind_eq_ok, Run.okOr_eq_ok, I64.checkedAdd_eq_some] at h
  obtain ⟨_, ⟨_, rfl⟩, slack, hslack, _, ⟨_, rfl⟩, _, _, hok⟩ := h
  obtain rfl := (I64.sub_implements _ _).eq_of_ok hslack
  cases hok
  -- the capacity is the last byte, rounded up to elements
  have hcap : (lastByte + 1 + (elementBytes - 1)) / elementBytes = lastByte / elementBytes + 1 := by
    have hsum : lastByte + 1 + (elementBytes - 1) = lastByte + elementBytes := by ring
    rw [hsum, Int.add_ediv_of_dvd_right dvd_rfl, Int.ediv_self he.ne']
  rw [hcap]
  refine ⟨hall.owned.injOn, fun p hp => ?_, fun n hn => ?_⟩
  · obtain ⟨o, ho, h0, hle⟩ := hall.le_last p hp
    refine ⟨o, ⟨h0, ?_⟩, ho⟩
    have hlast := Int.lt_ediv_add_one_mul_self lastByte he
    exact hle.trans_lt hlast
  · -- the highest byte is written, as there is a byte at all
    obtain ⟨p, hp, hlast⟩ := hall.last.resolve_left fun hlast => by
      obtain ⟨o, _, h0, hle⟩ := hall.le_last (0, 0, 0) ⟨⟨le_rfl, hT⟩, ⟨le_rfl, hV⟩, le_rfl, he⟩
      rw [hlast] at hle
      omega
    exact Int.ediv_lt_of_lt_mul he (hn p hp _ hlast)

/-- The expected place of a cell of a row-major tile. -/
theorem validateCanonicalRowMajorTileLayout_spec {tileLayout : Layout} {rows columns size c : ℤ}
    (h : validateCanonicalRowMajorTileLayout tileLayout rows columns = .ok ())
    (hsize : tileLayout.checkedSize = some size) (hc : c ∈ Set.Ico 0 size) :
    tileLayout.checkedCall (.leaf c) = some (c % rows * columns + c / rows) := by
  simp only [validateCanonicalRowMajorTileLayout, checkedPlanLayoutSize, Run.bind_eq_ok,
    Run.okOr_eq_ok, hsize, Option.some.injEq] at h
  obtain ⟨_, ⟨_, rfl, _, _, hn⟩, h⟩ := h
  cases hn
  have hcell := Run.forM_eq_ok.mp h c (Int.mem_range_iff.mpr hc)
  simp only [Run.bind_eq_ok, Run.okOr_eq_ok, Run.reject_eq_ok, not_not, Option.bind_eq_bind,
    Option.bind_eq_some_iff, I64.checkedMul_eq_some, I64.checkedAdd_eq_some] at hcell
  obtain ⟨_, _, _, ⟨_, ⟨_, rfl⟩, _, rfl⟩, _, hcall, rfl⟩ := hcell
  exact hcall

/-- The elements of a tile of two positive extents. -/
theorem tilerElements_pair {rows columns n : ℤ} (h : tilerElements [rows, columns] = .ok n) :
    0 < rows ∧ 0 < columns ∧ n = rows * columns := by
  simp only [tilerElements, List.foldlM_cons, List.foldlM_nil, Run.bind_eq_ok,
    positiveCount_eq_ok, Run.okOr_eq_ok, I64.checkedMul_eq_some, one_mul, Run.pure_eq_ok] at h
  obtain ⟨_, ⟨_, ⟨hr, rfl⟩, _, rfl⟩, _, ⟨_, ⟨hc, rfl⟩, _, rfl⟩, rfl⟩ := h
  exact ⟨hr, hc, rfl⟩

/-! ### What an accepted plan guarantees -/

namespace CooperativeCopyPlan

variable {plan : CooperativeCopyPlan} {atomBytes : ℕ}
  {threadLayout valueLayout tileLayout : Layout} {smemLayout : ComposedLayout}

/-- The maps and sizes of the plan are those of the layouts it is made from. -/
structure BuiltFrom (plan : CooperativeCopyPlan) (threadLayout valueLayout tileLayout : Layout)
    (smemLayout : ComposedLayout) (elementBytes : ℤ) : Prop where
  threads : threadLayout.checkedSize = some plan.threadCount
  values : valueLayout.checkedSize = some plan.valuesPerThread
  tile : tileLayout.checkedSize = some plan.tileElements
  tv : makeLayoutTv threadLayout valueLayout = .ok (plan.tilerShape, plan.tvLayout)
  gmem : (ComposedLayout.fromLayout tileLayout .elements).toByteOffsets elementBytes =
    .ok plan.gmemByteLayout
  smem : smemLayout.toByteOffsets elementBytes = .ok plan.smemByteLayout

/-- `cell`, `gmem` and `smem` tabulate what the maps of the plan compute for every thread, value
and byte. -/
structure Evaluates (plan : CooperativeCopyPlan) (elementBytes : ℤ) (cell : ℤ × ℤ → ℤ)
    (gmem smem : ℤ × ℤ × ℤ → ℤ) : Prop where
  tv : ∀ thread ∈ Set.Ico 0 plan.threadCount, ∀ value ∈ Set.Ico 0 plan.valuesPerThread,
    (plan.tvLayout.call (tvCoord thread value) : Run String ℤ) = .ok (cell (thread, value))
  gmem : ∀ p ∈ copyBytes plan.threadCount plan.valuesPerThread elementBytes,
    (plan.gmemByteLayout.callWithOuterDelta (.leaf (cell (p.1, p.2.1))) p.2.2 : Run String ℤ) =
      .ok (gmem p)
  smem : ∀ p ∈ copyBytes plan.threadCount plan.valuesPerThread elementBytes,
    (plan.smemByteLayout.callWithOuterDelta (.leaf (cell (p.1, p.2.1))) p.2.2 : Run String ℤ) =
      .ok (smem p)

/-- The checks that a plan has passed, in terms of the plan. -/
structure Passed (plan : CooperativeCopyPlan) (atomBytes : ℕ) (tileLayout : Layout)
    (elementBytes rows columns : ℤ) : Prop where
  atom_pos : 0 < atomBytes
  element_pos : 0 < elementBytes
  element_dvd : elementBytes ∣ atomBytes
  shape : plan.tilerShape = [rows, columns]
  tiler : tilerElements [rows, columns] = .ok plan.tileElements
  coverage : validateTvExactCoverage plan.tvLayout plan.threadCount plan.valuesPerThread
    plan.tileElements = .ok ()
  canonical : validateCanonicalRowMajorTileLayout tileLayout rows columns = .ok ()
  atomRows : validateSourceAtomRows plan.tvLayout plan.threadCount plan.valuesPerThread
    (atomBytes / elementBytes) rows = .ok ()
  gmem : validatePerThreadAtomContiguity plan.tvLayout plan.threadCount plan.valuesPerThread
    atomBytes elementBytes plan.gmemByteLayout atomBytes = .ok ()
  smem : validatePerThreadAtomContiguity plan.tvLayout plan.threadCount plan.valuesPerThread
    atomBytes elementBytes plan.smemByteLayout atomBytes = .ok ()
  physical : validatePhysicalSmemMap plan.tvLayout plan.threadCount plan.valuesPerThread
    elementBytes plan.smemByteLayout = .ok plan.minimumSmemCapacity

/-- The size that a check of the plan returns is the checked size. -/
theorem checkedPlanLayoutSize_eq_ok {layout : Layout} {role : String} {n : ℤ}
    (h : checkedPlanLayoutSize layout role = .ok n) : layout.checkedSize = some n := by
  simp only [checkedPlanLayoutSize, Run.bind_eq_ok, Run.okOr_eq_ok] at h
  obtain ⟨_, hsize, _, _, hn⟩ := h
  cases hn
  exact hsize

/-- The steps of an accepting run. -/
theorem passed_of_ok
    (h : validateCooperativeCopyPlan atomBytes threadLayout valueLayout tileLayout smemLayout
      elementBytes = .ok plan) :
    plan.BuiltFrom threadLayout valueLayout tileLayout smemLayout elementBytes ∧
      ∃ rows columns, plan.Passed atomBytes tileLayout elementBytes rows columns := by
  simp only [validateCooperativeCopyPlan, Run.bind_eq_ok, Run.reject_eq_ok, Run.okOr_eq_ok,
    Run.mapErr_eq_ok, not_not, Bool.not_eq_false] at h
  obtain ⟨_, hatom, _, hpow, _, _, _, hdvd, threadCount, hthreads, valuesPerThread, hvalues,
    tileElements, htile, _, _, assignments, hassign, _, rfl, _, _, _, _, _, _, _, _, _, _, _, _,
    ⟨tilerShape, tvLayout⟩, htv, _, htvl, tileShape, _, _, hlen, _, rfl, _, hcov, rows', hrow,
    columns', hcolumn, _, hcanon, _, _, _, _, _, _, _, hrows, gmemByteLayout, hgmem, _, hgrun,
    smemByteLayout, hsmem, _, hsrun, capacity, hphys, hplan⟩ := h
  cases hplan
  have hpos : 0 < elementBytes := by
    simp only [isPositivePowerOfTwo, decide_eq_true_eq] at hpow
    exact hpow.1
  obtain ⟨rows, columns, rfl⟩ := List.length_eq_two.mp (not_or.mp hlen |>.1 |> not_not.mp)
  obtain rfl : rows = rows' := Option.some.inj (Run.index_eq_ok.mp hrow)
  obtain rfl : columns = columns' := Option.some.inj (Run.index_eq_ok.mp hcolumn)
  have hthreads := checkedPlanLayoutSize_eq_ok hthreads
  have hvalues := checkedPlanLayoutSize_eq_ok hvalues
  refine ⟨⟨hthreads, hvalues, checkedPlanLayoutSize_eq_ok htile, htv, hgmem, hsmem⟩,
    rows, columns, ⟨by omega, hpos, Int.dvd_of_emod_eq_zero hdvd, rfl, ?_, hcov, hcanon, hrows,
      hgrun, hsrun, hphys⟩⟩
  simp only [validateTvLayout, Run.bind_eq_ok, Run.okOr_eq_ok, hthreads, hvalues,
    Option.some.injEq] at htvl
  obtain ⟨_, _, n, htiler, _, rfl, _, rfl, hcovn⟩ := htvl
  obtain ⟨_, _, hn, _⟩ := validateTvExactCoverage_spec hcovn
  obtain ⟨_, _, hn', _⟩ := validateTvExactCoverage_spec hcov
  rw [htiler, ← hn, ← hn']

/-- A byte of global memory lies in the row of its cell. -/
theorem Passed.gmem_mem_row {rows columns o c : ℤ} {p : ℤ × ℤ × ℤ}
    (hpass : plan.Passed atomBytes tileLayout elementBytes rows columns)
    (hbuilt : plan.BuiltFrom threadLayout valueLayout tileLayout smemLayout elementBytes)
    (hcell : plan.tvLayout.checkedCall (tvCoord p.1 p.2.1) = some c)
    (hc : c ∈ Set.Ico 0 plan.tileElements) (hb : p.2.2 ∈ Set.Ico 0 elementBytes)
    (hkey : byteKey plan.tvLayout plan.gmemByteLayout p = some o) :
    o ∈ Set.Ico (c % rows * columns * elementBytes) ((c % rows + 1) * columns * elementBytes) := by
  obtain ⟨hrows, _, htile⟩ := tilerElements_pair hpass.tiler
  have hplace := validateCanonicalRowMajorTileLayout_spec hpass.canonical hbuilt.tile hc
  simp only [byteKey, hcell, Option.bind_eq_bind, Option.bind_some] at hkey
  rw [ComposedLayout.fromLayout_toByteOffsets hbuilt.gmem hplace hkey]
  have hcolumn0 : 0 ≤ c / rows := Int.ediv_nonneg hc.1 hrows.le
  have hcolumn : c / rows + 1 ≤ columns :=
    Int.ediv_lt_of_lt_mul hrows (by rw [mul_comm, ← htile]; exact hc.2)
  have hcol := mul_le_mul_of_nonneg_right hcolumn hpass.element_pos.le
  have hcol0 := mul_nonneg hcolumn0 hpass.element_pos.le
  constructor
  · linarith [hb.1]
  · linarith [hb.2]

/-- **Soundness of the validator.**  The thread/value map of an accepted plan is a bijection onto
the cells of the tile; every atom is an aligned run of bytes inside one row of global memory and
an aligned run of shared memory; no shared byte has two writers; and the capacity is the least
number of elements that holds all shared bytes written. -/
theorem validateCooperativeCopyPlan_sound
    (h : validateCooperativeCopyPlan atomBytes threadLayout valueLayout tileLayout smemLayout
      elementBytes = .ok plan) :
    plan.BuiltFrom threadLayout valueLayout tileLayout smemLayout elementBytes ∧
      ∃ (rows columns : ℤ) (cell : ℤ × ℤ → ℤ) (gmem smem : ℤ × ℤ × ℤ → ℤ),
        plan.tilerShape = [rows, columns] ∧ plan.tileElements = rows * columns ∧
        plan.Evaluates elementBytes cell gmem smem ∧
        Set.BijOn cell (Set.Ico 0 plan.threadCount ×ˢ Set.Ico 0 plan.valuesPerThread)
          (Set.Ico 0 plan.tileElements) ∧
        (∀ thread ∈ Set.Ico 0 plan.threadCount, ∀ firstValue ∈ Set.Ico 0 plan.valuesPerThread,
          (atomBytes : ℤ) / elementBytes ∣ firstValue →
            (∃ row,
              (∀ v ∈ Set.Ico firstValue (firstValue + atomBytes / elementBytes),
                cell (thread, v) % rows = row) ∧
              AlignedRun atomBytes (fun b => gmem (atomByte elementBytes thread firstValue b)) ∧
              ∀ b ∈ Set.Ico 0 (atomBytes : ℤ), gmem (atomByte elementBytes thread firstValue b) ∈
                Set.Ico (row * columns * elementBytes) ((row + 1) * columns * elementBytes)) ∧
            AlignedRun atomBytes fun b => smem (atomByte elementBytes thread firstValue b)) ∧
        Set.InjOn smem (copyBytes plan.threadCount plan.valuesPerThread elementBytes) ∧
        Set.MapsTo smem (copyBytes plan.threadCount plan.valuesPerThread elementBytes)
          (Set.Ico 0 (plan.minimumSmemCapacity * elementBytes)) ∧
        ∀ n, Set.MapsTo smem (copyBytes plan.threadCount plan.valuesPerThread elementBytes)
          (Set.Ico 0 (n * elementBytes)) → plan.minimumSmemCapacity ≤ n := by
  obtain ⟨hbuilt, rows, columns, hpass⟩ := passed_of_ok h
  obtain ⟨hT, hV, _, cell, htab, hbij⟩ := validateTvExactCoverage_spec hpass.coverage
  obtain ⟨hrows, hcolumns, htile⟩ := tilerElements_pair hpass.tiler
  obtain ⟨hw, hwV⟩ := validatePerThreadAtomContiguity_dvd hpass.smem
  obtain ⟨hinj, hrange, hleast⟩ := validatePhysicalSmemMap_spec hT hV hpass.element_pos
    hpass.physical
  have he := hpass.element_pos
  have ha : 0 < (atomBytes : ℤ) := by exact_mod_cast hpass.atom_pos
  set tv := plan.tvLayout
  set gbytes := plan.gmemByteLayout
  set sbytes := plan.smemByteLayout
  -- a byte that has a place has it through the cell of its value
  have hplace : ∀ memory p o, p ∈ copyBytes plan.threadCount plan.valuesPerThread elementBytes →
      byteKey tv memory p = some o →
        memory.checkedCallWithOuterDelta (.leaf (cell (p.1, p.2.1))) p.2.2 = some o := by
    rintro memory ⟨t, v, b⟩ o ⟨ht, hv, _⟩ hkey
    simpa [byteKey, htab t ht v hv] using hkey
  have hgkey : ∀ p ∈ copyBytes plan.threadCount plan.valuesPerThread elementBytes,
      ∃ o, byteKey tv gbytes p = some o := by
    intro p hp
    obtain ⟨firstValue, hfirst, hdvd, b, hb, heq⟩ := exists_atomByte he hpass.element_dvd hw hp
    obtain ⟨start, _, hrun⟩ := validatePerThreadAtomContiguity_spec hpass.gmem hp.1 hfirst hdvd
    rw [heq]
    exact ⟨_, hrun b hb⟩
  refine ⟨hbuilt, rows, columns, cell, fun p => (byteKey tv gbytes p).getD 0,
    fun p => (byteKey tv sbytes p).getD 0, hpass.shape, htile, ⟨?_, ?_, ?_⟩, hbij, ?_, ?_, ?_, ?_⟩
  · intro t ht v hv
    exact Layout.call_of_checkedCall (htab t ht v hv)
  · intro p hp
    obtain ⟨o, ho⟩ := hgkey p hp
    simp only [ho, Option.getD_some]
    exact ComposedLayout.call_of_checkedCall (hplace gbytes p o hp ho)
  · intro p hp
    obtain ⟨o, _, ho⟩ := hrange p hp
    simp only [ho, Option.getD_some]
    exact ComposedLayout.call_of_checkedCall (hplace sbytes p o hp ho)
  · intro t ht first hfirst hdvd
    obtain ⟨row, hrow⟩ := validateSourceAtomRows_spec hpass.atomRows hw ht hfirst hdvd
    have hend : first + atomBytes / elementBytes ≤ plan.valuesPerThread :=
      add_le_of_dvd_of_lt hdvd hwV hfirst.2
    have hvalue : ∀ v ∈ Set.Ico first (first + atomBytes / elementBytes),
        v ∈ Set.Ico 0 plan.valuesPerThread ∧ cell (t, v) % rows = row := by
      intro v hv
      have hv' : v ∈ Set.Ico 0 plan.valuesPerThread :=
        ⟨hfirst.1.trans hv.1, hv.2.trans_le hend⟩
      obtain ⟨c, hc, hcrow⟩ := hrow v hv
      rw [htab t ht v hv'] at hc
      cases hc
      exact ⟨hv', hcrow⟩
    refine ⟨⟨row, fun v hv => (hvalue v hv).2,
      validatePerThreadAtomContiguity_alignedRun ha hpass.gmem ht hfirst hdvd, ?_⟩,
      validatePerThreadAtomContiguity_alignedRun ha hpass.smem ht hfirst hdvd⟩
    intro b hb
    have hmem := atomByte_mem he hpass.element_dvd ht hfirst hb hend
    obtain ⟨hv, hcrow⟩ := hvalue _ (atomByte_value_mem he hpass.element_dvd hb)
    obtain ⟨o, ho⟩ := hgkey _ hmem
    rw [← hcrow]
    simp only [ho, Option.getD_some]
    exact hpass.gmem_mem_row hbuilt (htab t ht _ hv) (hbij.mapsTo ⟨ht, hv⟩) hmem.2.2 ho
  · intro p hp q hq heq
    obtain ⟨o, _, ho⟩ := hrange p hp
    obtain ⟨o', _, ho'⟩ := hrange q hq
    simp only [ho, ho', Option.getD_some] at heq
    exact hinj hp hq (by rw [ho, ho', heq])
  · intro p hp
    obtain ⟨o, hin, ho⟩ := hrange p hp
    simpa [ho] using hin
  · intro n hn
    refine hleast n fun p hp o ho => ?_
    have hlt := (hn hp).2
    simpa [ho] using hlt

/-- A `2 × 2` tile of 4-byte elements, copied by two threads into swizzled shared memory. -/
theorem validateCooperativeCopyPlan_sound_swizzled :
    ∃ plan, validateCooperativeCopyPlan 8 ⟨.tuple [.leaf 2, .leaf 1], .tuple [.leaf 1, .leaf 0]⟩
        ⟨.tuple [.leaf 1, .leaf 2], .tuple [.leaf 0, .leaf 1]⟩
        ⟨.tuple [.leaf 2, .leaf 2], .tuple [.leaf 2, .leaf 1]⟩
        ⟨⟨1, 1, 1⟩, 4, ⟨.tuple [.leaf 2, .leaf 2], .tuple [.leaf 2, .leaf 1]⟩, .elements, by decide⟩
        4 = .ok plan ∧
      plan.minimumSmemCapacity = 8 ∧ ∃ rows columns, plan.tilerShape = [rows, columns] := by
  have hrun : (do
      let plan ← validateCooperativeCopyPlan 8
        ⟨.tuple [.leaf 2, .leaf 1], .tuple [.leaf 1, .leaf 0]⟩
        ⟨.tuple [.leaf 1, .leaf 2], .tuple [.leaf 0, .leaf 1]⟩
        ⟨.tuple [.leaf 2, .leaf 2], .tuple [.leaf 2, .leaf 1]⟩
        ⟨⟨1, 1, 1⟩, 4, ⟨.tuple [.leaf 2, .leaf 2], .tuple [.leaf 2, .leaf 1]⟩,
          .elements, by decide⟩ 4
      .ok plan.minimumSmemCapacity) = .ok 8 := by decide +kernel
  obtain ⟨plan, hrun, hcapacity⟩ := Run.bind_eq_ok.mp hrun
  obtain ⟨_, rows, columns, _, _, _, hshape, _⟩ := validateCooperativeCopyPlan_sound hrun
  exact ⟨plan, hrun, Except.ok.inj hcapacity, rows, columns, hshape⟩

end CooperativeCopyPlan

end CudaOxide.Cute
