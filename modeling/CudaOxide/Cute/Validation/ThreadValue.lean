import CudaOxide.Cute.Composed

namespace CudaOxide.Cute

open Lib

/-!
# Thread ownership, exact coverage and copy atoms

The checks of `validation/thread_value.rs`, with the errors of `validation/error.rs`.  A checker
that divides has made sure before that the divisor is positive; but for `rem_euclid` it divides
nonnegative numbers, where the machine's quotient and remainder are those of `ℤ`.

* `validateTvExactCoverage_spec` — an accepted thread/value layout is a bijection from threads
  and values onto the cells of the tile.
* `validatePerThreadAtomContiguity_spec` — every accepted copy atom is one aligned run of bytes;
  `exists_atomByte` — every byte belongs to an atom.
-/

/-- Failure reported by one layout check. -/
inductive ValidationError where
  | invalidCount (name : String) (value : ℤ)
  | countTooLarge (name : String) (value : ℤ)
  | threadOutOfRange (coordinate thread threadCount : ℤ)
  | duplicateThread (thread firstCoordinate secondCoordinate : ℤ)
  | tvRank (actual : ℕ)
  | tvModeSize (mode : String) (expected actual : ℤ)
  | tvCardinality (assignments tileElements : ℤ)
  | tvOutOfRange (thread value cell tileElements : ℤ)
  | duplicateCell (cell : ℤ) (firstOwner secondOwner : ℤ × ℤ)
  | missingCell (cell : ℤ)
  | atomDoesNotDivide (axis : String) (copyCount atomCount : ℤ)
  | atomSize (atomBytes elementBytes : ℤ)
  | atomNeedsByteLayout
  | baseAlignment (required guaranteed : ℤ)
  | atomStartMisaligned (thread value offset atomBytes : ℤ)
  | atomNotContiguous (thread value byteInAtom expected actual : ℤ)
  | arithmeticOverflow (context : String)
  deriving DecidableEq, Repr

instance : ToString ValidationError where
  toString
    | .invalidCount name value => s!"{name} must be positive, got {value}"
    | .countTooLarge name value => s!"{name}={value} cannot be enumerated on this host"
    | .threadOutOfRange coordinate thread threadCount =>
      s!"thread layout coordinate {coordinate} maps to thread {thread}, outside 0..{threadCount}"
    | .duplicateThread thread firstCoordinate secondCoordinate =>
      s!"thread {thread} is produced twice, by coordinates {firstCoordinate} and {secondCoordinate}"
    | .tvRank actual => s!"TV layout must have (thread,value) modes, got rank {actual}"
    | .tvModeSize mode expected actual =>
      s!"TV {mode} mode has size {actual}, expected {expected}"
    | .tvCardinality assignments tileElements =>
      s!"TV layout has {assignments} assignments for a {tileElements}-element tile"
    | .tvOutOfRange thread value cell tileElements =>
      s!"TV ({thread},{value}) maps to cell {cell}, outside 0..{tileElements}"
    | .duplicateCell cell (firstThread, firstValue) (thread, value) =>
      s!"tile cell {cell} has two owners: TV ({firstThread},{firstValue}) and TV ({thread},{value})"
    | .missingCell cell => s!"tile cell {cell} has no TV owner"
    | .atomDoesNotDivide axis copyCount atomCount =>
      s!"copy {axis} count {copyCount} is not divisible by atom {axis} count {atomCount}"
    | .atomSize atomBytes elementBytes =>
      s!"a {atomBytes}-byte atom cannot be split into {elementBytes}-byte elements"
    | .atomNeedsByteLayout => "atom contiguity must be checked with a byte-offset layout"
    | .baseAlignment required guaranteed =>
      s!"atom needs {required}-byte base alignment, but only {guaranteed} bytes are guaranteed"
    | .atomStartMisaligned thread value offset atomBytes =>
      s!"TV ({thread},{value}) starts at byte {offset}, not a {atomBytes}-byte boundary"
    | .atomNotContiguous thread value byteInAtom expected actual =>
      s!"TV atom ({thread},{value}) breaks at byte {byteInAtom}: expected {expected}, got {actual}"
    | .arithmeticOverflow context => s!"integer overflow while checking {context}"

/-! ### The checks -/

/-- `MAX_STATIC_VALIDATION_ELEMENTS` -/
def maxStaticValidationElements : ℤ := 2 ^ 20

/-- `MAX_STATIC_VALIDATION_BYTES` -/
def maxStaticValidationBytes : ℤ := 2 ^ 20

/-- `MAX_COOPERATIVE_THREADS` -/
def maxCooperativeThreads : ℤ := 1024

/-- `MAX_STATIC_LAYOUT_OFFSET_MAGNITUDE` -/
def maxStaticLayoutOffsetMagnitude : ℕ := 2 ^ 20

/-- The coordinate of one thread and its local value. -/
def tvCoord (thread value : ℤ) : IntTuple := .tuple [.leaf thread, .leaf value]

/-- A count that must be positive. -/
def positiveCount (name : String) (value : ℤ) : Run ValidationError ℤ :=
  if value ≤ 0 then Run.fail (.invalidCount name value) else .ok value

/-- The conversion to the host's index type, which changes no value it accepts. -/
def hostCount (name : String) (value : ℤ) : Run ValidationError Unit :=
  Run.reject (maxStaticValidationElements < value ∨ value < 0) (.countTooLarge name value)

/-- One pass of the loop of `validate_compact_thread_layout`. -/
def claimThread (threadLayout : Layout) (threadCount : ℤ) (owners : Ledger ℤ ℤ) (coordinate : ℤ) :
    Run ValidationError (Ledger ℤ ℤ) := do
  let thread ← Run.okOr (threadLayout.checkedCall (.leaf coordinate))
    (.arithmeticOverflow "thread-layout address")
  Run.reject (¬(0 ≤ thread ∧ thread < threadCount))
    (.threadOutOfRange coordinate thread threadCount)
  match owners thread with
  | some firstCoordinate => Run.fail (.duplicateThread thread firstCoordinate coordinate)
  | none => .ok (owners.insert thread coordinate)

/-- Every thread number below the size is produced once. -/
def validateCompactThreadLayout (threadLayout : Layout) : Run ValidationError Unit := do
  let threadCount ← Run.okOr threadLayout.checkedSize (.arithmeticOverflow "thread layout size")
  hostCount "thread count" threadCount
  let _ ← (Int.range 0 threadCount).foldlM (claimThread threadLayout threadCount) Ledger.empty
  .ok ()

/-- One pass of the inner loop of `validate_tv_exact_coverage`. -/
def claimCell (tv : Layout) (tileElements thread : ℤ) (owners : Ledger ℤ (ℤ × ℤ)) (value : ℤ) :
    Run ValidationError (Ledger ℤ (ℤ × ℤ)) := do
  let cell ← Run.okOr (tv.checkedCall (tvCoord thread value))
    (.arithmeticOverflow "TV-layout address")
  Run.reject (¬(0 ≤ cell ∧ cell < tileElements)) (.tvOutOfRange thread value cell tileElements)
  match owners cell with
  | some firstOwner => Run.fail (.duplicateCell cell firstOwner (thread, value))
  | none => .ok (owners.insert cell (thread, value))

/-- The thread/value layout owns every cell of the tile once. -/
def validateTvExactCoverage (tv : Layout) (threadCount valuesPerThread tileElements : ℤ) :
    Run ValidationError Unit := do
  let threadCount ← positiveCount "thread count" threadCount
  let valuesPerThread ← positiveCount "values per thread" valuesPerThread
  let tileElements ← positiveCount "tile elements" tileElements
  match tv.modes with
  | [threadMode, valueMode] => do
    let threadModeSize ← Run.okOr threadMode.checkedSize
      (.arithmeticOverflow "TV thread-mode size")
    Run.reject (threadModeSize ≠ threadCount) (.tvModeSize "thread" threadCount threadModeSize)
    let valueModeSize ← Run.okOr valueMode.checkedSize (.arithmeticOverflow "TV value-mode size")
    Run.reject (valueModeSize ≠ valuesPerThread)
      (.tvModeSize "value" valuesPerThread valueModeSize)
    let assignments ← Run.okOr (I64.checkedMul threadCount valuesPerThread)
      (.arithmeticOverflow "TV assignment count")
    Run.reject (assignments ≠ tileElements) (.tvCardinality assignments tileElements)
    hostCount "tile elements" tileElements
    let owners ← (Int.range 0 threadCount).foldlM (fun owners thread =>
      (Int.range 0 valuesPerThread).foldlM (claimCell tv tileElements thread) owners) Ledger.empty
    match (Int.range 0 tileElements).find? fun cell => (owners cell).isNone with
    | some cell => Run.fail (.missingCell cell)
    | none => .ok ()
  | modes => Run.fail (.tvRank modes.length)

/-- The product of the extents of the tiler, each of them positive. -/
def tilerElements (tilerShape : List ℤ) : Run ValidationError ℤ :=
  tilerShape.foldlM (fun product extent => do
    let extent ← positiveCount "tiler extent" extent
    Run.okOr (I64.checkedMul product extent) (.arithmeticOverflow "tiler element count")) 1

/-- `validate_tv_layout`: every cell of the tile has exactly one owner. -/
def validateTvLayout (threadLayout valueLayout : Layout) (tilerShape : List ℤ) (tv : Layout) :
    Run ValidationError Unit := do
  validateCompactThreadLayout threadLayout
  let tileElements ← tilerElements tilerShape
  let threadCount ← Run.okOr threadLayout.checkedSize (.arithmeticOverflow "thread layout size")
  let valuesPerThread ← Run.okOr valueLayout.checkedSize
    (.arithmeticOverflow "value layout size")
  validateTvExactCoverage tv threadCount valuesPerThread tileElements

/-- The copy consists of whole groups of its atom. -/
def validateAtomCompatibility
    (copyThreads copyValuesPerThread atomThreads atomValuesPerThread : ℤ) :
    Run ValidationError Unit := do
  let copyThreads ← positiveCount "copy thread count" copyThreads
  let copyValuesPerThread ← positiveCount "copy values per thread" copyValuesPerThread
  let atomThreads ← positiveCount "atom thread count" atomThreads
  let atomValuesPerThread ← positiveCount "atom values per thread" atomValuesPerThread
  I64.divisor atomThreads
  Run.reject (copyThreads % atomThreads ≠ 0)
    (.atomDoesNotDivide "thread" copyThreads atomThreads)
  I64.divisor atomValuesPerThread
  Run.reject (copyValuesPerThread % atomValuesPerThread ≠ 0)
    (.atomDoesNotDivide "value" copyValuesPerThread atomValuesPerThread)

/-- The loops over the bytes of the atom of `thread` that starts at `firstValue`. -/
def checkAtom (tv : Layout) (atomBytes elementBytes : ℤ) (memory : ComposedLayout)
    (thread firstValue : ℤ) : Run ValidationError Unit := do
  let firstCell ← Run.okOr (tv.checkedCall (tvCoord thread firstValue))
    (.arithmeticOverflow "TV atom start")
  let firstOffset ← Run.okOr (memory.checkedCall (.leaf firstCell))
    (.arithmeticOverflow "memory atom start")
  I64.divisor atomBytes
  Run.reject (firstOffset % atomBytes ≠ 0)
    (.atomStartMisaligned thread firstValue firstOffset atomBytes)
  (Int.range 0 atomBytes).forM fun byteInAtom => do
    I64.divisor elementBytes
    let valueDelta := byteInAtom / elementBytes
    let byteInElement := byteInAtom % elementBytes
    let value ← Run.okOr (I64.checkedAdd firstValue valueDelta)
      (.arithmeticOverflow "TV atom value")
    let cell ← Run.okOr (tv.checkedCall (tvCoord thread value))
      (.arithmeticOverflow "TV atom address")
    let actual ← Run.okOr (memory.checkedCallWithOuterDelta (.leaf cell) byteInElement)
      (.arithmeticOverflow "memory atom address")
    let expected ← Run.okOr (I64.checkedAdd firstOffset byteInAtom)
      (.arithmeticOverflow "expected atom byte address")
    Run.reject (actual ≠ expected)
      (.atomNotContiguous thread firstValue byteInAtom expected actual)

/-- Every one-thread atom is one aligned, consecutive byte range of `memory`. -/
def validatePerThreadAtomContiguity (tv : Layout) (threadCount valuesPerThread : ℤ)
    (atomBytes elementBytes : ℤ) (memory : ComposedLayout) (baseAlignmentBytes : ℤ) :
    Run ValidationError Unit := do
  let atomBytes ← positiveCount "atom bytes" atomBytes
  let elementBytes ← positiveCount "element bytes" elementBytes
  I64.divisor elementBytes
  Run.reject (atomBytes % elementBytes ≠ 0) (.atomSize atomBytes elementBytes)
  Run.reject (memory.unit ≠ .bytes) .atomNeedsByteLayout
  let memorySize ← Run.okOr memory.outer.checkedSize (.arithmeticOverflow "memory layout size")
  validateTvExactCoverage tv threadCount valuesPerThread memorySize
  let valuesPerAtom := atomBytes / elementBytes
  hostCount "atom values per thread" valuesPerAtom
  validateAtomCompatibility threadCount valuesPerThread 1 valuesPerAtom
  let baseAlignmentBytes ← positiveCount "base alignment" baseAlignmentBytes
  I64.divisor atomBytes
  Run.reject (baseAlignmentBytes % atomBytes ≠ 0) (.baseAlignment atomBytes baseAlignmentBytes)
  (Int.range 0 threadCount).forM fun thread => do
    I64.divisor valuesPerAtom
    (rangeBy 0 valuesPerThread valuesPerAtom).forM fun firstValue =>
      checkAtom tv atomBytes elementBytes memory thread firstValue

/-! ### What the checks establish -/

variable {tv : Layout} {threadCount valuesPerThread tileElements : ℤ} {cell : ℤ × ℤ → ℤ}

/-- A count passes if it is positive. -/
@[simp] theorem positiveCount_eq_ok {name : String} {value n : ℤ} :
    positiveCount name value = .ok n ↔ 0 < value ∧ value = n := by
  unfold positiveCount
  split
  · exact ⟨fun h => absurd h Run.fail_ne_ok, fun h => absurd h.1 (not_lt.mpr ‹_›)⟩
  · exact ⟨fun h => by cases h; exact ⟨not_le.mp ‹_›, rfl⟩, fun h => by rw [h.2]⟩

/-- `cell` tabulates the thread/value layout on all threads and values. -/
def Tabulates (tv : Layout) (threadCount valuesPerThread : ℤ) (cell : ℤ × ℤ → ℤ) : Prop :=
  ∀ thread ∈ Set.Ico 0 threadCount, ∀ value ∈ Set.Ico 0 valuesPerThread,
    tv.checkedCall (tvCoord thread value) = some (cell (thread, value))

/-- The cell a thread/value pair claims. -/
def tvKey (tv : Layout) (p : ℤ × ℤ) : Option ℤ := tv.checkedCall (tvCoord p.1 p.2)

/-- The table records the pairs of `D`, and each of them has a cell of the tile. -/
def Covers (tv : Layout) (tileElements : ℤ) (owners : Ledger ℤ (ℤ × ℤ)) (D : Set (ℤ × ℤ)) :
    Prop :=
  owners.Owned (tvKey tv) D ∧ ∀ p ∈ D, ∃ c ∈ Set.Ico 0 tileElements, tvKey tv p = some c

/-- A cell that is claimed was free, and is inside the tile. -/
theorem Covers.claimCell {thread value : ℤ} {owners owners' : Ledger ℤ (ℤ × ℤ)}
    {D : Set (ℤ × ℤ)} (h : Covers tv tileElements owners D)
    (hrun : claimCell tv tileElements thread owners value = .ok owners') :
    Covers tv tileElements owners' (D ∪ {(thread, value)}) := by
  simp only [Cute.claimCell, Run.bind_eq_ok, Run.okOr_eq_ok, Run.reject_eq_ok, not_not] at hrun
  obtain ⟨c, hc, _, hrange, hrun⟩ := hrun
  split at hrun
  · cases hrun
  · rename_i hfree
    cases hrun
    refine ⟨h.1.insert hc hfree, ?_⟩
    rintro p (hp | rfl)
    · exact h.2 p hp
    · exact ⟨c, hrange, hc⟩

/-- The nested loops over all threads and values. -/
theorem covers_all {owners : Ledger ℤ (ℤ × ℤ)}
    (h : (Int.range 0 threadCount).foldlM (fun owners thread => (Int.range 0 valuesPerThread).foldlM
      (claimCell tv tileElements thread) owners) Ledger.empty = .ok owners) :
    Covers tv tileElements owners (Set.Ico 0 threadCount ×ˢ Set.Ico 0 valuesPerThread) := by
  have hall := Run.foldlM_collects (P := Covers tv tileElements)
    (A := fun t => ⋃ v ∈ Int.range 0 valuesPerThread, {(t, v)})
    (fun t _ owners owners' D hD hrun => Run.foldlM_collects (P := Covers tv tileElements)
      (fun v _ _ _ _ hD hrun => hD.claimCell hrun) hD hrun)
    ⟨Ledger.owned_empty, by simp⟩ h
  have hset : (∅ ∪ ⋃ t ∈ Int.range 0 threadCount, ⋃ v ∈ Int.range 0 valuesPerThread, {(t, v)} :
      Set (ℤ × ℤ)) = Set.Ico 0 threadCount ×ˢ Set.Ico 0 valuesPerThread := by
    ext ⟨t, v⟩
    simp only [Set.empty_union, Set.mem_iUnion, Int.mem_range_iff, Set.mem_singleton_iff,
      Prod.mk.injEq, Set.mem_prod, Set.mem_Ico]
    exact ⟨fun ⟨_, ht, _, hv, h1, h2⟩ => h1 ▸ h2 ▸ ⟨ht, hv⟩,
      fun ⟨ht, hv⟩ => ⟨t, ht, v, hv, rfl, rfl⟩⟩
  rwa [hset] at hall

/-- As many pairs as cells: recorded pairs own every cell. -/
theorem Covers.bijOn {owners : Ledger ℤ (ℤ × ℤ)} (hT : 0 < threadCount)
    (hV : 0 < valuesPerThread) (hcount : threadCount * valuesPerThread = tileElements)
    (h : Covers tv tileElements owners
      (Set.Ico 0 threadCount ×ˢ Set.Ico 0 valuesPerThread)) :
    Set.BijOn (fun p => (tvKey tv p).getD 0)
      (Set.Ico 0 threadCount ×ˢ Set.Ico 0 valuesPerThread) (Set.Ico 0 tileElements) := by
  -- every cell is in the tile, since the ledger takes no cell outside
  have hmaps : Set.MapsTo (fun p => (tvKey tv p).getD 0)
      (Set.Ico 0 threadCount ×ˢ Set.Ico 0 valuesPerThread) (Set.Ico 0 tileElements) := by
    intro p hp
    obtain ⟨c, hc, hkey⟩ := h.2 p hp
    simpa [hkey] using hc
  -- two owners of one cell would stand at one place of the ledger
  have hinj : Set.InjOn (fun p => (tvKey tv p).getD 0)
      (Set.Ico 0 threadCount ×ˢ Set.Ico 0 valuesPerThread) := by
    intro p hp q hq heq
    obtain ⟨c, _, hc⟩ := h.2 p hp
    obtain ⟨d, _, hd⟩ := h.2 q hq
    simp only [hc, hd, Option.getD_some] at heq
    exact h.1.injOn hp hq (by rw [hc, hd, heq])
  refine ⟨hmaps, hinj, ?_⟩
  rw [← Finset.coe_Ico, ← Finset.coe_Ico, ← Finset.coe_product] at hinj hmaps ⊢
  rw [← Finset.coe_Ico] at hmaps ⊢
  -- as many cells as elements, so no element is left out
  refine Finset.surjOn_of_injOn_of_card_le _ hmaps hinj ?_
  rw [Finset.card_product, Int.card_Ico, Int.card_Ico, Int.card_Ico, ← hcount, sub_zero,
    sub_zero, sub_zero, Int.toNat_mul hT.le hV.le]

/-- **Exact coverage.**  An accepted thread/value layout maps threads and values one to one onto
the cells of the tile. -/
theorem validateTvExactCoverage_spec
    (h : validateTvExactCoverage tv threadCount valuesPerThread tileElements = .ok ()) :
    0 < threadCount ∧ 0 < valuesPerThread ∧ threadCount * valuesPerThread = tileElements ∧
      ∃ cell, Tabulates tv threadCount valuesPerThread cell ∧
        Set.BijOn cell (Set.Ico 0 threadCount ×ˢ Set.Ico 0 valuesPerThread)
          (Set.Ico 0 tileElements) := by
  simp only [validateTvExactCoverage, Run.bind_eq_ok, positiveCount_eq_ok] at h
  obtain ⟨_, ⟨hT, rfl⟩, _, ⟨hV, rfl⟩, _, ⟨hN, rfl⟩, h⟩ := h
  split at h
  swap
  · cases h
  simp only [Run.bind_eq_ok, Run.okOr_eq_ok, Run.reject_eq_ok, not_not,
    I64.checkedMul_eq_some] at h
  obtain ⟨_, _, _, _, _, _, _, _, _, ⟨_, rfl⟩, _, hcount, _, _, owners, howners, _⟩ := h
  have hcov := covers_all howners
  refine ⟨hT, hV, hcount, _, fun t ht v hv => ?_, hcov.bijOn hT hV hcount⟩
  -- the cell that the ledger recorded is the one the layout gives
  obtain ⟨c, _, hc⟩ := hcov.2 (t, v) ⟨ht, hv⟩
  show tvKey tv (t, v) = some ((tvKey tv (t, v)).getD 0)
  rw [hc]
  rfl

/-! ### Bytes of an atom -/

/-- The place in `memory` of byte `p.2.2` of value `p.2.1` of thread `p.1`. -/
def byteKey (tv : Layout) (memory : ComposedLayout) (p : ℤ × ℤ × ℤ) : Option ℤ := do
  let cell ← tv.checkedCall (tvCoord p.1 p.2.1)
  memory.checkedCallWithOuterDelta (.leaf cell) p.2.2

/-- Byte `b` of the atom of `thread` that starts with the value `firstValue`: the value the byte
belongs to, and its place in the value. -/
def atomByte (elementBytes thread firstValue b : ℤ) : ℤ × ℤ × ℤ :=
  (thread, firstValue + b / elementBytes, b % elementBytes)

/-- All bytes of all values of all threads. -/
def copyBytes (threadCount valuesPerThread elementBytes : ℤ) : Set (ℤ × ℤ × ℤ) :=
  Set.Ico 0 threadCount ×ˢ Set.Ico 0 valuesPerThread ×ˢ Set.Ico 0 elementBytes

variable {atomBytes elementBytes baseAlignmentBytes thread firstValue : ℤ} {memory : ComposedLayout}

/-- The bytes `0 … atomBytes - 1` of every atom lie one after another, from an aligned start. -/
theorem validatePerThreadAtomContiguity_spec
    (h : validatePerThreadAtomContiguity tv threadCount valuesPerThread atomBytes elementBytes
      memory baseAlignmentBytes = .ok ())
    (ht : thread ∈ Set.Ico 0 threadCount) (hv : firstValue ∈ Set.Ico 0 valuesPerThread)
    (hdvd : atomBytes / elementBytes ∣ firstValue) :
    ∃ start, atomBytes ∣ start ∧ ∀ b ∈ Set.Ico 0 atomBytes,
      byteKey tv memory (atomByte elementBytes thread firstValue b) = some (start + b) := by
  simp only [validatePerThreadAtomContiguity, Run.bind_eq_ok, positiveCount_eq_ok,
    Run.okOr_eq_ok, Run.reject_eq_ok, not_not, validateAtomCompatibility] at h
  obtain ⟨_, ⟨ha, rfl⟩, _, ⟨he, rfl⟩, _, _, _, hae, _, _, _, _, _, _, _, _, _,
    ⟨_, _, _, _, _, _, _, ⟨hpos, rfl⟩, _⟩, _, _, _, _, _, _, h⟩ := h
  have hthread := Run.forM_eq_ok.mp h thread (Int.mem_range_iff.mpr ht)
  obtain ⟨_, _, hthread⟩ := Run.bind_eq_ok.mp hthread
  have hatom := Run.forM_eq_ok.mp hthread firstValue
    ((mem_rangeBy hpos).mpr ⟨hv.1, hv.2, by rwa [sub_zero]⟩)
  simp only [checkAtom, Run.bind_eq_ok, Run.okOr_eq_ok, Run.reject_eq_ok, not_not] at hatom
  obtain ⟨firstCell, _, start, _, _, _, _, hstart, hbytes⟩ := hatom
  refine ⟨start, Int.dvd_of_emod_eq_zero hstart, ?_⟩
  intro b hb
  -- the code compares each byte of the atom with its first one
  have hbyte := Run.forM_eq_ok.mp hbytes b (Int.mem_range_iff.mpr hb)
  simp only [Run.bind_eq_ok, Run.okOr_eq_ok, Run.reject_eq_ok, not_not,
    I64.checkedAdd_eq_some] at hbyte
  obtain ⟨_, _, _, ⟨_, rfl⟩, c, hc, _, hw, _, ⟨_, rfl⟩, rfl⟩ := hbyte
  simp only [byteKey, atomByte, hc, Option.bind_eq_bind, Option.bind_some, hw]

/-- `place` puts the bytes `0 … n - 1` one after another, starting at a multiple of `n`. -/
def AlignedRun (n : ℤ) (place : ℤ → ℤ) : Prop :=
  n ∣ place 0 ∧ ∀ b ∈ Set.Ico 0 n, place b = place 0 + b

/-- What the contiguity check accepts: the values of an atom lie in one aligned run. -/
theorem validatePerThreadAtomContiguity_alignedRun (ha : 0 < atomBytes)
    (h : validatePerThreadAtomContiguity tv threadCount valuesPerThread atomBytes elementBytes
      memory baseAlignmentBytes = .ok ())
    (ht : thread ∈ Set.Ico 0 threadCount) (hv : firstValue ∈ Set.Ico 0 valuesPerThread)
    (hdvd : atomBytes / elementBytes ∣ firstValue) :
    AlignedRun atomBytes fun b =>
      (byteKey tv memory (atomByte elementBytes thread firstValue b)).getD 0 := by
  obtain ⟨start, hstart, hrun⟩ := validatePerThreadAtomContiguity_spec h ht hv hdvd
  have hzero : (byteKey tv memory (atomByte elementBytes thread firstValue 0)).getD 0 = start := by
    rw [hrun 0 ⟨le_rfl, ha⟩, Option.getD_some, add_zero]
  constructor
  · simpa only [hzero] using hstart
  · intro b hb
    simp only [hzero, hrun b hb, Option.getD_some]

/-- Every thread owns whole atoms. -/
theorem validatePerThreadAtomContiguity_dvd
    (h : validatePerThreadAtomContiguity tv threadCount valuesPerThread atomBytes elementBytes
      memory baseAlignmentBytes = .ok ()) :
    0 < atomBytes / elementBytes ∧ atomBytes / elementBytes ∣ valuesPerThread := by
  simp only [validatePerThreadAtomContiguity, Run.bind_eq_ok, positiveCount_eq_ok,
    Run.okOr_eq_ok, Run.reject_eq_ok, not_not, validateAtomCompatibility] at h
  obtain ⟨_, ⟨_, rfl⟩, _, ⟨_, rfl⟩, _, _, _, _, _, _, _, _, _, _, _, _, _,
    ⟨_, _, _, ⟨_, rfl⟩, _, _, _, ⟨hpos, rfl⟩, _, _, _, _, _, _, hdvd⟩, _⟩ := h
  exact ⟨hpos, Int.dvd_of_emod_eq_zero hdvd⟩

/-- Between two multiples of a step lies a whole step. -/
theorem add_le_of_dvd_of_lt {w a n : ℤ} (ha : w ∣ a) (hn : w ∣ n) (h : a < n) : a + w ≤ n := by
  have hle := Int.le_of_dvd (by omega) (dvd_sub hn ha)
  omega

/-- The bytes of an atom belong to its values. -/
theorem atomByte_value_mem {b : ℤ} (he : 0 < elementBytes) (hea : elementBytes ∣ atomBytes)
    (hb : b ∈ Set.Ico 0 atomBytes) :
    (atomByte elementBytes thread firstValue b).2.1 ∈
      Set.Ico firstValue (firstValue + atomBytes / elementBytes) := by
  have hq0 : 0 ≤ b / elementBytes := Int.ediv_nonneg hb.1 he.le
  have hq : b / elementBytes < atomBytes / elementBytes :=
    Int.ediv_lt_of_lt_mul he (by rw [Int.ediv_mul_cancel hea]; exact hb.2)
  constructor
  · show firstValue ≤ firstValue + b / elementBytes
    omega
  · show firstValue + b / elementBytes < _
    omega

/-- A byte of an atom is a byte of a thread's values. -/
theorem atomByte_mem {b : ℤ} (he : 0 < elementBytes) (hea : elementBytes ∣ atomBytes)
    (ht : thread ∈ Set.Ico 0 threadCount) (hv : firstValue ∈ Set.Ico 0 valuesPerThread)
    (hb : b ∈ Set.Ico 0 atomBytes) (hend : firstValue + atomBytes / elementBytes ≤
      valuesPerThread) :
    atomByte elementBytes thread firstValue b ∈
      copyBytes threadCount valuesPerThread elementBytes := by
  have hvalue : (atomByte elementBytes thread firstValue b).2.1 ∈
      Set.Ico firstValue (firstValue + atomBytes / elementBytes) := atomByte_value_mem he hea hb
  exact ⟨ht, ⟨hv.1.trans hvalue.1, hvalue.2.trans_le hend⟩, Int.emod_nonneg b he.ne',
    Int.emod_lt_of_pos b he⟩

/-- Every byte of the copy belongs to an atom. -/
theorem exists_atomByte {p : ℤ × ℤ × ℤ} (he : 0 < elementBytes) (hea : elementBytes ∣ atomBytes)
    (hpos : 0 < atomBytes / elementBytes)
    (hp : p ∈ copyBytes threadCount valuesPerThread elementBytes) :
    ∃ firstValue ∈ Set.Ico 0 valuesPerThread, atomBytes / elementBytes ∣ firstValue ∧
      ∃ b ∈ Set.Ico 0 atomBytes, p = atomByte elementBytes p.1 firstValue b := by
  obtain ⟨thread, value, byte⟩ := p
  obtain ⟨_, ⟨hv0, hv⟩, hb0, hb⟩ := hp
  simp only at hv0 hv hb0 hb
  obtain ⟨w, rfl⟩ := hea
  rw [Int.mul_ediv_cancel_left _ he.ne'] at hpos ⊢
  have hmod0 : 0 ≤ value % w := Int.emod_nonneg value hpos.ne'
  have hmod : value % w < w := Int.emod_lt_of_pos value hpos
  -- the first value of the atom is the value rounded down to a whole atom
  have hsplit := Int.emod_add_mul_ediv value w
  have hq : 0 ≤ w * (value / w) := mul_nonneg hpos.le (Int.ediv_nonneg hv0 hpos.le)
  refine ⟨w * (value / w), ⟨hq, by omega⟩, dvd_mul_right _ _, byte + elementBytes * (value % w),
    ⟨by positivity, by nlinarith⟩, ?_⟩
  rw [atomByte, Int.add_mul_ediv_left _ _ he.ne', Int.add_mul_emod_self_left,
    Int.ediv_eq_zero_of_lt hb0 hb, Int.emod_eq_of_lt hb0 hb, zero_add, add_comm, hsplit]

end CudaOxide.Cute
