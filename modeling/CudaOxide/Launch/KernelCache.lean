import CudaOxide.Lib.System

namespace CudaOxide.Launch

open Lib

/-!
# The kernel cache

Threads request kernels by key, and a kernel is compiled once (`kernel_cache_slot` and
`compile_for_launch_site` of `tile_kernel.rs`).

* `KernelCache`, `KernelCache.Step` — the map from keys to slots, the cells and the reference counts
  of the slots, and the steps of a request; the compile itself runs under no lock.
* `KernelCache.Kept` — the invariant: a thread that holds a handle holds the slot that the map has
  for its key, and an empty slot in the map has a request that will fill it or remove it.
* `kernel_compiled_once` — one successful compile for each key, whatever the order of the steps.
-/

/-- Where the request of a thread stands.  `i` is the slot that the thread has a handle to. -/
inductive Request (K V : Type) where
  | idle
  /-- `cache.get` found no slot -/
  | missed (k : K)
  /-- before `get_or_try_init`, or blocked in it -/
  | holding (k : K) (i : ℕ)
  /-- the closure of `get_or_try_init` runs -/
  | compiling (k : K) (i : ℕ)
  /-- the closure is about to return the kernel, and has counted it -/
  | compiled (k : K) (i : ℕ) (v : V)
  /-- `get_or_try_init` has returned an error -/
  | failed (k : K) (i : ℕ)
  /-- the handle is dropped -/
  | dropped (k : K)
  /-- `get_or_try_init` has returned the kernel -/
  | resolved (k : K) (i : ℕ) (v : V)
  /-- the request has returned: the kernel, or an error -/
  | returned (k : K) (result : Option V)

namespace Request

variable {K V : Type}

/-- The slot that the thread has a handle to, and the key that it was asked for. -/
def handle : Request K V → Option (K × ℕ)
  | holding k i | compiling k i | compiled k i _ | failed k i | resolved k i _ => some (k, i)
  | idle | missed _ | dropped _ | returned _ _ => none

/-- The thread initialises the cell of the slot. -/
def Initialises : Request K V → ℕ → Prop
  | compiling _ i, j | compiled _ i _, j => i = j
  | _, _ => False

/-- The key of a request in progress. -/
def key : Request K V → Option K
  | missed k | holding k _ | compiling k _ | compiled k _ _ | failed k _ | dropped k
  | resolved k _ _ => some k
  | idle | returned _ _ => none

/-- The key of a request that has found its slot and has not returned. -/
def slotKey : Request K V → Option K
  | holding k _ | compiling k _ | compiled k _ _ | failed k _ | dropped k | resolved k _ _ => some k
  | idle | missed _ | returned _ _ => none

/-- The thread compiles the kernel of the key. -/
def Compiles : Request K V → K → Prop
  | compiling k _, k' | compiled k _ _, k' => k = k'
  | _, _ => False

end Request

/-- The map, the slots by number, the counter of successful compiles, and the threads.  `log` is a
record of the run: the keys and kernels of the compiles that succeeded. -/
structure KernelCache (τ K V : Type) where
  cache : K → Option ℕ
  /-- the number of the next slot -/
  next : ℕ
  cell : ℕ → Option V
  /-- the thread that initialises the cell -/
  running : ℕ → Option τ
  /-- `Arc::strong_count` of the slot -/
  strong : ℕ → ℕ
  compiles : ℕ
  threads : τ → Request K V
  log : List (K × V)

namespace KernelCache

variable {τ K V : Type} [DecidableEq τ] [DecidableEq K]

/-- Thread `t` moves on. -/
def move (st : KernelCache τ K V) (t : τ) (x : Request K V) : KernelCache τ K V :=
  { st with threads := Function.update st.threads t x }

/-- A handle to the slot is cloned. -/
def clone (st : KernelCache τ K V) (i : ℕ) : KernelCache τ K V :=
  { st with strong := Function.update st.strong i (st.strong i + 1) }

/-- A handle to the slot is dropped. -/
def drop (st : KernelCache τ K V) (i : ℕ) : KernelCache τ K V :=
  { st with strong := Function.update st.strong i (st.strong i - 1) }

/-- A fresh slot is inserted for the key; the map and the caller have a handle each. -/
def insert (st : KernelCache τ K V) (k : K) : KernelCache τ K V :=
  { st with
    cache := Function.update st.cache k (some st.next)
    next := st.next + 1
    cell := Function.update st.cell st.next none
    running := Function.update st.running st.next none
    strong := Function.update st.strong st.next 2 }

/-- The slot of the key may be removed: the cell is empty, and nobody but the map has a handle. -/
def Removable (st : KernelCache τ K V) (k : K) (i : ℕ) : Prop :=
  st.cache k = some i ∧ st.cell i = none ∧ st.strong i = 1

/-- One step of one thread. -/
inductive Step : KernelCache τ K V → KernelCache τ K V → Prop
  /-- `cache.get`, and a clone under the read lock -/
  | hit {st : KernelCache τ K V} {t : τ} {k : K} {i : ℕ} (ht : (st.threads t).key = none)
      (hk : st.cache k = some i) : Step st ((st.clone i).move t (.holding k i))
  | miss {st : KernelCache τ K V} {t : τ} {k : K} (ht : (st.threads t).key = none)
      (hk : st.cache k = none) : Step st (st.move t (.missed k))
  /-- `entry`, after another thread has inserted the slot -/
  | occupied {st : KernelCache τ K V} {t : τ} {k : K} {i : ℕ} (ht : st.threads t = .missed k)
      (hk : st.cache k = some i) : Step st ((st.clone i).move t (.holding k i))
  | vacant {st : KernelCache τ K V} {t : τ} {k : K} (ht : st.threads t = .missed k)
      (hk : st.cache k = none) : Step st ((st.insert k).move t (.holding k st.next))
  /-- `get_or_try_init` finds the kernel -/
  | ready {st : KernelCache τ K V} {t : τ} {k : K} {i : ℕ} {v : V}
      (ht : st.threads t = .holding k i) (hcell : st.cell i = some v) :
      Step st (st.move t (.resolved k i v))
  /-- `get_or_try_init` finds the cell empty, and no thread in it -/
  | begin {st : KernelCache τ K V} {t : τ} {k : K} {i : ℕ} (ht : st.threads t = .holding k i)
      (hcell : st.cell i = none) (hrun : st.running i = none) :
      Step st { st.move t (.compiling k i) with running := Function.update st.running i (some t) }
  /-- the compile succeeds, and `record_jit_compile` counts it -/
  | succeed {st : KernelCache τ K V} {t : τ} {k : K} {i : ℕ} (v : V)
      (ht : st.threads t = .compiling k i) :
      Step st { st.move t (.compiled k i v) with
        compiles := st.compiles + 1, log := (k, v) :: st.log }
  /-- the compile fails, and the cell is given up -/
  | fail {st : KernelCache τ K V} {t : τ} {k : K} {i : ℕ} (ht : st.threads t = .compiling k i) :
      Step st { st.move t (.failed k i) with running := Function.update st.running i none }
  /-- the kernel is stored in the cell -/
  | fill {st : KernelCache τ K V} {t : τ} {k : K} {i : ℕ} {v : V}
      (ht : st.threads t = .compiled k i v) :
      Step st { st.move t (.resolved k i v) with
        cell := Function.update st.cell i (some v), running := Function.update st.running i none }
  | dropSlot {st : KernelCache τ K V} {t : τ} {k : K} {i : ℕ} (ht : st.threads t = .failed k i) :
      Step st ((st.drop i).move t (.dropped k))
  /-- `remove_if`, under the write lock of the shard -/
  | remove {st : KernelCache τ K V} {t : τ} {k : K} {i : ℕ} (ht : st.threads t = .dropped k)
      (hk : st.Removable k i) :
      Step st { (st.drop i).move t (.returned k none) with
        cache := Function.update st.cache k none }
  | keep {st : KernelCache τ K V} {t : τ} {k : K} (ht : st.threads t = .dropped k)
      (hk : ∀ i, ¬st.Removable k i) : Step st (st.move t (.returned k none))
  /-- the kernel is cloned, and the handle goes out of scope -/
  | finish {st : KernelCache τ K V} {t : τ} {k : K} {i : ℕ} {v : V}
      (ht : st.threads t = .resolved k i v) : Step st ((st.drop i).move t (.returned k (some v)))

/-- An empty cache, and no request. -/
def initial : KernelCache τ K V where
  cache _ := none
  next := 0
  cell _ := none
  running _ := none
  strong _ := 0
  compiles := 0
  threads _ := .idle
  log := []

end KernelCache

/-- Any number of threads that request kernels. -/
def kernelCache (τ K V : Type) [DecidableEq τ] [DecidableEq K] : System (KernelCache τ K V) where
  Init st := st = .initial
  Step := KernelCache.Step

namespace KernelCache

variable {τ K V : Type} {st st' : KernelCache τ K V}

/-- The key has this kernel: it is in the cell of its slot, or about to be stored there. -/
def HasKernel (st : KernelCache τ K V) (k : K) (v : V) : Prop :=
  (∃ i, st.cache k = some i ∧ st.cell i = some v) ∨ ∃ t i, st.threads t = .compiled k i v

/-- The keys that have a kernel. -/
def kernels (st : KernelCache τ K V) : Set K :=
  {k | ∃ v, st.HasKernel k v}

/-- The threads that have a handle to the slot. -/
def holders (st : KernelCache τ K V) (i : ℕ) : Set τ :=
  {t | ∃ k, (st.threads t).handle = some (k, i)}

/-- What the cache promises. -/
structure CompiledOnce (st : KernelCache τ K V) : Prop where
  /-- at most one compile of a key has succeeded -/
  once : (st.log.map Prod.fst).Nodup
  /-- two threads do not compile one key at a time -/
  single : ∀ t t' k, (st.threads t).Compiles k → (st.threads t').Compiles k → t = t'
  /-- a request that returns a kernel returns the one that was compiled -/
  returned : ∀ t k v, st.threads t = .returned k (some v) → (k, v) ∈ st.log
  counted : st.kernels.encard = st.compiles
  /-- without a request in progress there is no empty slot -/
  filled : (∀ t, (st.threads t).key = none) →
    ∀ k i, st.cache k = some i → ∃ v, st.cell i = some v

end KernelCache

/-! ### The invariant -/

namespace Request

variable {K V : Type} {x : Request K V} {k : K} {i : ℕ}

/-- A request that initialises a slot holds it. -/
theorem Initialises.handle (h : x.Initialises i) : ∃ k, x.handle = some (k, i) := by
  cases x <;> simp_all [Initialises, Request.handle]

/-- A request that compiles a key initialises the slot it holds for it. -/
theorem Compiles.handle (h : x.Compiles k) : ∃ i, x.handle = some (k, i) ∧ x.Initialises i := by
  cases x <;> simp_all [Compiles, Initialises, Request.handle]

/-- A request with a handle still has its key. -/
theorem slotKey_of_handle (h : x.handle = some (k, i)) : x.slotKey = some k := by
  cases x <;> simp_all [Request.handle, slotKey]

/-- A request without a key holds nothing. -/
theorem handle_of_key (h : x.key = none) : x.handle = none := by
  cases x <;> simp_all [Request.handle, key]

/-- Nor does it initialise anything. -/
theorem not_initialises_of_key (h : x.key = none) (i : ℕ) : ¬x.Initialises i := by
  cases x <;> simp_all [Initialises, key]

/-- Nor does a slot depend on it. -/
theorem slotKey_of_key (h : x.key = none) : x.slotKey = none := by
  cases x <;> simp_all [slotKey, key]

end Request

namespace KernelCache

variable {τ K V : Type} {st st' : KernelCache τ K V}

/-- What holds in every state. -/
structure Kept (st : KernelCache τ K V) : Prop where
  /-- a slot with a handle is in the map, under the key it was asked for -/
  cached : ∀ t k i, (st.threads t).handle = some (k, i) → st.cache k = some i
  below : ∀ k i, st.cache k = some i → i < st.next
  inj : ∀ k k' i, st.cache k = some i → st.cache k' = some i → k = k'
  strong : ∀ k i, st.cache k = some i → (st.holders i).encard + 1 = st.strong i
  running : ∀ t i, st.running i = some t ↔ (st.threads t).Initialises i
  /-- a cell is initialised while it is empty -/
  empty : ∀ t i, (st.threads t).Initialises i → st.cell i = none
  logged : ∀ k v, (k, v) ∈ st.log ↔ st.HasKernel k v
  once : (st.log.map Prod.fst).Nodup
  counted : st.compiles = st.log.length
  resolved : ∀ t k i v, st.threads t = .resolved k i v → st.cell i = some v
  returned : ∀ t k v, st.threads t = .returned k (some v) → (k, v) ∈ st.log
  /-- an empty slot has a request that will fill it or remove it -/
  waits : ∀ k i, st.cache k = some i → st.cell i = none → ∃ t, (st.threads t).slotKey = some k

namespace Kept

/-- No thread holds a slot at the start. -/
theorem initial : Kept (KernelCache.initial : KernelCache τ K V) := by
  constructor <;> simp [KernelCache.initial, Request.handle, Request.Initialises, HasKernel]

/-- A slot that only the map has a handle to. -/
theorem not_handle_of_strong (h : Kept st) {k : K} (k' : K) {i : ℕ}
    (hk : st.cache k = some i) (hone : st.strong i = 1) (t : τ) :
    (st.threads t).handle ≠ some (k', i) := by
  intro ht
  have hcount := h.strong k i hk
  have hpos : 1 ≤ (st.holders i).encard :=
    Set.one_le_encard_iff_nonempty.mpr ⟨t, k', ht⟩
  have htwo : (1 + 1 : ℕ∞) ≤ 1 := by
    calc (1 + 1 : ℕ∞) ≤ (st.holders i).encard + 1 := add_le_add_left hpos 1
      _ = 1 := by rw [hcount, hone]; rfl
  exact absurd htwo (by decide)

/-- A slot of the map that somebody else has a handle to. -/
theorem exists_handle_of_strong (h : Kept st) {k : K} {i : ℕ} (hk : st.cache k = some i)
    (hone : st.strong i ≠ 1) : ∃ t, (st.threads t).handle = some (k, i) := by
  have hcount := h.strong k i hk
  have hne : (st.holders i).Nonempty := by
    refine Set.nonempty_iff_ne_empty.mpr fun hempty => hone ?_
    rw [hempty, Set.encard_empty, zero_add] at hcount
    exact_mod_cast hcount.symm
  obtain ⟨t, k', ht⟩ := hne
  obtain rfl := h.inj k k' i hk (h.cached t k' i ht)
  exact ⟨t, ht⟩

/-- The slot of a thread has a number below the next one. -/
theorem handle_lt (h : Kept st) {t : τ} {k : K} {i : ℕ} (ht : (st.threads t).handle = some (k, i)) :
    i < st.next :=
  h.below k i (h.cached t k i ht)

/-- One thread initialises a cell. -/
theorem initialises_eq (h : Kept st) {t : τ} {i : ℕ} (ht : (st.threads t).Initialises i) (s : τ)
    (hs : (st.threads s).Initialises i) : s = t := by
  have hrun : st.running i = some s := (h.running s i).mpr hs
  rw [(h.running t i).mpr ht] at hrun
  exact (Option.some_inj.mp hrun).symm

variable [DecidableEq τ]

/-- A thread that moves still waits for the slots it has waited for. -/
theorem waits_move (h : Kept st) {t : τ} {x : Request K V}
    (hx : ∀ k i, st.cache k = some i → st.cell i = none → (st.threads t).slotKey = some k →
      x.slotKey = some k) {k : K} {i : ℕ} (hk : st.cache k = some i) (hi : st.cell i = none) :
    ∃ s, (Function.update st.threads t x s).slotKey = some k := by
  obtain ⟨s, hs⟩ := h.waits k i hk hi
  refine ⟨s, ?_⟩
  by_cases hst : s = t
  · subst hst
    rw [Function.update_self]
    exact hx k i hk hi hs
  · rwa [Function.update_of_ne hst]

/-- A thread that has no compiled kernel in hand moves to a place where it has none. -/
theorem compiled_move (st : KernelCache τ K V) {t : τ} (x : Request K V)
    (ht : ∀ k i v, st.threads t ≠ .compiled k i v) (hx : ∀ k i v, x ≠ .compiled k i v)
    (k : K) (v : V) :
    (∃ s i, Function.update st.threads t x s = .compiled k i v) ↔
      ∃ s i, st.threads s = .compiled k i v := by
  constructor
  · rintro ⟨s, i, hs⟩
    by_cases hst : s = t
    · subst hst
      rw [Function.update_self] at hs
      exact absurd hs (hx k i v)
    · rw [Function.update_of_ne hst] at hs
      exact ⟨s, i, hs⟩
  · rintro ⟨s, i, hs⟩
    have hst : s ≠ t := by
      rintro rfl
      exact ht k i v hs
    exact ⟨s, i, by rwa [Function.update_of_ne hst]⟩

/-- A thread moves on with the handle that it has, or with none. -/
theorem holders_move (st : KernelCache τ K V) {t : τ} (x : Request K V)
    (hx : x.handle = (st.threads t).handle) (i : ℕ) :
    (st.move t x).holders i = st.holders i := by
  ext s
  by_cases hst : s = t
  · subst hst
    simp [holders, move, hx]
  · simp [holders, move, hst]

/-- A thread gets a handle. -/
theorem encard_gain (st : KernelCache τ K V) (t : τ) (x : Request K V) {k : K} {j : ℕ}
    (ht : (st.threads t).handle = none) (hx : x.handle = some (k, j)) (i : ℕ) :
    ((st.move t x).holders i).encard = (st.holders i).encard + if i = j then 1 else 0 := by
  have hnot : t ∉ st.holders i := by simp [holders, ht]
  split
  · rename_i hij
    rw [← Set.encard_insert_of_notMem hnot]
    congr 1
    ext s
    by_cases hst : s = t
    · subst hst
      simp [holders, move, hx, hij]
    · simp [holders, move, hst]
  · rename_i hij
    rw [add_zero]
    congr 1
    ext s
    by_cases hst : s = t
    · subst hst
      simp [holders, move, hx, ht, Ne.symm hij]
    · simp [holders, move, hst]

/-- A thread drops its handle. -/
theorem encard_lose {t : τ} {x : Request K V} {k : K} {j : ℕ}
    (ht : (st.threads t).handle = some (k, j)) (hx : x.handle = none) (i : ℕ) :
    ((st.move t x).holders i).encard + (if i = j then 1 else 0) = (st.holders i).encard := by
  -- the thread gets it back
  have hback : ((st.move t x).move t (st.threads t)) = st := by
    simp [move]
  have hgain := encard_gain (st.move t x) t (st.threads t) (by simp [move, hx]) ht i
  rw [hback] at hgain
  exact hgain.symm

variable [DecidableEq K]

/-! #### The map -/

/-- A slot that is held is the one in the map. -/
theorem cached_step (h : Kept st) (hs : Step st st') (t : τ) (k : K) (i : ℕ)
    (ht : (st'.threads t).handle = some (k, i)) : st'.cache k = some i := by
  have hcached := h.cached
  revert t k i
  cases hs with
  | remove ht hk =>
    -- the key of the slot that goes has no handle left
    have hnone := fun k' => h.not_handle_of_strong k' hk.1 hk.2.2
    simp only [move, drop]
    grind [Request.handle, Removable]
  | _ =>
    simp only [move, clone, drop, insert]
    grind [Request.handle]

/-- The slots of the map were created before. -/
theorem below_step (h : Kept st) (hs : Step st st') (k : K) (i : ℕ) (hk : st'.cache k = some i) :
    i < st'.next := by
  have hbelow := h.below
  revert k i
  cases hs with
  | vacant ht hk =>
    simp only [move, insert]
    grind
  | remove ht hk => grind [move, drop]
  | _ => exact hbelow

/-- No slot is in the map for two keys. -/
theorem inj_step (h : Kept st) (hs : Step st st') (k k' : K) (i : ℕ) (hk : st'.cache k = some i)
    (hk' : st'.cache k' = some i) : k = k' := by
  have hbelow := h.below
  have hinj := h.inj
  revert k k' i
  cases hs with
  | vacant ht hk =>
    simp only [move, insert]
    grind
  | remove ht hk => grind
  | _ => exact hinj

/-! #### The reference counts -/

omit [DecidableEq K] in

/-- A new handle is counted. -/
theorem strong_gain (h : Kept st) {t : τ} {x : Request K V} {k k' : K} {i j : ℕ}
    (ht : (st.threads t).handle = none) (hx : x.handle = some (k', j)) (hk : st.cache k = some i) :
    (((st.clone j).move t x).holders i).encard + 1 = ((st.clone j).move t x).strong i := by
  refine (congrArg (· + 1) (encard_gain st t x ht hx i)).trans ?_
  simp only [move, clone]
  by_cases hij : i = j
  · subst hij
    rw [if_pos rfl, h.strong k i hk, Function.update_self]
    rfl
  · rw [if_neg hij, add_zero, h.strong k i hk, Function.update_of_ne hij]

omit [DecidableEq K] in

/-- A handle that is dropped is counted no more. -/
theorem strong_lose (h : Kept st) {t : τ} {x : Request K V} {k k' : K} {i j : ℕ}
    (ht : (st.threads t).handle = some (k', j)) (hx : x.handle = none) (hk : st.cache k = some i) :
    (((st.drop j).move t x).holders i).encard + 1 = ((st.drop j).move t x).strong i := by
  have hlose := encard_lose ht hx i
  have hcount := h.strong k i hk
  show ((st.move t x).holders i).encard + 1 = (Function.update st.strong j (st.strong j - 1) i : ℕ)
  by_cases hij : i = j
  · subst hij
    rw [if_pos rfl] at hlose
    have hfin : (st.holders i).encard ≠ ⊤ := by
      intro htop
      rw [htop, top_add] at hcount
      exact ENat.natCast_ne_top _ hcount.symm
    obtain ⟨m, hm⟩ := ENat.ne_top_iff_exists.mp hfin
    rw [← hm] at hcount
    have hm1 : m + 1 = st.strong i := by exact_mod_cast hcount
    rw [Function.update_self, hlose, ← hm, ← hm1, Nat.add_sub_cancel]
  · rw [if_neg hij, add_zero] at hlose
    rw [Function.update_of_ne hij, hlose, hcount]

/-- The count of a slot in the map is that of its holders and the map. -/
theorem strong_step (h : Kept st) (hs : Step st st') (k : K) (i : ℕ) (hk : st'.cache k = some i) :
    (st'.holders i).encard + 1 = st'.strong i := by
  -- a step gives a handle away, takes one back, or moves one within a thread
  cases hs with
  | hit ht => exact h.strong_gain (Request.handle_of_key ht) rfl hk
  | occupied ht => exact h.strong_gain (by rw [ht]; rfl) rfl hk
  -- the new cell has one handle, that of the thread that inserted it
  | @vacant t k' ht hnone =>
    have hgain := encard_gain st t (.holding k' st.next) (by rw [ht]; rfl) rfl i
    refine (congrArg (· + 1) hgain).trans ?_
    simp only [move, insert] at hk ⊢
    by_cases hkk : k = k'
    · have hi : i = st.next := by
        rw [hkk, Function.update_self] at hk
        exact (Option.some_inj.mp hk).symm
      have hempty : st.holders st.next = ∅ := by
        -- no thread holds a cell that did not exist
        refine Set.eq_empty_iff_forall_notMem.mpr fun s hs => ?_
        obtain ⟨k'', hs⟩ := hs
        exact (h.handle_lt hs).false
      rw [hi, if_pos rfl, hempty, Set.encard_empty, Function.update_self]
      rfl
    · rw [Function.update_of_ne hkk] at hk
      have hi : i ≠ st.next := (h.below k i hk).ne
      rw [if_neg hi, add_zero, Function.update_of_ne hi]
      exact h.strong k i hk
  | @miss t k' ht hnone =>
    have hsame := holders_move st (.missed k') (Request.handle_of_key ht).symm i
    exact (congrArg (Set.encard · + 1) hsame).trans (h.strong k i hk)
  | dropSlot ht | finish ht => exact h.strong_lose (by rw [ht]; rfl) rfl hk
  | @remove t k' j ht hrem =>
    simp only at hk
    have hsame := holders_move st (.returned k' none) (by rw [ht]; rfl) i
    -- the cell that is removed has left the cache
    have hkk : k ≠ k' := by
      rintro rfl
      rw [Function.update_self] at hk
      cases hk
    rw [Function.update_of_ne hkk] at hk
    have hij : i ≠ j := by
      rintro rfl
      exact hkk (h.inj k k' i hk hrem.1)
    refine (congrArg (Set.encard · + 1) hsame).trans ((h.strong k i hk).trans ?_)
    simp only [move, drop]
    rw [Function.update_of_ne hij]
  -- the handles stay where they are
  | ready ht | begin ht | succeed _ ht | fail ht | fill ht | keep ht =>
    refine (congrArg (Set.encard · + 1) ?_).trans (h.strong k i hk)
    exact holders_move st _ (by rw [ht]; rfl) i

/-! #### The cells -/

/-- The slot knows who initialises it. -/
theorem running_step (h : Kept st) (hs : Step st st') (t : τ) (i : ℕ) :
    st'.running i = some t ↔ (st'.threads t).Initialises i := by
  have hrun := h.running
  revert t i
  cases hs with
  | vacant ht hk =>
    have hnone : ∀ t, ¬(st.threads t).Initialises st.next := by
      intro t hinit
      obtain ⟨k, hk⟩ := hinit.handle
      exact (h.handle_lt hk).false
    simp only [move, insert]
    grind [Request.Initialises]
  | hit ht | miss ht =>
    have hnone := Request.not_initialises_of_key ht
    simp only [move, clone]
    grind [Request.Initialises]
  | @fail t k i ht =>
    have honly := h.initialises_eq (t := t) (i := i) (by rw [ht]; rfl)
    simp only [move]
    grind [Request.Initialises]
  | @fill t k i v ht =>
    have honly := h.initialises_eq (t := t) (i := i) (by rw [ht]; rfl)
    simp only [move]
    grind [Request.Initialises]
  | _ =>
    simp only [move, clone, drop]
    grind [Request.Initialises]

/-- A slot that is being initialised is empty. -/
theorem empty_step (h : Kept st) (hs : Step st st') (t : τ) (i : ℕ)
    (ht : (st'.threads t).Initialises i) : st'.cell i = none := by
  have hempty := h.empty
  have hrun := h.running
  revert t i
  cases hs with
  | _ =>
    simp only [move, clone, drop, insert]
    grind [Request.Initialises]

/-- A request that has found a kernel found that of its slot. -/
theorem resolved_step (h : Kept st) (hs : Step st st') (t : τ) (k : K) (i : ℕ) (v : V)
    (ht : st'.threads t = .resolved k i v) : st'.cell i = some v := by
  have hres := h.resolved
  revert t k i v
  cases hs with
  | vacant ht hk =>
    have hnone : ∀ t k v, st.threads t ≠ .resolved k st.next v := by
      intro t k v hx
      exact (h.handle_lt (t := t) (k := k) (by rw [hx]; rfl)).false
    simp only [move, insert]
    grind
  | @fill t k i v ht =>
    have hempty := h.empty t i (by rw [ht]; rfl)
    simp only [move]
    grind
  | _ =>
    simp only [move, clone, drop]
    grind

/-! #### The compiles -/

/-- The log has exactly the kernels that are in some slot. -/
theorem logged_step (h : Kept st) (hs : Step st st') (k : K) (v : V) :
    (k, v) ∈ st'.log ↔ st'.HasKernel k v := by
  have hlog := h.logged
  -- a kernel is logged exactly while a cell or a thread has it
  cases hs with
  | @fill t k' i v' ht =>
    have hslot : st.cache k' = some i := h.cached t k' i (by rw [ht]; rfl)
    have hempty : st.cell i = none := h.empty t i (by rw [ht]; rfl)
    have hinj := h.inj k k' i
    simp only [move, HasKernel, hlog]
    -- the value goes from the thread to its cell
    constructor
    · rintro (⟨j, hj, hcell⟩ | ⟨s, j, hs⟩)
      · exact .inl ⟨j, hj, by grind⟩
      · by_cases hst : s = t
        · -- the kernel moves from the thread to the cell
          exact .inl ⟨i, by grind, by grind⟩
        · exact .inr ⟨s, j, by grind⟩
    · rintro (⟨j, hj, hcell⟩ | ⟨s, j, hs⟩)
      · by_cases hij : j = i
        · exact .inr ⟨t, i, by grind⟩
        · exact .inl ⟨j, hj, by grind⟩
      · exact .inr ⟨s, j, by grind⟩
  -- a new cell is empty
  | @vacant t k' ht hk =>
    have hbelow := h.below k
    have hmove := compiled_move st (.holding k' st.next) (t := t) (by simp [ht]) (by simp)
    simp only [move, insert, HasKernel, hlog, hmove]
    refine or_congr_left ⟨?_, ?_⟩
    · rintro ⟨j, hj, hcell⟩
      exact ⟨j, by grind, by grind⟩
    · rintro ⟨j, hj, hcell⟩
      exact ⟨j, by grind, by grind⟩
  -- the cell that is removed is empty too
  | @remove t k' i ht hrem =>
    have hmove := compiled_move st (.returned k' none) (t := t) (by simp [ht]) (by simp)
    simp only [move, drop, HasKernel, hlog, hmove]
    refine or_congr_left ⟨?_, ?_⟩
    · rintro ⟨j, hj, hcell⟩
      exact ⟨j, by grind [Removable], hcell⟩
    · rintro ⟨j, hj, hcell⟩
      exact ⟨j, by grind, hcell⟩
  -- the one step that logs: the kernel is with the thread that compiled it
  | @succeed t k' i v' ht =>
    simp only [move, HasKernel, List.mem_cons, hlog]
    constructor
    · rintro (heq | ⟨j, hj, hcell⟩ | ⟨s, j, hs⟩)
      · cases heq
        exact .inr ⟨t, i, by simp⟩
      · exact .inl ⟨j, hj, hcell⟩
      · exact .inr ⟨s, j, by grind⟩
    · rintro (⟨j, hj, hcell⟩ | ⟨s, j, hs⟩)
      · exact .inr (.inl ⟨j, hj, hcell⟩)
      · by_cases hst : s = t
        · exact .inl (by grind)
        · exact .inr (.inr ⟨s, j, by grind⟩)
  | hit ht | miss ht =>
    simp only [move, clone, HasKernel, hlog]
    rw [compiled_move st _ (fun k i v hx => by rw [hx] at ht; cases ht) (by simp)]
  | occupied ht | ready ht | begin ht | fail ht | dropSlot ht | keep ht | finish ht =>
    simp only [move, clone, drop, HasKernel, hlog]
    rw [compiled_move st _ (by simp [ht]) (by simp)]

/-- No key is compiled twice with success. -/
theorem once_step (h : Kept st) (hs : Step st st') : (st'.log.map Prod.fst).Nodup := by
  cases hs with
  | @succeed t k i v ht =>
    refine List.nodup_cons.mpr ⟨fun hmem => ?_, h.once⟩
    obtain ⟨⟨k', v'⟩, hlog, hk'⟩ := List.mem_map.mp hmem
    obtain rfl : k' = k := hk'
    have hslot : st.cache k' = some i := h.cached t k' i (by rw [ht]; rfl)
    have hinit : (st.threads t).Initialises i := by
      rw [ht]
      exact rfl
    rcases (h.logged k' v').mp hlog with ⟨j, hj, hcell⟩ | ⟨s, j, hs⟩
    · obtain rfl : j = i := Option.some_inj.mp (hj.symm.trans hslot)
      rw [h.empty t j hinit] at hcell
      cases hcell
    · have hj : st.cache k' = some j := h.cached s k' j (by rw [hs]; rfl)
      obtain rfl : j = i := Option.some_inj.mp (hj.symm.trans hslot)
      have hrun : st.running j = some s := (h.running s j).mpr (by rw [hs]; exact rfl)
      rw [(h.running t j).mpr hinit] at hrun
      obtain rfl : t = s := Option.some_inj.mp hrun
      cases ht.symm.trans hs
  | _ => exact h.once

/-- The compiles that succeed are those of the log. -/
theorem counted_step (h : Kept st) (hs : Step st st') : st'.compiles = st'.log.length := by
  cases hs with
  | succeed v ht => exact congrArg (· + 1) h.counted
  | _ => exact h.counted

/-- What a request returned was compiled. -/
theorem returned_step (h : Kept st) (hs : Step st st') (t : τ) (k : K) (v : V)
    (ht : st'.threads t = .returned k (some v)) : (k, v) ∈ st'.log := by
  have hret := h.returned
  revert t k v
  cases hs with
  | @finish t k i v ht =>
    have hlog : (k, v) ∈ st.log :=
      (h.logged k v).mpr (.inl ⟨i, h.cached t k i (by rw [ht]; rfl), h.resolved t k i v ht⟩)
    simp only [move, drop]
    grind
  | _ =>
    simp only [move, clone, drop, insert]
    grind

/-! #### The empty slots -/

/-- An empty slot of the map has a request that will fill or remove it. -/
theorem waits_step (h : Kept st) (hs : Step st st') (k : K) (i : ℕ) (hk : st'.cache k = some i)
    (hi : st'.cell i = none) : ∃ t, (st'.threads t).slotKey = some k := by
  -- who waits for an empty cell keeps a handle to it until the cell is filled
  cases hs with
  | hit ht | miss ht =>
    refine h.waits_move (fun k' j _ _ hkey => ?_) hk hi
    rw [Request.slotKey_of_key ht] at hkey
    cases hkey
  | occupied ht =>
    refine h.waits_move (fun k' j _ _ hkey => ?_) hk hi
    rw [ht] at hkey
    cases hkey
  | ready ht | begin ht | succeed _ ht | fail ht | dropSlot ht =>
    refine h.waits_move (fun k' j _ _ hkey => ?_) hk hi
    rw [ht] at hkey
    exact hkey
  -- the thread that inserts the cell waits for it
  | @vacant t k' ht hnone =>
    simp only [move, insert] at hk hi
    by_cases hkk : k = k'
    · exact ⟨t, by simp [move, hkk, Request.slotKey]⟩
    · have hold : st.cache k = some i := by
        rwa [Function.update_of_ne hkk] at hk
      have hcell : st.cell i = none := by
        rwa [Function.update_of_ne (h.below k i hold).ne] at hi
      refine h.waits_move (fun k'' j _ _ hkey => ?_) hold hcell
      rw [ht] at hkey
      cases hkey
  | @fill t k' j v ht =>
    simp only at hi
    -- the cell that is filled needs nobody any more
    have hcell : st.cell i = none := by
      by_cases hij : i = j
      · subst hij
        rw [Function.update_self] at hi
        cases hi
      · rwa [Function.update_of_ne hij] at hi
    refine h.waits_move (fun k'' j' _ _ hkey => ?_) hk hcell
    rw [ht] at hkey
    exact hkey
  -- the cell that is removed has left the cache, so it is another one
  | @remove t k' j ht hrem =>
    simp only [move, drop] at hk hi ⊢
    have hkk : k ≠ k' := by
      rintro rfl
      rw [Function.update_self] at hk
      cases hk
    have hold : st.cache k = some i := by
      rwa [Function.update_of_ne hkk] at hk
    obtain ⟨s, hs⟩ := h.waits k i hold hi
    have hst : s ≠ t := by
      rintro rfl
      rw [ht] at hs
      exact hkk (Option.some_inj.mp hs).symm
    exact ⟨s, by rwa [Function.update_of_ne hst]⟩
  | @keep t k' ht hrem =>
    simp only [move] at hk hi ⊢
    by_cases hkk : k = k'
    · -- the slot is kept for another thread that has a handle to it
      subst hkk
      have hone : st.strong i ≠ 1 := fun hone => hrem i ⟨hk, hi, hone⟩
      obtain ⟨s, hs⟩ := h.exists_handle_of_strong hk hone
      have hst : s ≠ t := by
        rintro rfl
        rw [ht] at hs
        cases hs
      exact ⟨s, by rw [Function.update_of_ne hst]; exact Request.slotKey_of_handle hs⟩
    · obtain ⟨s, hs⟩ := h.waits k i hk hi
      have hst : s ≠ t := by
        rintro rfl
        rw [ht] at hs
        exact hkk (Option.some_inj.mp hs).symm
      exact ⟨s, by rwa [Function.update_of_ne hst]⟩
  -- the thread that finishes had a filled cell
  | @finish t k' j v ht =>
    refine h.waits_move (fun k'' j' hk'' hj' hkey => ?_) hk hi
    rw [ht] at hkey
    obtain rfl : k' = k'' := Option.some_inj.mp hkey
    have hj : st.cache k' = some j := h.cached t k' j (by rw [ht]; rfl)
    obtain rfl : j = j' := Option.some_inj.mp (hj.symm.trans hk'')
    rw [h.resolved t k' j v ht] at hj'
    cases hj'

/-- Every step keeps the invariant: one lemma for each of its parts. -/
theorem step (h : Kept st) (hs : Step st st') : Kept st' where
  cached := h.cached_step hs
  below := h.below_step hs
  inj := h.inj_step hs
  strong := h.strong_step hs
  running := h.running_step hs
  empty := h.empty_step hs
  logged := h.logged_step hs
  once := h.once_step hs
  counted := h.counted_step hs
  resolved := h.resolved_step hs
  returned := h.returned_step hs
  waits := h.waits_step hs

/-- It holds in every reachable state. -/
theorem reachable (h : (kernelCache τ K V).Reachable st) : Kept st := by
  refine h.invariant (I := Kept) (fun s hs => ?_) (fun s s' hs hstep => hs.step hstep)
  obtain rfl : s = .initial := hs
  exact initial

end Kept

/-! ### What the cache promises -/

/-- The successful compiles are counted by the keys that have a kernel. -/
theorem Kept.encard_kernels (h : Kept st) : st.kernels.encard = st.compiles := by
  classical
  have hset : st.kernels = ((st.log.map Prod.fst).toFinset : Set K) := by
    ext k
    simp [kernels, ← h.logged]
  rw [hset, Set.encard_coe_eq_coe_finsetCard, List.toFinset_card_of_nodup h.once, List.length_map,
    h.counted]

/-- What the invariant says of the compiles. -/
theorem Kept.compiledOnce (h : Kept st) : st.CompiledOnce where
  once := h.once
  single t t' k ht ht' := by
    obtain ⟨i, hi, hinit⟩ := ht.handle
    obtain ⟨j, hj, hinit'⟩ := ht'.handle
    obtain rfl : i = j := Option.some_inj.mp ((h.cached t k i hi).symm.trans (h.cached t' k j hj))
    exact h.initialises_eq hinit' t hinit
  returned := h.returned
  counted := h.encard_kernels
  filled hidle k i hk := by
    refine Option.ne_none_iff_exists'.mp fun hempty => ?_
    obtain ⟨t, ht⟩ := h.waits k i hk hempty
    rw [Request.slotKey_of_key (hidle t)] at ht
    cases ht

end KernelCache

end CudaOxide.Launch
