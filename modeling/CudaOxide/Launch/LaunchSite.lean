import CudaOxide.Lib.System

namespace CudaOxide.Launch

open Lib

/-!
# Launch sites and eviction

A launch site keeps the function of its last launch, with the epoch of the kernel cache at which it
was filled; an eviction removes entries from the cache and then bumps the epoch (`LaunchSite`,
`SiteResolution`, `evict_kernel` and `retain_kernels` of `tile_kernel.rs`).

* `SiteCache.Step` — the steps of a launch (probe, lookup or compile, the new resolution, the store)
  and of an eviction call (each removal, the bump, the return), by any thread at any time.
* `SiteCache.Timely` — no resolution is built of an entry whose eviction has bumped the epoch, and
  the epoch does not wrap.
* `no_stale_hit` — a probe that begins after an eviction has returned does not hit what it removed.
-/

/-- `SiteResolution`: the epoch at fill time, what the probe compares, and the cache entry that the
function belongs to. -/
structure SiteResolution (K : Type) where
  epoch : UInt64
  key : K
  entry : ℕ
  deriving DecidableEq

/-- Where a thread stands.  `before` is a record: what had been evicted when the probe began. -/
inductive Launcher (S K : Type) where
  | idle
  /-- in `LaunchSite::get`, with the resolution under the read guard -/
  | probing (s : S) (k : K) (r : Option (SiteResolution K)) (before : List ℕ)
  /-- the probe has returned the function of the entry -/
  | hit (entry : ℕ) (before : List ℕ)
  /-- the probe has missed -/
  | missed (s : S) (k : K)
  /-- the slot of the entry is at hand -/
  | holding (s : S) (k : K) (entry : ℕ)
  /-- the function of the entry is at hand -/
  | resolved (s : S) (k : K) (entry : ℕ)
  /-- the resolution is built -/
  | built (s : S) (r : SiteResolution K)
  /-- in `evict_kernel` or `retain_kernels`, with the entries that the call has removed -/
  | evicting (removed : List ℕ)
  /-- the epoch is bumped, and the call is about to return -/
  | bumped (removed : List ℕ)

/-- The cache, its epoch, the sites and the threads.  `gone` and `evicted` are records of the run:
the entries that were removed by calls that have bumped the epoch, and by calls that have
returned. -/
structure SiteCache (τ S K : Type) where
  cache : K → Option ℕ
  /-- the number of the next entry -/
  next : ℕ
  /-- the cell of the entry has its kernel -/
  filled : ℕ → Bool
  epoch : UInt64
  sites : S → Option (SiteResolution K)
  threads : τ → Launcher S K
  gone : List ℕ
  evicted : List ℕ

namespace SiteCache

variable {τ S K : Type} [DecidableEq τ] [DecidableEq S] [DecidableEq K]

/-- Thread `t` moves on. -/
def move (st : SiteCache τ S K) (t : τ) (x : Launcher S K) : SiteCache τ S K :=
  { st with threads := Function.update st.threads t x }

/-- One step of one thread. -/
inductive Step : SiteCache τ S K → SiteCache τ S K → Prop
  /-- the read guard of the site -/
  | probe {st : SiteCache τ S K} {t : τ} (s : S) (k : K) (ht : st.threads t = .idle) :
      Step st (st.move t (.probing s k (st.sites s) st.evicted))
  /-- the epoch is loaded, and everything compares equal -/
  | probeHit {st : SiteCache τ S K} {t : τ} {s : S} {k : K} {r : SiteResolution K} {before : List ℕ}
      (ht : st.threads t = .probing s k (some r) before) (hepoch : r.epoch = st.epoch)
      (hkey : r.key = k) : Step st (st.move t (.hit r.entry before))
  /-- no resolution, another epoch or key, or a library that has changed -/
  | probeMiss {st : SiteCache τ S K} {t : τ} {s : S} {k : K} {r : Option (SiteResolution K)}
      {before : List ℕ} (ht : st.threads t = .probing s k r before) :
      Step st (st.move t (.missed s k))
  | launched {st : SiteCache τ S K} {t : τ} {e : ℕ} {before : List ℕ}
      (ht : st.threads t = .hit e before) : Step st (st.move t .idle)
  /-- `kernel_cache_slot` finds the slot -/
  | lookup {st : SiteCache τ S K} {t : τ} {s : S} {k : K} {e : ℕ} (ht : st.threads t = .missed s k)
      (hk : st.cache k = some e) : Step st (st.move t (.holding s k e))
  /-- `kernel_cache_slot` inserts a slot -/
  | insert {st : SiteCache τ S K} {t : τ} {s : S} {k : K} (ht : st.threads t = .missed s k)
      (hk : st.cache k = none) :
      Step st { st.move t (.holding s k st.next) with
        cache := Function.update st.cache k (some st.next), next := st.next + 1 }
  /-- `get_or_try_init` compiles the kernel, or finds it -/
  | resolve {st : SiteCache τ S K} {t : τ} {s : S} {k : K} {e : ℕ}
      (ht : st.threads t = .holding s k e) :
      Step st { st.move t (.resolved s k e) with filled := Function.update st.filled e true }
  /-- the compile fails; an empty slot may stay for another thread -/
  | fail {st : SiteCache τ S K} {t : τ} {s : S} {k : K} {e : ℕ} (ht : st.threads t = .holding s k e)
      (hempty : st.filled e = false) : Step st (st.move t .idle)
  /-- the compile fails, and the empty slot is removed -/
  | discard {st : SiteCache τ S K} {t : τ} {s : S} {k : K} {e e' : ℕ}
      (ht : st.threads t = .holding s k e) (hempty : st.filled e = false)
      (hk : st.cache k = some e') (hempty' : st.filled e' = false) :
      Step st { st.move t .idle with cache := Function.update st.cache k none }
  /-- `SiteResolution::new` reads the epoch -/
  | build {st : SiteCache τ S K} {t : τ} {s : S} {k : K} {e : ℕ}
      (ht : st.threads t = .resolved s k e) : Step st (st.move t (.built s ⟨st.epoch, k, e⟩))
  | store {st : SiteCache τ S K} {t : τ} {s : S} {r : SiteResolution K}
      (ht : st.threads t = .built s r) :
      Step st { st.move t .idle with sites := Function.update st.sites s (some r) }
  | evict {st : SiteCache τ S K} {t : τ} (ht : st.threads t = .idle) :
      Step st (st.move t (.evicting []))
  /-- an entry is removed; `evict_kernel` removes one, `retain_kernels` any number -/
  | remove {st : SiteCache τ S K} {t : τ} {k : K} {e : ℕ} {removed : List ℕ}
      (ht : st.threads t = .evicting removed) (hk : st.cache k = some e) :
      Step st { st.move t (.evicting (e :: removed)) with
        cache := Function.update st.cache k none }
  | bump {st : SiteCache τ S K} {t : τ} {removed : List ℕ}
      (ht : st.threads t = .evicting removed) (hne : removed ≠ []) :
      Step st { st.move t (.bumped removed) with
        epoch := st.epoch + 1, gone := removed ++ st.gone }
  | return {st : SiteCache τ S K} {t : τ} {removed : List ℕ} (ht : st.threads t = .bumped removed) :
      Step st { st.move t .idle with evicted := removed ++ st.evicted }
  /-- the call has removed nothing -/
  | returnNone {st : SiteCache τ S K} {t : τ} (ht : st.threads t = .evicting []) :
      Step st (st.move t .idle)

/-- An empty cache and empty sites. -/
def initial : SiteCache τ S K where
  cache _ := none
  next := 0
  filled _ := false
  epoch := 0
  sites _ := none
  threads _ := .idle
  gone := []
  evicted := []

/-- A probe has returned the function of an entry that had been evicted when the probe began. -/
def StaleHit (st : SiteCache τ S K) : Prop :=
  ∃ t e before, st.threads t = .hit e before ∧ e ∈ before

/-- The step builds no resolution of an entry whose eviction has bumped the epoch, and does not wrap
the epoch. -/
structure Timely (st st' : SiteCache τ S K) : Prop where
  build : ∀ t s k e r, st.threads t = .resolved s k e → st'.threads t = .built s r → e ∉ st.gone
  bump : st'.epoch ≠ st.epoch → st.epoch.toNat + 1 < 2 ^ 64

end SiteCache

section Systems

variable (τ S K : Type) [DecidableEq τ] [DecidableEq S] [DecidableEq K]

/-- Threads that launch kernels and evict them. -/
def siteCache : System (SiteCache τ S K) where
  Init st := st = .initial
  Step := SiteCache.Step

/-- The runs whose steps are timely. -/
def timelyCache : System (SiteCache τ S K) where
  Init st := st = .initial
  Step st st' := SiteCache.Step st st' ∧ SiteCache.Timely st st'

end Systems

namespace SiteCache

variable {τ S K : Type} {st st' : SiteCache τ S K}

/-- As long as no call has bumped the epoch, nothing is gone. -/
theorem Timely.of_gone_nil (hgone : st.gone = []) (hepoch : st'.epoch = st.epoch) :
    Timely st st' where
  build t s k e r _ _ := by
    rw [hgone]
    exact List.not_mem_nil
  bump hne := absurd hepoch hne

/-! ### The invariant -/

/-- The epoch of the resolution is one that has been, and has passed when the entry is gone. -/
structure Current (st : SiteCache τ S K) (r : SiteResolution K) : Prop where
  le : r.epoch.toNat ≤ st.epoch.toNat
  lt : r.entry ∈ st.gone → r.epoch.toNat < st.epoch.toNat

/-- What holds in every state of a timely run. -/
structure Kept (st : SiteCache τ S K) : Prop where
  stored : ∀ s r, st.sites s = some r → st.Current r
  probing : ∀ t s k r before, st.threads t = .probing s k (some r) before → st.Current r
  built : ∀ t s r, st.threads t = .built s r → st.Current r
  /-- what a probe finds evicted is gone -/
  before : ∀ t s k r before, st.threads t = .probing s k r before → ∀ e ∈ before, e ∈ st.gone
  bumped : ∀ t removed, st.threads t = .bumped removed → ∀ e ∈ removed, e ∈ st.gone
  evicted : ∀ e ∈ st.evicted, e ∈ st.gone
  fresh : ¬st.StaleHit

namespace Current

variable {r : SiteResolution K}

/-- A resolution that was current when the epoch was bumped has passed. -/
theorem bump (h : st.Current r) (hwrap : st.epoch.toNat + 1 < 2 ^ 64)
    (hepoch : st'.epoch = st.epoch + 1) : st'.Current r := by
  have hnext : st'.epoch.toNat = st.epoch.toNat + 1 := by
    rw [hepoch, UInt64.toNat_add]
    exact Nat.mod_eq_of_lt hwrap
  exact ⟨by rw [hnext]; exact Nat.le_succ_of_le h.le, fun _ => by
    rw [hnext]; exact Nat.lt_succ_of_le h.le⟩

/-- A resolution of the epoch of the cache is of an entry that is not gone. -/
theorem not_gone (h : st.Current r) (hepoch : r.epoch = st.epoch) : r.entry ∉ st.gone := by
  intro hgone
  have hlt := h.lt hgone
  rw [hepoch] at hlt
  exact hlt.false

end Current

namespace Kept

/-- A site has resolved nothing at the start. -/
theorem initial : Kept (SiteCache.initial : SiteCache τ S K) := by
  constructor <;> simp [SiteCache.initial, StaleHit]

variable [DecidableEq τ] [DecidableEq S] [DecidableEq K]

/-- A timely step keeps it: an entry that is stored was looked up in the epoch it is stored with. -/
theorem step (h : Kept st) (hs : Step st st') (htimely : Timely st st') : Kept st' := by
  cases hs with
  | @bump t removed ht hne =>
    -- every resolution there is has passed
    have hpassed (r : SiteResolution K) (hr : st.Current r) :
        Current { st.move t (.bumped removed) with
          epoch := st.epoch + 1, gone := removed ++ st.gone } r :=
      hr.bump (htimely.bump (by simp)) rfl
    obtain ⟨h1, h2, h3, h4, h5, h6, h7⟩ := h
    constructor <;> simp only [move, StaleHit] at * <;> grind
  | @build t s k e ht =>
    have hnew : st.Current ⟨st.epoch, k, e⟩ :=
      ⟨le_rfl,
        fun hgone => absurd hgone (htimely.build t s k e ⟨st.epoch, k, e⟩ ht (by simp [move]))⟩
    obtain ⟨h1, h2, h3, h4, h5, h6, h7⟩ := h
    constructor <;> simp only [move, StaleHit] at * <;> grind [Current]
  | @probeHit t s k r before ht hepoch hkey =>
    have hnot := (h.probing t s k r before ht).not_gone hepoch
    have hbefore := h.before t s k _ before ht
    obtain ⟨h1, h2, h3, h4, h5, h6, h7⟩ := h
    constructor <;> simp only [move, StaleHit] at * <;> grind [Current]
  | _ =>
    -- the epoch and what is gone stay, and no probe ends
    obtain ⟨h1, h2, h3, h4, h5, h6, h7⟩ := h
    constructor <;> simp only [move, StaleHit] at * <;> grind [Current]

/-- It holds in every state of a timely run. -/
theorem reachable (h : (timelyCache τ S K).Reachable st) : Kept st := by
  refine h.invariant (I := Kept) (fun s hs => ?_) (fun s s' hs hstep => ?_)
  · obtain rfl : s = .initial := hs
    exact initial
  · obtain ⟨hstep, htimely⟩ : Step s s' ∧ Timely s s' := hstep
    exact hs.step hstep htimely

end Kept

end SiteCache

/-! ### Stale hits -/

/-- **No stale hit in a timely run.**  Where no resolution is built of an entry whose eviction has
bumped the epoch, a probe that begins after an eviction call has returned does not return the
function of an entry that the call removed. -/
theorem no_stale_hit {τ S K : Type} [DecidableEq τ] [DecidableEq S] [DecidableEq K]
    {st : SiteCache τ S K} (h : (timelyCache τ S K).Reachable st) : ¬st.StaleHit :=
  (SiteCache.Kept.reachable h).fresh

/-- Thread `true` fills a site, `false` evicts the kernel, and `true` probes the site again. -/
theorem no_stale_hit_evicted : ∃ st : SiteCache Bool Unit Unit,
    (∃ r, st.threads true = .probing () () (some r) [0] ∧ r.entry = 0) ∧ ¬st.StaleHit := by
  have h0 : (timelyCache Bool Unit Unit).Reachable .initial := .init rfl
  have h1 := h0.step ⟨.probe (t := true) () () rfl, .of_gone_nil rfl rfl⟩
  have h2 := h1.step ⟨.probeMiss (t := true) rfl, .of_gone_nil rfl rfl⟩
  have h3 := h2.step ⟨.insert (t := true) rfl rfl, .of_gone_nil rfl rfl⟩
  have h4 := h3.step ⟨.resolve (t := true) rfl, .of_gone_nil rfl rfl⟩
  have h5 := h4.step ⟨.build (t := true) rfl, .of_gone_nil rfl rfl⟩
  have h6 := h5.step ⟨.store (t := true) rfl, .of_gone_nil rfl rfl⟩
  have h7 := h6.step ⟨.evict (t := false) rfl, .of_gone_nil rfl rfl⟩
  have h8 := h7.step ⟨.remove (t := false) (k := ()) rfl rfl, .of_gone_nil rfl rfl⟩
  have h9 := h8.step ⟨.bump (t := false) rfl (by decide), ⟨fun _ _ _ _ _ _ _ => List.not_mem_nil,
    fun _ => by decide⟩⟩
  have h10 := h9.step ⟨.return (t := false) rfl, ⟨fun t s k e r ht => (by cases t <;> cases ht),
    fun hne => absurd rfl hne⟩⟩
  have h11 :=
    h10.step ⟨.probe (t := true) () () rfl, ⟨fun t s k e r ht => (by cases t <;> cases ht),
    fun hne => absurd rfl hne⟩⟩
  exact ⟨_, ⟨_, rfl, rfl⟩, no_stale_hit h11⟩

/-- Thread `true` has compiled the kernel when `false` evicts it, and then fills the site with the
epoch after the eviction. -/
theorem stale_hit_evicted : ∃ st : SiteCache Bool Unit Unit,
    (siteCache Bool Unit Unit).Reachable st ∧ st.StaleHit := by
  have h0 : (siteCache Bool Unit Unit).Reachable .initial := .init rfl
  have h1 := h0.step (.probe (t := true) () () rfl)
  have h2 := h1.step (.probeMiss (t := true) rfl)
  have h3 := h2.step (.insert (t := true) rfl rfl)
  have h4 := h3.step (.resolve (t := true) rfl)
  have h5 := h4.step (.evict (t := false) rfl)
  have h6 := h5.step (.remove (t := false) (k := ()) rfl rfl)
  have h7 := h6.step (.bump (t := false) rfl (by decide))
  have h8 := h7.step (.return (t := false) rfl)
  have h9 := h8.step (.build (t := true) rfl)
  have h10 := h9.step (.store (t := true) rfl)
  have h11 := h10.step (.probe (t := true) () () rfl)
  have h12 := h11.step (.probeHit (t := true) rfl rfl rfl)
  exact ⟨_, h12, true, 0, [0], rfl, List.mem_singleton_self 0⟩

end CudaOxide.Launch
