import CudaOxide.Lib.System
import CudaOxide.Memory.Accesses

namespace CudaOxide.Memory

open Lib

/-!
# Leases on an allocation

Tensors and buffer views share one allocation.  Each tensor storage has a list of active accesses of
its own, whose entries hold leases on the allocation (`RawDeviceBuffer`, `AllocationLease`,
`Storage::register_access`, `AccessLease`).

* `Tracker.registerAccess`, `Tracker.acquireOnStream` — the two ways to an access.
* `Tracker.Step` — acquisitions, views, releases, completion events and their worker, in any order.
* `Tracker.Kept` — the invariant: a lease has one place, and the entries of the tensors are
  registered with the allocation.
* `accesses_excluded` — no two uncompleted accesses conflict, a release removes its own entry, and a
  refused access changes nothing but completed entries.
-/

/-- `RawDeviceBuffer`: a byte range of the allocation. -/
structure View where
  offset : ℕ
  len : ℕ
  deriving DecidableEq

/-- `RawDeviceBuffer::slice_bytes`. -/
def View.sliceBytes (v : View) (offset bytes : ℕ) : Option View :=
  if offset + bytes < 2 ^ 64 ∧ offset + bytes ≤ v.len then
    some ⟨v.offset + offset, bytes⟩
  else
    none

/-- `StorageAccess`: an entry of the list of a tensor storage. -/
structure StorageAccess where
  lease : Option ℕ
  id : ℕ
  usage : Usage
  deriving DecidableEq

/-- Where a lease on the allocation is. -/
inductive Place (σ : Type) where
  /-- not granted, dropped, or forgotten -/
  | nowhere
  | held
  /-- on the retirement worker, until the event is done -/
  | queued (e : ℕ)
  /-- in an entry of the list of a tensor storage -/
  | stored (s : σ)

/-- The allocation, its views, the tensor storages and the leases.  `granted` and `issued` are
records of the run: the ids that the allocation has granted, and those that the storages have
issued. -/
structure Tracker (σ : Type) where
  accesses : Accesses
  views : List View
  storages : σ → List StorageAccess
  /-- `NEXT_ACCESS_ID` -/
  nextAccessId : ℕ
  events : ℕ → EventStatus
  nextEvent : ℕ
  places : ℕ → Place σ
  /-- the `AccessLease` and `StorageLease` values -/
  leases : List (σ × ℕ)
  granted : List ℕ
  issued : List ℕ

namespace Tracker

variable {σ : Type}

/-- The allocation has granted a lease, which is now at this place. -/
def grant (st : Tracker σ) (id : ℕ) (place : Place σ) : Tracker σ :=
  { st with places := Function.update st.places id place, granted := id :: st.granted }

/-- `RawDeviceBuffer::acquire_on_stream`. -/
def acquireOnStream (st : Tracker σ) (u : Usage) (place : Place σ) :
    Except AccessError ℕ × Tracker σ :=
  match st.accesses.register st.events u with
  | (.ok id, accesses) => (.ok id, { st with accesses }.grant id place)
  | (.error e, accesses) => (.error e, { st with accesses })

/-- A lease on the allocation is dropped. -/
def dropLease (st : Tracker σ) (id : ℕ) : Tracker σ :=
  { st with accesses := st.accesses.release id, places := Function.update st.places id .nowhere }

/-- `retain_until_complete`, with the event recorded: it is noted on the entry, and the lease goes
to the worker. -/
def retainUntilComplete (st : Tracker σ) (id : ℕ) : Tracker σ :=
  { st with
    accesses := st.accesses.setCompletion id st.nextEvent
    nextEvent := st.nextEvent + 1
    places := Function.update st.places id (.queued st.nextEvent) }

/-- A lease is forgotten; its entry stays. -/
def forget (st : Tracker σ) (id : ℕ) : Tracker σ :=
  { st with places := Function.update st.places id .nowhere }

section Fields

variable (st : Tracker σ) (id : ℕ)

/-- A dropped lease is nowhere. -/
@[simp] theorem dropLease_places :
    (st.dropLease id).places = Function.update st.places id .nowhere := rfl

/-- A dropped lease gives its access back. -/
@[simp] theorem dropLease_accesses : (st.dropLease id).accesses = st.accesses.release id := rfl

/-- A forgotten lease is nowhere. -/
@[simp] theorem forget_places :
    (st.forget id).places = Function.update st.places id .nowhere := rfl

/-- A retained lease waits for the event that is recorded for it. -/
@[simp] theorem retainUntilComplete_places : (st.retainUntilComplete id).places =
    Function.update st.places id (.queued st.nextEvent) := rfl

/-- A retained lease completes with the event that is recorded for it. -/
@[simp] theorem retainUntilComplete_accesses : (st.retainUntilComplete id).accesses =
    st.accesses.setCompletion id st.nextEvent := rfl

end Fields

variable [DecidableEq σ]

/-- An entry is pushed on the list of a storage, under the next process-wide id. -/
def push (st : Tracker σ) (s : σ) (u : Usage) (lease : Option ℕ) : Tracker σ :=
  { st with
    storages := Function.update st.storages s (st.storages s ++ [⟨lease, st.nextAccessId, u⟩])
    nextAccessId := (st.nextAccessId + 1) % 2 ^ 64
    leases := (s, st.nextAccessId) :: st.leases
    issued := st.nextAccessId :: st.issued }

/-- `Storage::register_access`; the storage is on the allocation, or has metadata only. -/
def registerAccess (st : Tracker σ) (device : Bool) (s : σ) (u : Usage) :
    Except AccessError ℕ × Tracker σ :=
  if u.refused ((st.storages s).map StorageAccess.usage) then
    (.error .tensorConflict, st)
  else if device then
    match st.acquireOnStream u (.stored s) with
    | (.ok id, st') => (.ok st.nextAccessId, st'.push s u (some id))
    | (.error e, st') => (.error e, st')
  else
    (.ok st.nextAccessId, st.push s u none)

/-- The entry of the id leaves the list of the storage. -/
def removeEntry (st : Tracker σ) (s : σ) (id : ℕ) : Tracker σ :=
  { st with
    storages := Function.update st.storages s (release StorageAccess.id (st.storages s) id) }

/-- `release_access`: the entry is removed, and its lease on the allocation dropped. -/
def releaseAccess (st : Tracker σ) (s : σ) (id : ℕ) : Tracker σ :=
  match ((st.storages s).find? fun a => a.id == id).bind StorageAccess.lease with
  | some lease => (st.removeEntry s id).dropLease lease
  | none => st.removeEntry s id

/-- A push adds one access to one storage. -/
@[simp] theorem push_storages (st : Tracker σ) (s : σ) (u : Usage) (lease : Option ℕ) :
    (st.push s u lease).storages =
      Function.update st.storages s (st.storages s ++ [⟨lease, st.nextAccessId, u⟩]) := rfl

/-- The accesses behind a push. -/
theorem mem_push {st : Tracker σ} {s t : σ} {u : Usage} {lease : Option ℕ} {x : StorageAccess} :
    x ∈ (st.push s u lease).storages t ↔
      x ∈ st.storages t ∨ t = s ∧ x = ⟨lease, st.nextAccessId, u⟩ := by
  rw [push_storages]
  by_cases hts : t = s
  · subst hts
    simp
  · simp [hts]

/-- An entry is removed from its storage only. -/
theorem removeEntry_storages (st : Tracker σ) (s : σ) (id : ℕ) :
    (st.removeEntry s id).storages =
      Function.update st.storages s (release StorageAccess.id (st.storages s) id) := rfl

/-- Removing an entry adds none. -/
theorem mem_of_mem_removeEntry {st : Tracker σ} {s t : σ} {id : ℕ} {x : StorageAccess}
    (hx : x ∈ (st.removeEntry s id).storages t) : x ∈ st.storages t := by
  rw [removeEntry_storages] at hx
  by_cases hts : t = s
  · subst hts
    rw [Function.update_self] at hx
    exact mem_of_mem_release hx
  · rwa [Function.update_of_ne hts] at hx

/-- The lease that is dropped with an entry, and the entry itself. -/
theorem releaseAccess_cases (st : Tracker σ) (s : σ) (id : ℕ) :
    (st.releaseAccess s id = st.removeEntry s id ∧
        ∀ x, (st.storages s).find? (fun a => a.id == id) = some x → x.lease = none) ∨
      ∃ x lease, x.id = id ∧ x.lease = some lease ∧
        (st.storages s).Perm (x :: release StorageAccess.id (st.storages s) id) ∧
        st.releaseAccess s id = (st.removeEntry s id).dropLease lease := by
  unfold releaseAccess
  split
  · rename_i lease hlease
    obtain ⟨x, hfind, hx⟩ := Option.bind_eq_some_iff.mp hlease
    rcases release_cases StorageAccess.id (st.storages s) id with ⟨_, hnone⟩ | ⟨y, hy,
      hfind', hperm⟩
    · rw [hfind] at hnone
      cases hnone
    · obtain rfl : x = y := Option.some_inj.mp (hfind.symm.trans hfind')
      exact .inr ⟨x, lease, hy, hx, hperm, rfl⟩
  · rename_i hnone
    refine .inl ⟨rfl, fun x hx => ?_⟩
    rwa [hx] at hnone

/-- One step.  `device` says which storages are on the allocation. -/
inductive Step (device : σ → Bool) : Tracker σ → Tracker σ → Prop
  | slice {st : Tracker σ} {v v' : View} {offset bytes : ℕ} (hv : v ∈ st.views)
      (h : v.sliceBytes offset bytes = some v') :
      Step device st { st with views := v' :: st.views }
  | cloneView {st : Tracker σ} {v : View} (hv : v ∈ st.views) :
      Step device st { st with views := v :: st.views }
  | dropView {st : Tracker σ} (v : View) : Step device st { st with views := st.views.erase v }
  /-- a buffer view acquires an access, or is refused -/
  | acquire {st : Tracker σ} {v : View} (hv : v ∈ st.views) (u : Usage) :
      Step device st (st.acquireOnStream u .held).2
  /-- a tensor acquires an access, or is refused -/
  | register {st : Tracker σ} (s : σ) (u : Usage) :
      Step device st (st.registerAccess (device s) s u).2
  | dropLease {st : Tracker σ} {i : ℕ} (hid : st.places i = .held) :
      Step device st (st.dropLease i)
  | retainUntilComplete {st : Tracker σ} {i : ℕ} (hid : st.places i = .held) :
      Step device st (st.retainUntilComplete i)
  /-- the event could not be recorded -/
  | retainFailed {st : Tracker σ} {i : ℕ} (hid : st.places i = .held) :
      Step device st (st.forget i)
  | eventDone {st : Tracker σ} {e : ℕ} (he : st.events e = .pending) (hnext : e < st.nextEvent) :
      Step device st { st with events := Function.update st.events e .done }
  | eventFailed {st : Tracker σ} {e : ℕ} (he : st.events e = .pending) (hnext : e < st.nextEvent) :
      Step device st { st with events := Function.update st.events e .failed }
  /-- the worker finds the event done -/
  | retire {st : Tracker σ} {i e : ℕ} (hid : st.places i = .queued e)
      (he : st.events e = .done) : Step device st (st.dropLease i)
  /-- the worker cannot tell whether the event is done -/
  | leak {st : Tracker σ} {i e : ℕ} (hid : st.places i = .queued e)
      (he : st.events e = .failed) : Step device st (st.forget i)
  /-- an `AccessLease` or a `StorageLease` is dropped -/
  | releaseAccess {st : Tracker σ} {s : σ} {i : ℕ} (hid : (s, i) ∈ st.leases) :
      Step device st { st.releaseAccess s i with leases := st.leases.erase (s, i) }

/-- One view of the whole allocation, and no access. -/
def initial (bytes : ℕ) : Tracker σ where
  accesses := ⟨0, []⟩
  views := [⟨0, bytes⟩]
  storages _ := []
  nextAccessId := 1
  events _ := .pending
  nextEvent := 0
  places _ := .nowhere
  leases := []
  granted := []
  issued := []

end Tracker

/-- The accesses of an allocation of `bytes` bytes. -/
def tracker {σ : Type} [DecidableEq σ] (device : σ → Bool) (bytes : ℕ) : System (Tracker σ) where
  Init st := st = .initial bytes
  Step := Tracker.Step device

namespace Tracker

variable {σ : Type} {device : σ → Bool} {st st' : Tracker σ} {u : Usage} {place : Place σ} {id : ℕ}

/-- What the allocation promises. -/
structure Registered (st : Tracker σ) : Prop where
  nodup : (st.accesses.active.map Access.id).Nodup
  active_le : ∀ a ∈ st.accesses.active, a.id ≤ st.accesses.nextId
  places_eq : ∀ id, st.accesses.nextId < id → st.places id = .nowhere
  granted_le : ∀ id ∈ st.granted, id ≤ st.accesses.nextId
  granted_nodup : st.granted.Nodup
  /-- an entry has an event only when its lease is with the worker, or gone -/
  uncompleted : ∀ a ∈ st.accesses.active,
    (st.places a.id = .held ∨ ∃ s, st.places a.id = .stored s) → a.completion = none
  exclusive : ∀ a ∈ st.accesses.active, ∀ b ∈ st.accesses.active, a.usage.Conflicts b.usage →
    a.completed st.events = true ∨ b.completed st.events = true
  fresh : ∀ e, st.nextEvent ≤ e → st.events e = .pending

/-- What the storages promise. -/
structure Listed (device : σ → Bool) (st : Tracker σ) : Prop where
  /-- the lease of an entry is there, and registered for the same usage -/
  stored : ∀ s, ∀ x ∈ st.storages s, ∀ id, x.lease = some id → st.places id = .stored s ∧
    ∃ a ∈ st.accesses.active, a.id = id ∧ a.usage = x.usage
  leased : ∀ s, ((st.storages s).filterMap StorageAccess.lease).Nodup
  device : ∀ s, ∀ x ∈ st.storages s, x.lease.isSome = device s

/-- What the process-wide counter promises. -/
structure Numbered (st : Tracker σ) : Prop where
  next : st.nextAccessId = (st.issued.length + 1) % 2 ^ 64
  issued : st.issued = (List.range st.issued.length).reverse.map fun k => (k + 1) % 2 ^ 64
  entries : ∀ s, ∀ x ∈ st.storages s, x.id ∈ st.issued
  distinct : st.issued.length ≤ 2 ^ 64 → ∀ s, ((st.storages s).map StorageAccess.id).Nodup

/-! ### The allocation -/

namespace Registered

/-- The completed entries can be left out. -/
theorem retire (h : Registered st) :
    Registered { st with accesses := st.accesses.retire st.events } where
  nodup := (h.nodup.sublist (List.filter_sublist.map _))
  active_le a ha := h.active_le a (Accesses.mem_retire.mp ha).1
  places_eq := h.places_eq
  granted_le := h.granted_le
  granted_nodup := h.granted_nodup
  uncompleted a ha := h.uncompleted a (Accesses.mem_retire.mp ha).1
  exclusive a ha b hb := h.exclusive a (Accesses.mem_retire.mp ha).1 b (Accesses.mem_retire.mp hb).1
  fresh := h.fresh

/-- An access that is granted joins entries that it does not conflict with. -/
theorem acquire (h : Registered st) : Registered (st.acquireOnStream u place).2 := by
  unfold acquireOnStream
  cases hreg : st.accesses.register st.events u with
  | mk result acc =>
    -- a refusal retires what has completed and changes nothing else
    cases result with
    | error e =>
      obtain rfl := Accesses.register_error hreg
      exact h.retire
    -- the new access has the next id, and conflicts with nothing that is active
    | ok id =>
      obtain ⟨hid, hnext, hactive, hnone⟩ := Accesses.register_ok hreg
      have hr := h.retire
      have hlt : ∀ a ∈ (st.accesses.retire st.events).active, a.id < id := by
        intro a ha
        have hle : a.id ≤ st.accesses.nextId := hr.active_le a ha
        omega
      -- what is active is what was active and not completed, and the new access
      have hmem : ∀ a ∈ acc.active,
          a ∈ (st.accesses.retire st.events).active ∨ a = ⟨id, u, none⟩ := by
        intro a ha
        rw [hactive] at ha
        simpa using ha
      refine ⟨?_, fun a ha => ?_, fun i hi => ?_, fun i hi => ?_, ?_, fun a ha hplace => ?_,
        fun a ha b hb hconf => ?_, h.fresh⟩
      · show (acc.active.map Access.id).Nodup
        rw [hactive, List.map_append]
        refine List.nodup_append.mpr ⟨hr.nodup, List.nodup_singleton _, fun i hi j hj => ?_⟩
        obtain ⟨a, ha, rfl⟩ := List.mem_map.mp hi
        rw [List.mem_singleton.mp hj]
        exact (hlt a ha).ne
      · show a.id ≤ acc.nextId
        rw [hnext]
        rcases hmem a ha with ha | rfl
        · exact (hlt a ha).le
        · exact le_rfl
      · have hi : id < i := hnext ▸ hi
        show Function.update st.places id place i = .nowhere
        rw [Function.update_of_ne hi.ne']
        exact h.places_eq i (by omega)
      · show i ≤ acc.nextId
        rcases List.mem_cons.mp hi with rfl | hi
        · exact hnext.ge
        · have hle := h.granted_le i hi
          omega
      · refine List.nodup_cons.mpr ⟨fun hmem => ?_, h.granted_nodup⟩
        have hle := h.granted_le id hmem
        omega
      · rcases hmem a ha with ha | rfl
        · refine hr.uncompleted a ha ?_
          have hne : a.id ≠ id := (hlt a ha).ne
          simpa only [grant, Function.update_of_ne hne] using hplace
        · rfl
      -- two active accesses of different leases do not conflict
      · rcases hmem a ha with ha | rfl
        · rcases hmem b hb with hb | rfl
          · exact hr.exclusive a ha b hb hconf
          · exact absurd hconf (hnone a ha)
        · rcases hmem b hb with hb | rfl
          · exact absurd hconf.symm (hnone b hb)
          · exact absurd rfl hconf.2.2.1

/-- A lease is dropped. -/
theorem dropLease (h : Registered st) (id : ℕ) : Registered (st.dropLease id) := by
  have hmem : ∀ a ∈ (st.accesses.release id).active, a ∈ st.accesses.active ∧ a.id ≠ id :=
    fun a => (mem_release_iff h.nodup).mp
  refine ⟨nodup_map_release h.nodup, fun a ha => h.active_le a (hmem a ha).1, fun i hi => ?_,
    h.granted_le, h.granted_nodup, fun a ha hplace => ?_, fun a ha b hb => ?_, h.fresh⟩
  · rw [dropLease_places]
    by_cases hii : i = id
    · rw [hii, Function.update_self]
    · rw [Function.update_of_ne hii]
      exact h.places_eq i hi
  · refine h.uncompleted a (hmem a ha).1 ?_
    simpa only [dropLease_places, Function.update_of_ne (hmem a ha).2] using hplace
  · exact h.exclusive a (hmem a ha).1 b (hmem b hb).1

/-- A lease is forgotten. -/
theorem forget (h : Registered st) (id : ℕ) : Registered (st.forget id) := by
  refine ⟨h.nodup, h.active_le, fun i hi => ?_, h.granted_le, h.granted_nodup,
    fun a ha hplace => ?_, h.exclusive, h.fresh⟩
  · rw [forget_places]
    by_cases hii : i = id
    · rw [hii, Function.update_self]
    · rw [Function.update_of_ne hii]
      exact h.places_eq i hi
  · refine h.uncompleted a ha ?_
    by_cases hii : a.id = id
    · simp [hii] at hplace
    · simpa only [forget_places, Function.update_of_ne hii] using hplace

/-- An entry gets its event, which is pending. -/
theorem retainUntilComplete (h : Registered st) (hid : st.places id = .held) :
    Registered (st.retainUntilComplete id) := by
  have hactive := Accesses.setCompletion_active h.nodup id st.nextEvent
  have hnext : (st.accesses.setCompletion id st.nextEvent).nextId = st.accesses.nextId := by
    unfold Accesses.setCompletion
    split <;> rfl
  -- an entry comes from one of the same id and usage, which is completed only where this one is
  have hfrom : ∀ a ∈ (st.accesses.setCompletion id st.nextEvent).active, ∃ b ∈ st.accesses.active,
      a.id = b.id ∧ a.usage = b.usage ∧ (b.id ≠ id → a = b) ∧
        (b.completed st.events = true → a.completed st.events = true) := by
    intro a ha
    rw [hactive] at ha
    obtain ⟨b, hb, rfl⟩ := List.mem_map.mp ha
    refine ⟨b, hb, ?_⟩
    by_cases hb' : b.id = id
    · have hnone := h.uncompleted b hb (.inl (hb' ▸ hid))
      simp [hb', Access.completed, hnone]
    · simp [hb']
  refine ⟨?_, fun a ha => ?_, fun i hi => ?_, ?_, h.granted_nodup, fun a ha hplace => ?_,
    fun a ha b hb hconf => ?_, fun e he => h.fresh e (Nat.le_of_succ_le he)⟩
  · show ((st.accesses.setCompletion id st.nextEvent).active.map Access.id).Nodup
    rw [hactive, List.map_map]
    refine (List.map_congr_left fun a _ => ?_) ▸ h.nodup
    by_cases ha : a.id = id
    · simp [ha]
    · simp [ha]
  · obtain ⟨b, hb, hid', _⟩ := hfrom a ha
    show a.id ≤ (st.accesses.setCompletion id st.nextEvent).nextId
    rw [hid', hnext]
    exact h.active_le b hb
  · have hi : st.accesses.nextId < i := hnext ▸ hi
    have hne : i ≠ id := by
      intro hii
      rw [← hii, h.places_eq i hi] at hid
      cases hid
    rw [retainUntilComplete_places, Function.update_of_ne hne]
    exact h.places_eq i hi
  · show ∀ i ∈ st.granted, i ≤ (st.accesses.setCompletion id st.nextEvent).nextId
    rw [hnext]
    exact h.granted_le
  · obtain ⟨b, hb, hid', _, hsame, _⟩ := hfrom a ha
    have hne : b.id ≠ id := by
      intro hb'
      simp [hid', hb'] at hplace
    rw [hsame hne]
    rw [hsame hne] at hplace
    refine h.uncompleted b hb ?_
    simpa only [retainUntilComplete_places, Function.update_of_ne hne] using hplace
  · obtain ⟨a', ha', _, husage, _, hcomp⟩ := hfrom a ha
    obtain ⟨b', hb', _, husage', _, hcomp'⟩ := hfrom b hb
    rw [husage, husage'] at hconf
    exact (h.exclusive a' ha' b' hb' hconf).imp hcomp hcomp'

/-- A pending event gets its result. -/
theorem event (h : Registered st) {e : ℕ} {status : EventStatus} (he : st.events e = .pending)
    (hnext : e < st.nextEvent) :
    Registered { st with events := Function.update st.events e status } := by
  have hcomp : ∀ a : Access, a.completed st.events = true →
      a.completed (Function.update st.events e status) = true := by
    intro a ha
    unfold Access.completed at *
    grind
  refine ⟨h.nodup, h.active_le, h.places_eq, h.granted_le, h.granted_nodup, h.uncompleted,
    fun a ha b hb hconf => (h.exclusive a ha b hb hconf).imp (hcomp a) (hcomp b), fun e' he' => ?_⟩
  have hne : e' ≠ e := (hnext.trans_le he').ne'
  exact (Function.update_of_ne hne _ _).trans (h.fresh e' he')

end Registered

/-! ### The storages -/

namespace Listed

/-- What happens elsewhere to the allocation does not matter, as long as the leases of the entries
stay in place and registered. -/
theorem frame (h : Listed device st) (hst : st'.storages = st.storages)
    (hkeep : ∀ s, ∀ x ∈ st.storages s, ∀ id, x.lease = some id → st.places id = .stored s →
      st'.places id = .stored s ∧ ∀ a ∈ st.accesses.active, a.id = id →
        ∃ b ∈ st'.accesses.active, b.id = id ∧ b.usage = a.usage) : Listed device st' := by
  refine ⟨fun s x hx id hid => ?_, fun s => ?_, fun s x hx => ?_⟩
  · rw [hst] at hx
    obtain ⟨hplace, a, ha, hida, husage⟩ := h.stored s x hx id hid
    obtain ⟨hplace', hkept⟩ := hkeep s x hx id hid hplace
    obtain ⟨b, hb, hidb, husage'⟩ := hkept a ha hida
    exact ⟨hplace', b, hb, hidb, husage'.trans husage⟩
  · rw [hst]
    exact h.leased s
  · rw [hst] at hx
    exact h.device s x hx

/-- The lease of an entry is stored with it. -/
theorem lease_ne (h : Listed device st) (hid : ∀ s, st.places id ≠ .stored s) (s : σ)
    (x : StorageAccess) (hx : x ∈ st.storages s) : x.lease ≠ some id :=
  fun hlease => hid s (h.stored s x hx id hlease).1

/-- An access is granted to the holder of a view, or to a storage that has not yet listed it. -/
theorem acquire (h : Listed device st) (hr : Registered st) :
    Listed device (st.acquireOnStream u place).2 := by
  have hretire : ∀ a ∈ st.accesses.active, (∃ s, st.places a.id = .stored s) →
      a ∈ (st.accesses.retire st.events).active := by
    intro a ha hs
    refine Accesses.mem_retire.mpr ⟨ha, ?_⟩
    simp [Access.completed, hr.uncompleted a ha (.inr hs)]
  unfold acquireOnStream
  cases hreg : st.accesses.register st.events u with
  | mk result acc =>
    cases result with
    | error e =>
      obtain rfl := Accesses.register_error hreg
      exact h.frame rfl fun s x _ i _ hi =>
        ⟨hi, fun a ha hid => ⟨a, hretire a ha ⟨s, hid ▸ hi⟩, hid, rfl⟩⟩
    | ok id =>
      obtain ⟨hid, _, hactive, _⟩ := Accesses.register_ok hreg
      refine h.frame rfl fun s x _ i _ hi => ⟨?_, fun a ha hida => ⟨a, ?_, hida, rfl⟩⟩
      · have hne : i ≠ id := by
          intro hii
          rw [hr.places_eq i (by omega)] at hi
          cases hi
        exact (Function.update_of_ne hne _ _).trans hi
      · show a ∈ acc.active
        rw [hactive]
        exact List.mem_append_left _ (hretire a ha ⟨s, hida ▸ hi⟩)

/-- A lease that no entry has is dropped. -/
theorem dropLease (h : Listed device st)
    (hid : ∀ s, ∀ x ∈ st.storages s, x.lease ≠ some id) : Listed device (st.dropLease id) := by
  refine h.frame rfl fun s x hx i hi hplace => ?_
  have hne : i ≠ id := fun hii => hid s x hx (hii ▸ hi)
  rw [dropLease_places, Function.update_of_ne hne]
  exact ⟨hplace, fun a ha hida => ⟨a, mem_release_of_ne ha (hida ▸ hne), hida, rfl⟩⟩

/-- Forgetting a lease that no storage holds keeps the listing. -/
theorem forget (h : Listed device st) (hid : ∀ s, st.places id ≠ .stored s) :
    Listed device (st.forget id) := by
  refine h.frame rfl fun s x hx i hi hplace => ?_
  have hne : i ≠ id := fun hii => hid s (hii ▸ hplace)
  rw [forget_places, Function.update_of_ne hne]
  exact ⟨hplace, fun a ha hida => ⟨a, ha, hida, rfl⟩⟩

/-- Retaining a held lease keeps the listing. -/
theorem retainUntilComplete (h : Listed device st) (hr : Registered st)
    (hid : st.places id = .held) : Listed device (st.retainUntilComplete id) := by
  refine h.frame rfl fun s x hx i hi hplace => ?_
  have hne : i ≠ id := by
    rintro rfl
    rw [hid] at hplace
    cases hplace
  rw [retainUntilComplete_places, Function.update_of_ne hne, retainUntilComplete_accesses,
    Accesses.setCompletion_active hr.nodup id st.nextEvent]
  exact ⟨hplace, fun a ha hida =>
    ⟨a, List.mem_map.mpr ⟨a, ha, if_neg (hida ▸ hne)⟩, hida, rfl⟩⟩

variable [DecidableEq σ]

/-- An entry is pushed whose lease has just been granted. -/
theorem push (h : Listed device st) {s : σ} {lease : Option ℕ} (hdev : lease.isSome = device s)
    (hplace : ∀ id, lease = some id → st.places id = .stored s ∧
      ∃ a ∈ st.accesses.active, a.id = id ∧ a.usage = u)
    (hnew : ∀ id, lease = some id → ∀ x ∈ st.storages s, x.lease ≠ some id) :
    Listed device (st.push s u lease) := by
  refine ⟨fun t x hx id hid => ?_, fun t => ?_, fun t x hx => ?_⟩
  · rcases mem_push.mp hx with hx | ⟨rfl, rfl⟩
    · exact h.stored t x hx id hid
    · exact hplace id hid
  · by_cases hts : t = s
    · subst hts
      rw [push_storages, Function.update_self, List.filterMap_append]
      refine List.nodup_append.mpr ⟨h.leased t, ?_, fun i hi j hj => ?_⟩
      · cases lease <;> simp
      · obtain ⟨x, hx, hlease⟩ := List.mem_filterMap.mp hi
        rintro rfl
        refine hnew i ?_ x hx hlease
        simpa using hj
    · rw [push_storages, Function.update_of_ne hts]
      exact h.leased t
  · rcases mem_push.mp hx with hx | ⟨rfl, rfl⟩
    · exact h.device t x hx
    · exact hdev

/-- An entry leaves its list. -/
theorem removeEntry (h : Listed device st) (s : σ) (id : ℕ) :
    Listed device (st.removeEntry s id) := by
  refine ⟨fun t x hx => h.stored t x (mem_of_mem_removeEntry hx), fun t => ?_,
    fun t x hx => h.device t x (mem_of_mem_removeEntry hx)⟩
  rw [removeEntry_storages]
  by_cases hts : t = s
  · subst hts
    rw [Function.update_self]
    rcases release_cases StorageAccess.id (st.storages t) id with ⟨heq, _⟩ | ⟨x, _, _, hperm⟩
    · rw [heq]
      exact h.leased t
    · have hnodup := (hperm.filterMap StorageAccess.lease).nodup_iff.mp (h.leased t)
      exact hnodup.sublist ((List.sublist_cons_self x _).filterMap _)
  · rw [Function.update_of_ne hts]
    exact h.leased t

/-- An entry goes, and its lease with it, which no other entry has. -/
theorem releaseAccess (h : Listed device st) (s : σ) (id : ℕ) :
    Listed device (st.releaseAccess s id) := by
  rcases releaseAccess_cases st s id with ⟨heq, _⟩ | ⟨x, lease, _, hx, hperm, heq⟩
  · rw [heq]
    exact h.removeEntry s id
  · rw [heq]
    refine (h.removeEntry s id).dropLease fun t y hy hlease => ?_
    have hmem : x ∈ st.storages s := hperm.mem_iff.mpr List.mem_cons_self
    by_cases hts : t = s
    · subst hts
      rw [removeEntry_storages, Function.update_self] at hy
      have hnodup := (hperm.filterMap StorageAccess.lease).nodup_iff.mp (h.leased t)
      rw [List.filterMap_cons_some hx] at hnodup
      exact (List.nodup_cons.mp hnodup).1 (List.mem_filterMap.mpr ⟨y, hy, hlease⟩)
    · have hplace := (h.stored t y (mem_of_mem_removeEntry hy) lease hlease).1
      rw [(h.stored s x hmem lease hx).1] at hplace
      cases hplace
      exact hts rfl

end Listed

/-! ### The ids of the storages -/

namespace Numbered

/-- The counter does not come round in the first `2 ^ 64` acquisitions. -/
theorem nodup_ids {n : ℕ} (hn : n ≤ 2 ^ 64) :
    ((List.range n).reverse.map fun k => (k + 1) % 2 ^ 64).Nodup := by
  refine List.Nodup.map_on (fun i hi j hj hij => ?_) (List.nodup_reverse.mpr List.nodup_range)
  rw [List.mem_reverse, List.mem_range] at hi hj
  omega

/-- While fewer than `2^64` ids are issued, no id is issued twice. -/
theorem nodup (h : Numbered st) (hlen : st.issued.length ≤ 2 ^ 64) : st.issued.Nodup := by
  rw [h.issued]
  exact nodup_ids hlen

/-- Steps that touch neither storages nor ids keep the numbering. -/
theorem frame (h : Numbered st) (hst : st'.storages = st.storages)
    (hnext : st'.nextAccessId = st.nextAccessId) (hissued : st'.issued = st.issued) :
    Numbered st' := by
  refine ⟨?_, ?_, ?_, ?_⟩
  · rw [hnext, hissued, h.next]
  · rw [hissued]
    exact h.issued
  · rw [hst, hissued]
    exact h.entries
  · rw [hst, hissued]
    exact h.distinct

variable [DecidableEq σ]

/-- A push takes the next id. -/
theorem push (h : Numbered st) (s : σ) (lease : Option ℕ) : Numbered (st.push s u lease) := by
  have hissued : (st.push s u lease).issued = st.nextAccessId :: st.issued := rfl
  have hlength : (st.push s u lease).issued.length = st.issued.length + 1 := rfl
  have hall : (st.push s u lease).issued =
      (List.range (st.push s u lease).issued.length).reverse.map fun k => (k + 1) % 2 ^ 64 := by
    rw [hlength, List.range_succ, List.reverse_append, List.reverse_singleton,
      List.singleton_append, List.map_cons, ← h.issued, ← h.next]
    exact hissued
  refine ⟨?_, hall, fun t x hx => ?_, fun hlen t => ?_⟩
  · show (st.nextAccessId + 1) % 2 ^ 64 = (st.issued.length + 1 + 1) % 2 ^ 64
    rw [h.next, Nat.mod_add_mod]
  · rw [hissued]
    rcases mem_push.mp hx with hx | ⟨_, rfl⟩
    · exact List.mem_cons_of_mem _ (h.entries t x hx)
    · exact List.mem_cons_self
  · have hlen' : st.issued.length ≤ 2 ^ 64 := by omega
    rw [push_storages]
    by_cases hts : t = s
    · subst hts
      rw [Function.update_self, List.map_append]
      refine List.nodup_append.mpr ⟨h.distinct hlen' t, List.nodup_singleton _,
        fun i hi j hj => ?_⟩
      obtain ⟨x, hx, rfl⟩ := List.mem_map.mp hi
      obtain rfl : j = st.nextAccessId := by simpa using hj
      intro heq
      have hnodup : (st.nextAccessId :: st.issued).Nodup := by
        rw [← hissued, hall]
        exact nodup_ids hlen
      exact (List.nodup_cons.mp hnodup).1 (heq ▸ h.entries t x hx)
    · rw [Function.update_of_ne hts]
      exact h.distinct hlen' t

/-- A release keeps the numbering. -/
theorem releaseAccess (h : Numbered st) (s : σ) (id : ℕ) :
    Numbered (st.releaseAccess s id) := by
  have hremove : Numbered (st.removeEntry s id) := by
    refine ⟨h.next, h.issued, fun t x hx => h.entries t x (mem_of_mem_removeEntry hx),
      fun hlen t => ?_⟩
    rw [removeEntry_storages]
    by_cases hts : t = s
    · subst hts
      rw [Function.update_self]
      exact nodup_map_release (h.distinct hlen t)
    · rw [Function.update_of_ne hts]
      exact h.distinct hlen t
  rcases releaseAccess_cases st s id with ⟨heq, _⟩ | ⟨x, lease, _, _, _, heq⟩
  · rw [heq]
    exact hremove
  · rw [heq]
    exact hremove.frame rfl rfl rfl

end Numbered

/-! ### The two ways to an access -/

/-- A lease that is granted is new, and at its place. -/
theorem acquireOnStream_ok (h : st.acquireOnStream u place = (.ok id, st')) :
    st'.places id = place ∧ (∃ a ∈ st'.accesses.active, a.id = id ∧ a.usage = u) ∧
      st'.storages = st.storages ∧ id = st.accesses.nextId + 1 := by
  unfold acquireOnStream at h
  split at h
  · rename_i i acc hok
    cases h
    obtain ⟨hid, _, hactive, _⟩ := Accesses.register_ok hok
    refine ⟨Function.update_self .., ⟨⟨id, u, none⟩, ?_, rfl, rfl⟩, rfl, hid⟩
    show ⟨id, u, none⟩ ∈ acc.active
    rw [hactive]
    exact List.mem_append_right _ (List.mem_singleton_self _)
  · cases h

/-- The state after a refused access: completed entries may have been dropped. -/
def Refused (st st' : Tracker σ) : Prop :=
  st' = st ∨ st' = { st with accesses := st.accesses.retire st.events }

/-- An acquisition that fails changes nothing but retired accesses. -/
theorem acquireOnStream_error {e : AccessError} (h : st.acquireOnStream u place = (.error e, st')) :
    Refused st st' := by
  unfold acquireOnStream at h
  split at h
  · cases h
  · rename_i err acc herr
    cases h
    obtain rfl := Accesses.register_error herr
    exact .inr rfl

/-- A registration that fails changes nothing but retired accesses. -/
theorem registerAccess_error [DecidableEq σ] {e : AccessError} {b : Bool} {s : σ}
    (h : st.registerAccess b s u = (.error e, st')) : Refused st st' := by
  unfold registerAccess at h
  split at h
  · cases h
    exact .inl rfl
  split at h
  · split at h
    · cases h
    · rename_i err acc herr
      cases h
      exact acquireOnStream_error herr
  · cases h

/-! ### Runs -/

/-- What holds in every state. -/
structure Kept (device : σ → Bool) (st : Tracker σ) : Prop where
  registered : Registered st
  listed : Listed device st
  numbered : Numbered st

namespace Kept

/-- The initial tracker is in order. -/
theorem initial (bytes : ℕ) : Kept device (Tracker.initial bytes) := by
  constructor
  · constructor <;> simp [Tracker.initial]
  · constructor <;> simp [Tracker.initial]
  · constructor <;> simp [Tracker.initial]

/-- A lease that is held, or with the worker, is not stored with an entry. -/
theorem dropLease (h : Kept device st) (hid : ∀ s, st.places id ≠ .stored s) :
    Kept device (st.dropLease id) :=
  ⟨h.registered.dropLease id, h.listed.dropLease (h.listed.lease_ne hid),
    h.numbered.frame rfl rfl rfl⟩

/-- Forgetting a lease keeps the order. -/
theorem forget (h : Kept device st) (hid : ∀ s, st.places id ≠ .stored s) :
    Kept device (st.forget id) :=
  ⟨h.registered.forget id, h.listed.forget hid, h.numbered.frame rfl rfl rfl⟩

/-- Acquiring an access keeps the order. -/
theorem acquire (h : Kept device st) : Kept device (st.acquireOnStream u place).2 := by
  refine ⟨h.registered.acquire, h.listed.acquire h.registered, h.numbered.frame ?_ ?_ ?_⟩
  all_goals
    unfold acquireOnStream
    split <;> rfl

variable [DecidableEq σ]

/-- The entry of an access is pushed, after its lease is granted. -/
theorem push (h : Kept device st) {s : σ} {lease : Option ℕ} (hdev : lease.isSome = device s)
    (hplace : ∀ id, lease = some id → st.places id = .stored s ∧
      ∃ a ∈ st.accesses.active, a.id = id ∧ a.usage = u)
    (hnew : ∀ id, lease = some id → ∀ x ∈ st.storages s, x.lease ≠ some id) :
    Kept device (st.push s u lease) :=
  ⟨⟨h.registered.nodup, h.registered.active_le, h.registered.places_eq, h.registered.granted_le,
      h.registered.granted_nodup, h.registered.uncompleted, h.registered.exclusive,
      h.registered.fresh⟩,
    h.listed.push hdev hplace hnew, h.numbered.push s lease⟩

/-- A storage registers an access: with the allocation first, and then in its own list. -/
theorem register (h : Kept device st) (s : σ) :
    Kept device (st.registerAccess (device s) s u).2 := by
  unfold registerAccess
  split
  · exact h
  split
  · rename_i hdev
    have hacq : Kept device (st.acquireOnStream u (.stored s)).2 := h.acquire
    split
    · rename_i id st' hok
      obtain ⟨hplace, hentry, hst, hid⟩ := acquireOnStream_ok hok
      rw [hok] at hacq
      refine hacq.push (by rw [hdev]; rfl) ?_ ?_
      · rintro i hi
        obtain rfl := Option.some_inj.mp hi
        exact ⟨hplace, hentry⟩
      · rintro i hi x hx
        obtain rfl := Option.some_inj.mp hi
        rw [hst] at hx
        refine h.listed.lease_ne (fun t ht => ?_) s x hx
        rw [h.registered.places_eq id (by omega)] at ht
        cases ht
    · rename_i e st' herr
      rwa [herr] at hacq
  · rename_i hdev
    refine h.push ?_ ?_ ?_
    · simpa using hdev
    · rintro i hi
      cases hi
    · rintro i hi
      cases hi

/-- Releasing an access keeps the order. -/
theorem releaseAccess (h : Kept device st) (s : σ) (id : ℕ) :
    Kept device (st.releaseAccess s id) := by
  refine ⟨?_, h.listed.releaseAccess s id, h.numbered.releaseAccess s id⟩
  have hremove : Registered (st.removeEntry s id) :=
    ⟨h.registered.nodup, h.registered.active_le, h.registered.places_eq, h.registered.granted_le,
      h.registered.granted_nodup, h.registered.uncompleted, h.registered.exclusive,
      h.registered.fresh⟩
  rcases releaseAccess_cases st s id with ⟨heq, _⟩ | ⟨x, lease, _, _, _, heq⟩
  · rw [heq]
    exact hremove
  · rw [heq]
    exact hremove.dropLease lease

omit [DecidableEq σ] in
/-- The views, the leases of the storages and the records of the events do not matter. -/
theorem frame (h : Kept device st) (hreg : Registered st') (hacc : st'.accesses = st.accesses)
    (hplaces : st'.places = st.places) (hst : st'.storages = st.storages)
    (hnext : st'.nextAccessId = st.nextAccessId) (hissued : st'.issued = st.issued) :
    Kept device st' := by
  refine ⟨hreg, h.listed.frame hst fun s x _ i _ hi => ?_, h.numbered.frame hst hnext hissued⟩
  rw [hplaces, hacc]
  exact ⟨hi, fun a ha hid => ⟨a, ha, hid, rfl⟩⟩

/-- Every step keeps the order. -/
theorem step (h : Kept device st) (hs : Step device st st') : Kept device st' := by
  have hreg := h.registered
  cases hs with
  | slice hv hslice | cloneView hv | dropView v =>
    exact h.frame ⟨hreg.nodup, hreg.active_le, hreg.places_eq, hreg.granted_le, hreg.granted_nodup,
      hreg.uncompleted, hreg.exclusive, hreg.fresh⟩ rfl rfl rfl rfl rfl
  | acquire hv u => exact h.acquire
  | register s u => exact h.register s
  | dropLease hid => exact h.dropLease fun s => by rw [hid]; simp
  | retainUntilComplete hid =>
    exact ⟨hreg.retainUntilComplete hid, h.listed.retainUntilComplete hreg hid,
      h.numbered.frame rfl rfl rfl⟩
  | retainFailed hid => exact h.forget fun s => by rw [hid]; simp
  | eventDone he hnext | eventFailed he hnext =>
    exact h.frame (hreg.event he hnext) rfl rfl rfl rfl rfl
  | retire hid he => exact h.dropLease fun s => by rw [hid]; simp
  | leak hid he => exact h.forget fun s => by rw [hid]; simp
  | @releaseAccess s id hid =>
    have hk := h.releaseAccess s id
    exact hk.frame ⟨hk.registered.nodup, hk.registered.active_le, hk.registered.places_eq,
      hk.registered.granted_le, hk.registered.granted_nodup, hk.registered.uncompleted,
      hk.registered.exclusive, hk.registered.fresh⟩ rfl rfl rfl rfl rfl

/-- Every reachable tracker is in order. -/
theorem reachable {bytes : ℕ} (h : (tracker device bytes).Reachable st) : Kept device st := by
  refine h.invariant (I := Kept device) (fun s hs => ?_) (fun s s' hs hstep => hs.step hstep)
  obtain rfl : s = .initial bytes := hs
  exact initial bytes

end Kept

/-- What the two lists promise. -/
structure Tracked [DecidableEq σ] (device : σ → Bool) (st : Tracker σ) : Prop where
  /-- accesses of the allocation that conflict are not both in flight -/
  exclusive : ∀ a ∈ st.accesses.active, ∀ b ∈ st.accesses.active, a.usage.Conflicts b.usage →
    a.completed st.events = true ∨ b.completed st.events = true
  /-- an access of a tensor is registered with the allocation, and in flight there -/
  registered : ∀ s, device s = true → ∀ x ∈ st.storages s, ∃ a ∈ st.accesses.active,
    x.lease = some a.id ∧ a.usage = x.usage ∧ a.completed st.events = false
  /-- accesses of the tensors on the allocation do not conflict -/
  tensors : ∀ s t, device s = true → device t = true → ∀ x ∈ st.storages s, ∀ y ∈ st.storages t,
    ¬x.usage.Conflicts y.usage
  granted : st.granted.Nodup
  issued : st.issued.length ≤ 2 ^ 64 → st.issued.Nodup
  /-- the drop of a lease removes its own entry -/
  dropLease : ∀ id a, a ∈ (st.dropLease id).accesses.active ↔ a ∈ st.accesses.active ∧ a.id ≠ id
  /-- the release of an access removes its own entry, and drops its own lease -/
  releaseAccess : st.issued.length ≤ 2 ^ 64 → ∀ s id,
    (∀ t x, x ∈ (st.releaseAccess s id).storages t ↔ x ∈ st.storages t ∧ ¬(t = s ∧ x.id = id)) ∧
      ∀ a, a ∈ (st.releaseAccess s id).accesses.active ↔
        a ∈ st.accesses.active ∧ ∀ x ∈ st.storages s, x.id = id → x.lease ≠ some a.id
  /-- a refused access leaves everything as it is, completed entries of the allocation apart -/
  refused : ∀ s u e st', st.registerAccess (device s) s u = (.error e, st') → Refused st st'
  refusedView : ∀ u e st', st.acquireOnStream u .held = (.error e, st') → Refused st st'

namespace Kept

/-- The entry of a tensor on the allocation, with its entry there. -/
theorem entry (h : Kept device st) {s : σ} (hdev : device s = true) {x : StorageAccess}
    (hx : x ∈ st.storages s) : ∃ a ∈ st.accesses.active,
      x.lease = some a.id ∧ a.usage = x.usage ∧ a.completed st.events = false := by
  have hsome := h.listed.device s x hx
  rw [hdev, Option.isSome_iff_exists] at hsome
  obtain ⟨id, hid⟩ := hsome
  obtain ⟨hplace, a, ha, rfl, husage⟩ := h.listed.stored s x hx id hid
  refine ⟨a, ha, hid, husage, ?_⟩
  simp [Access.completed, h.registered.uncompleted a ha (.inr ⟨s, hplace⟩)]

variable [DecidableEq σ]

/-- Where no id is there twice, the entry of the id goes with its lease, and all others stay. -/
theorem mem_releaseAccess (h : Kept device st) (hlen : st.issued.length ≤ 2 ^ 64) (s : σ) (id : ℕ) :
    (∀ t x, x ∈ (st.releaseAccess s id).storages t ↔ x ∈ st.storages t ∧ ¬(t = s ∧ x.id = id)) ∧
      ∀ a, a ∈ (st.releaseAccess s id).accesses.active ↔
        a ∈ st.accesses.active ∧ ∀ x ∈ st.storages s, x.id = id → x.lease ≠ some a.id := by
  have hdistinct := h.numbered.distinct hlen s
  have hone : ∀ x ∈ st.storages s, ∀ y ∈ st.storages s, x.id = id → y.id = id → x = y :=
    fun x hx y hy hxid hyid => List.inj_on_of_nodup_map hdistinct hx hy (hxid.trans hyid.symm)
  have hstorages : ∀ t x, x ∈ (st.removeEntry s id).storages t ↔
      x ∈ st.storages t ∧ ¬(t = s ∧ x.id = id) := by
    intro t x
    rw [removeEntry_storages]
    by_cases hts : t = s
    · subst hts
      rw [Function.update_self, mem_release_iff hdistinct]
      simp
    · simp [hts]
  rcases releaseAccess_cases st s id with ⟨heq, hnone⟩ | ⟨x, lease, hx, hlease, hperm, heq⟩
  · rw [heq]
    refine ⟨hstorages, fun a => ⟨fun ha => ⟨ha, fun x hx hxid hlease => ?_⟩, fun ha => ha.1⟩⟩
    cases hfind : (st.storages s).find? fun a => a.id == id with
    | none => exact List.find?_eq_none.mp hfind x hx (by simpa using hxid)
    | some y =>
      have hy := List.mem_of_find?_eq_some hfind
      have hyid : y.id = id := by simpa using List.find?_some hfind
      rw [hone x hx y hy hxid hyid, hnone y hfind] at hlease
      cases hlease
  · have hmem : x ∈ st.storages s := hperm.mem_iff.mpr List.mem_cons_self
    rw [heq]
    refine ⟨hstorages, fun a => (mem_release_iff h.registered.nodup).trans (and_congr_right' ?_)⟩
    constructor
    · intro hne y hy hyid
      rw [hone y hy x hmem hyid hx, hlease]
      exact fun heq => hne (Option.some_inj.mp heq).symm
    · intro hall hid
      exact hall x hmem hx (hid ▸ hlease)

/-- A tracker in order tracks its accesses. -/
theorem tracked (h : Kept device st) : Tracked device st where
  exclusive := h.registered.exclusive
  registered s hdev x hx := h.entry hdev hx
  tensors s t hs ht x hx y hy hconf := by
    obtain ⟨a, ha, _, hxa, hna⟩ := h.entry hs hx
    obtain ⟨b, hb, _, hyb, hnb⟩ := h.entry ht hy
    rw [← hxa, ← hyb] at hconf
    rcases h.registered.exclusive a ha b hb hconf with hdone | hdone
    · rw [hna] at hdone
      cases hdone
    · rw [hnb] at hdone
      cases hdone
  granted := h.registered.granted_nodup
  issued := h.numbered.nodup
  dropLease id a := mem_release_iff h.registered.nodup
  releaseAccess := h.mem_releaseAccess
  refused s u e st' := registerAccess_error
  refusedView u e st' := acquireOnStream_error

end Kept

end Tracker

/-- **Accesses that conflict are not in flight together.**  In any order of acquisitions, releases
and completions, through any tensors and views, the accesses of an allocation exclude each other; a
release removes its own entry only, and a refused access leaves both lists as they are, but for
completed entries. -/
theorem accesses_excluded {σ : Type} [DecidableEq σ] {device : σ →
    Bool} {bytes : ℕ} {st : Tracker σ}
    (h : (tracker device bytes).Reachable st) : st.Tracked device :=
  (Tracker.Kept.reachable h).tracked

/-- A tensor writes on stream `1`, and a view is refused on stream `2`. -/
theorem accesses_excluded_write : ∃ st : Tracker Unit,
    st.accesses.active = [⟨1, ⟨1, true, false⟩, none⟩] ∧ st.Tracked fun _ => true := by
  have h0 : (tracker (fun _ : Unit => true) 64).Reachable (.initial 64) := .init rfl
  have h1 := h0.step (.register () ⟨1, true, false⟩)
  have h2 := h1.step (.acquire (v := ⟨0, 64⟩) (by decide) ⟨2, true, false⟩)
  exact ⟨_, by decide, accesses_excluded h2⟩

/-- The ids of as many accesses as there are to be. -/
theorem exists_issued (n : ℕ) : ∃ st : Tracker Unit,
    (tracker (fun _ => false) 64).Reachable st ∧ st.issued.length = n := by
  induction n with
  | zero => exact ⟨.initial 64, .init rfl, rfl⟩
  | succ n ih =>
    obtain ⟨st, hst, hlen⟩ := ih
    -- a recording is not refused
    exact ⟨_, hst.step (.register () ⟨0, false, true⟩), congrArg (· + 1) hlen⟩

/-- A view has written twice on stream `1`, and the first write is done: an access on stream `2` is
refused for the second one, and the first one is dropped from the list.  And the counter of the
storages comes round. -/
theorem refused_drops_completed :
    (∃ st st' : Tracker Unit, (tracker (fun _ => true) 64).Reachable st ∧
      st.acquireOnStream ⟨2, true, false⟩ .held = (.error .notReady, st') ∧
        st'.accesses ≠ st.accesses) ∧
      ∃ st : Tracker Unit, (tracker (fun _ => false) 64).Reachable st ∧ ¬st.issued.Nodup := by
  constructor
  · have h0 : (tracker (fun _ : Unit => true) 64).Reachable (.initial 64) := .init rfl
    have h1 := h0.step (.acquire (v := ⟨0, 64⟩) (by decide) ⟨1, true, false⟩)
    have h2 := h1.step (.retainUntilComplete (i := 1) rfl)
    have h3 := h2.step (.acquire (v := ⟨0, 64⟩) (by decide) ⟨1, true, false⟩)
    have h4 := h3.step (.eventDone (e := 0) rfl (by decide))
    exact ⟨_, _, h4, rfl, by decide⟩
  · obtain ⟨st, hst, hlen⟩ := exists_issued (2 ^ 64 + 1)
    refine ⟨st, hst, fun hnodup => ?_⟩
    rw [(Tracker.Kept.reachable hst).numbered.issued, hlen] at hnodup
    have hsame := List.inj_on_of_nodup_map hnodup (x := 0) (y := 2 ^ 64)
      (by simp) (by simp) (by decide)
    exact absurd hsame (by decide)

end CudaOxide.Memory
