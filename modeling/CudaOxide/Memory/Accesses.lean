import Mathlib

namespace CudaOxide.Memory

/-!
# Access lists

The lists of active accesses that `cuda-core/src/allocation.rs` keeps for an allocation, and
`cutile/src/tensor.rs` for the storage of a tensor.

* `Usage.Conflicts` — two executed accesses on different streams, one of them a write.
* `release` — the entry of an id is removed by `swap_remove`; both lists are released like this.
* `Accesses.register` — completed accesses are dropped, and the new one is checked against the rest.
-/

/-! ### Lists with ids -/

section Lists

variable {α : Type}

/-- `Vec::swap_remove`: the last element takes the place of the removed one. -/
def swapRemove (l : List α) (i : ℕ) : List α :=
  match l.getLast? with
  | some x => (l.set i x).dropLast
  | none => []

/-- `swap_remove` removes one entry and may move another. -/
theorem swapRemove_perm {l : List α} {i : ℕ} (hi : i < l.length) :
    (swapRemove l i).Perm (l.eraseIdx i) := by
  obtain rfl | ⟨init, x, rfl⟩ := List.eq_nil_or_concat' l
  · simp at hi
  · rw [swapRemove, List.getLast?_concat]
    -- the element may be the last one itself, which then only falls off
    rcases Nat.lt_or_ge i init.length with hlt | hge
    · have hswap : ((init ++ [x]).set i x).dropLast = init.set i x := by
        rw [List.set_append_left _ _ hlt, List.dropLast_concat]
      have hperm := List.getElem_cons_eraseIdx_perm (l := init.set i x) (n := i)
        (by simpa using hlt)
      rw [List.getElem_set_self, List.eraseIdx_set_eq] at hperm
      simp only [hswap]
      rw [List.eraseIdx_append_of_lt_length hlt]
      exact hperm.symm.trans (List.perm_append_singleton x _).symm
    · obtain rfl : i = init.length := by
        rw [List.length_append, List.length_singleton] at hi
        omega
      simp [List.eraseIdx_append_of_length_le]

/-- The entry with the id is removed, if there is one. -/
def release (key : α → ℕ) (l : List α) (id : ℕ) : List α :=
  match l.findIdx? fun a => key a == id with
  | some pos => swapRemove l pos
  | none => l

variable {key : α → ℕ} {l : List α} {id : ℕ}

/-- One entry with the id goes, or there is none. -/
theorem release_cases (key : α → ℕ) (l : List α) (id : ℕ) :
    (release key l id = l ∧ l.find? (fun a => key a == id) = none) ∨
      ∃ x, key x = id ∧ l.find? (fun a => key a == id) = some x ∧
        l.Perm (x :: release key l id) := by
  unfold release
  cases hpos : l.findIdx? fun a => key a == id with
  | none =>
    rw [List.findIdx?_eq_none_iff] at hpos
    exact .inl ⟨rfl, List.find?_eq_none.mpr fun a ha => by simp [hpos a ha]⟩
  | some pos =>
    obtain ⟨hlt, hkey, hbefore⟩ := List.findIdx?_eq_some_iff_getElem.mp hpos
    refine .inr ⟨l[pos], by simpa using hkey, ?_, ?_⟩
    · exact List.find?_eq_some_iff_getElem.mpr
        ⟨hkey, pos, hlt, rfl, fun j hj => by simpa using hbefore j hj⟩
    · exact (List.getElem_cons_eraseIdx_perm hlt).symm.trans ((swapRemove_perm hlt).symm.cons _)

/-- What is left was there. -/
theorem mem_of_mem_release {a : α} (h : a ∈ release key l id) : a ∈ l := by
  rcases release_cases key l id with ⟨heq, _⟩ | ⟨x, _, _, hperm⟩
  · rwa [heq] at h
  · exact hperm.mem_iff.mpr (List.mem_cons_of_mem x h)

/-- The entries of other ids stay. -/
theorem mem_release_of_ne {a : α} (ha : a ∈ l) (hne : key a ≠ id) : a ∈ release key l id := by
  rcases release_cases key l id with ⟨heq, _⟩ | ⟨x, hx, _, hperm⟩
  · rwa [heq]
  · rcases List.mem_cons.mp (hperm.mem_iff.mp ha) with rfl | hmem
    · exact absurd hx hne
    · exact hmem

/-- A release keeps values apart that were apart. -/
theorem nodup_map_release {β : Type} {f : α → β} (h : (l.map f).Nodup) :
    ((release key l id).map f).Nodup := by
  rcases release_cases key l id with ⟨heq, _⟩ | ⟨x, _, _, hperm⟩
  · rwa [heq]
  · exact (List.nodup_cons.mp ((hperm.map f).nodup_iff.mp h)).2

/-- **A release removes its own entry.**  Where no id is there twice, the entry of the id goes, and
every other entry stays. -/
theorem mem_release_iff (h : (l.map key).Nodup) {a : α} :
    a ∈ release key l id ↔ a ∈ l ∧ key a ≠ id := by
  refine ⟨fun hmem => ⟨mem_of_mem_release hmem, ?_⟩, fun ha => mem_release_of_ne ha.1 ha.2⟩
  rintro rfl
  rcases release_cases key l (key a) with ⟨heq, hfind⟩ | ⟨x, hx, _, hperm⟩
  · rw [heq] at hmem
    exact List.find?_eq_none.mp hfind a hmem (by simp)
  · have hnodup := List.nodup_cons.mp ((hperm.map key).nodup_iff.mp h)
    rw [hx] at hnodup
    exact hnodup.1 (List.mem_map_of_mem hmem)

end Lists

/-! ### Accesses -/

/-- What an access does: on which stream, writing or not, executed or only recorded for a graph. -/
structure Usage where
  stream : ℕ
  write : Bool
  recording : Bool
  deriving DecidableEq

/-- Both are executed, on different streams, and one writes. -/
def Usage.Conflicts (a b : Usage) : Prop :=
  a.recording = false ∧ b.recording = false ∧ a.stream ≠ b.stream ∧
    (a.write = true ∨ b.write = true)

instance (a b : Usage) : Decidable (a.Conflicts b) :=
  inferInstanceAs (Decidable (_ ∧ _ ∧ _ ∧ _))

/-- Conflicts are symmetric. -/
theorem Usage.Conflicts.symm {a b : Usage} (h : a.Conflicts b) : b.Conflicts a :=
  ⟨h.2.1, h.1, h.2.2.1.symm, h.2.2.2.symm⟩

/-- The check of both lists: a recording is never refused, and never in the way. -/
def Usage.refused (u : Usage) (active : List Usage) : Bool :=
  !u.recording && active.any fun a =>
    !a.recording && a.stream != u.stream && (u.write || a.write)

/-- A usage is not refused when it conflicts with no active one. -/
theorem Usage.refused_eq_false {u : Usage} {active : List Usage} :
    u.refused active = false ↔ ∀ a ∈ active, ¬a.Conflicts u := by
  simp only [refused, Conflicts]
  grind

/-- The status of an event, as `query` reports it. -/
inductive EventStatus where
  | pending
  | done
  /-- `query` fails -/
  | failed
  deriving DecidableEq

/-- `Access`: an entry of the list of an allocation. -/
structure Access where
  id : ℕ
  usage : Usage
  completion : Option ℕ
  deriving DecidableEq

/-- The completion event is there, and done. -/
def Access.completed (events : ℕ → EventStatus) (a : Access) : Bool :=
  match a.completion with
  | some e => events e = .done
  | none => false

/-- The errors of acquiring an access. -/
inductive AccessError where
  /-- `CUDA_ERROR_NOT_READY` -/
  | notReady
  /-- `CUDA_ERROR_INVALID_VALUE` -/
  | invalidValue
  /-- `tensor has a conflicting in-flight access on another stream` -/
  | tensorConflict
  deriving DecidableEq

/-- The accesses of one tensor: the next id and the active ones. -/
structure Accesses where
  nextId : ℕ
  active : List Access
  deriving DecidableEq

namespace Accesses

/-- The completed accesses are dropped. -/
def retire (events : ℕ → EventStatus) (acc : Accesses) : Accesses :=
  { acc with active := acc.active.filter fun a => !a.completed events }

/-- A new access of a usage, checked against the ones that are not completed.  The list has changed
even where the access is refused. -/
def register (events : ℕ → EventStatus) (acc : Accesses) (u : Usage) :
    Except AccessError ℕ × Accesses :=
  let acc := acc.retire events
  if u.refused (acc.active.map Access.usage) then
    (.error .notReady, acc)
  else if acc.nextId + 1 < 2 ^ 64 then
    (.ok (acc.nextId + 1), ⟨acc.nextId + 1, acc.active ++ [⟨acc.nextId + 1, u, none⟩]⟩)
  else
    (.error .invalidValue, acc)

/-- The drop of an `AllocationLease`. -/
def release (acc : Accesses) (id : ℕ) : Accesses :=
  { acc with active := Memory.release Access.id acc.active id }

/-- `retain_until_complete` notes the event on the entry of the lease. -/
def setCompletion (acc : Accesses) (id e : ℕ) : Accesses :=
  match acc.active.findIdx? fun a => a.id == id with
  | some pos => { acc with active := acc.active.modify pos fun a =>
    { a with completion := some e } }
  | none => acc

variable {events : ℕ → EventStatus} {acc : Accesses} {u : Usage}

/-- **A refused access changes nothing but completed entries.** -/
theorem register_error {err : AccessError} {acc' : Accesses}
    (h : acc.register events u = (.error err, acc')) : acc' = acc.retire events := by
  unfold register at h
  simp only at h
  split at h
  · cases h
    rfl
  · split at h
    · cases h
    · cases h
      rfl

/-- An access that is granted gets a fresh id and conflicts with no entry that is not completed. -/
theorem register_ok {id : ℕ} {acc' : Accesses} (h : acc.register events u = (.ok id, acc')) :
    id = acc.nextId + 1 ∧ acc'.nextId = id ∧
      acc'.active = (acc.retire events).active ++ [⟨id, u, none⟩] ∧
      ∀ a ∈ (acc.retire events).active, ¬a.usage.Conflicts u := by
  unfold register at h
  simp only at h
  split at h
  · cases h
  · rename_i hrefused
    split at h
    · cases h
      refine ⟨rfl, rfl, rfl, fun a ha => ?_⟩
      exact Usage.refused_eq_false.mp (by simpa using hrefused) a.usage (List.mem_map_of_mem ha)
    · cases h

/-- Retiring drops the completed accesses. -/
theorem mem_retire {a : Access} :
    a ∈ (acc.retire events).active ↔ a ∈ acc.active ∧ a.completed events = false := by
  simp [retire]

/-- The event is noted on the entry of the lease, and on no other. -/
theorem setCompletion_active (hnodup : (acc.active.map Access.id).Nodup) (id e : ℕ) :
    (acc.setCompletion id e).active =
      acc.active.map fun a => if a.id = id then { a with completion := some e } else a := by
  unfold setCompletion
  cases hpos : acc.active.findIdx? fun a => a.id == id with
  | none =>
    rw [List.findIdx?_eq_none_iff] at hpos
    refine ((List.map_congr_left fun a ha => if_neg ?_).trans (List.map_id _)).symm
    simpa using hpos a ha
  | some pos =>
    obtain ⟨hlt, hid, _⟩ := List.findIdx?_eq_some_iff_getElem.mp hpos
    refine List.ext_getElem (by simp) fun i hi hi' => ?_
    simp only [List.length_modify] at hi
    rw [List.getElem_modify, List.getElem_map]
    -- the record at the position is the only one with its number
    by_cases heq : pos = i
    · subst heq
      simp_all
    · have hne : acc.active[i].id ≠ id := by
        have hpair := List.pairwise_iff_getElem.mp (List.pairwise_map.mp hnodup)
        have hid : acc.active[pos].id = id := by simpa using hid
        rcases Nat.lt_or_gt_of_ne heq with hlt' | hlt'
        · exact fun hi => hpair pos i hlt (by simpa using hi') hlt' (hid.trans hi.symm)
        · exact fun hi => hpair i pos (by simpa using hi') hlt hlt' (hi.trans hid.symm)
      simp [heq, hne]

end Accesses

end CudaOxide.Memory
