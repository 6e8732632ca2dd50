import CudaOxide.Async.SlotTable

namespace CudaOxide.Async

open Lib

/-!
# Who owns a slot

An assignment of a `Phase` to every slot explains a state of the protocol: the free list, the
registrants, the active bits and the scanner's list of retired slots are four views of it.

* `Owners` — the four views agree with the phases, so they are disjoint and cover all slots.
* `Cells`, `Flags` — a payload cell holds what the owner of its slot wrote, and a flag that is set
  was set by the owner.
* `total_update`, `total_recycled` — what the slots contribute to the armed counter.
-/

/-- What becomes of a slot between two recyclings. -/
inductive Phase (ρ P : Type) where
  /-- there is no such slot -/
  | absent
  | free
  | held (r : ρ) (stage : Stage P)
  | armed (r : ρ) (payload : P)
  | retiring

namespace Phase

variable {ρ P : Type}

/-- The share of the slot in the armed counter. -/
def weight : Phase ρ P → ℕ
  | .held _ (.counted _ _) => 1
  | .armed _ _ => 1
  | .retiring => 1
  | _ => 0

/-- The registration whose flag write the slot waits for. -/
def Awaits (r : ρ) : Phase ρ P → Prop
  | .held r' stage => r' = r ∧ stage ≠ .claimed
  | .armed r' _ => r' = r
  | _ => False

/-- What the owner of the slot has stored. -/
def cell : Phase ρ P → Option (Payload ρ P)
  | .held r (.stored p) => some ⟨r, p⟩
  | .held r (.counted p _) => some ⟨r, p⟩
  | .armed r p => some ⟨r, p⟩
  | _ => none

end Phase

variable {ρ P : Type}

/-! ### The views of the phases -/

/-- The free list, the active bits, the registrants and the retired slots show the phases. -/
structure Owners (n : ℕ) (free : List ℕ) (active : Bitmap) (regs : ρ → Registrant P)
    (retiring : List ℕ) (φ : ℕ → Phase ρ P) : Prop where
  absent : ∀ s, φ s = .absent ↔ n ≤ s
  mem_free : ∀ s, s ∈ free ↔ φ s = .free
  free_nodup : free.Nodup
  held : ∀ r s stage, regs r = .holding s stage ↔ φ s = .held r stage
  mem_active : ∀ s, active.Mem s ↔ ∃ r p, φ s = .armed r p
  published : ∀ s r p, φ s = .armed r p → ∃ b, regs r = .published s p b
  mem_retiring : ∀ s, s ∈ retiring ↔ φ s = .retiring
  retiring_nodup : retiring.Nodup

/-- What is stored in the payload cells of owned slots. -/
def Cells (payload : ℕ → Option (Payload ρ P)) (φ : ℕ → Phase ρ P) : Prop :=
  ∀ s p, (φ s).cell = some p → payload s = some p

/-- A set flag was set by the owner; a flag write that is on its way goes to the writer's slot. -/
structure Flags (flags : ℕ → UInt32) (lastWrite : ℕ → Option ρ) (device : ρ → FlagWrite)
    (reported : ρ → Bool) (regs : ρ → Registrant P) (φ : ℕ → Phase ρ P) : Prop where
  own : ∀ s r, (φ s).Awaits r → flags s = 1 → lastWrite s = some r ∧ device r = .done
  queued : ∀ r s, device r = .queued s → reported r = false → (φ s).Awaits r
  retired : ∀ r s p b, regs r = .published s p b →
    φ s = .armed r p ∨ device r = .done ∨ reported r = true

section Owners

variable {n : ℕ} {free free' : List ℕ} {active active' : Bitmap}
  {regs regs' : ρ → Registrant P} {retiring retiring' : List ℕ} {φ : ℕ → Phase ρ P} {s : ℕ} {r : ρ}

/-- One slot changes its phase, and every view shows it. -/
theorem Owners.update (h : Owners n free active regs retiring φ) {new : Phase ρ P}
    (hold : φ s ≠ .absent) (hnew : new ≠ .absent)
    (hfree : ∀ t, t ∈ free' ↔ if t = s then new = .free else t ∈ free) (hnodup : free'.Nodup)
    (hheld : ∀ r t stage, regs' r = .holding t stage ↔
      if t = s then new = .held r stage else regs r = .holding t stage)
    (hactive : ∀ t, active'.Mem t ↔ if t = s then ∃ r p, new = .armed r p else active.Mem t)
    (hpub : ∀ t r p, Function.update φ s new t = .armed r p → ∃ b, regs' r = .published t p b)
    (hret : ∀ t, t ∈ retiring' ↔ if t = s then new = .retiring else t ∈ retiring)
    (hretnodup : retiring'.Nodup) :
    Owners n free' active' regs' retiring' (Function.update φ s new) where
  absent t := by
    -- only the phase of `s` changes, so every invariant is looked at for `s` and for another slot
    by_cases hts : t = s
    · subst hts
      rw [Function.update_self]
      exact ⟨fun h => absurd h hnew, fun hn => absurd ((h.absent t).mpr hn) hold⟩
    · rw [Function.update_of_ne hts]
      exact h.absent t
  mem_free t := by
    rw [hfree]
    by_cases hts : t = s
    · rw [if_pos hts, hts, Function.update_self]
    · rw [if_neg hts, Function.update_of_ne hts]
      exact h.mem_free t
  free_nodup := hnodup
  held r t stage := by
    rw [hheld]
    by_cases hts : t = s
    · rw [if_pos hts, hts, Function.update_self]
    · rw [if_neg hts, Function.update_of_ne hts]
      exact h.held r t stage
  mem_active t := by
    rw [hactive]
    by_cases hts : t = s
    · rw [if_pos hts, hts, Function.update_self]
    · rw [if_neg hts, Function.update_of_ne hts]
      exact h.mem_active t
  published := hpub
  mem_retiring t := by
    rw [hret]
    by_cases hts : t = s
    · rw [if_pos hts, hts, Function.update_self]
    · rw [if_neg hts, Function.update_of_ne hts]
      exact h.mem_retiring t
  retiring_nodup := hretnodup

/-- A registration holds one slot only. -/
theorem Owners.holding_inj (h : Owners n free active regs retiring φ) {t : ℕ} {k k' : Stage P}
    (hs : φ s = .held r k) (ht : φ t = .held r k') : t = s ∧ k' = k := by
  have h1 := (h.held r s k).mpr hs
  rw [(h.held r t k').mpr ht] at h1
  cases h1
  exact ⟨rfl, rfl⟩

/-- A slot leaves the active list and waits to be recycled. -/
theorem Owners.clearActive (h : Owners n free active regs retiring φ) {p : P}
    (hs : φ s = .armed r p) :
    Owners n free (active.erase s) regs (retiring ++ [s]) (Function.update φ s .retiring) := by
  have hnot : s ∉ retiring := by simp [h.mem_retiring, hs]
  refine h.update (by rw [hs]; simp) (by simp) (fun t => ?_) h.free_nodup (fun r' t k => ?_)
    (fun t => ?_) (fun t r' p' ht => ?_) (fun t => ?_)
    (List.nodup_append.mpr ⟨h.retiring_nodup, List.nodup_singleton s, fun a ha b hb hab => ?_⟩)
  · by_cases hts : t = s
    · subst hts
      simp [h.mem_free, hs]
    · simp [hts]
  · by_cases hts : t = s
    · subst hts
      simp [h.held, hs]
    · simp [hts]
  · rw [Bitmap.mem_erase]
    by_cases hts : t = s
    · simp [hts]
    · simp [hts]
  · by_cases hts : t = s
    · subst hts
      rw [Function.update_self] at ht
      cases ht
    · rw [Function.update_of_ne hts] at ht
      exact h.published t r' p' ht
  · by_cases hts : t = s
    · simp [hts]
    · simp [hts]
  · rw [List.mem_singleton.mp hb] at hab
    exact hnot (hab ▸ ha)

/-- The retired slots become free. -/
def recycled (retiring : List ℕ) (φ : ℕ → Phase ρ P) (s : ℕ) : Phase ρ P :=
  if s ∈ retiring then .free else φ s

/-- Recycling changes the phase of retiring slots only. -/
theorem Owners.recycled_eq (h : Owners n free active regs retiring φ) {t : ℕ} {x : Phase ρ P}
    (hfree : x ≠ .free) (hret : x ≠ .retiring) : recycled retiring φ t = x ↔ φ t = x := by
  unfold recycled
  split
  · rename_i hmem
    rw [(h.mem_retiring t).mp hmem]
    exact ⟨fun h => absurd h.symm hfree, fun h => absurd h.symm hret⟩
  · rfl

/-- All slots that wait are free again. -/
theorem Owners.recycle (h : Owners n free active regs retiring φ) :
    Owners n (free ++ retiring) active regs [] (recycled retiring φ) where
  absent t := by rw [h.recycled_eq (by simp) (by simp), h.absent]
  mem_free t := by
    rw [List.mem_append, h.mem_free]
    unfold recycled
    split
    · simp [*]
    · simp [*]
  free_nodup := by
    refine List.nodup_append.mpr ⟨h.free_nodup, h.retiring_nodup, fun a ha b hb hab => ?_⟩
    subst hab
    have hfree := (h.mem_free a).mp ha
    rw [(h.mem_retiring a).mp hb] at hfree
    cases hfree
  held r t k := by rw [h.recycled_eq (by simp) (by simp), h.held]
  mem_active t := by
    rw [h.mem_active]
    simp only [h.recycled_eq (x := .armed _ _) (by simp) (by simp)]
  published t r p ht := h.published t r p ((h.recycled_eq (by simp) (by simp)).mp ht)
  mem_retiring t := by
    unfold recycled
    split
    · simp
    · rename_i hnot
      rw [h.mem_retiring] at hnot
      simp [hnot]
  retiring_nodup := List.nodup_nil

variable [DecidableEq ρ]

/-- A registrant that holds `s`, or holds none and takes the free slot `s`, changes its state. -/
theorem Owners.held_update (h : Owners n free active regs retiring φ) {new : Phase ρ P}
    {x : Registrant P} (hold : φ s = .free ∧ regs r = .idle ∨ ∃ k, φ s = .held r k)
    (hx : ∀ t k, x = .holding t k ↔ t = s ∧ new = .held r k)
    (hnew : ∀ r' k, new = .held r' k → r' = r) (r' : ρ) (t : ℕ) (k : Stage P) :
    Function.update regs r x r' = .holding t k ↔
      if t = s then new = .held r' k else regs r' = .holding t k := by
  by_cases hr : r' = r
  · subst hr
    rw [Function.update_self, hx]
    by_cases hts : t = s
    · rw [if_pos hts]
      exact and_iff_right hts
    · rw [if_neg hts]
      refine ⟨fun h => absurd h.1 hts, fun hreg => ?_⟩
      rcases hold with ⟨_, hidle⟩ | ⟨k', hk'⟩
      · rw [hidle] at hreg
        cases hreg
      · exact absurd (h.holding_inj hk' ((h.held r' t k).mp hreg)).1 hts
  · rw [Function.update_of_ne hr]
    by_cases hts : t = s
    · subst hts
      rw [if_pos rfl, h.held]
      constructor
      · intro heq
        rcases hold with ⟨hfree, _⟩ | ⟨k', hk'⟩
        · rw [hfree] at heq
          cases heq
        · rw [hk'] at heq
          cases heq
          exact absurd rfl hr
      · exact fun heq => absurd (hnew r' k heq) hr
    · rw [if_neg hts]

/-- Registrants other than `r` and their published slots stay as they are. -/
theorem Owners.published_update (h : Owners n free active regs retiring φ) {new : Phase ρ P}
    {x : Registrant P} (hr : ∀ t p b, regs r ≠ .published t p b)
    (hnew : ∀ r' p, new = .armed r' p → r' = r ∧ ∃ b, x = .published s p b) (t : ℕ) (r' : ρ) (p : P)
    (ht : Function.update φ s new t = .armed r' p) :
    ∃ b, Function.update regs r x r' = .published t p b := by
  by_cases hts : t = s
  · subst hts
    rw [Function.update_self] at ht
    obtain ⟨rfl, b, hx⟩ := hnew r' p ht
    exact ⟨b, by rw [Function.update_self, hx]⟩
  · rw [Function.update_of_ne hts] at ht
    obtain ⟨b, hb⟩ := h.published t r' p ht
    have hne : r' ≠ r := by
      rintro rfl
      exact hr _ _ _ hb
    exact ⟨b, by rw [Function.update_of_ne hne, hb]⟩

/-- An idle registration takes a free slot. -/
theorem Owners.claim (h : Owners n (free ++ [s]) active regs retiring φ) (hr : regs r = .idle) :
    φ s = .free ∧ Owners n free active (Function.update regs r (.holding s .claimed)) retiring
      (Function.update φ s (.held r .claimed)) := by
  have hs : φ s = .free := (h.mem_free s).mp (List.mem_append_right _ List.mem_cons_self)
  obtain ⟨hnodup, _, hdisj⟩ := List.nodup_append.mp h.free_nodup
  refine ⟨hs, h.update (by rw [hs]; simp) (by simp) (fun t => ?_) hnodup
    (h.held_update (.inl ⟨hs, hr⟩) (by simp [eq_comm]) (by simp [eq_comm]))
    (fun t => ?_) (h.published_update (by simp [hr]) (by simp)) (fun t => ?_) h.retiring_nodup⟩
  · by_cases hts : t = s
    · subst hts
      rw [if_pos rfl]
      exact ⟨fun ht => absurd rfl (hdisj t ht t List.mem_cons_self), by simp⟩
    · simp [hts]
  · by_cases hts : t = s
    · subst hts
      simp [h.mem_active, hs]
    · simp [hts]
  · by_cases hts : t = s
    · subst hts
      simp [h.mem_retiring, hs]
    · simp [hts]

/-- A registration gives its slot back. -/
theorem Owners.release (h : Owners n free active regs retiring φ) {k : Stage P}
    (hr : regs r = .holding s k) :
    Owners n (free ++ [s]) active (Function.update regs r (.released s)) retiring
      (Function.update φ s .free) := by
  have hs := (h.held r s k).mp hr
  have hnot : s ∉ free := by simp [h.mem_free, hs]
  refine h.update (by rw [hs]; simp) (by simp) (fun t => ?_)
    (List.nodup_append.mpr ⟨h.free_nodup, List.nodup_singleton s, fun a ha b hb hab => ?_⟩)
    (h.held_update (.inr ⟨k, hs⟩) (by simp) (by simp))
    (fun t => ?_) (h.published_update (by simp [hr]) (by simp)) (fun t => ?_) h.retiring_nodup
  · by_cases hts : t = s
    · simp [hts]
    · simp [hts]
  · rw [List.mem_singleton.mp hb] at hab
    exact hnot (hab ▸ ha)
  · by_cases hts : t = s
    · subst hts
      simp [h.mem_active, hs]
    · simp [hts]
  · by_cases hts : t = s
    · subst hts
      simp [h.mem_retiring, hs]
    · simp [hts]

/-- A registrant goes on to the next stage with its slot. -/
theorem Owners.advance (h : Owners n free active regs retiring φ) {k : Stage P} (k' : Stage P)
    (hr : regs r = .holding s k) :
    Owners n free active (Function.update regs r (.holding s k')) retiring
      (Function.update φ s (.held r k')) := by
  have hs := (h.held r s k).mp hr
  refine h.update (by rw [hs]; simp) (by simp) (fun t => ?_) h.free_nodup
    (h.held_update (.inr ⟨k, hs⟩) (by simp [eq_comm]) (by simp [eq_comm]))
    (fun t => ?_) (h.published_update (by simp [hr]) (by simp)) (fun t => ?_) h.retiring_nodup
  · by_cases hts : t = s
    · subst hts
      simp [h.mem_free, hs]
    · simp [hts]
  · by_cases hts : t = s
    · subst hts
      simp [h.mem_active, hs]
    · simp [hts]
  · by_cases hts : t = s
    · subst hts
      simp [h.mem_retiring, hs]
    · simp [hts]

/-- A registration hands its slot to the active list. -/
theorem Owners.setActive (h : Owners n free active regs retiring φ) {p : P} {b : Bool}
    (hr : regs r = .holding s (.counted p b)) :
    Owners n free (active.insert s) (Function.update regs r (.published s p b)) retiring
      (Function.update φ s (.armed r p)) := by
  have hs := (h.held r s _).mp hr
  refine h.update (by rw [hs]; simp) (by simp) (fun t => ?_) h.free_nodup
    (h.held_update (.inr ⟨_, hs⟩) (by simp) (by simp))
    (fun t => ?_) (h.published_update (by simp [hr]) ?_) (fun t => ?_) h.retiring_nodup
  · by_cases hts : t = s
    · subst hts
      simp [h.mem_free, hs]
    · simp [hts]
  · rw [Bitmap.mem_insert]
    by_cases hts : t = s
    · simp [hts]
    · simp [hts]
  · intro r' p' heq
    cases heq
    exact ⟨rfl, b, rfl⟩
  · by_cases hts : t = s
    · subst hts
      simp [h.mem_retiring, hs]
    · simp [hts]

end Owners

/-! ### Payload cells and flags -/

section Cells

variable {payload : ℕ → Option (Payload ρ P)} {φ : ℕ → Phase ρ P} {s : ℕ}

/-- One cell and one phase change together. -/
theorem Cells.update (h : Cells payload φ) {c : Option (Payload ρ P)} (new : Phase ρ P)
    (hc : ∀ p, new.cell = some p → c = some p) :
    Cells (Function.update payload s c) (Function.update φ s new) := by
  intro t p ht
  by_cases hts : t = s
  · subst hts
    rw [Function.update_self] at ht ⊢
    exact hc p ht
  · rw [Function.update_of_ne hts] at ht ⊢
    exact h t p ht

/-- A slot changes its phase while its payload cell stays. -/
theorem Cells.update_phase (h : Cells payload φ) {new : Phase ρ P}
    (hc : ∀ p, new.cell = some p → (φ s).cell = some p) :
      Cells payload (Function.update φ s new) := by
  have hupd := h.update (s := s) (c := payload s) new fun p hp => h s p (hc p hp)
  rwa [Function.update_eq_self] at hupd

end Cells

section Flags

variable {flags : ℕ → UInt32} {lastWrite : ℕ → Option ρ} {device : ρ → FlagWrite}
  {reported : ρ → Bool} {regs : ρ → Registrant P} {φ : ℕ → Phase ρ P} {s : ℕ} {r : ρ}

/-- A slot changes its phase, and no flag write that it awaited is lost. -/
theorem Flags.update_phase (h : Flags flags lastWrite device reported regs φ) {new : Phase ρ P}
    {regs' : ρ → Registrant P}
    (hown : ∀ r, new.Awaits r → flags s = 1 → lastWrite s = some r ∧ device r = .done)
    (hqueued : ∀ r, (φ s).Awaits r → device r = .queued s → reported r = false → new.Awaits r)
    (hretired : ∀ r t p b, regs' r = .published t p b →
      (t = s ∧ new = .armed r p) ∨ (t ≠ s ∧ φ t = .armed r p) ∨ device r = .done ∨
        reported r = true) :
    Flags flags lastWrite device reported regs' (Function.update φ s new) where
  own t r ht hset := by
    by_cases hts : t = s
    · subst hts
      rw [Function.update_self] at ht
      exact hown r ht hset
    · rw [Function.update_of_ne hts] at ht
      exact h.own t r ht hset
  queued r t ht halive := by
    have haw := h.queued r t ht halive
    by_cases hts : t = s
    · subst hts
      rw [Function.update_self]
      exact hqueued r haw ht halive
    · rwa [Function.update_of_ne hts]
  retired r t p b ht := by
    rcases hretired r t p b ht with ⟨rfl, hnew⟩ | ⟨hts, hold⟩ | hdone
    · exact .inl (by rw [Function.update_self, hnew])
    · exact .inl (by rw [Function.update_of_ne hts, hold])
    · exact .inr hdone

/-- The flag of a slot that awaits no write, or whose owner waits still, is cleared. -/
theorem Flags.resetFlag (h : Flags flags lastWrite device reported regs φ) :
    Flags (Function.update flags s 0) (Function.update lastWrite s none) device reported
      regs φ where
  own t r ht hset := by
    by_cases hts : t = s
    · subst hts
      rw [Function.update_self] at hset
      exact absurd hset (by decide)
    · rw [Function.update_of_ne hts] at hset ⊢
      exact h.own t r ht hset
  queued := h.queued
  retired := h.retired

/-- Only one registration waits for a slot. -/
theorem Phase.Awaits.unique {ph : Phase ρ P} {r r' : ρ} (h : ph.Awaits r) (h' : ph.Awaits r') :
    r = r' := by
  cases ph with
  | held q stage => exact h.1.symm.trans h'.1
  | armed q p =>
    have h : q = r := h
    have h' : q = r' := h'
    exact h.symm.trans h'
  | absent => exact absurd h id
  | free => exact absurd h id
  | retiring => exact absurd h id

variable [DecidableEq ρ]

/-- The device writes the flag of the registration that owns the slot. -/
theorem Flags.writeFlag (h : Flags flags lastWrite device reported regs φ)
    (hw : device r = .queued s) (halive : reported r = false) :
    Flags (Function.update flags s 1) (Function.update lastWrite s (some r))
      (Function.update device r .done) reported regs φ where
  own t r' ht hset := by
    by_cases hts : t = s
    · subst hts
      have hr : r' = r := ht.unique (h.queued r t hw halive)
      subst hr
      exact ⟨Function.update_self .., Function.update_self ..⟩
    · rw [Function.update_of_ne hts] at hset ⊢
      obtain ⟨hlast, hdone⟩ := h.own t r' ht hset
      refine ⟨hlast, ?_⟩
      by_cases hr : r' = r
      · rw [hr, Function.update_self]
      · rwa [Function.update_of_ne hr]
  queued r' t ht halive' := by
    by_cases hr : r' = r
    · rw [hr, Function.update_self] at ht
      cases ht
    · rw [Function.update_of_ne hr] at ht
      exact h.queued r' t ht halive'
  retired r' t p b ht := by
    by_cases hr : r' = r
    · rw [hr, Function.update_self]
      exact .inr (.inl rfl)
    · rw [Function.update_of_ne hr]
      exact h.retired r' t p b ht

/-- A registration that still owns its slot, or is over, enqueues its flag write. -/
theorem Flags.arm (h : Flags flags lastWrite device reported regs φ) (hw : device r = .none)
    (haw : (φ s).Awaits r ∨ reported r = true) :
    Flags flags lastWrite (Function.update device r (.queued s)) reported regs φ where
  own t r' ht hset := by
    obtain ⟨hlast, hdone⟩ := h.own t r' ht hset
    have hr : r' ≠ r := by
      rintro rfl
      rw [hw] at hdone
      cases hdone
    exact ⟨hlast, by rwa [Function.update_of_ne hr]⟩
  queued r' t ht halive := by
    by_cases hr : r' = r
    · rw [hr, Function.update_self] at ht
      cases ht
      rw [hr] at halive ⊢
      exact haw.resolve_right (by rw [halive]; simp)
    · rw [Function.update_of_ne hr] at ht
      exact h.queued r' t ht halive
  retired r' t p b ht := by
    rcases h.retired r' t p b ht with hph | hdone | hrep
    · exact .inl hph
    · have hr : r' ≠ r := by
        rintro rfl
        rw [hw] at hdone
        cases hdone
      exact .inr (.inl (by rwa [Function.update_of_ne hr]))
    · exact .inr (.inr hrep)

/-- A registrant that is not published yet takes a step on `s`, which is not armed. -/
theorem Flags.retired_update (h : Flags flags lastWrite device reported regs φ) {x : Registrant P}
    {new : Phase ρ P} (hx : ∀ t p b, x = .published t p b → t = s ∧ new = .armed r p)
    (hs : ∀ r p, φ s ≠ .armed r p) (r' : ρ) (t : ℕ) (p : P) (b : Bool)
    (hpub : Function.update regs r x r' = .published t p b) :
    (t = s ∧ new = .armed r' p) ∨ (t ≠ s ∧ φ t = .armed r' p) ∨ device r' = .done ∨
      reported r' = true := by
  by_cases hr : r' = r
  · subst hr
    rw [Function.update_self] at hpub
    exact .inl (hx t p b hpub)
  · rw [Function.update_of_ne hr] at hpub
    rcases h.retired r' t p b hpub with hph | hdone
    · refine .inr (.inl ⟨?_, hph⟩)
      rintro rfl
      exact hs r' p hph
    · exact .inr (.inr hdone)

/-- More payloads are reported dead. -/
theorem Flags.report (h : Flags flags lastWrite device reported regs φ) (r : ρ) :
    Flags flags lastWrite device (Function.update reported r true) regs φ where
  own := h.own
  queued r' t ht halive := by
    by_cases hr : r' = r
    · rw [hr, Function.update_self] at halive
      cases halive
    · rw [Function.update_of_ne hr] at halive
      exact h.queued r' t ht halive
  retired r' t p b ht := by
    rcases h.retired r' t p b ht with hph | hdone | hrep
    · exact .inl hph
    · exact .inr (.inl hdone)
    · refine .inr (.inr ?_)
      by_cases hr : r' = r
      · rw [hr, Function.update_self]
      · rwa [Function.update_of_ne hr]

end Flags

/-! ### The slots that are counted as armed -/

/-- What all slots contribute to the armed counter. -/
def total (n : ℕ) (φ : ℕ → Phase ρ P) : ℕ := ∑ s ∈ Finset.range n, (φ s).weight

/-- A slot counts at most once. -/
theorem Phase.weight_le_one (ph : Phase ρ P) : ph.weight ≤ 1 := by
  unfold Phase.weight
  split
  all_goals decide

/-- So at most `n` slots count. -/
theorem total_le (n : ℕ) (φ : ℕ → Phase ρ P) : total n φ ≤ n :=
  calc total n φ ≤ ∑ _s ∈ Finset.range n, 1 := Finset.sum_le_sum fun s _ => (φ s).weight_le_one
    _ = n := by rw [Finset.sum_const, Finset.card_range, smul_eq_mul, mul_one]

/-- Changing the phase of one slot changes the count by the difference of its weights. -/
theorem total_update {n s : ℕ} (hs : s < n) (φ : ℕ → Phase ρ P) (new : Phase ρ P) :
    total n (Function.update φ s new) + (φ s).weight = total n φ + new.weight := by
  have hmem := Finset.mem_range.mpr hs
  unfold total
  rw [← Finset.add_sum_erase _ _ hmem, ← Finset.add_sum_erase _ (fun t => (φ t).weight) hmem,
    Function.update_self]
  have hrest : ∑ t ∈ (Finset.range n).erase s, (Function.update φ s new t).weight =
      ∑ t ∈ (Finset.range n).erase s, (φ t).weight := by
    apply Finset.sum_congr rfl
    intro t ht
    rw [Function.update_of_ne (Finset.ne_of_mem_erase ht)]
  rw [hrest]
  ring

/-- Recycling takes the retired slots out of the sum. -/
theorem Owners.total_recycled {n : ℕ} {free retiring : List ℕ} {active : Bitmap}
    {regs : ρ → Registrant P} {φ : ℕ → Phase ρ P} (h : Owners n free active regs retiring φ) :
    total n (recycled retiring φ) + retiring.length = total n φ := by
  have hsub : retiring.toFinset ⊆ Finset.range n := by
    intro s hs
    rw [List.mem_toFinset, h.mem_retiring] at hs
    rw [Finset.mem_range]
    by_contra hn
    rw [(h.absent s).mpr (not_lt.mp hn)] at hs
    cases hs
  have hsplit : ∀ s, (φ s).weight = (recycled retiring φ s).weight +
      if s ∈ retiring.toFinset then 1 else 0 := by
    intro s
    unfold recycled
    by_cases hs : s ∈ retiring
    · rw [if_pos hs, if_pos (List.mem_toFinset.mpr hs), (h.mem_retiring s).mp hs]
      rfl
    · rw [if_neg hs, if_neg (fun hmem => hs (List.mem_toFinset.mp hmem))]
      rfl
  unfold total
  rw [Finset.sum_congr rfl fun s _ => hsplit s, Finset.sum_add_distrib, Finset.sum_ite_mem,
    Finset.inter_eq_right.mpr hsub, Finset.sum_const, List.toFinset_card_of_nodup h.retiring_nodup,
    smul_eq_mul, mul_one]

end CudaOxide.Async
