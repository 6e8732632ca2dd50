import CudaOxide.Lib.Run

namespace CudaOxide.Lib

/-!
# Loops that may stop early

A checker walks through ranges of integers, stops at the first thing that is wrong, and
remembers in a table who has claimed which key.

* `Run.forM_eq_ok` — a loop without state succeeds exactly when every pass does.
* `Run.foldlM_collects` — what a loop with state has collected after its last pass; nested
  loops are handled by applying the rule inside itself.
* `Ledger.Owned` — the table of claims; `Ledger.Owned.injOn`: elements that are recorded all
  at once have different keys.
-/

variable {ε α β κ ι σ : Type}

/-- `(lo..hi).step_by(step)` -/
def rangeBy (lo hi step : ℤ) : List ℤ :=
  (List.range ((hi - lo + step - 1) / step).toNat).map fun k : ℕ => lo + step * k

/-- The numbers of a range with a step. -/
theorem mem_rangeBy {lo hi step x : ℤ} (hstep : 0 < step) :
    x ∈ rangeBy lo hi step ↔ lo ≤ x ∧ x < hi ∧ step ∣ x - lo := by
  simp only [rangeBy, List.mem_map, List.mem_range]
  constructor
  · rintro ⟨k, hk, rfl⟩
    have hk' : (k : ℤ) + 1 ≤ (hi - lo + step - 1) / step := by omega
    -- the last counter value is below the bound, since the count rounds up
    have hmul := (Int.le_ediv_iff_mul_le hstep).mp hk'
    have hnn : 0 ≤ step * (k : ℤ) := by positivity
    refine ⟨by omega, by linarith, k, by ring⟩
  · rintro ⟨hlo, hhi, k, hk⟩
    -- a counter before the start would be a negative multiple of the step
    have hk0 : 0 ≤ k := by
      by_contra hneg
      have : step * k < 0 := mul_neg_of_pos_of_neg hstep (not_le.mp hneg)
      omega
    have hle : k + 1 ≤ (hi - lo + step - 1) / step := by
      rw [Int.le_ediv_iff_mul_le hstep]
      linarith
    exact ⟨k.toNat, by omega, by rw [Int.toNat_of_nonneg hk0]; omega⟩

namespace Run

/-- `if c { return Err(e) }` -/
def reject (c : Prop) [Decidable c] (e : ε) : Run ε Unit := if c then fail e else .ok ()

@[simp] theorem reject_eq_ok {c : Prop} [Decidable c] {e : ε} {u : Unit} :
    reject c e = .ok u ↔ ¬c := by
  unfold reject
  split
  · exact ⟨fun h => absurd h fail_ne_ok, fun h => absurd ‹c› h⟩
  · exact ⟨fun _ => ‹¬c›, fun _ => rfl⟩

/-- `xs[i]` -/
def index (xs : List α) (i : ℕ) : Run ε α :=
  match xs[i]? with
  | some x => .ok x
  | none => panic .indexOutOfBounds

/-- An index is in bounds where there is an element. -/
theorem index_eq_ok {xs : List α} {i : ℕ} {x : α} :
    (index xs i : Run ε α) = .ok x ↔ xs[i]? = some x := by
  unfold index
  cases xs[i]? with
  | none => exact ⟨fun h => absurd h panic_ne_ok, fun h => by cases h⟩
  | some y => exact ⟨fun h => by cases h; rfl, fun h => by cases h; rfl⟩

/-- A loop of checks passes if each of them does. -/
theorem forM_eq_ok {xs : List ι} {body : ι → Run ε Unit} :
    xs.forM body = .ok () ↔ ∀ x ∈ xs, body x = .ok () := by
  induction xs with
  | nil => simp [pure, Except.pure]
  | cons x xs ih =>
    rw [List.forall_mem_cons, ← ih]
    show (body x >>= fun _ => xs.forM body) = .ok () ↔ _
    rw [bind_eq_ok]
    constructor
    · rintro ⟨_, hx, h⟩
      exact ⟨hx, h⟩
    · rintro ⟨hx, h⟩
      exact ⟨(), hx, h⟩

/-- If each pass over `x` adds `A x` to what the state is known to cover, the loop covers them
all. -/
theorem foldlM_collects {P : σ → Set α → Prop} {A : ι → Set α} {body : σ → ι → Run ε σ}
    {xs : List ι} {s s' : σ} {D : Set α}
    (hstep : ∀ x ∈ xs, ∀ s s' D, P s D → body s x = .ok s' → P s' (D ∪ A x))
    (h0 : P s D) (h : xs.foldlM body s = .ok s') : P s' (D ∪ ⋃ x ∈ xs, A x) := by
  induction xs generalizing s D with
  | nil =>
    cases h
    simpa using h0
  | cons x xs ih =>
    rw [List.foldlM_cons] at h
    obtain ⟨t, hx, ht⟩ := bind_eq_ok.mp h
    have hrest := ih (fun y hy => hstep y (List.mem_cons_of_mem x hy))
      (hstep x List.mem_cons_self s t D h0 hx) ht
    have hset : D ∪ ⋃ y ∈ x :: xs, A y = D ∪ A x ∪ ⋃ y ∈ xs, A y := by
      ext a
      simp [or_assoc]
    rwa [hset]

end Run

/-! ### Who claimed which key -/

/-- A table from keys to the element that claimed the key. -/
abbrev Ledger (κ α : Type) := κ → Option α

namespace Ledger

variable {key : α → Option κ} {t : Ledger κ α} {D : Set α} {a : α} {k : κ}

/-- Nothing has been claimed. -/
def empty : Ledger κ α := fun _ => none

/-- Record the owner of a key. -/
def insert [DecidableEq κ] (t : Ledger κ α) (k : κ) (a : α) : Ledger κ α :=
  fun j => if j = k then some a else t j

/-- Every element of `D` has a key, and the table names the element as its owner. -/
def Owned (key : α → Option κ) (t : Ledger κ α) (D : Set α) : Prop :=
  ∀ a ∈ D, ∃ k, key a = some k ∧ t k = some a

/-- Nothing is owned at the start. -/
theorem owned_empty : Owned key (empty : Ledger κ α) ∅ := by simp [Owned]

/-- A claim of a free key keeps all earlier claims. -/
theorem Owned.insert [DecidableEq κ] (h : Owned key t D) (hk : key a = some k)
    (hfree : t k = none) :
    Owned key (t.insert k a) (D ∪ {a}) := by
  rintro b (hb | rfl)
  · obtain ⟨j, hj, hown⟩ := h b hb
    have hne : j ≠ k := by
      rintro rfl
      simp [hfree] at hown
    exact ⟨j, hj, by rw [Ledger.insert, if_neg hne, hown]⟩
  · exact ⟨k, hk, if_pos rfl⟩

/-- The owned things have different keys. -/
theorem Owned.injOn (h : Owned key t D) : Set.InjOn key D := by
  intro a ha b hb hab
  obtain ⟨k, hk, hown⟩ := h a ha
  obtain ⟨j, hj, hown'⟩ := h b hb
  have hkj : k = j := by
    rw [hk, hj] at hab
    exact Option.some.inj hab
  rw [hkj] at hown
  exact Option.some.inj (hown.symm.trans hown')

end Ledger

end CudaOxide.Lib
