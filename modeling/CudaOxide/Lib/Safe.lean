import CudaOxide.Lib.Loop

/-!
# Runs that never panic

* `x.Safe` — the run `x` returns a value or an error, whatever its input was.
* `x.Returns P` — it returns a value, and the value satisfies `P`.

The rules follow the syntax of a program; where an operation can panic, the rule asks for the bound
that rules it out.
-/

namespace CudaOxide.Lib.Run

variable {ε ε' α β σ ι : Type}

/-- The run does not panic. -/
def Safe (x : Run ε α) : Prop := ∀ p, x ≠ panic p

namespace Safe

/-- Returning a value is no panic. -/
theorem ok (a : α) : Safe (.ok a : Run ε α) := by
  intro p h
  cases h

theorem pure (a : α) : Safe (pure a : Run ε α) := ok a

/-- Nor is returning an error. -/
theorem fail (e : ε) : Safe (fail e : Run ε α) := by
  intro p h
  cases h

/-- What follows may use what the first run returned. -/
theorem bind {x : Run ε α} {f : α → Run ε β} (hx : x.Safe)
    (hf : ∀ a, x = .ok a → (f a).Safe) : (x >>= f).Safe := by
  intro p h
  cases x with
  | ok a => exact hf a rfl p h
  | error s =>
    cases s with
    | err e => cases h
    | panic q => exact hx q rfl

/-- Both branches are without a panic. -/
theorem ite {c : Prop} [Decidable c] {x y : Run ε α} (ht : c → x.Safe) (he : ¬c → y.Safe) :
    (if c then x else y).Safe := by
  split
  · exact ht ‹_›
  · exact he ‹_›

/-- Refusing is no panic. -/
theorem reject (c : Prop) [Decidable c] (e : ε) : (reject c e).Safe :=
  ite (fun _ => fail e) fun _ => ok ()

/-- Nor is refusing what is not there. -/
theorem okOr (o : Option α) (e : ε) : (okOr o e).Safe := by
  cases o with
  | none => exact fail e
  | some a => exact ok a

/-- Renaming an error keeps a run safe. -/
theorem mapErr {x : Run ε α} (f : ε → ε') (hx : x.Safe) : (x.mapErr f).Safe := by
  intro p h
  cases x with
  | ok a => cases h
  | error s =>
    cases s with
    | err e => cases h
    | panic q => exact hx q rfl

/-- An `i64` operation whose result fits, and what follows. -/
theorem exact_bind {x : ℤ} {f : ℤ → Run ε α} (hx : I64.Fits x) (hf : (f x).Safe) :
    (I64.exact x >>= f).Safe := by
  rw [I64.exact_of_fits hx]
  exact hf

/-- A loop of safe rounds. -/
theorem forM {xs : List ι} {body : ι → Run ε Unit} (h : ∀ x ∈ xs, (body x).Safe) :
    (xs.forM body).Safe := by
  induction xs with
  | nil => exact pure ()
  | cons x xs ih =>
    show (body x >>= fun _ => xs.forM body).Safe
    exact (h x List.mem_cons_self).bind fun _ _ => ih fun y hy => h y (List.mem_cons_of_mem _ hy)

/-- A list of safe computations. -/
theorem mapM {xs : List ι} {body : ι → Run ε α} (h : ∀ x ∈ xs, (body x).Safe) :
    (xs.mapM body).Safe := by
  induction xs with
  | nil => exact pure []
  | cons x xs ih =>
    rw [List.mapM_cons]
    refine (h x List.mem_cons_self).bind fun a _ => ?_
    exact (ih fun y hy => h y (List.mem_cons_of_mem _ hy)).bind fun _ _ => pure _

/-- A loop is safe when each pass is, under an invariant that the passes keep. -/
theorem foldlM {I : σ → Prop} {xs : List ι} {body : σ → ι → Run ε σ} {s : σ}
    (hstep : ∀ s, I s → ∀ x ∈ xs, (body s x).Safe ∧ ∀ s', body s x = .ok s' → I s') (hs : I s) :
    (xs.foldlM body s).Safe := by
  induction xs generalizing s with
  | nil => exact pure s
  | cons x xs ih =>
    rw [List.foldlM_cons]
    obtain ⟨hsafe, hkeep⟩ := hstep s hs x List.mem_cons_self
    refine hsafe.bind fun t ht => ih (fun u hu y hy => ?_) (hkeep t ht)
    exact hstep u hu y (List.mem_cons_of_mem _ hy)

end Safe

/-! ### Exactly when a run does not panic -/

section Iff

variable {x : Run ε α} {f : α → Run ε β} {c : Prop} [Decidable c] {e : ε}

/-- A sequence is safe if its second part is, on what the first one returns. -/
theorem safe_bind : (x >>= f).Safe ↔ x.Safe ∧ ∀ a, x = .ok a → (f a).Safe := by
  constructor
  · intro h
    refine ⟨?_, ?_⟩
    · rintro p rfl
      exact h p rfl
    · rintro a rfl
      exact h
  · rintro ⟨hx, hf⟩
    exact hx.bind hf

@[simp] theorem safe_ok (a : α) : Safe (.ok a : Run ε α) := Safe.ok a

@[simp] theorem safe_fail : Safe (fail e : Run ε α) := Safe.fail e

@[simp] theorem safe_reject : (reject c e).Safe := Safe.reject c e

@[simp] theorem safe_okOr (o : Option α) : (okOr o e).Safe := Safe.okOr o e

/-- An exact result is safe if it fits. -/
@[simp] theorem safe_exact {n : ℤ} : (I64.exact n : Run ε ℤ).Safe ↔ I64.Fits n := by
  constructor
  · intro h
    by_contra hn
    exact h .overflow (if_neg hn)
  · intro h
    rw [I64.exact_of_fits h]
    exact Safe.ok n

end Iff

/-! ### Runs that return -/

/-- The run returns a value, and the value satisfies `P`. -/
def Returns (x : Run ε α) (P : α → Prop) : Prop := ∃ a, x = .ok a ∧ P a

namespace Returns

variable {x : Run ε α} {P : α → Prop} {Q : β → Prop} {a : α}

/-- A value with the property. -/
theorem ok (h : P a) : Returns (.ok a : Run ε α) P := ⟨a, rfl, h⟩

theorem pure (h : P a) : Returns (pure a : Run ε α) P := ⟨a, rfl, h⟩

/-- A weaker property. -/
theorem mono {P' : α → Prop} (h : x.Returns P) (himp : ∀ a, P a → P' a) : x.Returns P' := by
  obtain ⟨a, hx, ha⟩ := h
  exact ⟨a, hx, himp a ha⟩

/-- Two properties. -/
theorem and {P' : α → Prop} (h : x.Returns P) (h' : ∀ a, x = .ok a → P' a) :
    x.Returns fun a => P a ∧ P' a := by
  obtain ⟨a, hx, ha⟩ := h
  exact ⟨a, hx, ha, h' a hx⟩

/-- What follows may use what is known of the first value. -/
theorem bind {f : α → Run ε β} (hx : x.Returns P) (hf : ∀ a, P a → (f a).Returns Q) :
    (x >>= f).Returns Q := by
  obtain ⟨a, rfl, ha⟩ := hx
  exact hf a ha

/-- A run that returns does not panic. -/
theorem safe (h : x.Returns P) : x.Safe := by
  obtain ⟨a, rfl, -⟩ := h
  exact Safe.ok a

/-- What follows a run that returns need not return itself. -/
theorem safe_bind {f : α → Run ε β} (hx : x.Returns P) (hf : ∀ a, P a → (f a).Safe) :
    (x >>= f).Safe := by
  obtain ⟨a, rfl, ha⟩ := hx
  exact hf a ha

/-- The first part returns a known value. -/
theorem bind_ok {f : α → Run ε β} (hx : x = .ok a) (hf : (f a).Returns Q) :
    (x >>= f).Returns Q := by
  subst hx
  exact hf

/-- Both branches return. -/
theorem ite {c : Prop} [Decidable c] {y : Run ε α} (ht : c → x.Returns P)
    (he : ¬c → y.Returns P) : (if c then x else y).Returns P := by
  split
  · exact ht ‹_›
  · exact he ‹_›

/-- An assertion that holds passes. -/
theorem assert {c : Prop} [Decidable c] (h : c) :
    (Run.assert c : Run ε Unit).Returns fun _ => True := by
  rw [Run.assert, if_pos h]
  exact ok trivial

/-- An index in bounds. -/
theorem index {xs : List α} {i : ℕ} (h : i < xs.length) :
    (Run.index xs i : Run ε α).Returns fun a => a = xs[i] :=
  ⟨xs[i], Run.index_eq_ok.mpr (List.getElem?_eq_getElem h), rfl⟩

/-- A list of computations that return. -/
theorem mapM {xs : List ι} {body : ι → Run ε α} (h : ∀ x ∈ xs, (body x).Returns fun _ => True) :
    (xs.mapM body).Returns fun _ => True := by
  induction xs with
  | nil => exact pure trivial
  | cons x xs ih =>
    rw [List.mapM_cons]
    refine (h x List.mem_cons_self).bind fun a _ => ?_
    exact (ih fun y hy => h y (List.mem_cons_of_mem _ hy)).bind fun _ _ => pure trivial

/-- A search whose tests return. -/
theorem anyM {xs : List ι} {p : ι → Run ε Bool} (h : ∀ x ∈ xs, (p x).Returns fun _ => True) :
    (xs.anyM p).Returns fun _ => True := by
  induction xs with
  | nil => exact pure trivial
  | cons x xs ih =>
    rw [List.anyM_cons]
    refine (h x List.mem_cons_self).bind fun b _ => ite (fun _ => pure trivial) fun _ => ?_
    exact ih fun y hy => h y (List.mem_cons_of_mem _ hy)

/-- A filter returns a part of the list. -/
theorem filterM {xs : List α} {p : α → Run ε Bool} (h : ∀ x ∈ xs, (p x).Returns fun _ => True) :
    (xs.filterM p).Returns fun ys => ∀ y ∈ ys, y ∈ xs := by
  -- the code of `filterM` keeps what it has found in reverse
  have haux : ∀ (zs acc : List α), (∀ z ∈ zs, (p z).Returns fun _ => True) →
      (List.filterAuxM p zs acc).Returns fun ys => ∀ y ∈ ys, y ∈ zs ∨ y ∈ acc := by
    intro zs
    induction zs with
    | nil => exact fun acc _ => pure fun y hy => .inr hy
    | cons z zs ih =>
      intro acc hz
      refine (hz z List.mem_cons_self).bind fun b _ => ?_
      refine (ih _ fun y hy => hz y (List.mem_cons_of_mem _ hy)).mono ?_
      intro ys hys y hy
      rcases hys y hy with hin | hin
      · exact .inl (List.mem_cons_of_mem _ hin)
      · cases b with
        | false => exact .inr hin
        | true =>
          rcases List.mem_cons.mp hin with rfl | hin
          · exact .inl List.mem_cons_self
          · exact .inr hin
  refine (haux xs [] h).bind fun ys hys => pure ?_
  intro y hy
  exact (hys y (List.mem_reverse.mp hy)).resolve_right List.not_mem_nil

end Returns

/-- A loop over indices returns a list when every pass returns its element. -/
theorem mapM_range_eq_ok {f : ℕ → Run ε α} {xs : List α}
    (h : ∀ i (hi : i < xs.length), f i = .ok xs[i]) : (List.range xs.length).mapM f = .ok xs := by
  induction xs generalizing f with
  | nil => rfl
  | cons x xs ih =>
    rw [List.length_cons, List.range_succ_eq_map, List.mapM_cons,
      show f 0 = .ok x from h 0 (Nat.zero_lt_succ _)]
    have hrest : (List.range xs.length).mapM (fun i => f (i + 1)) = .ok xs :=
      ih fun i hi => h (i + 1) (Nat.succ_lt_succ hi)
    show (do let ys ← ((List.range xs.length).map Nat.succ).mapM f; _) = _
    rw [List.mapM_map]
    show (do let ys ← (List.range xs.length).mapM (fun i => f (i + 1)); _) = _
    rw [hrest]
    rfl

end CudaOxide.Lib.Run
