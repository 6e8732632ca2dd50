import Mathlib.Data.Set.Lattice

/-!
# Nests of loops

A nest of loops is executed from the outermost loop inwards: each loop runs its body once for every
iteration, and the innermost body reaches an access.

* `Executes` — the states in which one execution of a nest reaches the access.
* `Executes.mem_innermost` — every access belongs to one execution of the innermost loop.
* `Executes.exists_innermost` — where no outer loop is empty, the innermost loop is executed.
-/

namespace CudaOxide.Lib

variable {σ ι F : Type}

/-- What the loops of a language do: the iterations of a loop that starts in a state, the states in
which an iteration begins, and the states that straight-line code reaches. -/
structure LoopLanguage (σ ι F : Type) where
  Starts : F → σ → Set ι → Prop
  Enters : F → σ → ι → σ → Prop
  Reaches : σ → σ → Prop

namespace LoopLanguage

variable {L : LoopLanguage σ ι F} {f : F} {fs : List F} {s t : σ} {S : Set σ} {P : σ → Prop}

/-- An execution of a nest that starts in a state, with the states at the access. -/
inductive Executes (L : LoopLanguage σ ι F) : List F → σ → Set σ → Prop
  | access {s t : σ} (h : L.Reaches s t) : Executes L [] s {t}
  | loop {f : F} {fs : List F} {s : σ} {T : Set ι} (hstart : L.Starts f s T) (body : ι → σ)
      (accesses : ι → Set σ) (henter : ∀ i ∈ T, L.Enters f s i (body i))
      (hbody : ∀ i ∈ T, Executes L fs (body i) (accesses i)) :
      Executes L (f :: fs) s (⋃ i ∈ T, accesses i)

/-- **Invariants.**  What holds where a nest starts, and is kept by an iteration that begins and by
straight-line code, holds at every access. -/
theorem Executes.invariant (hrun : L.Executes fs s S) (hP : P s)
    (henter : ∀ f s i t, L.Enters f s i t → P s → P t) (hreach : ∀ s t, L.Reaches s t → P s → P t) :
    ∀ t ∈ S, P t := by
  induction hrun with
  | access h =>
    rintro t rfl
    exact hreach _ _ h hP
  | loop _ body accesses hstep _ ih =>
    intro t ht
    obtain ⟨i, hi, ht⟩ := Set.mem_iUnion₂.mp ht
    exact ih i hi (henter _ _ _ _ (hstep i hi) hP) t ht

/-- **The innermost loop of an access.** -/
theorem Executes.mem_innermost (hrun : L.Executes (fs ++ [f]) s S) (hP : P s)
    (henter : ∀ f s i t, L.Enters f s i t → P s → P t) (ht : t ∈ S) :
    ∃ s' S', P s' ∧ L.Executes [f] s' S' ∧ S' ⊆ S ∧ t ∈ S' := by
  induction fs generalizing s S with
  | nil => exact ⟨s, S, hP, hrun, Set.Subset.rfl, ht⟩
  | cons g gs ih =>
    obtain _ | ⟨hstart, body, accesses, hstep, hbody⟩ := hrun
    obtain ⟨i, hi, ht⟩ := Set.mem_iUnion₂.mp ht
    obtain ⟨s', S', hP', hrun', hsub, ht'⟩ := ih (hbody i hi) (henter _ _ _ _ (hstep i hi) hP) ht
    exact ⟨s', S', hP', hrun', hsub.trans (Set.subset_biUnion_of_mem hi), ht'⟩

/-- Where no loop around it is empty, the innermost loop is executed. -/
theorem Executes.exists_innermost (hrun : L.Executes (fs ++ [f]) s S) (hP : P s)
    (henter : ∀ f s i t, L.Enters f s i t → P s → P t)
    (hnonempty : ∀ g ∈ fs, ∀ s' T, P s' → L.Starts g s' T → T.Nonempty) :
    ∃ s' S', P s' ∧ L.Executes [f] s' S' ∧ S' ⊆ S := by
  induction fs generalizing s S with
  | nil => exact ⟨s, S, hP, hrun, Set.Subset.rfl⟩
  | cons g gs ih =>
    obtain _ | ⟨hstart, body, accesses, hstep, hbody⟩ := hrun
    obtain ⟨i, hi⟩ := hnonempty g List.mem_cons_self s _ hP hstart
    obtain ⟨s', S', hP', hrun', hsub⟩ := ih (hbody i hi) (henter _ _ _ _ (hstep i hi) hP)
      fun g' hg' => hnonempty g' (List.mem_cons_of_mem _ hg')
    exact ⟨s', S', hP', hrun', hsub.trans (Set.subset_biUnion_of_mem hi)⟩

/-- Without loops, a body is executed in the states that are reached. -/
theorem executes_nil : L.Executes [] s S ↔ ∃ t, L.Reaches s t ∧ S = {t} := by
  constructor
  · rintro ⟨h⟩
    exact ⟨_, h, rfl⟩
  · rintro ⟨t, h, rfl⟩
    exact .access h

/-- The accesses of a single loop: one for every iteration. -/
theorem Executes.single (hrun : L.Executes [f] s S) :
    ∃ T, L.Starts f s T ∧ (∀ t ∈ S, ∃ i ∈ T, ∃ b, L.Enters f s i b ∧ L.Reaches b t) ∧
      ∀ i ∈ T, ∃ b, L.Enters f s i b ∧ ∃ t ∈ S, L.Reaches b t := by
  obtain _ | ⟨hstart, body, accesses, hstep, hbody⟩ := hrun
  refine ⟨_, hstart, fun t ht => ?_, fun i hi => ⟨body i, hstep i hi, ?_⟩⟩
  · obtain ⟨i, hi, ht⟩ := Set.mem_iUnion₂.mp ht
    obtain ⟨u, hu, heq⟩ := executes_nil.mp (hbody i hi)
    rw [heq] at ht
    obtain rfl : t = u := ht
    exact ⟨i, hi, body i, hstep i hi, hu⟩
  · obtain ⟨t, ht, heq⟩ := executes_nil.mp (hbody i hi)
    exact ⟨t, Set.mem_biUnion hi (heq ▸ rfl), ht⟩

end LoopLanguage

end CudaOxide.Lib
