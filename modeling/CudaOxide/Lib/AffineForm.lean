import Mathlib

namespace CudaOxide.Lib

/-!
# Affine forms and their sparse maps

An affine form is a sum of integer multiples of variables and a constant.  Programs keep one as a
map from the variables to the coefficients, with no entry for a coefficient of zero.

* `AffineForm.value` — the value of a form under an assignment, linear in the form.
* `AffineForm.eq_of_value` — a form is known from its values at the assignments of zeros and ones.
* `Sparse.coeff`, `Sparse.Zerofree` — the coefficients that a map stands for; a map without zeros is
  the only one for its coefficients.
* `Sparse.toFinsupp` — the form of a map, and `Sparse.sum_toList`, its value entry by entry.
-/

/-- Coefficients and a constant. -/
abbrev AffineForm (κ : Type) := (κ →₀ ℤ) × ℤ

namespace AffineForm

variable {κ : Type}

/-- The value of a form under an assignment, as a linear map. -/
noncomputable def value (σ : κ → ℤ) : AffineForm κ →ₗ[ℤ] ℤ :=
  (Finsupp.linearCombination ℤ σ).coprod LinearMap.id

/-- It is the sum of the products, plus the constant. -/
theorem value_apply (σ : κ → ℤ) (f : AffineForm κ) :
    value σ f = (f.1.sum fun a c => c * σ a) + f.2 := by
  rw [value, LinearMap.coprod_apply, Finsupp.linearCombination_apply]
  rfl

/-- Zeros and ones are enough to tell two forms apart. -/
theorem eq_of_value [DecidableEq κ] {f g : AffineForm κ} (hzero : value 0 f = value 0 g)
    (hone : ∀ a, value (Pi.single a 1) f = value (Pi.single a 1) g) : f = g := by
  have hconst : ∀ h : AffineForm κ, value 0 h = h.2 := fun h => by simp [value_apply]
  have hsingle : ∀ (h : AffineForm κ) a, value (Pi.single a 1) h = h.1 a + h.2 := by
    intro h a
    rw [value_apply, Finsupp.sum, add_left_inj]
    simp only [Pi.single_apply, mul_ite, mul_one, mul_zero, Finset.sum_ite_eq',
      Finsupp.mem_support_iff]
    split
    · rfl
    · rename_i hzero
      exact (not_not.mp hzero).symm
  rw [hconst, hconst] at hzero
  refine Prod.ext (Finsupp.ext fun a => ?_) hzero
  have ha := hone a
  rw [hsingle, hsingle, hzero, add_left_inj] at ha
  exact ha

end AffineForm

/-! ### Sparse maps -/

namespace Sparse

variable {κ : Type} [LinearOrder κ]

instance lawfulEqOrd : Std.LawfulEqOrd κ := ⟨compare_eq_iff_eq.mp⟩

variable {m m' : Std.ExtTreeMap κ ℤ} {a : κ}

/-- A variable without an entry has the coefficient zero. -/
def coeff (m : Std.ExtTreeMap κ ℤ) (a : κ) : ℤ := m[a]?.getD 0

/-- No coefficient that is stored is zero. -/
def Zerofree (m : Std.ExtTreeMap κ ℤ) : Prop := ∀ a : κ, m[a]? ≠ some 0

@[simp] theorem getElem?_insert (k : κ) (c : ℤ) (a : κ) :
    (m.insert k c)[a]? = if k = a then some c else m[a]? := by
  rw [Std.ExtTreeMap.getElem?_insert]
  simp only [compare_eq_iff_eq]

@[simp] theorem getElem?_erase (k a : κ) :
    (m.erase k)[a]? = if k = a then none else m[a]? := by
  rw [Std.ExtTreeMap.getElem?_erase]
  simp only [compare_eq_iff_eq]

@[simp] theorem coeff_empty (a : κ) : coeff (∅ : Std.ExtTreeMap κ ℤ) a = 0 := by simp [coeff]

/-- The coefficient of an entry is the one that is stored. -/
theorem coeff_of_mem {e : κ × ℤ} (h : e ∈ m.toList) : coeff m e.1 = e.2 := by
  rw [coeff, Std.ExtTreeMap.mem_toList_iff_getElem?_eq_some.mp h]
  rfl

/-- It is enough to look at the entries. -/
theorem zerofree_iff : Zerofree m ↔ ∀ e ∈ m.toList, e.2 ≠ 0 := by
  constructor
  · intro h e he hzero
    refine h e.1 ?_
    rw [← hzero]
    exact Std.ExtTreeMap.mem_toList_iff_getElem?_eq_some.mp he
  · intro h a ha
    exact h (a, 0) (Std.ExtTreeMap.mem_toList_iff_getElem?_eq_some.mpr ha) rfl

/-- The entry of a map without zeros is known from the coefficient. -/
theorem Zerofree.getElem?_eq (h : Zerofree m) (a : κ) :
    m[a]? = if coeff m a = 0 then none else some (coeff m a) := by
  have ha := h a
  unfold coeff
  cases hentry : m[a]? with
  | none => rw [Option.getD_none, if_pos rfl]
  | some c =>
    rw [hentry] at ha
    rw [Option.getD_some, if_neg fun hc => ha (congrArg some hc)]

/-- **One map for each form.** -/
theorem Zerofree.ext (h : Zerofree m) (h' : Zerofree m') (hcoeff : ∀ a, coeff m a = coeff m' a) :
    m = m' := by
  refine Std.ExtTreeMap.ext_getElem? fun a => ?_
  rw [h.getElem?_eq, h'.getElem?_eq, hcoeff]

/-- A key has one entry. -/
theorem nodup_keys (m : Std.ExtTreeMap κ ℤ) : (m.toList.map Prod.fst).Nodup := by
  rw [List.Nodup, List.pairwise_map]
  refine Std.ExtTreeMap.distinct_keys_toList.imp fun hne heq => hne ?_
  exact compare_eq_iff_eq.mpr heq

/-- The finitely supported function of a table. -/
noncomputable def toFinsupp (m : Std.ExtTreeMap κ ℤ) : κ →₀ ℤ :=
  Finsupp.onFinset (m.toList.map Prod.fst).toFinset (coeff m) fun a ha => by
    unfold coeff at ha
    cases hentry : m[a]? with
    | none =>
      rw [hentry] at ha
      exact absurd rfl ha
    | some c =>
      rw [List.mem_toFinset, List.mem_map]
      exact ⟨(a, c), Std.ExtTreeMap.mem_toList_iff_getElem?_eq_some.mpr hentry, rfl⟩

@[simp] theorem toFinsupp_apply (m : Std.ExtTreeMap κ ℤ) (a : κ) : toFinsupp m a = coeff m a := rfl

/-- A sum over the entries is a sum over the support. -/
theorem sum_toList (m : Std.ExtTreeMap κ ℤ) (σ : κ → ℤ) :
    (m.toList.map fun e => e.2 * σ e.1).sum = (toFinsupp m).sum fun a c => c * σ a := by
  rw [toFinsupp, Finsupp.onFinset_sum _ fun a => zero_mul (σ a), List.sum_toFinset _ (nodup_keys m),
    List.map_map]
  refine congrArg List.sum (List.map_congr_left fun e he => ?_)
  rw [Function.comp_apply, coeff_of_mem he]

/-- The entries of one key add up to its coefficient. -/
theorem sum_single (m : Std.ExtTreeMap κ ℤ) (a : κ) :
    (m.toList.map fun e => e.2 * if e.1 = a then 1 else 0).sum = coeff m a := by
  rw [sum_toList m fun b => if b = a then 1 else 0, Finsupp.sum]
  simp only [mul_ite, mul_one, mul_zero, Finset.sum_ite_eq', Finsupp.mem_support_iff]
  split
  · rfl
  · rename_i hzero
    exact (not_not.mp hzero).symm

end Sparse

end CudaOxide.Lib
