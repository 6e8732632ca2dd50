import CudaOxide.Lib.AffineForm
import CudaOxide.Lib.Run

/-!
# Launch terms and predicates

The linear terms over extents, grid sizes and induction variables, and the predicates over them that
are decided at compile time or at launch (`cuda-async/src/predicate.rs`).

* `Term`, `Predicate` — the canonical representatives, their constructors and `eval`.
* `Term.form` — the affine form of a term; every constructor computes the operation of its name on
  the forms.
* `Term.eval_eq_some_iff` — evaluation returns the value, unless a variable is missing or an
  intermediate result overflows.
* `Term.Faithful`, `Predicate.Faithful` — the terms are a faithful algebra, and each predicate
  decides its relation.
-/

namespace CudaOxide.Async

open CudaOxide.Lib I64 Sparse

/-! ### Terms -/

/-- An indivisible operand. -/
inductive Atom where
  | dim (param axis : ℕ)
  | iv (id : ℕ)
  | tileBlockId (axis : ℕ)
  | numTileBlocks (axis : ℕ)
  | viewExtent (param axis : ℕ)
  | tileCount (param axis : ℕ) (tile : ℤ)
  deriving Repr

namespace Atom

/-- The derived order: by the variant, then by the fields. -/
def key : Atom → ℕ ×ₗ ℕ ×ₗ ℕ ×ₗ ℤ
  | dim param axis => toLex (0, toLex (param, toLex (axis, 0)))
  | iv id => toLex (1, toLex (id, toLex (0, 0)))
  | tileBlockId axis => toLex (2, toLex (axis, toLex (0, 0)))
  | numTileBlocks axis => toLex (3, toLex (axis, toLex (0, 0)))
  | viewExtent param axis => toLex (4, toLex (param, toLex (axis, 0)))
  | tileCount param axis tile => toLex (5, toLex (param, toLex (axis, tile)))

/-- Different keys stand for different atoms. -/
theorem key_injective : Function.Injective key := by
  intro a b h
  cases a <;> cases b <;> simp_all [key]

instance : LinearOrder Atom := LinearOrder.lift' key key_injective

end Atom

/-- `sum(coeff_i * atom_i) + constant` -/
@[ext]
structure Term where
  coeffs : Std.ExtTreeMap Atom ℤ
  constantPart : ℤ

namespace Term

/-- A term without atoms. -/
def constant (c : ℤ) : Term := ⟨∅, c⟩

/-- The term `a`. -/
def atom (a : Atom) : Term := ⟨(∅ : Std.ExtTreeMap Atom ℤ).insert a 1, 0⟩

/-- `scale * a + offset`; a scale of zero leaves no coefficient. -/
def affine (a : Atom) (scale offset : ℤ) : Term :=
  if scale = 0 then constant offset else ⟨(∅ : Std.ExtTreeMap Atom ℤ).insert a scale, offset⟩

/-- One round of the loop of `add`: `or_insert(0)`, the checked sum, and no entry for zero. -/
def addEntry (coeffs : Std.ExtTreeMap Atom ℤ) (e : Atom × ℤ) : Option (Std.ExtTreeMap Atom ℤ) := do
  let entry ← checkedAdd (coeffs[e.1]?.getD 0) e.2
  some (if entry = 0 then (coeffs.insert e.1 entry).erase e.1 else coeffs.insert e.1 entry)

/-- `add`: coefficient by coefficient, unless one overflows. -/
def add (t other : Term) : Option Term := do
  let coeffs ← other.coeffs.toList.foldlM addEntry t.coeffs
  let c ← checkedAdd t.constantPart other.constantPart
  some ⟨coeffs, c⟩

/-- The loops of `neg` and `mul_const`: every coefficient goes through a checked operation. -/
def mapEntry (op : ℤ → Option ℤ) (coeffs : Std.ExtTreeMap Atom ℤ) (e : Atom × ℤ) :
    Option (Std.ExtTreeMap Atom ℤ) := do
  let c ← op e.2
  some (coeffs.insert e.1 c)

/-- `neg` -/
def neg (t : Term) : Option Term := do
  let coeffs ← t.coeffs.toList.foldlM (mapEntry fun c => checked (-c)) ∅
  let c ← checked (-t.constantPart)
  some ⟨coeffs, c⟩

/-- `sub`: the negation first, so it can overflow where the difference would not. -/
def sub (t other : Term) : Option Term := do t.add (← other.neg)

/-- `mul_const` -/
def mulConst (t : Term) (k : ℤ) : Option Term :=
  if k = 0 then some (constant 0)
  else do
    let coeffs ← t.coeffs.toList.foldlM (mapEntry fun c => checkedMul c k) ∅
    let c ← checkedMul t.constantPart k
    some ⟨coeffs, c⟩

/-- The first coefficient is negative, or without one the constant. -/
def leadingNegative (t : Term) : Bool :=
  match t.coeffs.toList.head? with
  | some e => e.2 < 0
  | none => t.constantPart < 0

/-- One of a term and its negation; a term whose negation overflows stays. -/
def signCanonical (t : Term) : Term := if t.leadingNegative then t.neg.getD t else t

/-- One round of the loop of `eval`. -/
def evalEntry (resolveAtom : Atom → Option ℤ) (acc : ℤ) (e : Atom × ℤ) : Option ℤ := do
  let v ← resolveAtom e.1
  checkedAdd acc (← checkedMul e.2 v)

/-- `eval`: `none` if an atom has no value or a step overflows. -/
def eval (t : Term) (resolveAtom : Atom → Option ℤ) : Option ℤ :=
  t.coeffs.toList.foldlM (evalEntry resolveAtom) t.constantPart

end Term

/-! ### Predicates -/

/-- The divisor of a divisibility test. -/
abbrev Divisor := {d : ℤ // 1 ≤ d}

/-- What is said about a term. -/
inductive Predicate where
  | zero (term : Term)
  | nonzero (term : Term)
  | positive (term : Term)
  | divisibleBy (term : Term) (divisor : Divisor)

namespace Predicate

/-- `eq`, as the difference with one of the two signs. -/
def eq (a b : Term) : Option Predicate := do some (zero (← a.sub b).signCanonical)

/-- `Predicate::nonzero` -/
def ofNonzero (term : Term) : Predicate := nonzero term.signCanonical

/-- `lt` -/
def lt (a b : Term) : Option Predicate := do some (positive (← b.sub a))

/-- `le`, as `a < b + 1`. -/
def le (a b : Term) : Option Predicate := do
  let next ← b.add (.constant 1)
  some (positive (← next.sub a))

/-- One round of the loop of `divisible_by`: only a residue that is not zero gets an entry. -/
def residueEntry (d : ℤ) (coeffs : Std.ExtTreeMap Atom ℤ) (e : Atom × ℤ) : Std.ExtTreeMap Atom ℤ :=
  let r := e.2 % d
  if r ≠ 0 then coeffs.insert e.1 r else coeffs

/-- The term `reduced` of `divisible_by`: all residues are in `[0, divisor)`. -/
def residue (t : Term) (d : ℤ) : Term :=
  ⟨t.coeffs.toList.foldl (residueEntry d) ∅, t.constantPart % d⟩

/-- `Predicate::divisible_by` -/
def ofDivisibleBy (term : Term) (divisor : ℤ) : Option Predicate :=
  if h : divisor < 1 then none
  else some (divisibleBy (residue term divisor).signCanonical ⟨divisor, not_lt.mp h⟩)

/-- `eval`: `none` where the term has no value. -/
def eval (p : Predicate) (resolveAtom : Atom → Option ℤ) : Option Bool := do
  match p with
  | zero t => some ((← t.eval resolveAtom) = 0)
  | nonzero t => some ((← t.eval resolveAtom) ≠ 0)
  | positive t => some ((← t.eval resolveAtom) > 0)
  | divisibleBy t d => some ((← t.eval resolveAtom) % d.1 = 0)

end Predicate

/-! ### What a term stands for -/

namespace Term

/-- The integer that a term stands for. -/
def value (t : Term) (σ : Atom → ℤ) : ℤ := t.constantPart +
    (t.coeffs.toList.map fun e => e.2 * σ e.1).sum

/-- The normal form. -/
structure Normal (t : Term) : Prop where
  distinct : (t.coeffs.toList.map Prod.fst).Nodup
  nonzero : ∀ e ∈ t.coeffs.toList, e.2 ≠ 0
  fits : ∀ e ∈ t.coeffs.toList, Fits e.2
  fits_constant : Fits t.constantPart

/-- The affine form that a term stands for. -/
noncomputable def form (t : Term) : AffineForm Atom := (toFinsupp t.coeffs, t.constantPart)

/-- The value of a term is that of its form. -/
theorem value_eq (t : Term) (σ : Atom → ℤ) : t.value σ = AffineForm.value σ t.form := by
  rw [value, sum_toList, AffineForm.value_apply, add_comm]
  rfl

/-- Zero fits. -/
theorem fits_zero : Fits 0 := ⟨by norm_num, by norm_num⟩

/-- A normal term has no coefficient zero. -/
theorem Normal.zerofree {t : Term} (h : t.Normal) : Zerofree t.coeffs := zerofree_iff.mpr h.nonzero

/-- **Structural equality is equality of forms.** -/
theorem eq_of_form {t u : Term} (ht : t.Normal) (hu : u.Normal) (h : t.form = u.form) : t = u := by
  have hcoeffs := congrArg Prod.fst h
  ext1
  · exact ht.zerofree.ext hu.zerofree fun a => DFunLike.congr_fun hcoeffs a
  · exact congrArg Prod.snd h

/-- A map without zeros and with coefficients that fit makes a term in normal form. -/
theorem normal_mk {coeffs : Std.ExtTreeMap Atom ℤ} {c : ℤ} (hzero : Zerofree coeffs)
    (hfits : ∀ a, Fits (coeff coeffs a)) (hc : Fits c) : Normal ⟨coeffs, c⟩ where
  distinct := nodup_keys _
  nonzero := zerofree_iff.mp hzero
  fits e he := by
    rw [← coeff_of_mem he]
    exact hfits e.1
  fits_constant := hc

/-- Nor has it one that does not fit. -/
theorem Normal.fits_coeff {t : Term} (h : t.Normal) (a : Atom) : Fits (coeff t.coeffs a) := by
  rw [coeff]
  cases hentry : t.coeffs[a]? with
  | none => exact fits_zero
  | some c => exact h.fits (a, c) (Std.ExtTreeMap.mem_toList_iff_getElem?_eq_some.mpr hentry)

end Term

/-! ### The loops -/

namespace Term

section Loops

variable {m m' : Std.ExtTreeMap Atom ℤ} {l : List (Atom × ℤ)} {op : ℤ → Option ℤ}

/-- One step of `add`: the sum of the coefficients is stored if it fits, and a zero is removed. -/
theorem addEntry_eq_some {e : Atom × ℤ} (h : addEntry m e = some m') :
    Fits (coeff m e.1 + e.2) ∧ (Zerofree m → Zerofree m') ∧
      ∀ a, coeff m' a = coeff m a + if e.1 = a then e.2 else 0 := by
  obtain ⟨entry, hentry, h⟩ := Option.bind_eq_some_iff.mp h
  obtain ⟨hfits, hsum⟩ := checkedAdd_eq_some.mp hentry
  change coeff m e.1 + e.2 = entry at hsum
  obtain rfl := Option.some.inj h
  refine ⟨hfits, fun hzero a => ?_, fun a => ?_⟩
  · by_cases hcancel : entry = 0 <;> by_cases ha : e.1 = a
    · simp [hcancel, ha]
    · simpa [hcancel, ha] using hzero a
    · simp [hcancel, ha]
    · simpa [hcancel, ha] using hzero a
  · by_cases hcancel : entry = 0 <;> by_cases ha : e.1 = a
    · subst ha
      simpa [hcancel, coeff] using hcancel.symm.trans hsum.symm
    · simp [hcancel, ha, coeff]
    · subst ha
      simpa [hcancel, coeff] using hsum.symm
    · simp [hcancel, ha, coeff]

/-- A step fails only where the sum does not fit. -/
theorem addEntry_eq_none {e : Atom × ℤ} (h : addEntry m e = none) : ¬Fits (coeff m e.1 + e.2) := by
  intro hfits
  rw [addEntry, show (m[e.1]?.getD 0) = coeff m e.1 from rfl, checkedAdd_of_fits hfits] at h
  cases h

/-- The loop of `add`: each coefficient gains what the entries have for it. -/
theorem foldlM_addEntry (h : l.foldlM addEntry m = some m') :
    (Zerofree m → Zerofree m') ∧
      ∀ a, coeff m' a = coeff m a + (l.map fun e => e.2 * if e.1 = a then 1 else 0).sum := by
  induction l generalizing m with
  | nil =>
    obtain rfl := Option.some.inj h
    simp
  | cons e l ih =>
    obtain ⟨next, hnext, h⟩ := Option.bind_eq_some_iff.mp h
    obtain ⟨-, hzero, hcoeff⟩ := addEntry_eq_some hnext
    obtain ⟨ihzero, ihcoeff⟩ := ih h
    refine ⟨fun hm => ihzero (hzero hm), fun a => ?_⟩
    rw [ihcoeff, hcoeff, List.map_cons, List.sum_cons, mul_ite, mul_one, mul_zero, add_assoc]

/-- The loop of `add` ends early exactly where a sum of coefficients overflows. -/
theorem foldlM_addEntry_eq_none (hl : (l.map Prod.fst).Nodup) :
    l.foldlM addEntry m = none ↔ ∃ e ∈ l, ¬Fits (coeff m e.1 + e.2) := by
  induction l generalizing m with
  | nil => simp
  | cons e l ih =>
    rw [List.map_cons, List.nodup_cons] at hl
    rw [List.foldlM_cons]
    cases hstep : addEntry m e with
    | none => exact ⟨fun _ => ⟨e, List.mem_cons_self, addEntry_eq_none hstep⟩, fun _ => rfl⟩
    | some next =>
      obtain ⟨hfits, -, hcoeff⟩ := addEntry_eq_some hstep
      -- the entries to come have other variables
      have hsame : ∀ x ∈ l, coeff next x.1 = coeff m x.1 := by
        intro x hx
        have hne : e.1 ≠ x.1 := fun heq => hl.1 (heq ▸ List.mem_map_of_mem hx)
        rw [hcoeff, if_neg hne, add_zero]
      refine (ih hl.2).trans ⟨?_, ?_⟩
      · rintro ⟨x, hx, hover⟩
        exact ⟨x, List.mem_cons_of_mem _ hx, hsame x hx ▸ hover⟩
      · rintro ⟨x, hx, hover⟩
        rcases List.mem_cons.mp hx with rfl | hx
        · exact absurd hfits hover
        · exact ⟨x, hx, (hsame x hx).symm ▸ hover⟩

/-- The loop of `neg` and `mul_const`. -/
theorem foldlM_mapEntry (hl : (l.map Prod.fst).Nodup) (h : l.foldlM (mapEntry op) m = some m') :
    (∀ e ∈ l, m'[e.1]? = op e.2) ∧ ∀ a, a ∉ l.map Prod.fst → m'[a]? = m[a]? := by
  induction l generalizing m with
  | nil =>
    obtain rfl := Option.some.inj h
    exact ⟨fun e he => absurd he (List.not_mem_nil), fun _ _ => rfl⟩
  | cons e l ih =>
    rw [List.map_cons, List.nodup_cons] at hl
    obtain ⟨next, hnext, h⟩ := Option.bind_eq_some_iff.mp h
    obtain ⟨c, hc, hnext⟩ := Option.bind_eq_some_iff.mp hnext
    obtain rfl := Option.some.inj hnext
    obtain ⟨hentries, hothers⟩ := ih hl.2 h
    refine ⟨fun x hx => ?_, fun a ha => ?_⟩
    · rcases List.mem_cons.mp hx with rfl | hx
      · rw [hothers _ hl.1, Sparse.getElem?_insert, if_pos rfl, hc]
      · exact hentries x hx
    · rw [List.map_cons, List.mem_cons, not_or] at ha
      rw [hothers a ha.2, Sparse.getElem?_insert, if_neg (Ne.symm ha.1)]

/-- A mapped table fails at an entry that the operation refuses. -/
theorem foldlM_mapEntry_eq_none :
    l.foldlM (mapEntry op) m = none ↔ ∃ e ∈ l, op e.2 = none := by
  induction l generalizing m with
  | nil => simp
  | cons e l ih =>
    rw [List.foldlM_cons, mapEntry]
    cases hop : op e.2 with
    | none => exact ⟨fun _ => ⟨e, List.mem_cons_self, hop⟩, fun _ => rfl⟩
    | some c =>
      refine ih.trans ⟨?_, ?_⟩
      · rintro ⟨x, hx, hnone⟩
        exact ⟨x, List.mem_cons_of_mem _ hx, hnone⟩
      · rintro ⟨x, hx, hnone⟩
        rcases List.mem_cons.mp hx with rfl | hx
        · rw [hop] at hnone
          cases hnone
        · exact ⟨x, hx, hnone⟩

/-- Over all entries of a map, every entry is replaced. -/
theorem foldlM_mapEntry_toList (h : m.toList.foldlM (mapEntry op) ∅ = some m') (a : Atom) :
    m'[a]? = m[a]?.bind op := by
  obtain ⟨hentries, hothers⟩ := foldlM_mapEntry (nodup_keys m) h
  cases hentry : m[a]? with
  | some c => exact hentries (a, c) (Std.ExtTreeMap.mem_toList_iff_getElem?_eq_some.mpr hentry)
  | none =>
    rw [hothers a]
    · rfl
    · intro ha
      obtain ⟨e, he, rfl⟩ := List.mem_map.mp ha
      rw [Std.ExtTreeMap.mem_toList_iff_getElem?_eq_some.mp he] at hentry
      cases hentry

/-- Under a checked operation that keeps zero, every coefficient is replaced. -/
theorem mapEntry_checked {g : ℤ → ℤ} (hg : g 0 = 0)
    (h : m.toList.foldlM (mapEntry fun c => checked (g c)) ∅ = some m') :
    (∀ a, coeff m' a = g (coeff m a)) ∧ (∀ a, Fits (coeff m' a)) ∧
      ((∀ c, c ≠ 0 → g c ≠ 0) → Zerofree m → Zerofree m') := by
  have hentry := foldlM_mapEntry_toList h
  have hfits : ∀ (a : Atom) (c : ℤ), m[a]? = some c → Fits (g c) := by
    intro a c ha
    by_contra hover
    have hnone : ∃ e ∈ m.toList, checked (g e.2) = none :=
      ⟨(a, c), Std.ExtTreeMap.mem_toList_iff_getElem?_eq_some.mpr ha, if_neg hover⟩
    rw [foldlM_mapEntry_eq_none.mpr hnone] at h
    cases h
  have hcoeff : ∀ a, coeff m' a = g (coeff m a) := by
    intro a
    rw [coeff, coeff, hentry]
    cases ha : m[a]? with
    | none => exact hg.symm
    | some c =>
      rw [Option.bind_some, checked, if_pos (hfits a c ha)]
      rfl
  refine ⟨hcoeff, fun a => ?_, fun hne hzero a => ?_⟩
  · rw [hcoeff, coeff]
    cases ha : m[a]? with
    | none =>
      rw [Option.getD_none, hg]
      exact fits_zero
    | some c => exact hfits a c ha
  · rw [hentry]
    intro ha
    obtain ⟨c, hc, hgc⟩ := Option.bind_eq_some_iff.mp ha
    refine hne c ?_ (checked_eq_some.mp hgc).2
    rintro rfl
    exact hzero a hc

/-- A coefficient fails exactly where its image does not fit. -/
theorem mapEntry_checked_eq_none {g : ℤ → ℤ} (hg : g 0 = 0) :
    m.toList.foldlM (mapEntry fun c => checked (g c)) ∅ = none ↔ ∃ a, ¬Fits (g (coeff m a)) := by
  rw [foldlM_mapEntry_eq_none]
  constructor
  · rintro ⟨e, he, hnone⟩
    refine ⟨e.1, ?_⟩
    rw [coeff_of_mem he]
    intro hfits
    rw [checked, if_pos hfits] at hnone
    cases hnone
  · rintro ⟨a, hover⟩
    rw [coeff] at hover
    cases ha : m[a]? with
    | none =>
      rw [ha, Option.getD_none, hg] at hover
      exact absurd fits_zero hover
    | some c =>
      rw [ha] at hover
      exact ⟨(a, c), Std.ExtTreeMap.mem_toList_iff_getElem?_eq_some.mpr ha, if_neg hover⟩

end Loops

/-! ### The operations on the forms -/

section Operations

variable {t u w : Term} {k : ℤ}

/-- A sum that is returned is the sum of the forms. -/
theorem add_eq_some (h : t.add u = some w) :
    w.form = t.form + u.form ∧ (t.Normal → w.Normal) := by
  obtain ⟨coeffs, hloop, h⟩ := Option.bind_eq_some_iff.mp h
  obtain ⟨c, hc, h⟩ := Option.bind_eq_some_iff.mp h
  obtain ⟨hfits, rfl⟩ := checkedAdd_eq_some.mp hc
  obtain rfl := Option.some.inj h
  obtain ⟨hzero, hcoeff⟩ := foldlM_addEntry hloop
  have hsum : ∀ a, coeff coeffs a = coeff t.coeffs a + coeff u.coeffs a := fun a => by
    rw [hcoeff, sum_single]
  refine ⟨Prod.ext (Finsupp.ext hsum) rfl, fun ht => normal_mk (hzero ht.zerofree)
    (fun a => ?_) hfits⟩
  rw [hsum, show coeff u.coeffs a = (u.coeffs[a]?).getD 0 from rfl]
  cases ha : u.coeffs[a]? with
  | none =>
    rw [Option.getD_none, add_zero]
    exact ht.fits_coeff a
  | some d =>
    by_contra hover
    have hnone := (foldlM_addEntry_eq_none (m := t.coeffs) (nodup_keys u.coeffs)).mpr
      ⟨(a, d), Std.ExtTreeMap.mem_toList_iff_getElem?_eq_some.mpr ha, hover⟩
    rw [hnone] at hloop
    cases hloop

/-- A sum of two coefficients, or of the constants, does not fit. -/
def AddOverflows (t u : Term) : Prop :=
  (∃ a, ¬Fits (coeff t.coeffs a + coeff u.coeffs a)) ∨ ¬Fits (t.constantPart + u.constantPart)

/-- A sum fails exactly where it overflows. -/
theorem add_eq_none (ht : t.Normal) : t.add u = none ↔ AddOverflows t u := by
  have hloop : u.coeffs.toList.foldlM addEntry t.coeffs = none ↔
      ∃ a, ¬Fits (coeff t.coeffs a + coeff u.coeffs a) := by
    rw [foldlM_addEntry_eq_none (nodup_keys _)]
    constructor
    · rintro ⟨e, he, hover⟩
      exact ⟨e.1, (coeff_of_mem he).symm ▸ hover⟩
    · rintro ⟨a, hover⟩
      rw [show coeff u.coeffs a = (u.coeffs[a]?).getD 0 from rfl] at hover
      cases ha : u.coeffs[a]? with
      | none =>
        rw [ha, Option.getD_none, add_zero] at hover
        exact absurd (ht.fits_coeff a) hover
      | some d =>
        rw [ha] at hover
        exact ⟨(a, d), Std.ExtTreeMap.mem_toList_iff_getElem?_eq_some.mpr ha, hover⟩
  rw [AddOverflows, ← hloop, add]
  cases u.coeffs.toList.foldlM addEntry t.coeffs with
  | none => exact ⟨fun _ => .inl rfl, fun _ => rfl⟩
  | some coeffs =>
    simp [checkedAdd, checked]

/-- An operation that takes every coefficient and the constant alike. -/
theorem mapTerm_eq_some {g : ℤ → ℤ} (hg : g 0 = 0) (hne : ∀ c, c ≠ 0 → g c ≠ 0)
    (h : (do
      let coeffs ← t.coeffs.toList.foldlM (mapEntry fun c => checked (g c)) ∅
      let c ← checked (g t.constantPart)
      some (⟨coeffs, c⟩ : Term)) = some w) :
    (∀ a, coeff w.coeffs a = g (coeff t.coeffs a)) ∧ w.constantPart = g t.constantPart ∧
      (t.Normal → w.Normal) := by
  obtain ⟨coeffs, hloop, h⟩ := Option.bind_eq_some_iff.mp h
  obtain ⟨c, hc, h⟩ := Option.bind_eq_some_iff.mp h
  obtain ⟨hfits, rfl⟩ := checked_eq_some.mp hc
  obtain rfl := Option.some.inj h
  obtain ⟨hcoeff, hcfits, hzero⟩ := mapEntry_checked hg hloop
  exact ⟨hcoeff, rfl, fun ht => normal_mk (hzero hne ht.zerofree) hcfits hfits⟩

/-- A mapped term fails at a coefficient or at the constant. -/
theorem mapTerm_eq_none {g : ℤ → ℤ} (hg : g 0 = 0) :
    (do
      let coeffs ← t.coeffs.toList.foldlM (mapEntry fun c => checked (g c)) ∅
      let c ← checked (g t.constantPart)
      some (⟨coeffs, c⟩ : Term)) = none ↔
        (∃ a, ¬Fits (g (coeff t.coeffs a))) ∨ ¬Fits (g t.constantPart) := by
  rw [← mapEntry_checked_eq_none hg]
  cases t.coeffs.toList.foldlM (mapEntry fun c => checked (g c)) ∅ with
  | none => exact ⟨fun _ => .inl rfl, fun _ => rfl⟩
  | some coeffs => simp [checked]

/-- A negation that is returned is the negated form. -/
theorem neg_eq_some (h : t.neg = some w) : w.form = -t.form ∧ (t.Normal → w.Normal) := by
  obtain ⟨hcoeff, hc, hnormal⟩ := mapTerm_eq_some (g := fun c => -c) neg_zero
    (fun c hc => neg_ne_zero.mpr hc) h
  exact ⟨Prod.ext (Finsupp.ext hcoeff) hc, hnormal⟩

/-- A negated coefficient, or the negated constant, does not fit. -/
def NegOverflows (t : Term) : Prop :=
  (∃ a, ¬Fits (-coeff t.coeffs a)) ∨ ¬Fits (-t.constantPart)

/-- A negation fails exactly where it overflows. -/
theorem neg_eq_none : t.neg = none ↔ NegOverflows t :=
  mapTerm_eq_none (g := fun c => -c) neg_zero

/-- A difference that is returned is the difference of the forms. -/
theorem sub_eq_some (h : t.sub u = some w) :
    w.form = t.form - u.form ∧ (t.Normal → w.Normal) := by
  obtain ⟨v, hneg, h⟩ := Option.bind_eq_some_iff.mp h
  obtain ⟨hform, hnormal⟩ := add_eq_some h
  refine ⟨?_, hnormal⟩
  rw [hform, (neg_eq_some hneg).1, sub_eq_add_neg]

/-- A difference of two coefficients, or of the constants, does not fit. -/
def SubOverflows (t u : Term) : Prop :=
  (∃ a, ¬Fits (coeff t.coeffs a - coeff u.coeffs a)) ∨ ¬Fits (t.constantPart - u.constantPart)

/-- A difference fails where the negation or the sum overflows. -/
theorem sub_eq_none (ht : t.Normal) :
    t.sub u = none ↔ NegOverflows u ∨ SubOverflows t u := by
  rw [← neg_eq_none, sub]
  cases hneg : u.neg with
  | none => exact ⟨fun _ => .inl rfl, fun _ => rfl⟩
  | some v =>
    have hform := (neg_eq_some hneg).1
    have hcoeff : ∀ a, coeff v.coeffs a = -coeff u.coeffs a := fun a =>
      DFunLike.congr_fun (congrArg Prod.fst hform) a
    have hc : v.constantPart = -u.constantPart := congrArg Prod.snd hform
    refine (add_eq_none ht).trans ?_
    simp only [AddOverflows, SubOverflows, hcoeff, hc, ← sub_eq_add_neg, reduceCtorEq, false_or]

/-- A multiple that is returned is the multiple of the form. -/
theorem mulConst_eq_some (h : t.mulConst k = some w) :
    w.form = k • t.form ∧ (t.Normal → w.Normal) := by
  rw [mulConst] at h
  split at h
  · rename_i hk
    obtain rfl := Option.some.inj h
    rw [hk, zero_smul]
    refine ⟨Prod.ext (Finsupp.ext fun a => coeff_empty a) rfl, fun _ => ?_⟩
    exact normal_mk (fun a => by simp) (fun a => (coeff_empty a).symm ▸ fits_zero) fits_zero
  · rename_i hk
    obtain ⟨hcoeff, hc, hnormal⟩ := mapTerm_eq_some (g := fun c => c * k) (zero_mul k)
      (fun c hc => mul_ne_zero hc hk) h
    refine ⟨Prod.ext (Finsupp.ext fun a => ?_) ?_, hnormal⟩
    · exact (hcoeff a).trans (mul_comm _ _)
    · exact hc.trans (mul_comm _ _)

/-- A multiple of a coefficient, or of the constant, does not fit. -/
def MulOverflows (t : Term) (k : ℤ) : Prop :=
  (∃ a, ¬Fits (coeff t.coeffs a * k)) ∨ ¬Fits (t.constantPart * k)

/-- A multiple fails exactly where it overflows. -/
theorem mulConst_eq_none : t.mulConst k = none ↔ MulOverflows t k := by
  rw [mulConst]
  split
  · rename_i hk
    simp [MulOverflows, hk, fits_zero]
  · exact mapTerm_eq_none (g := fun c => c * k) (zero_mul k)

/-- The form of an affine term has at most one coefficient. -/
theorem form_affine (a : Atom) (scale offset : ℤ) :
    (affine a scale offset).form = (Finsupp.single a scale, offset) := by
  refine Prod.ext (Finsupp.ext fun b => ?_) ?_
  · show coeff (affine a scale offset).coeffs b = Finsupp.single a scale b
    rw [affine, Finsupp.single_apply]
    split
    · rename_i hscale
      rw [hscale, ite_self]
      exact coeff_empty b
    · simp only [coeff, Sparse.getElem?_insert]
      split
      · rfl
      · simp
  · show (affine a scale offset).constantPart = offset
    unfold affine
    split <;> rfl

/-- A constant that fits is normal. -/
theorem normal_constant {c : ℤ} (h : Fits c) : (constant c).Normal :=
  normal_mk (fun a => by simp) (fun a => (coeff_empty a).symm ▸ fits_zero) h

/-- An affine term of numbers that fit is normal. -/
theorem normal_affine {a : Atom} {scale offset : ℤ} (hscale : Fits scale) (hoffset : Fits offset) :
    (affine a scale offset).Normal := by
  rw [affine]
  split
  · exact normal_constant hoffset
  · rename_i hne
    refine normal_mk (fun b => ?_) (fun b => ?_) hoffset
    · rw [Sparse.getElem?_insert]
      split
      · simpa using hne
      · simp
    · rw [coeff, Sparse.getElem?_insert]
      split
      · exact hscale
      · rw [Std.ExtTreeMap.getElem?_empty]
        exact fits_zero

/-- An atom is an affine term. -/
theorem atom_eq (a : Atom) : atom a = affine a 1 0 := by rw [affine, if_neg one_ne_zero]; rfl

/-- Choosing the sign gives the form or its negation. -/
theorem signCanonical_cases (t : Term) :
    (t.signCanonical.form = t.form ∨ t.signCanonical.form = -t.form) ∧
      (t.Normal → t.signCanonical.Normal) := by
  have hcases : t.signCanonical = t ∨ t.signCanonical = t.neg.getD t := by
    unfold signCanonical
    cases t.leadingNegative with
    | true => exact .inr rfl
    | false => exact .inl rfl
  rcases hcases with heq | heq <;> rw [heq]
  · exact ⟨.inl rfl, id⟩
  · cases hneg : t.neg with
    | none => exact ⟨.inl rfl, id⟩
    | some w => exact ⟨.inr (neg_eq_some hneg).1, (neg_eq_some hneg).2⟩

end Operations

/-! ### Evaluation -/

section Eval

variable {resolve : Atom → Option ℤ} {σ : Atom → ℤ} {l : List (Atom × ℤ)} {acc v : ℤ} {t u : Term}

/-- The assignment has the values that are resolved. -/
def Extends (resolve : Atom → Option ℤ) (σ : Atom → ℤ) : Prop :=
  ∀ a v, resolve a = some v → σ a = v

/-- A variable of the term is not resolved. -/
def Missing (t : Term) (resolve : Atom → Option ℤ) : Prop :=
  ∃ e ∈ t.coeffs.toList, resolve e.1 = none

/-- A product, or the sum up to it, does not fit. -/
def EvalOverflows (t : Term) (σ : Atom → ℤ) : Prop :=
  ∃ l e r, t.coeffs.toList = l ++ e :: r ∧ (¬Fits (e.2 * σ e.1) ∨
    ¬Fits (t.constantPart + ((l ++ [e]).map fun e => e.2 * σ e.1).sum))

/-- One step of the evaluation: the product and the sum must fit. -/
theorem evalEntry_eq_some {e : Atom × ℤ} (h : Extends resolve σ) :
    evalEntry resolve acc e = some v ↔ resolve e.1 ≠ none ∧
      (Fits (e.2 * σ e.1) ∧ Fits (acc + e.2 * σ e.1)) ∧ acc + e.2 * σ e.1 = v := by
  rw [evalEntry]
  cases hentry : resolve e.1 with
  | none => simp
  | some x =>
    rw [h e.1 x hentry]
    simp only [Option.bind_eq_bind, Option.bind_some, Option.bind_eq_some_iff, checkedMul_eq_some,
      checkedAdd_eq_some]
    constructor
    · rintro ⟨y, ⟨hprod, rfl⟩, hsum, rfl⟩
      exact ⟨by simp, ⟨hprod, hsum⟩, rfl⟩
    · rintro ⟨-, ⟨hprod, hsum⟩, rfl⟩
      exact ⟨_, ⟨hprod, rfl⟩, hsum, rfl⟩

/-- The loop of `eval` returns the sum, where every product and every partial sum fits. -/
theorem foldlM_evalEntry (h : Extends resolve σ) :
    l.foldlM (evalEntry resolve) acc = some v ↔ (∀ e ∈ l, resolve e.1 ≠ none) ∧
      (∀ p e r, l = p ++ e :: r → Fits (e.2 * σ e.1) ∧
        Fits (acc + ((p ++ [e]).map fun e => e.2 * σ e.1).sum)) ∧
      acc + (l.map fun e => e.2 * σ e.1).sum = v := by
  induction l generalizing acc with
  | nil => simp
  | cons e l ih =>
    rw [List.foldlM_cons, Option.bind_eq_bind, Option.bind_eq_some_iff]
    simp only [evalEntry_eq_some h, ih]
    constructor
    · rintro ⟨next, ⟨hres, hfits, rfl⟩, hall, hsums, rfl⟩
      refine ⟨?_, fun p x r hsplit => ?_, ?_⟩
      · intro x hx
        rcases List.mem_cons.mp hx with rfl | hx
        · exact hres
        · exact hall x hx
      · cases p with
        | nil =>
          obtain ⟨rfl, rfl⟩ := List.cons.inj hsplit
          simpa using hfits
        | cons y p =>
          obtain ⟨rfl, rfl⟩ := List.cons.inj hsplit
          have := hsums p x r rfl
          rwa [add_assoc] at this
      · rw [List.map_cons, List.sum_cons, add_assoc]
    · rintro ⟨hall, hsums, rfl⟩
      refine ⟨acc + e.2 * σ e.1, ⟨hall e List.mem_cons_self, ?_, rfl⟩,
        fun x hx => hall x (List.mem_cons_of_mem _ hx), fun p x r hsplit => ?_, ?_⟩
      · simpa using hsums [] e l rfl
      · have := hsums (e :: p) x r (by rw [hsplit]; rfl)
        rwa [List.cons_append, List.map_cons, List.sum_cons, ← add_assoc] at this
      · rw [List.map_cons, List.sum_cons, add_assoc]

/-- **Evaluation returns the value, unless a variable is missing or a result overflows.** -/
theorem eval_eq_some_iff (h : Extends resolve σ) :
    t.eval resolve = some v ↔ ¬t.Missing resolve ∧ ¬t.EvalOverflows σ ∧ t.value σ = v := by
  rw [eval, foldlM_evalEntry h, Missing, EvalOverflows, value]
  refine and_congr (by push Not; rfl) (and_congr ?_ Iff.rfl)
  push Not
  rfl

/-- The evaluation fails at a missing atom or an overflow. -/
theorem eval_eq_none_iff (h : Extends resolve σ) :
    t.eval resolve = none ↔ t.Missing resolve ∨ t.EvalOverflows σ := by
  rw [Option.eq_none_iff_forall_ne_some]
  constructor
  · intro hnone
    by_contra hno
    rw [not_or] at hno
    exact hnone _ ((eval_eq_some_iff h).mpr ⟨hno.1, hno.2, rfl⟩)
  · rintro hbad v hv
    obtain ⟨hmissing, hover, -⟩ := (eval_eq_some_iff h).mp hv
    exact hbad.elim hmissing hover

/-- An evaluation that succeeds gives the value. -/
theorem value_of_eval (h : Extends resolve σ) (hv : t.eval resolve = some v) : t.value σ = v :=
  ((eval_eq_some_iff h).mp hv).2.2

/-! ### Equality -/

/-- Terms with one value at each assignment of zeros and ones are equal. -/
theorem eq_of_value (ht : t.Normal) (hu : u.Normal)
    (h : ∀ σ : Atom → ℤ, (∀ a, Fits (σ a)) → t.value σ = u.value σ) : t = u := by
  refine eq_of_form ht hu (AffineForm.eq_of_value ?_ fun a => ?_)
  · rw [← value_eq, ← value_eq]
    exact h _ fun _ => fits_zero
  · rw [← value_eq, ← value_eq]
    refine h _ fun b => ?_
    rw [Pi.single_apply]
    split
    · exact ⟨by norm_num, by norm_num⟩
    · exact fits_zero

/-- Where one variable is not zero, the sum over some entries is the product at that variable. -/
theorem sum_update {a : Atom} {x : ℤ} (hl : (l.map Prod.fst).Nodup) :
    (∀ e ∈ l, e.1 = a → (l.map fun e => e.2 * if e.1 = a then x else 0).sum = e.2 * x) ∧
      (a ∉ l.map Prod.fst → (l.map fun e => e.2 * if e.1 = a then x else 0).sum = 0) := by
  induction l with
  | nil => simp
  | cons e l ih =>
    rw [List.map_cons, List.nodup_cons] at hl
    obtain ⟨ihmem, ihnot⟩ := ih hl.2
    rw [List.map_cons, List.sum_cons]
    refine ⟨fun y hy hya => ?_, fun ha => ?_⟩
    · rcases List.mem_cons.mp hy with rfl | hy
      · rw [if_pos hya, ihnot (hya ▸ hl.1), add_zero]
      · have hne : e.1 ≠ a := fun heq => hl.1 (heq ▸ hya ▸ List.mem_map_of_mem hy)
        rw [if_neg hne, mul_zero, zero_add, ihmem y hy hya]
    · rw [List.map_cons, List.mem_cons, not_or] at ha
      rw [if_neg (Ne.symm ha.1), mul_zero, zero_add, ihnot ha.2]

/-- The evaluation where one variable is not zero. -/
theorem eval_update (ht : t.Normal) (a : Atom) (x : ℤ) :
    t.eval (fun b => some (if b = a then x else 0)) =
      if Fits (coeff t.coeffs a * x) ∧ Fits (t.constantPart + coeff t.coeffs a * x) then
        some (t.constantPart + coeff t.coeffs a * x) else none := by
  have hext : Extends (fun b => some (if b = a then x else 0)) (fun b => if b = a then x else 0) :=
    fun b v hv => Option.some.inj hv
  have hpart : ∀ {p r : List (Atom × ℤ)}, t.coeffs.toList = p ++ r →
      (p.map fun e => e.2 * if e.1 = a then x else 0).sum = 0 ∨
        (p.map fun e => e.2 * if e.1 = a then x else 0).sum = coeff t.coeffs a * x := by
    intro p r hsplit
    have hnodup := ht.distinct
    rw [hsplit, List.map_append] at hnodup
    obtain ⟨hmem, hnot⟩ := sum_update (a := a) (x := x) hnodup.of_append_left
    by_cases ha : a ∈ p.map Prod.fst
    · obtain ⟨e, he, hea⟩ := List.mem_map.mp ha
      refine .inr ((hmem e he hea).trans ?_)
      have htoList : e ∈ t.coeffs.toList := hsplit ▸ List.mem_append_left _ he
      rw [← hea, coeff_of_mem htoList]
    · exact .inl (hnot ha)
  have hvalue : t.value (fun b => if b = a then x else 0) =
      t.constantPart + coeff t.coeffs a * x := by
    rw [value, add_right_inj]
    obtain ⟨hmem, hnot⟩ := sum_update (a := a) (x := x) ht.distinct
    by_cases ha : a ∈ t.coeffs.toList.map Prod.fst
    · obtain ⟨e, he, hea⟩ := List.mem_map.mp ha
      rw [hmem e he hea, ← hea, coeff_of_mem he]
    · rw [hnot ha, coeff, Std.ExtTreeMap.getElem?_eq_none, Option.getD_none, zero_mul]
      intro hin
      obtain ⟨c, hc⟩ := Option.isSome_iff_exists.mp (Std.ExtTreeMap.mem_iff_isSome_getElem?.mp hin)
      exact ha
        (List.mem_map.mpr ⟨(a, c), Std.ExtTreeMap.mem_toList_iff_getElem?_eq_some.mpr hc, rfl⟩)
  split
  · rename_i hfits
    refine (eval_eq_some_iff hext).mpr ⟨?_, ?_, hvalue⟩
    · rintro ⟨e, -, hnone⟩
      cases hnone
    · rintro ⟨p, e, r, hsplit, hover⟩
      rcases hover with hover | hover
      · refine hover ?_
        show Fits (e.2 * if e.1 = a then x else 0)
        by_cases hea : e.1 = a
        · have he : e ∈ t.coeffs.toList := hsplit ▸ List.mem_append_right _ List.mem_cons_self
          rw [if_pos hea, ← coeff_of_mem he, hea]
          exact hfits.1
        · rw [if_neg hea, mul_zero]
          exact fits_zero
      · refine hover ?_
        rcases hpart (p := p ++ [e]) (r := r) (by rw [hsplit]; simp) with hsum | hsum <;> rw [hsum]
        · rw [add_zero]
          exact ht.fits_constant
        · exact hfits.2
  · rename_i hover
    refine (eval_eq_none_iff hext).mpr (.inr ?_)
    -- the variable has an entry, and the evaluation stops there
    cases hentry : t.coeffs[a]? with
    | none =>
      rw [coeff, hentry, Option.getD_none, zero_mul, add_zero] at hover
      exact absurd ⟨fits_zero, ht.fits_constant⟩ hover
    | some c =>
      have he := Std.ExtTreeMap.mem_toList_iff_getElem?_eq_some.mpr hentry
      obtain ⟨p, r, hsplit⟩ := List.append_of_mem he
      have hcoeff : coeff t.coeffs a = c := coeff_of_mem he
      have hnodup := ht.distinct
      rw [hsplit, show p ++ (a, c) :: r = (p ++ [(a, c)]) ++ r by simp, List.map_append] at hnodup
      have hsum := (sum_update (a := a) (x := x) hnodup.of_append_left).1 (a, c) (by simp) rfl
      refine ⟨p, (a, c), r, hsplit, ?_⟩
      rw [hsum]
      show ¬Fits (c * if a = a then x else 0) ∨ ¬Fits (t.constantPart + c * x)
      rw [if_pos rfl, ← not_and_or, ← hcoeff]
      exact hover

/-- Terms that evaluate alike are equal. -/
theorem eq_of_eval (ht : t.Normal) (hu : u.Normal)
    (h : ∀ σ : Atom → ℤ, (∀ a, Fits (σ a)) → t.eval (some ∘ σ) = u.eval (some ∘ σ)) : t = u := by
  have heval : ∀ a x, Fits x → t.eval (fun b => some (if b = a then x else 0)) =
      u.eval (fun b => some (if b = a then x else 0)) := by
    intro a x hx
    refine h (fun b => if b = a then x else 0) fun b => ?_
    split
    · exact hx
    · exact fits_zero
  have hconst : t.constantPart = u.constantPart := by
    have := heval (.iv 0) 0 fits_zero
    rw [eval_update ht, eval_update hu] at this
    simp only [mul_zero, add_zero, fits_zero, ht.fits_constant, hu.fits_constant, true_and, if_true,
      Option.some.injEq] at this
    exact this
  refine eq_of_form ht hu (Prod.ext (Finsupp.ext fun a => ?_) hconst)
  show coeff t.coeffs a = coeff u.coeffs a
  -- one of `1` and `-1` keeps the sums in range
  have hpos := heval a 1 ⟨by norm_num, by norm_num⟩
  have hneg := heval a (-1) ⟨by norm_num, by norm_num⟩
  have htc := ht.fits_coeff a
  have huc := hu.fits_coeff a
  have hc := ht.fits_constant
  rw [eval_update ht, eval_update hu, ← hconst] at hpos hneg
  simp only [Fits, mul_one, mul_neg] at *
  split_ifs at hpos hneg <;> simp only [Option.some.injEq] at hpos hneg <;> omega

end Eval

end Term

/-! ### Predicates -/

namespace Predicate

section Decide

variable {resolve : Atom → Option ℤ} {σ : Atom → ℤ} {t u : Term} {p : Predicate} {d : ℤ}

/-- The term that a predicate is about. -/
def term : Predicate → Term
  | zero t => t
  | nonzero t => t
  | positive t => t
  | divisibleBy t _ => t

/-- What a predicate says of the value of its term. -/
def Relation : Predicate → ℤ → Prop
  | zero _, v => v = 0
  | nonzero _, v => v ≠ 0
  | positive _, v => 0 < v
  | divisibleBy _ d, v => d.1 ∣ v

/-- A predicate that is evaluated says whether its relation holds of the term's value. -/
theorem eval_eq_some {r : Bool} (h : p.eval resolve = some r) :
    ∃ v, p.term.eval resolve = some v ∧ (r = true ↔ p.Relation v) := by
  cases p <;> obtain ⟨v, hv, h⟩ := Option.bind_eq_some_iff.mp h <;> refine ⟨v, hv, ?_⟩ <;>
    rw [← Option.some.inj h, decide_eq_true_eq]
  · rfl
  · rfl
  · rfl
  · exact Int.dvd_iff_emod_eq_zero.symm

/-- A predicate has no verdict exactly where its term has no value. -/
theorem eval_eq_none : p.eval resolve = none ↔ p.term.eval resolve = none := by
  have hbind : ∀ {t : Term} {f : ℤ → Bool},
      (t.eval resolve >>= fun v => some (f v)) = none ↔ t.eval resolve = none := by
    intro t f
    cases t.eval resolve <;> simp
  cases p <;> exact hbind

/-- The predicate is true exactly where the relation holds of the integers. -/
def Decides (p : Predicate) (R : (Atom → ℤ) → Prop) : Prop :=
  ∀ resolve σ, Term.Extends resolve σ → ∀ r, p.eval resolve = some r → (r = true ↔ R σ)

/-- A predicate decides what its relation says of its term. -/
theorem decides_of_relation {R : (Atom → ℤ) → Prop}
    (h : ∀ σ, p.Relation (p.term.value σ) ↔ R σ) : p.Decides R := by
  intro resolve σ hext r hr
  obtain ⟨v, hv, hiff⟩ := eval_eq_some hr
  rw [hiff, ← h, Term.value_of_eval hext hv]

/-- Choosing the sign changes at most the sign of the value. -/
theorem value_signCanonical (t : Term) (σ : Atom → ℤ) :
    t.signCanonical.value σ = t.value σ ∨ t.signCanonical.value σ = -t.value σ := by
  simp only [Term.value_eq]
  rcases (Term.signCanonical_cases t).1 with h | h <;> rw [h]
  · exact .inl rfl
  · exact .inr (map_neg _ _)

/-- The value of a difference. -/
theorem value_sub {w : Term} (h : t.sub u = some w) (σ : Atom → ℤ) :
    w.value σ = t.value σ - u.value σ := by
  simp only [Term.value_eq, (Term.sub_eq_some h).1, map_sub]

/-- `eq` decides equality: a difference is zero whatever its sign. -/
theorem decides_eq (h : eq t u = some p) : p.Decides fun σ => t.value σ = u.value σ := by
  obtain ⟨w, hw, h⟩ := Option.bind_eq_some_iff.mp h
  obtain rfl := Option.some.inj h
  refine decides_of_relation fun σ => ?_
  have hsub := value_sub hw σ
  show w.signCanonical.value σ = 0 ↔ _
  rcases value_signCanonical w σ with hsign | hsign <;> rw [hsign] <;> omega

/-- `ofNonzero` decides that a value is not zero. -/
theorem decides_nonzero (t : Term) : (ofNonzero t).Decides fun σ => t.value σ ≠ 0 := by
  refine decides_of_relation fun σ => ?_
  show t.signCanonical.value σ ≠ 0 ↔ _
  rcases value_signCanonical t σ with hsign | hsign <;> rw [hsign]
  exact neg_ne_zero

/-- `lt` decides the order. -/
theorem decides_lt (h : lt t u = some p) : p.Decides fun σ => t.value σ < u.value σ := by
  obtain ⟨w, hw, h⟩ := Option.bind_eq_some_iff.mp h
  obtain rfl := Option.some.inj h
  refine decides_of_relation fun σ => ?_
  have hsub := value_sub hw σ
  show 0 < w.value σ ↔ _
  omega

/-- The value of a constant. -/
theorem value_constant (c : ℤ) (σ : Atom → ℤ) : (Term.constant c).value σ = c := by
  have hnil : (∅ : Std.ExtTreeMap Atom ℤ).toList = [] := Std.ExtTreeMap.toList_eq_nil_iff.mpr rfl
  rw [Term.value, Term.constant, hnil, List.map_nil, List.sum_nil, add_zero]

/-- `le` decides the order: over the integers, it is `lt` of the next number. -/
theorem decides_le (h : le t u = some p) : p.Decides fun σ => t.value σ ≤ u.value σ := by
  obtain ⟨next, hnext, h⟩ := Option.bind_eq_some_iff.mp h
  obtain ⟨w, hw, h⟩ := Option.bind_eq_some_iff.mp h
  obtain rfl := Option.some.inj h
  refine decides_of_relation fun σ => ?_
  have hsub := value_sub hw σ
  have hadd : next.value σ = u.value σ + 1 := by
    rw [Term.value_eq, (Term.add_eq_some hnext).1, map_add, ← Term.value_eq, ← Term.value_eq,
      value_constant]
  show 0 < w.value σ ↔ _
  omega

/-- The loop of `divisible_by` keeps the residues. -/
theorem foldl_residueEntry {l : List (Atom × ℤ)} {m : Std.ExtTreeMap Atom ℤ}
    (hl : (l.map Prod.fst).Nodup) :
    (Zerofree m → Zerofree (l.foldl (residueEntry d) m)) ∧
      (∀ e ∈ l, m[e.1]? = none → coeff (l.foldl (residueEntry d) m) e.1 = e.2 % d) ∧
      ∀ a, a ∉ l.map Prod.fst → (l.foldl (residueEntry d) m)[a]? = m[a]? := by
  induction l generalizing m with
  | nil => exact ⟨id, fun e he => absurd he List.not_mem_nil, fun _ _ => rfl⟩
  | cons e l ih =>
    rw [List.map_cons, List.nodup_cons] at hl
    have hstep : ∀ a, (residueEntry d m e)[a]? =
        if e.2 % d ≠ 0 ∧ e.1 = a then some (e.2 % d) else m[a]? := by
      intro a
      rw [residueEntry]
      by_cases hr : e.2 % d = 0
      · simp [hr]
      · simp [hr]
    obtain ⟨hzero, hentries, hothers⟩ := ih (m := residueEntry d m e) hl.2
    rw [List.foldl_cons]
    refine ⟨fun hm => hzero fun a => ?_, fun x hx hnone => ?_, fun a ha => ?_⟩
    · rw [hstep]
      split
      · rename_i hr
        exact fun heq => hr.1 (Option.some.inj heq)
      · exact hm a
    · rcases List.mem_cons.mp hx with rfl | hx
      · rw [coeff, hothers _ hl.1, hstep]
        by_cases hr : x.2 % d = 0
        · simp [hr, hnone]
        · simp [hr]
      · refine hentries x hx ?_
        have hne : e.1 ≠ x.1 := fun heq => hl.1 (heq ▸ List.mem_map_of_mem hx)
        rw [hstep, if_neg fun h => hne h.2, hnone]
    · rw [List.map_cons, List.mem_cons, not_or] at ha
      rw [hothers a ha.2, hstep, if_neg fun h => ha.1 h.2.symm]

/-- The residue has the coefficients modulo the divisor. -/
theorem coeff_residue (t : Term) (d : ℤ) (a : Atom) :
    coeff (residue t d).coeffs a = coeff t.coeffs a % d := by
  obtain ⟨-, hentries, hothers⟩ := foldl_residueEntry (d := d) (m := ∅) (nodup_keys t.coeffs)
  cases hentry : t.coeffs[a]? with
  | some c =>
    have he := Std.ExtTreeMap.mem_toList_iff_getElem?_eq_some.mpr hentry
    refine (hentries (a, c) he (by simp)).trans ?_
    rw [coeff, hentry]
    rfl
  | none =>
    have ha : a ∉ t.coeffs.toList.map Prod.fst := by
      intro ha
      obtain ⟨e, he, rfl⟩ := List.mem_map.mp ha
      rw [Std.ExtTreeMap.mem_toList_iff_getElem?_eq_some.mp he] at hentry
      cases hentry
    have hnone := hothers a ha
    rw [coeff, coeff, hentry, residue, hnone]
    simp

/-- A remainder fits where the divisor does. -/
theorem fits_emod {c : ℤ} (hd : 1 ≤ d) (hfits : Fits d) : Fits (c % d) := by
  have hlo := Int.emod_nonneg c (show d ≠ 0 by omega)
  have hhi := Int.emod_lt_of_pos c (show 0 < d by omega)
  unfold Fits at *
  omega

/-- So the residue of any term is normal. -/
theorem normal_residue (t : Term) (hd : 1 ≤ d) (hfits : Fits d) : (residue t d).Normal := by
  refine Term.normal_mk ((foldl_residueEntry (nodup_keys t.coeffs)).1 fun a => by simp)
    (fun a => ?_) (fits_emod hd hfits)
  show Fits (coeff (residue t d).coeffs a)
  rw [coeff_residue]
  exact fits_emod hd hfits

/-- The reduced term and the term differ by a multiple of the divisor. -/
theorem value_residue (t : Term) (d : ℤ) (σ : Atom → ℤ) :
    d ∣ (residue t d).value σ ↔ d ∣ t.value σ := by
  let q : AffineForm Atom :=
    (Finsupp.mapRange (· / d) (Int.zero_ediv d) (toFinsupp t.coeffs), t.constantPart / d)
  have hform : t.form = (residue t d).form + d • q := by
    refine Prod.ext (Finsupp.ext fun a => ?_) ?_
    · show coeff t.coeffs a = coeff (residue t d).coeffs a + d * (coeff t.coeffs a / d)
      rw [coeff_residue, Int.emod_add_mul_ediv]
    · exact (Int.emod_add_mul_ediv _ _).symm
  have hvalue : t.value σ = (residue t d).value σ + d * AffineForm.value σ q := by
    rw [Term.value_eq, hform, map_add, map_smul, ← Term.value_eq, smul_eq_mul]
  rw [hvalue]
  exact (Int.dvd_add_left (dvd_mul_right d _)).symm

/-- `ofDivisibleBy` decides divisibility: the residue changes the value by a multiple of the
divisor. -/
theorem decides_divisibleBy (h : ofDivisibleBy t d = some p) :
    p.Decides fun σ => d ∣ t.value σ := by
  rw [ofDivisibleBy] at h
  split at h
  · cases h
  · obtain rfl := Option.some.inj h
    refine decides_of_relation fun σ => ?_
    rw [← value_residue]
    show d ∣ (residue t d).signCanonical.value σ ↔ _
    rcases value_signCanonical (residue t d) σ with hsign | hsign <;> rw [hsign]
    exact Int.dvd_neg

end Decide

end Predicate

/-! ### The algebra -/

namespace Term

/-- The terms are a faithful algebra: the constructors keep the normal form and compute what their
names say, equality is equality of meaning, and `None` is a missing variable or an overflow. -/
structure Faithful : Prop where
  normal_constant : ∀ c, Fits c → (constant c).Normal
  normal_atom : ∀ a, (atom a).Normal
  normal_affine : ∀ a scale offset, Fits scale → Fits offset → (affine a scale offset).Normal
  normal_add : ∀ t u w : Term, t.Normal → u.Normal → t.add u = some w → w.Normal
  normal_sub : ∀ t u w : Term, t.Normal → u.Normal → t.sub u = some w → w.Normal
  normal_neg : ∀ t w : Term, t.Normal → t.neg = some w → w.Normal
  normal_mulConst : ∀ (t w : Term) k, t.Normal → t.mulConst k = some w → w.Normal
  value_constant : ∀ c σ, (constant c).value σ = c
  value_atom : ∀ a σ, (atom a).value σ = σ a
  value_affine : ∀ a scale offset σ, (affine a scale offset).value σ = scale * σ a + offset
  value_add : ∀ (t u w : Term) σ, t.add u = some w → w.value σ = t.value σ + u.value σ
  value_sub : ∀ (t u w : Term) σ, t.sub u = some w → w.value σ = t.value σ - u.value σ
  value_neg : ∀ (t w : Term) σ, t.neg = some w → w.value σ = -t.value σ
  value_mulConst : ∀ (t w : Term) k σ, t.mulConst k = some w → w.value σ = k * t.value σ
  add_none : ∀ t u : Term, t.Normal → u.Normal → (t.add u = none ↔ t.AddOverflows u)
  sub_none : ∀ t u : Term, t.Normal → u.Normal →
    (t.sub u = none ↔ u.NegOverflows ∨ t.SubOverflows u)
  neg_none : ∀ t : Term, t.neg = none ↔ t.NegOverflows
  mulConst_none : ∀ (t : Term) k, t.mulConst k = none ↔ t.MulOverflows k
  /-- What `eval` returns is the value. -/
  eval_some : ∀ (t : Term) resolve σ v, Extends resolve σ → t.eval resolve = some v → t.value σ = v
  eval_none : ∀ (t : Term) resolve σ, Extends resolve σ →
    (t.eval resolve = none ↔ t.Missing resolve ∨ t.EvalOverflows σ)
  /-- Equality is equality of values at all assignments of `i64`s … -/
  eq_iff_value : ∀ t u : Term, t.Normal → u.Normal →
    (t = u ↔ ∀ σ : Atom → ℤ, (∀ a, Fits (σ a)) → t.value σ = u.value σ)
  /-- … and also of what `eval` returns there. -/
  eq_iff_eval : ∀ t u : Term, t.Normal → u.Normal →
    (t = u ↔ ∀ σ : Atom → ℤ, (∀ a, Fits (σ a)) → t.eval (some ∘ σ) = u.eval (some ∘ σ))

/-- The value of an affine term. -/
theorem value_affine (a : Atom) (scale offset : ℤ) (σ : Atom → ℤ) :
    (affine a scale offset).value σ = scale * σ a + offset := by
  rw [value_eq, form_affine, AffineForm.value_apply, Finsupp.sum_single_index (zero_mul _)]

/-- The operations on terms are faithful. -/
theorem faithful : Faithful where
  normal_constant _ h := normal_constant h
  normal_atom a := atom_eq a ▸ normal_affine ⟨by norm_num, by norm_num⟩ fits_zero
  normal_affine _ _ _ hscale hoffset := normal_affine hscale hoffset
  normal_add _ _ _ ht _ h := (add_eq_some h).2 ht
  normal_sub _ _ _ ht _ h := (sub_eq_some h).2 ht
  normal_neg _ _ ht h := (neg_eq_some h).2 ht
  normal_mulConst _ _ _ ht h := (mulConst_eq_some h).2 ht
  value_constant := Predicate.value_constant
  value_atom a σ := by rw [atom_eq, value_affine, one_mul, add_zero]
  value_affine := value_affine
  value_add _ _ _ σ h := by simp only [value_eq, (add_eq_some h).1, map_add]
  value_sub _ _ _ σ h := Predicate.value_sub h σ
  value_neg _ _ σ h := by simp only [value_eq, (neg_eq_some h).1, map_neg]
  value_mulConst _ _ _ σ h := by simp only [value_eq, (mulConst_eq_some h).1, map_smul, smul_eq_mul]
  add_none _ _ ht _ := add_eq_none ht
  sub_none _ _ ht _ := sub_eq_none ht
  neg_none _ := neg_eq_none
  mulConst_none _ _ := mulConst_eq_none
  eval_some _ _ _ _ h hv := value_of_eval h hv
  eval_none _ _ _ h := eval_eq_none_iff h
  eq_iff_value _ _ ht hu := ⟨fun h _ _ => h ▸ rfl, eq_of_value ht hu⟩
  eq_iff_eval _ _ ht hu := ⟨fun h _ _ => h ▸ rfl, eq_of_eval ht hu⟩

end Term

namespace Predicate

/-- Each predicate decides its relation, from a term in normal form, and `None` is a missing
variable, an overflow, or a divisor below one. -/
structure Faithful : Prop where
  eq : ∀ a b p, eq a b = some p → p.Decides fun σ => a.value σ = b.value σ
  lt : ∀ a b p, lt a b = some p → p.Decides fun σ => a.value σ < b.value σ
  le : ∀ a b p, le a b = some p → p.Decides fun σ => a.value σ ≤ b.value σ
  nonzero : ∀ t, (ofNonzero t).Decides fun σ => t.value σ ≠ 0
  divisibleBy : ∀ t d p, ofDivisibleBy t d = some p → p.Decides fun σ => d ∣ t.value σ
  normal_eq : ∀ (a b : Term) p, a.Normal → b.Normal → Predicate.eq a b = some p → p.term.Normal
  normal_lt : ∀ (a b : Term) p, a.Normal → b.Normal → Predicate.lt a b = some p → p.term.Normal
  normal_le : ∀ (a b : Term) p, a.Normal → b.Normal → Predicate.le a b = some p → p.term.Normal
  normal_nonzero : ∀ t : Term, t.Normal → (ofNonzero t).term.Normal
  normal_divisibleBy : ∀ (t : Term) d p, t.Normal → Fits d → ofDivisibleBy t d = some p →
    p.term.Normal
  eq_none : ∀ a b, Predicate.eq a b = none ↔ a.sub b = none
  lt_none : ∀ a b, Predicate.lt a b = none ↔ b.sub a = none
  le_none : ∀ a b, Predicate.le a b = none ↔ b.add (.constant 1) = none ∨
    ∃ next, b.add (.constant 1) = some next ∧ next.sub a = none
  divisibleBy_none : ∀ t d, ofDivisibleBy t d = none ↔ d < 1
  eval_none : ∀ (p : Predicate) resolve, p.eval resolve = none ↔ p.term.eval resolve = none

/-- The predicates are faithful. -/
theorem faithful : Faithful where
  eq _ _ _ := decides_eq
  lt _ _ _ := decides_lt
  le _ _ _ := decides_le
  nonzero := decides_nonzero
  divisibleBy _ _ _ := decides_divisibleBy
  normal_eq _ _ _ ha _ h := by
    -- a comparison without an answer decides nothing
    obtain ⟨w, hw, h⟩ := Option.bind_eq_some_iff.mp h
    obtain rfl := Option.some.inj h
    exact (Term.signCanonical_cases w).2 ((Term.sub_eq_some hw).2 ha)
  normal_lt _ _ _ _ hb h := by
    obtain ⟨w, hw, h⟩ := Option.bind_eq_some_iff.mp h
    obtain rfl := Option.some.inj h
    exact (Term.sub_eq_some hw).2 hb
  normal_le _ _ _ _ hb h := by
    obtain ⟨next, hnext, h⟩ := Option.bind_eq_some_iff.mp h
    obtain ⟨w, hw, h⟩ := Option.bind_eq_some_iff.mp h
    obtain rfl := Option.some.inj h
    exact (Term.sub_eq_some hw).2 ((Term.add_eq_some hnext).2 hb)
  normal_nonzero t ht := (Term.signCanonical_cases t).2 ht
  normal_divisibleBy t d _ _ hfits h := by
    rw [ofDivisibleBy] at h
    split at h
    · cases h
    · rename_i hd
      obtain rfl := Option.some.inj h
      exact (Term.signCanonical_cases _).2 (normal_residue t (not_lt.mp hd) hfits)
  eq_none a b := by
    rw [Predicate.eq]
    -- the guards of the terms are exact, so each predicate is read off its own operation
    cases a.sub b <;> simp
  lt_none a b := by
    rw [Predicate.lt]
    cases b.sub a <;> simp
  le_none a b := by
    rw [Predicate.le]
    cases b.add (.constant 1) with
    | none => simp
    | some next => cases hsub : next.sub a <;> simp [hsub]
  divisibleBy_none t d := by
    rw [ofDivisibleBy]
    split <;> simp [*]
  eval_none _ _ := eval_eq_none

/-- A divisor below one has no predicate: nothing overflows, and no variable is missing. -/
theorem divisibleBy_zero : ofDivisibleBy (.constant 4) 0 = none ∧
    (Term.constant 4).Normal ∧ Fits 0 ∧
    (∀ resolve, ¬(Term.constant 4).Missing resolve) ∧ ∀ σ, ¬(Term.constant 4).EvalOverflows σ := by
  have hnil : (Term.constant 4).coeffs.toList = [] := Std.ExtTreeMap.toList_eq_nil_iff.mpr rfl
  refine ⟨rfl, Term.normal_constant ⟨by norm_num, by norm_num⟩, Term.fits_zero, ?_, ?_⟩
  · rintro resolve ⟨e, he, -⟩
    rw [hnil] at he
    exact absurd he List.not_mem_nil
  · rintro σ ⟨l, e, r, hsplit, -⟩
    rw [hnil] at hsplit
    exact absurd hsplit.symm (List.append_ne_nil_of_right_ne_nil _ (List.cons_ne_nil _ _))

end Predicate

/-- **Launch terms and predicates are a faithful algebra.** -/
theorem launch_algebra : Term.Faithful ∧ Predicate.Faithful := ⟨Term.faithful, Predicate.faithful⟩

end CudaOxide.Async
