import Mathlib

namespace CudaOxide.Lib

/-!
# Checked computations over 64-bit integers

A program that returns a `Result` and computes with `i64` can end in three ways: with a
value, with an error it returns, or with a panic (an arithmetic overflow, a division by
zero, an index out of bounds, a failed assertion).  `Run ε` is the monad of such programs.

* `I64.add`, `I64.mul`, … — the machine operations.  Where the exact integer result does not
  fit, a build with overflow checks panics and a build without them wraps (`Build`).  A theorem
  that names no build is about the one with checks.
* `Run.Implements x y` — the machine run `x` ends exactly as the run `y` over unbounded
  integers does, unless `x` overflows.  Programs are translated once in the machine
  operations and once over `ℤ`; the rules `Implements.bind`, `Implements.add`, … connect the
  two by following the syntax, and all mathematics is then done over `ℤ`.
* `Run.Agrees x y` — `x` panics or ends as `y` does.  It relates the run of a build with checks
  to that of any other build: what the first one returns all of them return.
-/

variable {ε ε' α β : Type}

/-- Why a run aborts. -/
inductive Panic where
  | overflow
  | divisionByZero
  | indexOutOfBounds
  | assertion
  deriving DecidableEq, Repr

/-- How a run ends without a value: an error it returns, or a panic. -/
inductive Stop (ε : Type) where
  | err (e : ε)
  | panic (p : Panic)
  deriving DecidableEq, Repr

/-- A run that returns an `α`, returns an error `ε`, or panics. -/
abbrev Run (ε : Type) := Except (Stop ε)

/-- How a program is compiled: a debug build checks every operation for overflow and evaluates its
debug assertions, a release build wraps and skips them. -/
class inductive Build where
  | checked
  | wrapping

/-- Definitions and theorems that do not say otherwise are about a build with checks. -/
instance : Build := .checked

namespace Run

/-- Return the error `e`. -/
def fail (e : ε) : Run ε α := .error (.err e)

/-- Abort the run. -/
def panic (p : Panic) : Run ε α := .error (.panic p)

/-- Abort unless `c` holds (`assert!`). -/
def assert (c : Prop) [Decidable c] : Run ε Unit := if c then .ok () else panic .assertion

/-- What becomes of a `debug_assert!` that does not hold. -/
def debugAssertFailed [build : Build] : Run ε Unit :=
  match build with
  | .checked => panic .assertion
  | .wrapping => .ok ()

/-- Abort a debug build unless `c` holds (`debug_assert!`). -/
def debugAssert [Build] (c : Prop) [Decidable c] : Run ε Unit :=
  if c then .ok () else debugAssertFailed

/-- What an operation makes of a result that does not fit and wraps to `wrapped`. -/
def overflowed (build : Build) (wrapped : α) : Run ε α :=
  match build with
  | .checked => panic .overflow
  | .wrapping => .ok wrapped

/-- The value of an `Option`, or the error `e` (`ok_or`). -/
def okOr (o : Option α) (e : ε) : Run ε α :=
  match o with
  | some a => .ok a
  | none => fail e

/-- Rewrite the error of a run, keeping its value and its panics (`map_err`). -/
def mapErr (f : ε → ε') : Run ε α → Run ε' α
  | .ok a => .ok a
  | .error (.err e) => fail (f e)
  | .error (.panic p) => panic p

/-- A run that is followed by another one. -/
theorem bind_eq_ok {x : Run ε α} {f : α → Run ε β} {b : β} :
    (x >>= f) = .ok b ↔ ∃ a, x = .ok a ∧ f a = .ok b := by
  cases x with
  | ok a => exact ⟨fun h => ⟨a, rfl, h⟩, fun ⟨_, ha, h⟩ => by cases ha; exact h⟩
  | error s => exact ⟨nofun, nofun⟩

@[simp] theorem pure_eq_ok {a b : α} : (pure a : Run ε α) = .ok b ↔ a = b :=
  ⟨fun h => by cases h; rfl, fun h => h ▸ rfl⟩

@[simp] theorem fail_ne_ok {e : ε} {a : α} : (fail e : Run ε α) ≠ .ok a := nofun

@[simp] theorem panic_ne_ok {p : Panic} {a : α} : (panic p : Run ε α) ≠ .ok a := nofun

/-- `ok_or` returns what is there. -/
@[simp] theorem okOr_eq_ok {o : Option α} {e : ε} {a : α} : okOr o e = .ok a ↔ o = some a := by
  cases o with
  | none => exact ⟨fun h => absurd h fail_ne_ok, nofun⟩
  | some b => exact ⟨fun h => by cases h; rfl, fun h => by cases h; rfl⟩

/-- Errors are renamed, results are not. -/
@[simp] theorem mapErr_eq_ok {f : ε → ε'} {x : Run ε α} {a : α} :
    mapErr f x = .ok a ↔ x = .ok a := by
  match x with
  | .ok b => exact ⟨fun h => by cases h; rfl, fun h => by cases h; rfl⟩
  | .error (.err e) => exact ⟨fun h => absurd h fail_ne_ok, nofun⟩
  | .error (.panic p) => exact ⟨fun h => absurd h panic_ne_ok, nofun⟩

/-- An assertion passes if it holds. -/
@[simp] theorem assert_eq_ok {c : Prop} [Decidable c] {u : Unit} :
    (assert c : Run ε Unit) = .ok u ↔ c := by
  unfold assert
  split
  · exact ⟨fun _ => ‹c›, fun _ => rfl⟩
  · exact ⟨fun h => absurd h panic_ne_ok, fun h => absurd h ‹¬c›⟩

/-- `x` ends as `y` does, unless `x` overflows. -/
def Implements (x : Run ε α) (y : Except ε α) : Prop :=
  match x with
  | .ok a => y = .ok a
  | .error (.err e) => y = .error e
  | .error (.panic p) => p = .overflow

namespace Implements

/-- What the machine run returns, the run over the integers does. -/
theorem ok_of_eq {x : Run ε α} {y : Except ε α} (h : x.Implements y) {a : α}
    (hx : x = .ok a) : y = .ok a := by
  subst hx; exact h

/-- The case where that one returns a value. -/
theorem eq_of_ok {x : Run ε α} {v a : α} (h : x.Implements (.ok v)) (hx : x = .ok a) :
    a = v := by
  have hv := h.ok_of_eq hx
  cases hv; rfl

/-- A run that implements a value returns it or overflows. -/
theorem ok_or_overflow {x : Run ε α} {a : α} (h : x.Implements (.ok a)) :
    x = .ok a ∨ x = panic .overflow := by
  match x, h with
  | .ok b, h => cases h; exact Or.inl rfl
  | .error (.panic p), h => cases h; exact Or.inr rfl

/-- A value, without a computation. -/
protected theorem pure (a : α) : Implements (pure a : Run ε α) (.ok a) := rfl

/-- A value that is returned. -/
protected theorem ok (a : α) : Implements (.ok a : Run ε α) (.ok a) := rfl

/-- An error that is returned. -/
protected theorem fail (e : ε) : (fail e : Run ε α).Implements (.error e) := rfl

/-- A run that overflows implements anything. -/
protected theorem overflow (y : Except ε α) : (panic .overflow : Run ε α).Implements y := rfl

/-- **Sequences**: the second parts are compared where the first one returns. -/
theorem bind {x : Run ε α} {f : α → Run ε β} {y : Except ε α} {g : α → Except ε β}
    (hx : x.Implements y) (hf : ∀ a, y = .ok a → (f a).Implements (g a)) :
    (x >>= f).Implements (y >>= g) := by
  match x, hx with
  | .ok a, hx => cases hx; exact hf a rfl
  | .error (.err e), hx => cases hx; rfl
  | .error (.panic p), hx => exact hx

/-- The common case of `bind`: the first run computes a plain value. -/
theorem bind_ok {x : Run ε α} {f : α → Run ε β} {a : α} {y : Except ε β}
    (hx : x.Implements (.ok a)) (hf : (f a).Implements y) : (x >>= f).Implements y :=
  hx.bind (g := fun _ => y) (fun _ h => by cases h; exact hf)

/-- A value that is computed from a result. -/
theorem map {x : Run ε α} {y : Except ε α} (h : x.Implements y) (f : α → β) :
    (f <$> x).Implements (f <$> y) := by
  match x, h with
  | .ok a, h => cases h; rfl
  | .error (.err e), h => cases h; rfl
  | .error (.panic p), h => exact h

/-- Errors that are renamed. -/
theorem mapErr {x : Run ε α} {y : Except ε α} (h : x.Implements y) (f : ε → ε') :
    (x.mapErr f).Implements (y.mapError f) := by
  match x, h with
  | .ok a, h => cases h; rfl
  | .error (.err e), h => cases h; rfl
  | .error (.panic p), h => exact h

/-- Both branches. -/
theorem ite {c : Prop} [Decidable c] {x x' : Run ε α} {y y' : Except ε α}
    (ht : c → x.Implements y) (hf : ¬c → x'.Implements y') :
    (if c then x else x').Implements (if c then y else y') := by
  split
  · exact ht ‹_›
  · exact hf ‹_›

/-- An assertion that holds. -/
theorem assert {c : Prop} [Decidable c] (h : c) : (assert c : Run ε Unit).Implements (.ok ()) := by
  simp only [Run.assert, if_pos h]
  rfl

/-- A debug assertion that holds. -/
theorem debugAssert {c : Prop} [Decidable c] (h : c) :
    (debugAssert c : Run ε Unit).Implements (.ok ()) := by
  simp only [Run.debugAssert, if_pos h]
  rfl

end Implements

/-- `x` panics, or ends exactly as `y` does. -/
def Agrees (x y : Run ε α) : Prop := (∃ p, x = panic p) ∨ x = y

namespace Agrees

/-- A run agrees with itself. -/
@[simp] protected theorem refl (x : Run ε α) : Agrees x x := Or.inr rfl

/-- What a run with checks returns, the other run returns too. -/
theorem ok_of_eq {x y : Run ε α} (h : Agrees x y) {a : α} (hx : x = .ok a) : y = .ok a := by
  rcases h with ⟨p, hpanic⟩ | heq
  · rw [hx] at hpanic
    cases hpanic
  · rw [← heq, hx]

/-- Sequences of runs that agree. -/
theorem bind {x y : Run ε α} {f g : α → Run ε β} (hxy : Agrees x y)
    (hfg : ∀ a, Agrees (f a) (g a)) : Agrees (x >>= f) (y >>= g) := by
  rcases hxy with ⟨p, rfl⟩ | rfl
  · exact Or.inl ⟨p, rfl⟩
  · match x with
    | .ok a => exact hfg a
    | .error s => exact Or.inr rfl

/-- Both branches. -/
theorem ite {c : Prop} [Decidable c] {x y x' y' : Run ε α} (ht : Agrees x y) (hf : Agrees x' y') :
    Agrees (if c then x else x') (if c then y else y') := by
  split
  · exact ht
  · exact hf

/-- A debug assertion is evaluated or skipped. -/
theorem debugAssert [Build] (c : Prop) [Decidable c] :
    Agrees (@debugAssert ε .checked c _) (debugAssert c) := by
  unfold Run.debugAssert
  split
  · exact .refl _
  · exact Or.inl ⟨.assertion, rfl⟩

end Agrees

end Run

/-! ### The machine operations on `i64` -/

namespace I64

open Run

/-- The integers an `i64` holds. -/
def Fits (x : ℤ) : Prop := -9223372036854775808 ≤ x ∧ x ≤ 9223372036854775807

instance (x : ℤ) : Decidable (Fits x) := inferInstanceAs (Decidable (_ ∧ _))

/-- The two's complement reading of `x`. -/
def wrap (x : ℤ) : ℤ := x.bmod 18446744073709551616

/-- The exact result `x` where it fits. -/
def exact [build : Build] (x : ℤ) : Run ε ℤ :=
  if Fits x then .ok x else overflowed build (wrap x)

/-- `a + b` -/
def add [Build] (a b : ℤ) : Run ε ℤ := exact (a + b)

/-- `a - b` -/
def sub [Build] (a b : ℤ) : Run ε ℤ := exact (a - b)

/-- `a * b` -/
def mul [Build] (a b : ℤ) : Run ε ℤ := exact (a * b)

/-- `a.abs()` -/
def abs [Build] (a : ℤ) : Run ε ℤ := exact |a|

/-- `a / b`, rounding toward zero.  `i64::MIN / -1` overflows, and panics in every build. -/
def div (a b : ℤ) : Run ε ℤ :=
  if b = 0 then panic .divisionByZero
  else if Fits (a.tdiv b) then .ok (a.tdiv b) else panic .overflow

/-- `a % b`, with the sign of `a`.  `i64::MIN % -1` overflows although its result is `0`, and
panics in every build. -/
def rem (a b : ℤ) : Run ε ℤ :=
  if b = 0 then panic .divisionByZero
  else if Fits (a.tdiv b) then .ok (a.tmod b) else panic .overflow

/-- The check that `/`, `%`, `rem_euclid` and `step_by` make of their right-hand side. -/
def divisor (b : ℤ) : Run ε Unit := if b = 0 then panic .divisionByZero else .ok ()

/-- A divisor passes if it is not zero. -/
@[simp] theorem divisor_eq_ok {b : ℤ} {u : Unit} : (divisor b : Run ε Unit) = .ok u ↔ b ≠ 0 := by
  unfold divisor
  split
  · exact ⟨fun h => absurd h panic_ne_ok, fun h => absurd ‹b = 0› h⟩
  · exact ⟨fun _ => ‹¬b = 0›, fun _ => rfl⟩

/-- `checked_add`, `checked_mul` and `checked_neg`: `None` on overflow. -/
def checked (x : ℤ) : Option ℤ := if Fits x then some x else none

/-- `checked_add` -/
def checkedAdd (a b : ℤ) : Option ℤ := checked (a + b)

/-- `checked_mul` -/
def checkedMul (a b : ℤ) : Option ℤ := checked (a * b)

/-- A checked result is one that fits. -/
@[simp] theorem checked_eq_some {x y : ℤ} : checked x = some y ↔ Fits x ∧ x = y := by
  unfold checked
  split <;> simp_all

/-- A checked sum is one that fits. -/
@[simp] theorem checkedAdd_eq_some {a b y : ℤ} :
    checkedAdd a b = some y ↔ Fits (a + b) ∧ a + b = y := checked_eq_some

/-- A checked product is one that fits. -/
@[simp] theorem checkedMul_eq_some {a b y : ℤ} :
    checkedMul a b = some y ↔ Fits (a * b) ∧ a * b = y := checked_eq_some

/-- The exact result, unless it does not fit. -/
theorem exact_implements (x : ℤ) : (exact x : Run ε ℤ).Implements (.ok x) := by
  unfold exact
  split
  · rfl
  · rfl

/-- The operations of a build with checks agree with those of every build. -/
theorem exact_agrees [Build] (x : ℤ) : Agrees (@exact ε .checked x) (exact x) := by
  unfold exact
  split
  · exact .refl _
  · exact Or.inl ⟨.overflow, rfl⟩

/-- What an operation returns fits. -/
theorem fits_of_exact {x y : ℤ} (h : (exact x : Run ε ℤ) = .ok y) : Fits x := by
  by_contra hover
  rw [exact, if_neg hover] at h
  cases h

/-- Sums. -/
theorem add_implements (a b : ℤ) : (add a b : Run ε ℤ).Implements (.ok (a + b)) :=
  exact_implements _

/-- Differences. -/
theorem sub_implements (a b : ℤ) : (sub a b : Run ε ℤ).Implements (.ok (a - b)) :=
  exact_implements _

/-- Products. -/
theorem mul_implements (a b : ℤ) : (mul a b : Run ε ℤ).Implements (.ok (a * b)) :=
  exact_implements _

/-- Absolute values. -/
theorem abs_implements (a : ℤ) : (abs a : Run ε ℤ).Implements (.ok |a|) :=
  exact_implements _

/-- Quotients by a divisor that is not zero. -/
theorem div_implements (a : ℤ) {b : ℤ} (hb : b ≠ 0) :
    (div a b : Run ε ℤ).Implements (.ok (a.tdiv b)) := by
  simp only [div, if_neg hb]
  split
  · rfl
  · rfl

/-- Remainders by a divisor that is not zero. -/
theorem rem_implements (a : ℤ) {b : ℤ} (hb : b ≠ 0) :
    (rem a b : Run ε ℤ).Implements (.ok (a.tmod b)) := by
  simp only [rem, if_neg hb]
  split
  · rfl
  · rfl

/-- A part of a nonnegative `i64` is one. -/
theorem fits_ediv {a b : ℤ} (h0 : 0 ≤ a) (ha : Fits a) (hb : 0 < b) : Fits (a / b) := by
  have h1 := Int.ediv_nonneg h0 hb.le
  have h2 := Int.ediv_le_self b h0
  exact ⟨by omega, h2.trans ha.2⟩

/-- Dividing a nonnegative number by a positive one never panics. -/
theorem div_of_nonneg {a b : ℤ} (h0 : 0 ≤ a) (ha : Fits a) (hb : 0 < b) :
    (div a b : Run ε ℤ) = .ok (a / b) := by
  rw [div, if_neg hb.ne', Int.tdiv_eq_ediv_of_nonneg h0, if_pos (fits_ediv h0 ha hb)]

/-- The remainder of a number that is not negative. -/
theorem rem_of_nonneg {a b : ℤ} (h0 : 0 ≤ a) (ha : Fits a) (hb : 0 < b) :
    (rem a b : Run ε ℤ) = .ok (a % b) := by
  rw [rem, if_neg hb.ne', Int.tdiv_eq_ediv_of_nonneg h0, if_pos (fits_ediv h0 ha hb),
    Int.tmod_eq_emod_of_nonneg h0]

/-- An exact result is one that fits. -/
@[simp] theorem exact_eq_ok {x y : ℤ} : (exact x : Run ε ℤ) = .ok y ↔ Fits x ∧ x = y := by
  unfold exact
  split
  · exact ⟨fun h => ⟨‹_›, Except.ok.inj h⟩, fun h => congrArg Except.ok h.2⟩
  · exact ⟨fun h => absurd h panic_ne_ok, fun h => absurd h.1 ‹_›⟩

/-- A result that fits is returned. -/
theorem exact_of_fits {x : ℤ} (h : Fits x) : (exact x : Run ε ℤ) = .ok x := if_pos h

/-- One that does not is an overflow. -/
theorem exact_of_not_fits {x : ℤ} (h : ¬Fits x) : (exact x : Run ε ℤ) = panic .overflow := if_neg h

/-- A checked product that fits. -/
theorem checkedMul_of_fits {a b : ℤ} (h : Fits (a * b)) : checkedMul a b = some (a * b) :=
  if_pos h

/-- A checked sum that fits. -/
theorem checkedAdd_of_fits {a b : ℤ} (h : Fits (a + b)) : checkedAdd a b = some (a + b) :=
  if_pos h

end I64

end CudaOxide.Lib
