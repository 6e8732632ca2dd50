import Mathlib

namespace CudaOxide.Lib.BitFields

/-!
# Numbers in fields of bits

Memory as bits of which some are unspecified, written by fields that stand next to each other, the
low bit of each number first.

* `Field`, `bit` — a number in a run of bits, and the bits that a list of fields leaves behind.
* `bit_of_mem`, `bit_eq_none` — fields that do not overlap keep all their bits.
* `readBits`, `readBits_eq_some_iff` — the number in a run of bits, if all of them are specified.
-/

/-- A run of bits with a number, or with nothing that is specified. -/
structure Field where
  start : ℕ
  length : ℕ
  value : Option ℕ

/-- The bit lies in the field. -/
def Field.Has (f : Field) (i : ℕ) : Prop := f.start ≤ i ∧ i < f.start + f.length

instance (f : Field) (i : ℕ) : Decidable (f.Has i) :=
  inferInstanceAs (Decidable (f.start ≤ i ∧ i < f.start + f.length))

/-- One field ends before the other starts. -/
def Field.Before (f g : Field) : Prop := f.start + f.length ≤ g.start

/-- A bit that fields leave behind. -/
def bit (fs : List Field) (i : ℕ) : Option Bool :=
  fs.findSome? fun f => if f.Has i then f.value.map (·.testBit (i - f.start)) else none

/-- The number in the first `n` bits. -/
def readBits : ℕ → (ℕ → Option Bool) → Option ℕ
  | 0, _ => some 0
  | n + 1, bits => (bits 0).bind fun b =>
    (readBits n fun j => bits (j + 1)).map fun v => Nat.bit b v

section Bits

variable {f : Field} {fs : List Field} {i n v : ℕ} {bits : ℕ → Option Bool}

/-- A bit of no field is not specified. -/
theorem bit_eq_none (h : ∀ f ∈ fs, ¬f.Has i) : bit fs i = none := by
  rw [bit, List.findSome?_eq_none_iff]
  intro f hf
  exact if_neg (h f hf)

/-- **Fields that do not overlap keep their bits.** -/
theorem bit_of_mem (hpair : fs.Pairwise Field.Before) (hf : f ∈ fs) (hi : f.Has i) :
    bit fs i = f.value.map (·.testBit (i - f.start)) := by
  induction fs with
  | nil => cases hf
  | cons g fs ih =>
    obtain ⟨hg, hpair⟩ := List.pairwise_cons.mp hpair
    have hcons : bit (g :: fs) i =
        (if g.Has i then g.value.map (·.testBit (i - g.start)) else none).or (bit fs i) := by
      rw [bit, List.findSome?_cons]
      cases (if g.Has i then g.value.map (·.testBit (i - g.start)) else none) <;> rfl
    rw [hcons]
    obtain rfl | hf := List.mem_cons.mp hf
    -- the fields behind `g` start behind its end
    · have hrest : bit fs i = none := by
        refine bit_eq_none fun h hh hhas => ?_
        have hle : f.start + f.length ≤ h.start := hg h hh
        have hlt := hi.2
        have hge := hhas.1
        omega
      rw [if_pos hi, hrest, Option.or_none]
    -- `g` ends before the field that holds the bit
    · have hnot : ¬g.Has i := by
        intro hhas
        have hle : g.start + g.length ≤ f.start := hg f hf
        have hlt := hhas.2
        have hge := hi.1
        omega
      rw [if_neg hnot, Option.none_or, ih hpair hf]

/-- **A number is read where its bits stand.** -/
theorem readBits_eq_some_iff :
    readBits n bits = some v ↔ v < 2 ^ n ∧ ∀ j < n, bits j = some (v.testBit j) := by
  induction n generalizing bits v with
  | zero =>
    rw [readBits, Option.some.injEq, pow_zero, Nat.lt_one_iff, eq_comm]
    exact (and_iff_left fun j hj => absurd hj (Nat.not_lt_zero j)).symm
  | succ n ih =>
    simp only [readBits, Option.bind_eq_some_iff, Option.map_eq_some_iff, ih]
    constructor
    · rintro ⟨b, hb, u, ⟨hu, hbits⟩, rfl⟩
      refine ⟨Nat.bit_lt_two_pow_succ_iff.mpr hu, ?_⟩
      intro j hj
      -- bit 0 is the one read first, the others are those of the rest
      cases j with
      | zero => rw [hb, Nat.testBit_bit_zero]
      | succ j => rw [hbits j (by omega), Nat.testBit_bit_succ]
    · rintro ⟨hv, hbits⟩
      refine ⟨v.testBit 0, hbits 0 (Nat.succ_pos n), v / 2, ⟨?_, ?_⟩, ?_⟩
      · rw [pow_succ] at hv
        omega
      · intro j hj
        rw [hbits (j + 1) (by omega), Nat.testBit_succ]
      · rw [Nat.testBit_zero, Nat.bit_val]
        have hmod := Nat.mod_two_eq_zero_or_one v
        obtain hzero | hone := hmod
        · simp [hzero]
          omega
        · simp [hone]
          omega

/-- A number is there exactly where all bits are specified. -/
theorem exists_readBits (h : ∀ j < n, ∃ b, bits j = some b) : ∃ v, readBits n bits = some v := by
  induction n generalizing bits with
  | zero => exact ⟨0, rfl⟩
  | succ n ih =>
    obtain ⟨b, hb⟩ := h 0 (Nat.succ_pos n)
    obtain ⟨v, hv⟩ := @ih (fun j => bits (j + 1)) fun j hj => h (j + 1) (by omega)
    exact ⟨Nat.bit b v, by rw [readBits, hb, Option.bind_some, hv, Option.map_some]⟩

end Bits

end CudaOxide.Lib.BitFields
