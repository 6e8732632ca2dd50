import CudaOxide.Cute.Composed

namespace CudaOxide.Cute.Swizzle

open Lib

/-!
# Swizzles of nonnegative offsets

An offset that is nonnegative is a natural number, and a swizzle of it an exclusive or of natural
numbers.

* `apply_eq` — the machine's `apply` on such an offset.
* `xor_moved_div` — the bits from the end of the target field on stay.
* `bijOn_xor_moved` — a swizzle permutes every interval of whole fields.
-/

variable {s : Swizzle} {x y : ℕ}

/-- The source field. -/
def mask (s : Swizzle) : ℕ := (2 ^ s.numBits - 1) <<< (s.numBase + s.numShift.toNat)

/-- The source field of `x`, moved over the target field. -/
def moved (s : Swizzle) (x : ℕ) : ℕ :=
  if 0 ≤ s.numShift then (x &&& s.mask) >>> s.numShift.toNat
  else (x &&& s.mask) <<< (-s.numShift).toNat

/-- The bit behind the target field. -/
def targetEnd (s : Swizzle) : ℕ := s.numBase + s.numBits + (-s.numShift).toNat

/-- The bits that change lie in a word of 32. -/
theorem targetEnd_le (h : s.Valid) : s.targetEnd ≤ 32 := by
  have := h.2
  unfold targetEnd
  omega

/-- The mask ends where its field does. -/
theorem mask_lt (s : Swizzle) : s.mask < 2 ^ (s.numBits + (s.numBase + s.numShift.toNat)) := by
  rw [mask, Nat.shiftLeft_eq, pow_add 2 s.numBits]
  exact Nat.mul_lt_mul_of_pos_right (Nat.sub_lt (Nat.two_pow_pos _) Nat.one_pos) (Nat.two_pow_pos _)

/-- The moved bits end at the target field. -/
theorem moved_lt (s : Swizzle) (x : ℕ) : s.moved x < 2 ^ s.targetEnd := by
  have hand := Nat.and_lt_two_pow x s.mask_lt
  unfold moved targetEnd
  split
  · rename_i hshift
    rw [Nat.shiftRight_eq_div_pow]
    refine Nat.div_lt_of_lt_mul ?_
    rw [← pow_add]
    convert hand using 2
    omega
  · rename_i hshift
    rw [Nat.shiftLeft_eq]
    have hzero : s.numShift.toNat = 0 := by omega
    rw [hzero] at hand
    calc (x &&& s.mask) * 2 ^ (-s.numShift).toNat
        < 2 ^ (s.numBits + (s.numBase + 0)) * 2 ^ (-s.numShift).toNat :=
          Nat.mul_lt_mul_of_pos_right hand (Nat.two_pow_pos _)
      _ = 2 ^ (s.numBase + s.numBits + (-s.numShift).toNat) := by
          rw [← pow_add]
          congr 1
          omega

/-- Masking picks a digit, and moving it puts it at the target field. -/
theorem moved_eq (s : Swizzle) (x : ℕ) : s.moved x =
    x / 2 ^ (s.numBase + s.numShift.toNat) % 2 ^ s.numBits *
      2 ^ (s.numBase + (-s.numShift).toNat) := by
  have hand : x &&& s.mask = x / 2 ^ (s.numBase + s.numShift.toNat) % 2 ^ s.numBits *
      2 ^ (s.numBase + s.numShift.toNat) := by
    apply Nat.eq_of_testBit_eq
    intro i
    rw [mask, Nat.testBit_and, Nat.testBit_shiftLeft, Nat.testBit_mul_two_pow,
      ← Nat.and_two_pow_sub_one_eq_mod, Nat.testBit_and, Nat.testBit_div_two_pow]
    by_cases hi : s.numBase + s.numShift.toNat ≤ i
    · simp [hi]
    · simp [hi]
  rw [moved, hand]
  split
  · rename_i hshift
    have hzero : (-s.numShift).toNat = 0 := by omega
    rw [hzero, Nat.shiftRight_eq_div_pow, pow_add, ← Nat.mul_assoc, Nat.add_zero,
      Nat.mul_div_cancel _ (Nat.two_pow_pos _)]
  · rename_i hshift
    have hzero : s.numShift.toNat = 0 := by omega
    rw [hzero, Nat.shiftLeft_eq, Nat.mul_assoc, ← pow_add, Nat.add_zero]

/-- The mask as the source stores it. -/
theorem toNat_yMask (h : s.Valid) : s.yMask.toNat = s.mask := by
  have hbits : 2 ^ s.numBits ≤ 2 ^ 32 := Nat.pow_le_pow_right two_pos (by have := h.2; omega)
  have hpos := Nat.two_pow_pos s.numBits
  have hsub : (1#64 <<< s.numBits - 1#64).toNat = 2 ^ s.numBits - 1 := by
    simp only [BitVec.toNat_sub, BitVec.toNat_shiftLeft, BitVec.toNat_ofNat, Nat.shiftLeft_eq]
    omega
  rw [yMask, BitVec.toNat_shiftLeft, hsub]
  refine Nat.mod_eq_of_lt (s.mask_lt.trans_le (Nat.pow_le_pow_right two_pos ?_))
  have := h.1
  have := h.2
  omega

/-- The word that `apply` forms. -/
theorem toNat_xor_moved (h : s.Valid) (w : BitVec 64) :
    (w ^^^ (if 0 ≤ s.numShift then (w &&& s.yMask).sshiftRight s.numShift.toNat
      else (w &&& s.yMask) <<< (-s.numShift).toNat)).toNat = w.toNat ^^^ s.moved w.toNat := by
  have hand : (w &&& s.yMask).toNat = w.toNat &&& s.mask := by
    rw [BitVec.toNat_and, toNat_yMask h]
  have hmoved : s.moved w.toNat < 2 ^ 63 :=
    (s.moved_lt _).trans_le (Nat.pow_le_pow_right two_pos ((targetEnd_le h).trans (by decide)))
  rw [BitVec.toNat_xor]
  congr 1
  unfold moved at hmoved ⊢
  by_cases hshift : 0 ≤ s.numShift
  · -- the source field does not reach the sign bit
    have hsmall : w.toNat &&& s.mask < 2 ^ 32 := by
      refine (Nat.and_lt_two_pow _ s.mask_lt).trans_le (Nat.pow_le_pow_right two_pos ?_)
      have := h.2
      omega
    rw [if_pos hshift, if_pos hshift, BitVec.sshiftRight_eq_of_msb_false,
      BitVec.toNat_ushiftRight, hand]
    rw [BitVec.msb_eq_false_iff_two_mul_lt, hand]
    omega
  · rw [if_neg hshift] at hmoved
    rw [if_neg hshift, if_neg hshift, BitVec.toNat_shiftLeft, hand]
    exact Nat.mod_eq_of_lt (hmoved.trans (by decide))

/-- A swizzle without bits moves nothing. -/
theorem moved_of_numBits_eq_zero (h : s.numBits = 0) (x : ℕ) : s.moved x = 0 := by
  simp [moved, mask, h]

/-- Every offset is swizzled as a 64-bit word. -/
theorem exists_word_apply (h : s.Valid) {x : ℤ} (hx : I64.Fits x) : ∃ w : BitVec 64,
    w.toInt = s.apply x ∧
      w.toNat = (BitVec.ofInt 64 x).toNat ^^^ s.moved (BitVec.ofInt 64 x).toNat := by
  unfold apply
  split
  · rename_i hbits
    refine ⟨BitVec.ofInt 64 x, ?_, ?_⟩
    · exact BitVec.toInt_ofInt_eq_self (by decide) hx.1 (by have := hx.2; omega)
    · rw [moved_of_numBits_eq_zero hbits, Nat.xor_zero]
  · exact ⟨_, rfl, toNat_xor_moved h _⟩

/-- **The machine's swizzle is an exclusive or of natural numbers.** -/
theorem apply_eq (h : s.Valid) (hx : x < 2 ^ 63) : s.apply x = ((x ^^^ s.moved x : ℕ) : ℤ) := by
  have hmoved : s.moved x < 2 ^ 63 :=
    (s.moved_lt x).trans_le (Nat.pow_le_pow_right two_pos ((targetEnd_le h).trans (by decide)))
  obtain ⟨w, happ, hword⟩ := exists_word_apply h (x := x) ⟨by omega, by omega⟩
  have hw : (BitVec.ofInt 64 x).toNat = x := by
    rw [BitVec.ofInt_natCast, BitVec.toNat_ofNat]
    exact Nat.mod_eq_of_lt (hx.trans (by decide))
  have hxor := Nat.xor_lt_two_pow hx hmoved
  rw [hw] at hword
  rw [← happ, BitVec.toInt_eq_toNat_of_lt (by omega), hword]

/-- The bits behind the target field stay. -/
theorem xor_moved_div (s : Swizzle) (x : ℕ) :
    (x ^^^ s.moved x) / 2 ^ s.targetEnd = x / 2 ^ s.targetEnd := by
  rw [Nat.xor_div_two_pow, Nat.div_eq_of_lt (s.moved_lt x), Nat.xor_zero]

/-! ### Every offset -/

/-- The bit behind both fields. -/
def fieldsEnd (s : Swizzle) : ℕ := s.numBase + s.numBits + s.numShift.natAbs

/-- Both fields lie in a word of 32. -/
theorem fieldsEnd_le (h : s.Valid) : s.fieldsEnd ≤ 32 := h.2

/-- The target is one of the two. -/
theorem targetEnd_le_fieldsEnd (s : Swizzle) : s.targetEnd ≤ s.fieldsEnd := by
  unfold targetEnd fieldsEnd
  omega

/-- The mask is inside the fields. -/
theorem mask_lt_fieldsEnd (s : Swizzle) : s.mask < 2 ^ s.fieldsEnd := by
  refine s.mask_lt.trans_le (Nat.pow_le_pow_right two_pos ?_)
  unfold fieldsEnd
  omega

/-- Every offset splits at a bit. -/
theorem exists_low_bits (N : ℕ) (x : ℤ) : ∃ (q : ℤ) (r : ℕ), r < 2 ^ N ∧ x = q * 2 ^ N + r := by
  have hpos : (0 : ℤ) < 2 ^ N := by positivity
  obtain ⟨r, hr⟩ := Int.eq_ofNat_of_zero_le (Int.emod_nonneg x hpos.ne')
  have hlt := Int.emod_lt_of_pos x hpos
  rw [hr] at hlt
  exact ⟨x / 2 ^ N, r, by exact_mod_cast hlt, by rw [← hr, Int.mul_comm, Int.mul_ediv_add_emod]⟩

/-- What is moved depends on the bits below the end of the fields only. -/
theorem moved_mod {N : ℕ} (hN : s.fieldsEnd ≤ N) (x : ℕ) : s.moved (x % 2 ^ N) = s.moved x := by
  have hmask : s.mask < 2 ^ N := s.mask_lt_fieldsEnd.trans_le (Nat.pow_le_pow_right two_pos hN)
  have hand : x % 2 ^ N &&& s.mask = x &&& s.mask := by
    have hmod := Nat.and_mod_two_pow (a := x) (b := s.mask) (n := N)
    rw [Nat.mod_eq_of_lt hmask, Nat.mod_eq_of_lt (Nat.and_lt_two_pow x hmask)] at hmod
    exact hmod.symm
  rw [moved, moved, hand]

/-- **A swizzle leaves what is behind its fields.**  In two's complement this holds of negative
offsets as well. -/
theorem apply_add (h : s.Valid) {N r : ℕ} {q : ℤ} (hN : s.fieldsEnd ≤ N) (hN63 : N ≤ 63)
    (hr : r < 2 ^ N) (hfits : I64.Fits (q * 2 ^ N + r)) :
    s.apply (q * 2 ^ N + r) = q * 2 ^ N + ((r ^^^ s.moved r : ℕ) : ℤ) := by
  obtain ⟨w, happ, hword⟩ := exists_word_apply h hfits
  set x : BitVec 64 := BitVec.ofInt 64 (q * 2 ^ N + r) with hxdef
  have hpow : 2 ^ N * 2 ^ (64 - N) = 2 ^ 64 := by
    rw [← pow_add]
    congr 1
    omega
  have hhalf : 2 ^ (63 - N) * 2 ^ N = 2 ^ 63 := by
    rw [← pow_add]
    congr 1
    omega
  have hxint : x.toInt = q * 2 ^ N + r :=
    BitVec.toInt_ofInt_eq_self (by decide) hfits.1 (by have := hfits.2; omega)
  -- the low bits of the word are those of `r`
  have hlow : x.toNat % 2 ^ N = r := by
    have hdvd : ((2 : ℤ) ^ N) ∣ 2 ^ 64 := ⟨2 ^ (64 - N), by exact_mod_cast hpow.symm⟩
    have hcast : (x.toNat : ℤ) % 2 ^ N = r := by
      rw [hxdef, BitVec.toNat_ofInt, Int.toNat_of_nonneg (Int.emod_nonneg _ (by decide))]
      rw [show ((2 ^ 64 : ℕ) : ℤ) = 2 ^ 64 from rfl, Int.emod_emod_of_dvd _ hdvd, Int.add_comm,
        Int.add_mul_emod_self_right]
      exact Int.emod_eq_of_lt (by positivity) (by exact_mod_cast hr)
    exact_mod_cast hcast
  have hmoved : s.moved x.toNat = s.moved r := by rw [← moved_mod hN, hlow]
  have hmovedlt : s.moved r < 2 ^ N := (s.moved_lt r).trans_le
    (Nat.pow_le_pow_right two_pos (s.targetEnd_le_fieldsEnd.trans hN))
  -- the high bits, and with them the sign, are left
  have hhigh : w.toNat / 2 ^ N = x.toNat / 2 ^ N := by
    rw [hword, hmoved, Nat.xor_div_two_pow, Nat.div_eq_of_lt hmovedlt, Nat.xor_zero]
  have hwlow : w.toNat % 2 ^ N = r ^^^ s.moved r := by
    rw [hword, hmoved, Nat.xor_mod_two_pow, hlow, Nat.mod_eq_of_lt hmovedlt]
  have hsign : w.toNat < 2 ^ 63 ↔ x.toNat < 2 ^ 63 := by
    rw [← hhalf, ← Nat.div_lt_iff_lt_mul (Nat.two_pow_pos N),
      ← Nat.div_lt_iff_lt_mul (Nat.two_pow_pos N), hhigh]
  have hxsplit := Nat.div_add_mod x.toNat (2 ^ N)
  have hwsplit := Nat.div_add_mod w.toNat (2 ^ N)
  rw [hlow] at hxsplit
  rw [hhigh, hwlow] at hwsplit
  rw [BitVec.toInt_eq_toNat_cond] at hxint happ
  rw [← happ]
  split at hxint
  · rw [if_pos (by omega)]
    omega
  · rw [if_neg (by omega)]
    omega

/-- The swizzle of any integer, without the bounds of a machine word. -/
def permute (s : Swizzle) (x : ℤ) : ℤ :=
  let low := (x % 2 ^ s.fieldsEnd).toNat
  x / 2 ^ s.fieldsEnd * 2 ^ s.fieldsEnd + ((low ^^^ s.moved low : ℕ) : ℤ)

/-- The bits above the fields are not touched. -/
theorem permute_add {r : ℕ} (q : ℤ) (hr : r < 2 ^ s.fieldsEnd) :
    s.permute (q * 2 ^ s.fieldsEnd + r) = q * 2 ^ s.fieldsEnd + ((r ^^^ s.moved r : ℕ) : ℤ) := by
  have hpos : (0 : ℤ) < 2 ^ s.fieldsEnd := by positivity
  have hr : (r : ℤ) < 2 ^ s.fieldsEnd := by exact_mod_cast hr
  have hlow : (q * 2 ^ s.fieldsEnd + r) % 2 ^ s.fieldsEnd = r := by
    rw [Int.mul_add_emod_self_right, Int.emod_eq_of_lt (Int.natCast_nonneg r) hr]
  have hhigh : (q * 2 ^ s.fieldsEnd + r) / 2 ^ s.fieldsEnd = q := by
    rw [Int.mul_add_ediv_right _ _ hpos.ne', Int.ediv_eq_zero_of_lt (Int.natCast_nonneg r) hr,
      add_zero]
  rw [permute, hlow, hhigh, Int.toNat_natCast]

/-- On every 64-bit offset this is what the machine computes. -/
theorem apply_eq_permute (h : s.Valid) {x : ℤ} (hx : I64.Fits x) : s.apply x = s.permute x := by
  have hend := fieldsEnd_le h
  obtain ⟨q, r, hr, rfl⟩ := exists_low_bits s.fieldsEnd x
  rw [apply_add h le_rfl (by omega) hr hx, permute_add q hr]

/-- The swizzle moves with every base that is a multiple of `A`. -/
def MovesWithBase (s : Swizzle) (A : ℤ) : Prop :=
  ∀ base x : ℤ, I64.Fits base → I64.Fits x → I64.Fits (base + x) → A ∣ base → 0 ≤ x →
    s.apply (base + x) = base + s.apply x

/-- So a swizzle moves whole blocks of that size. -/
theorem movesWithBase_fieldsEnd (h : s.Valid) : s.MovesWithBase (2 ^ s.fieldsEnd) := by
  rintro base x - hx hsum ⟨p, rfl⟩ h0
  have hend := fieldsEnd_le h
  obtain ⟨q, r, hrlt, rfl⟩ := exists_low_bits s.fieldsEnd x
  have hbase : 2 ^ s.fieldsEnd * p + (q * 2 ^ s.fieldsEnd + r) =
      (p + q) * 2 ^ s.fieldsEnd + r := by ring
  rw [hbase] at hsum ⊢
  rw [apply_add h le_rfl (by omega) hrlt hsum, apply_add h le_rfl (by omega) hrlt hx]
  ring

/-- The source field's top bit, as a base, is moved into the target field. -/
theorem not_movesWithBase (h : s.Valid) (hbits : s.numBits ≠ 0) (hshift : 0 ≤ s.numShift) {k : ℕ}
    (hk : k < s.fieldsEnd) : ¬s.MovesWithBase (2 ^ k) := by
  intro hmoves
  have hend := fieldsEnd_le h
  have hsource : s.fieldsEnd - 1 = s.numBits - 1 + (s.numBase + s.numShift.toNat) := by
    unfold fieldsEnd
    omega
  have htop : s.moved (2 ^ (s.fieldsEnd - 1)) ≠ 0 := by
    have hdigit : 2 ^ (s.numBits - 1) % 2 ^ s.numBits = 2 ^ (s.numBits - 1) :=
      Nat.mod_eq_of_lt (Nat.pow_lt_pow_right one_lt_two (by omega))
    rw [moved_eq, hsource, pow_add, Nat.mul_div_cancel _ (Nat.two_pow_pos _), hdigit]
    positivity
  have hlt : 2 ^ (s.fieldsEnd - 1) < 2 ^ 63 := Nat.pow_lt_pow_right one_lt_two (by omega)
  have hzero : s.apply 0 = 0 := by
    have h0 := apply_eq h (x := 0) (by decide)
    rw [moved_eq, Nat.zero_div, Nat.zero_mod, Nat.zero_mul] at h0
    exact h0
  have hfits : I64.Fits ((2 ^ (s.fieldsEnd - 1) : ℕ) : ℤ) :=
    ⟨le_trans (by decide) (Int.natCast_nonneg _), Int.ofNat_le.mpr (Nat.le_pred_of_lt hlt)⟩
  have hbase := hmoves _ 0 hfits (by decide) (by rwa [add_zero])
    (by exact_mod_cast pow_dvd_pow 2 (by omega)) le_rfl
  rw [hzero, add_zero, apply_eq h hlt] at hbase
  have hxor : 2 ^ (s.fieldsEnd - 1) ^^^ s.moved (2 ^ (s.fieldsEnd - 1)) =
      2 ^ (s.fieldsEnd - 1) := by
    exact_mod_cast hbase
  exact htop (Nat.xor_right_injective (hxor.trans (Nat.xor_zero _).symm))

/-- **The phase of a swizzle.**  It moves with a base from the end of its fields on, and with no
smaller power of two. -/
theorem isLeast_movesWithBase (h : s.Valid) (hbits : s.numBits ≠ 0) (hshift : 0 ≤ s.numShift) :
    IsLeast {A | (∃ k : ℕ, A = 2 ^ k) ∧ s.MovesWithBase A} (2 ^ s.fieldsEnd) := by
  refine ⟨⟨⟨_, rfl⟩, movesWithBase_fieldsEnd h⟩, ?_⟩
  rintro _ ⟨⟨k, rfl⟩, hmoves⟩
  by_contra hlt
  have hk : k < s.fieldsEnd := by
    by_contra hk
    exact hlt (pow_le_pow_right₀ one_le_two (not_lt.mp hk))
  exact not_movesWithBase h hbits hshift hk hmoves

/-! ### The permutation -/

/-- The bits of the mask. -/
theorem testBit_mask (s : Swizzle) (i : ℕ) : s.mask.testBit i = true ↔
    s.numBase + s.numShift.toNat ≤ i ∧ i < s.numBase + s.numShift.toNat + s.numBits := by
  rw [mask, Nat.testBit_shiftLeft, Nat.testBit_two_pow_sub_one]
  simp only [Bool.and_eq_true, decide_eq_true_eq]
  omega

/-- The source field does not meet the target field. -/
theorem moved_and_mask (h : s.Valid) (x : ℕ) : s.moved x &&& s.mask = 0 := by
  apply Nat.eq_of_testBit_eq
  intro i
  rw [Nat.testBit_and, Nat.zero_testBit, Bool.eq_false_iff]
  intro hboth
  rw [Bool.and_eq_true, testBit_mask] at hboth
  obtain ⟨hmoved, hsource⟩ := hboth
  have hbits := h.1
  unfold moved at hmoved
  split at hmoved
  · rw [Nat.testBit_shiftRight, Nat.testBit_and, Bool.and_eq_true, testBit_mask] at hmoved
    omega
  · rw [Nat.testBit_shiftLeft, Nat.testBit_and, Bool.and_eq_true, Bool.and_eq_true,
      decide_eq_true_eq, testBit_mask] at hmoved
    omega

/-- Moving again moves the same bits: the target field is not read. -/
theorem moved_xor_moved (h : s.Valid) (x : ℕ) : s.moved (x ^^^ s.moved x) = s.moved x := by
  have hand : (x ^^^ s.moved x) &&& s.mask = x &&& s.mask := by
    rw [Nat.and_xor_distrib_right, moved_and_mask h, Nat.xor_zero]
  rw [moved, hand]
  rfl

/-- **A swizzle permutes an interval of whole fields.** -/
theorem bijOn_xor_moved (h : s.Valid) {N : ℕ} (hN : 2 ^ s.targetEnd ∣ N) :
    Set.BijOn (fun x => x ^^^ s.moved x) (Set.Iio N) (Set.Iio N) := by
  have hpos := Nat.two_pow_pos s.targetEnd
  have hinv : ∀ x, (x ^^^ s.moved x) ^^^ s.moved (x ^^^ s.moved x) = x := by
    intro x
    rw [moved_xor_moved h, Nat.xor_assoc, Nat.xor_self, Nat.xor_zero]
  have hmaps : Set.MapsTo (fun x => x ^^^ s.moved x) (Set.Iio N) (Set.Iio N) := by
    intro x hx
    obtain ⟨k, rfl⟩ := hN
    have hx : x < 2 ^ s.targetEnd * k := hx
    show x ^^^ s.moved x < 2 ^ s.targetEnd * k
    rw [Nat.mul_comm] at hx ⊢
    rw [← Nat.div_lt_iff_lt_mul hpos, xor_moved_div]
    exact (Nat.div_lt_iff_lt_mul hpos).mpr hx
  refine ⟨hmaps, ?_, ?_⟩
  · intro x _ y _ hxy
    have hxy : x ^^^ s.moved x = y ^^^ s.moved y := hxy
    rw [← hinv x, hxy, hinv y]
  · intro y hy
    exact ⟨y ^^^ s.moved y, hmaps hy, hinv y⟩

/-! ### A bound -/

/-- Filling the bits up to the end of the target field bounds every swizzled offset. -/
theorem xor_moved_le (hxy : x ≤ y) :
    x ^^^ s.moved x ≤ y ||| (2 ^ s.targetEnd - 1) := by
  have hpos := Nat.two_pow_pos s.targetEnd
  have hlast : (2 ^ s.targetEnd - 1) / 2 ^ s.targetEnd = 0 := Nat.div_eq_of_lt (by omega)
  have hmod : 2 ^ s.targetEnd - 1 ≤ (y ||| (2 ^ s.targetEnd - 1)) % 2 ^ s.targetEnd := by
    rw [Nat.or_mod_two_pow, Nat.mod_eq_of_lt (a := 2 ^ s.targetEnd - 1) (by omega)]
    exact Nat.right_le_or
  have hdiv : (y ||| (2 ^ s.targetEnd - 1)) / 2 ^ s.targetEnd = y / 2 ^ s.targetEnd := by
    rw [Nat.or_div_two_pow, hlast, Nat.or_zero]
  have hle : (x ^^^ s.moved x) / 2 ^ s.targetEnd ≤ y / 2 ^ s.targetEnd := by
    rw [xor_moved_div]
    exact Nat.div_le_div_right hxy
  have h1 := Nat.div_add_mod (x ^^^ s.moved x) (2 ^ s.targetEnd)
  have h2 := Nat.div_add_mod (y ||| (2 ^ s.targetEnd - 1)) (2 ^ s.targetEnd)
  have h3 := Nat.mod_lt (x ^^^ s.moved x) hpos
  have h4 := Nat.mul_le_mul_left (2 ^ s.targetEnd) hle
  rw [hdiv] at h2
  omega

/-! ### What a swizzle keeps -/

/-- The moved bits fit in a positive `i64`. -/
theorem moved_lt_two_pow_63 (h : s.Valid) (x : ℕ) : s.moved x < 2 ^ 63 :=
  (s.moved_lt x).trans_le (Nat.pow_le_pow_right two_pos ((targetEnd_le h).trans (by decide)))

/-- What is moved lies in the target field: above the bits of the base. -/
theorem testBit_moved_of_lt {i : ℕ} (hi : i < s.numBase) : (s.moved x).testBit i = false := by
  rw [moved_eq, Nat.testBit_mul_two_pow, Bool.and_eq_false_imp]
  intro hle
  rw [decide_eq_true_eq] at hle
  omega

/-- There are no moved bits above the fields. -/
theorem testBit_moved_of_le {i : ℕ} (hi : s.fieldsEnd ≤ i) : (s.moved x).testBit i = false :=
  Nat.testBit_lt_two_pow ((s.moved_lt x).trans_le
    (Nat.pow_le_pow_right two_pos (s.targetEnd_le_fieldsEnd.trans hi)))

/-- **A swizzle of nonnegative offsets** is its own inverse, leaves the bits below the base and
those behind both fields, and moves with every multiple of the power behind the fields. -/
theorem swizzle_keeps (h : s.Valid) {x : ℤ} (hx : 0 ≤ x) (hfits : I64.Fits x) :
    s.apply (s.apply x) = x ∧
      (∀ i : ℕ, i < s.numBase ∨ s.numBase + s.numBits + s.numShift.natAbs ≤ i →
        (s.apply x).testBit i = x.testBit i) ∧
      ∀ k : ℤ, I64.Fits (x + k * 2 ^ (s.numBase + s.numBits + s.numShift.natAbs)) →
        s.apply (x + k * 2 ^ (s.numBase + s.numBits + s.numShift.natAbs)) =
          s.apply x + k * 2 ^ (s.numBase + s.numBits + s.numShift.natAbs) := by
  obtain ⟨n, rfl⟩ := Int.eq_ofNat_of_zero_le hx
  have hn : n < 2 ^ 63 := by
    have := hfits.2
    omega
  refine ⟨?_, fun i hi => ?_, fun k hk => ?_⟩
  · have hxor := Nat.xor_lt_two_pow hn (moved_lt_two_pow_63 h n)
    rw [apply_eq h hn, apply_eq h hxor, moved_xor_moved h, Nat.xor_assoc, Nat.xor_self,
      Nat.xor_zero]
  · have hmoved : (s.moved n).testBit i = false := by
      rcases hi with hi | hi
      · exact testBit_moved_of_lt hi
      · exact testBit_moved_of_le hi
    rw [apply_eq h hn]
    show (n ^^^ s.moved n).testBit i = n.testBit i
    rw [Nat.testBit_xor, hmoved, Bool.xor_false]
  · have hend := fieldsEnd_le h
    obtain ⟨q, r, hr, hsplit⟩ := exists_low_bits s.fieldsEnd (n : ℤ)
    have hsum : (n : ℤ) + k * 2 ^ s.fieldsEnd = (q + k) * 2 ^ s.fieldsEnd + r := by
      rw [hsplit]
      ring
    show s.apply ((n : ℤ) + k * 2 ^ s.fieldsEnd) = s.apply n + k * 2 ^ s.fieldsEnd
    have hk' : I64.Fits ((q + k) * 2 ^ s.fieldsEnd + r) := hsum ▸ hk
    rw [hsum, apply_add h le_rfl (by omega) hr hk', hsplit,
      apply_add h le_rfl (by omega) hr (hsplit ▸ hfits)]
    ring

/-- A swizzle to the left, applied twice. -/
theorem swizzle_keeps_left :
    (⟨3, 4, -3⟩ : Swizzle).apply ((⟨3, 4, -3⟩ : Swizzle).apply 4660) = 4660 :=
  (swizzle_keeps (s := ⟨3, 4, -3⟩) (by decide) (by decide) (by decide)).1

end CudaOxide.Cute.Swizzle
