import CudaOxide.Lib.Bytes

/-!
# Variable-length integers

A number as groups of seven bits, lowest first; every byte but the last has its high bit set.

* `Varint.encode`, `Varint.decode` — the two directions; `decode_encode` is the round trip.
* `zigzag` — signed numbers as unsigned ones.
-/

namespace CudaOxide.Lib

namespace Varint

/-- Little-endian groups of seven bits, the high bit set on all but the last. -/
def encode (n : ℕ) : Bytes :=
  if n < 128 then [.ofNat n] else .ofNat (n % 128 + 128) :: encode (n / 128)
termination_by n
decreasing_by omega

/-- The number at the front, and what follows it. -/
def decode : Bytes → Option (ℕ × Bytes)
  | [] => none
  | b :: bs =>
    if b.toNat < 128 then some (b.toNat, bs)
    else (decode bs).map fun r => (b.toNat - 128 + 128 * r.1, r.2)

variable {n : ℕ}

/-- A number below 128 is one byte. -/
theorem encode_of_lt (hn : n < 128) : encode n = [.ofNat n] := by
  rw [encode, if_pos hn]

/-- A larger number is its low group and the encoding of the rest. -/
theorem encode_of_le (hn : 128 ≤ n) :
    encode n = .ofNat (n % 128 + 128) :: encode (n / 128) := by
  rw [encode, if_neg (by omega)]

/-- Decoding undoes encoding and leaves what follows. -/
theorem decode_encode (n : ℕ) (rest : Bytes) : decode (encode n ++ rest) = some (n, rest) := by
  induction n using Nat.strongRecOn with
  | ind n ih =>
    by_cases hn : n < 128
    · have hb : (UInt8.ofNat n).toNat = n := by rw [UInt8.toNat_ofNat']; omega
      rw [encode_of_lt hn, List.singleton_append, decode, hb, if_pos hn]
    · have hb : (UInt8.ofNat (n % 128 + 128)).toNat = n % 128 + 128 := by
        rw [UInt8.toNat_ofNat']; omega
      rw [encode_of_le (by omega), List.cons_append, decode, hb, if_neg (by omega),
        ih (n / 128) (by omega), Option.map_some]
      congr 2
      omega

/-- An encoding has at least one byte. -/
theorem encode_ne_nil (n : ℕ) : encode n ≠ [] := by
  rw [encode]
  split
  · exact List.cons_ne_nil _ _
  · exact List.cons_ne_nil _ _

/-- Different numbers have different encodings. -/
theorem encode_injective : Function.Injective encode := by
  intro n m h
  have hn := decode_encode n []
  rw [h, decode_encode m []] at hn
  exact (congrArg Prod.fst (Option.some.inj hn)).symm

end Varint

/-- A signed number with its sign in the lowest bit, in the arithmetic of 64-bit words. -/
def zigzag (v : Int64) : ℕ := ((v.toUInt64 <<< 1) ^^^ (v >>> 63).toUInt64).toNat

example : zigzag 0 = 0 ∧ zigzag (-1) = 1 ∧ zigzag 1 = 2 ∧ zigzag (-2) = 3 := by decide

end CudaOxide.Lib
