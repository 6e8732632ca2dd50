import CudaOxide.Lib.Varint
import CudaOxide.TileIr.Ir

/-!
# Encoding primitives

What `EncodingWriter` appends for each kind of value (`cutile-ir/src/bytecode/encoding.rs`).

* `varint`, `signedVarint`, `leI32s`, `leI64s` — numbers and arrays.
* `FloatCasts` — the casts of an `f64` to the narrower formats.  The 8-bit ones are `convertToF8`
  (`TileIr.Float8`); the others are not part of the crate.
* `apFloat` — a float as the signed integer with its bits; an 8-bit float is one byte.
-/

namespace CudaOxide.TileIr

open CudaOxide.Lib CudaOxide.Lib.Bytes

/-- `write_varint`. -/
abbrev varint (n : ℕ) : Bytes := Varint.encode n

/-- `write_signed_varint`. -/
def signedVarint (v : Int64) : Bytes := varint (zigzag v)

/-- A count, then the values in little-endian order (`write_le_var_size_i64`,
`write_le_var_size_i32`). -/
def leI64s (vs : List Int64) : Bytes :=
  varint vs.length ++ vs.flatMap fun v => leBytes 8 v.toUInt64.toNat

/-- A length and its words, little-endian. -/
def leI32s (vs : List Int32) : Bytes :=
  varint vs.length ++ vs.flatMap fun v => leBytes 4 v.toUInt32.toNat

/-- The bits of an `f64`, cast to a narrower format. -/
structure FloatCasts where
  f16 : UInt64 → UInt16
  bf16 : UInt64 → UInt16
  f32 : UInt64 → UInt32
  f8e4m3fn : UInt64 → UInt8
  f8e5m2 : UInt64 → UInt8

/-- The integer that is written for a float of more than 8 bits. -/
def FloatCasts.word (casts : FloatCasts) (bits : UInt64) : Ty → Int64
  | .scalar .f16 => (casts.f16 bits).toUInt64.toInt64
  | .scalar .bf16 => (casts.bf16 bits).toUInt64.toInt64
  | .scalar .f32 | .scalar .tf32 => (casts.f32 bits).toUInt64.toInt64
  | _ => bits.toInt64

/-- `write_ap_float` -/
def apFloat (casts : FloatCasts) (bits : UInt64) : Ty → Bytes
  | .scalar .f8e4m3fn => [casts.f8e4m3fn bits]
  | .scalar .f8e5m2 => [casts.f8e5m2 bits]
  | ty => signedVarint (casts.word bits ty)

/-- The bytes that align the position `pos` (`align_to`). -/
def padding (pos alignment : ℕ) : Bytes :=
  if alignment < 2 then []
  else List.replicate ((alignment - pos % alignment) % alignment) 0xCB

end CudaOxide.TileIr
