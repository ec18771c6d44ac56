/-! # Dyadic values

What a scalar is worth when it is written down: undefined, infinite, or `± mantissa * 2 ^ exponent`.
-/
namespace ConstrainedOpt

inductive Dyadic where
  | nan
  | infinite (negative : Bool)
  | finite (negative : Bool) (mantissa : Nat) (exponent : Int)
deriving DecidableEq, Repr

/-- Scalars that can be written down and read. -/
class Textual (F : Type) where
  dyadic : F → Dyadic
  /-- The scalar nearest to `mantissa * 10 ^ exponent`. -/
  ofDecimal : (mantissa : Nat) → (exponent : Int) → F

namespace Dyadic

/-- A fraction equal to `mantissa * 2 ^ exponent`. -/
def fraction (mantissa : Nat) (exponent : Int) : Nat × Nat :=
  if 0 ≤ exponent then (mantissa * Nat.pow 2 exponent.toNat, 1) else (mantissa, Nat.pow 2 (-exponent).toNat)

/-- The leading bit of a normal mantissa. -/
def leadingBit : Nat := 0x10000000000000

/-- The value with the given bits of a binary64 float. A normal mantissa has 53 bits, and the
exponent is at least `-1074`. -/
def ofBinary64 (bits : UInt64) : Dyadic :=
  let negative := bits >>> 63 == 1
  let biased := ((bits >>> 52) &&& 0x7ff).toNat
  let fractional := (bits &&& 0xfffffffffffff).toNat
  if biased = 0x7ff then
    if fractional = 0 then infinite negative else nan
  else if biased = 0 then finite negative fractional (-1074)
  else finite negative (leadingBit + fractional) ((biased : Int) - 1075)

end Dyadic

end ConstrainedOpt
