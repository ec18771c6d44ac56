import ConstrainedOpt.Scalar
import ConstrainedOpt.Scalar.Dyadic
import ConstrainedOpt.Decimal.Digits

/-! # Binary64 scalars

The floats the algorithms run on.
-/
namespace ConstrainedOpt

instance : Scalar Float where
  zero := 0.0
  one := 1.0
  decidableLT a b := Float.decLt a b
  decidableLE a b := Float.decLe a b
  sqrt := Float.sqrt
  ln := Float.log
  abs := Float.abs
  infinity := 1.0 / 0.0
  nan := 0.0 / 0.0
  epsilon := 2.220446049250313e-16
  isNaN := Float.isNaN
  isFinite := Float.isFinite

namespace Binary64

/-- Magnitudes from `10 ^ 400` on are infinite and those below `10 ^ (-400)` are zero, whatever their
digits, so no larger power of ten is ever computed. -/
def ofDecimal (mantissa : Nat) (exponent : Int) : Float :=
  let leading := (Decimal.digitCount mantissa : Int) + exponent
  if mantissa = 0 ∨ leading < -400 then 0.0
  else if 400 < leading then 1.0 / 0.0
  else if 0 ≤ exponent then Float.ofScientific mantissa false exponent.toNat
  else Float.ofScientific mantissa true (-exponent).toNat

end Binary64

instance : Textual Float where
  dyadic x := .ofBinary64 x.toBits
  ofDecimal := Binary64.ofDecimal

end ConstrainedOpt
