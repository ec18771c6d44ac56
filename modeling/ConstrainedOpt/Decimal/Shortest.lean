import ConstrainedOpt.Decimal.Scientific

/-! # Shortest decimals

The fewest digits that read back as the same binary64 value, written without an exponent. Of the
decimals of that length the one nearest to the value is taken, the upper one of two equally near.
-/
namespace ConstrainedOpt.Decimal

/-- The decimals that read back as a positive value, scaled by `2 ^ 2` over the unit of its mantissa:
between `low` and `high` quarters, the ends belonging to it iff the mantissa is even. -/
structure ReadBack where
  low : Nat
  high : Nat
  closed : Bool

/-- The value below a power of two is only half as far away. -/
def ReadBack.ofMantissa (mantissa : Nat) (exponent : Int) : ReadBack where
  low := if mantissa == Dyadic.leadingBit && (-1074 : Int) < exponent then 4 * mantissa - 1
    else 4 * mantissa - 2
  high := 4 * mantissa + 2
  closed := mantissa % 2 == 0

/-- Does the fraction `num / den`, in quarters of a unit, read back. -/
def ReadBack.contains (r : ReadBack) (num den : Nat) : Bool :=
  if r.closed then r.low * den ≤ num && num ≤ r.high * den else r.low * den < num && num < r.high * den

/-- The multiple of `10 ^ k` nearest to the value among its two neighbours that read back. -/
def onGrid? (mantissa : Nat) (exponent k : Int) : Option Nat :=
  let (num, den) := Dyadic.fraction mantissa exponent
  let (num, den) := rescale num den k
  let r := ReadBack.ofMantissa mantissa exponent
  -- a decimal `c * 10 ^ k` is `4 * mantissa * c * den / num` quarters
  let below := num / den
  let inside := fun c => r.contains (4 * mantissa * c * den) num
  match inside below, inside (below + 1) with
  | true, true => if 2 * (num - below * den) < den then some below else some (below + 1)
  | true, false => some below
  | false, true => some (below + 1)
  | false, false => none

/-- The first grid with a hit, from the coarsest on: `fuel` grids below `10 ^ k`. -/
def firstOnGrid (mantissa : Nat) (exponent : Int) : (fuel : Nat) → (k : Int) → Nat × Int
  | 0, k => (0, k)
  | fuel + 1, k =>
      match onGrid? mantissa exponent k with
      | some c => (c, k)
      | none => firstOnGrid mantissa exponent fuel (k - 1)

/-- The decimal `c * 10 ^ k` with the fewest digits. A grid one coarser than the leading digit can
hold a hit when the value is just below a power of ten; 17 digits always read back. -/
def shortestDecimal (mantissa : Nat) (exponent : Int) : Nat × Int :=
  let (num, den) := Dyadic.fraction mantissa exponent
  firstOnGrid mantissa exponent 19 (leadingExponent num den + 1)

/-- `c * 10 ^ k` without an exponent. -/
def positional (c : Nat) (k : Int) : List Char :=
  if 0 ≤ k then digits c ++ List.replicate k.toNat '0'
  else
    let places := (-k).toNat
    let ds := digits c
    let ds := List.replicate (places + 1 - ds.length) '0' ++ ds
    ds.take (ds.length - places) ++ '.' :: ds.drop (ds.length - places)

def shortest : Dyadic → String
  | .nan => "NaN"
  | .infinite negative => String.ofList (signText negative ++ ['i', 'n', 'f'])
  | .finite negative mantissa exponent =>
      if mantissa = 0 then String.ofList (signText negative ++ ['0'])
      else
        let (c, k) := shortestDecimal mantissa exponent
        String.ofList (signText negative ++ positional c k)

end ConstrainedOpt.Decimal
