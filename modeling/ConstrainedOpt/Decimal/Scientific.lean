import ConstrainedOpt.Scalar.Dyadic
import ConstrainedOpt.Decimal.Digits

/-! # Scientific notation

One digit before the point, a fixed number of places behind it, and an exponent with neither a plus
sign nor leading zeros: `1.23e-5`. The last place is rounded correctly, a half going to the even digit.
-/
namespace ConstrainedOpt.Decimal

/-- A digit string of `places + 1` digits and the exponent of the first one. -/
def scientificDigits (places mantissa : Nat) (exponent : Int) : List Char × Int :=
  if mantissa = 0 then (List.replicate (places + 1) '0', 0)
  else
    let (num, den) := Dyadic.fraction mantissa exponent
    let k := leadingExponent num den
    let (num, den) := rescale num den (k - places)
    let q := roundHalfEven num den
    if q < Nat.pow 10 (places + 1) then (digits q, k) else (digits (q / 10), k + 1)

def signText (negative : Bool) : List Char := if negative then ['-'] else []

def exponentText (k : Int) : List Char := signText (k < 0) ++ digits k.natAbs

def pointed (digits : List Char) : List Char :=
  match digits with
  | [] => []
  | [d] => [d]
  | d :: rest => d :: '.' :: rest

/-- The parts of a number in scientific notation: signed mantissa and exponent, when it has them. -/
def scientificParts (places : Nat) : Dyadic → List Char × Option Int
  | .nan => (['N', 'a', 'N'], none)
  | .infinite negative => (signText negative ++ ['i', 'n', 'f'], none)
  | .finite negative mantissa exponent =>
      let (ds, k) := scientificDigits places mantissa exponent
      (signText negative ++ pointed ds, some k)

def scientific (places : Nat) (v : Dyadic) : String :=
  match scientificParts places v with
  | (text, none) => String.ofList text
  | (text, some k) => String.ofList (text ++ 'e' :: exponentText k)

end ConstrainedOpt.Decimal
