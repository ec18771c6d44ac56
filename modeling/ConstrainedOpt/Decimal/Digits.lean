/-! # Decimal digits

Counting and rounding, in exact arithmetic on natural numbers.
-/
namespace ConstrainedOpt.Decimal

def digits (n : Nat) : List Char := Nat.toDigits 10 n

def digitCount (n : Nat) : Nat := (digits n).length

/-- The natural number nearest to `num / den`, a half going to the even neighbour. -/
def roundHalfEven (num den : Nat) : Nat :=
  let q := num / den
  let r := num % den
  if den < 2 * r || (2 * r == den && q % 2 == 1) then q + 1 else q

/-- The exponent of the leading decimal digit of the positive fraction `num / den`. -/
def leadingExponent (num den : Nat) : Int :=
  if den ≤ num then (digitCount (num / den) : Int) - 1
  else -(digitCount ((den + num - 1) / num - 1) : Int)

/-- `num / den` divided by `10 ^ k`, as a fraction. -/
def rescale (num den : Nat) (k : Int) : Nat × Nat :=
  if 0 ≤ k then (num, den * Nat.pow 10 k.toNat) else (num * Nat.pow 10 (-k).toNat, den)

end ConstrainedOpt.Decimal
