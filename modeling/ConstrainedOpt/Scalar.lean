/-! # Scalars

The arithmetic every algorithm of this library is written in. An instance fixes the number system:
binary64 floats to run, an exact field with two infinities and an undefined value to reason about.
No law is assumed here; sums and products are taken in the order the definitions write them.
-/
namespace ConstrainedOpt

class Scalar (F : Type) extends Zero F, One F, Add F, Sub F, Mul F, Div F, Neg F, LT F, LE F, BEq F,
    OfScientific F where
  decidableLT (a b : F) : Decidable (a < b)
  decidableLE (a b : F) : Decidable (a ≤ b)
  sqrt : F → F
  ln : F → F
  abs : F → F
  infinity : F
  nan : F
  /-- Distance from one to the next larger scalar. -/
  epsilon : F
  isNaN : F → Bool
  isFinite : F → Bool

namespace Scalar
variable {F : Type} [Scalar F]

instance (a b : F) : Decidable (a < b) := decidableLT a b

instance (a b : F) : Decidable (a ≤ b) := decidableLE a b

def ofNat (n : Nat) : F := OfScientific.ofScientific n false 0

/-- The scalar nearest to `10 ^ (-k)`. -/
def tenth (k : Nat) : F := OfScientific.ofScientific 1 true k

def two : F := 1 + 1

def half : F := 1 / two

/-- The smaller of two scalars, the other one when one is undefined. -/
def minNum (a b : F) : F :=
  if isNaN a then b else if isNaN b then a else if b < a then b else a

/-- The larger of two scalars, the other one when one is undefined. -/
def maxNum (a b : F) : F :=
  if isNaN a then b else if isNaN b then a else if a < b then b else a

def isInfinite (a : F) : Bool := !isNaN a && !isFinite a

end Scalar

end ConstrainedOpt
