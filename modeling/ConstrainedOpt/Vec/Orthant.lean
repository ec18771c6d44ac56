import ConstrainedOpt.Vec

/-! # The nonnegative orthant

Vectors with the componentwise product form a Euclidean Jordan algebra, whose cone of squares is the
nonnegative orthant. Inequality constraints are measured by it.
-/
namespace ConstrainedOpt

namespace Vec
variable {F : Type} [Scalar F]

/-- The identity of the product. -/
def ones (n : Nat) : Vec F := List.replicate n 1

def prod (x y : Vec F) : Vec F := List.zipWith (· * ·) x y

/-- The vector whose product with `x` is `y`. -/
def quotient (x y : Vec F) : Vec F := List.zipWith (fun u v => v / u) x y

def sqrt (x : Vec F) : Vec F := x.map Scalar.sqrt

/-- The logarithm of the product of the entries, negative infinity outside the interior of the cone. -/
def logBarrier (x : Vec F) : F :=
  if x.all (fun u => decide (0 < u)) then sum (x.map Scalar.ln) else -Scalar.infinity

/-- The length at which the ray from `y` along `x` meets the boundary of the cone, infinite when it
never does, undefined when an entry is. From a point outside the cone it may be negative. -/
def boundaryLength (x y : Vec F) : F :=
  if x.any Scalar.isNaN || y.any Scalar.isNaN then Scalar.nan
  else
    (x.zip y).foldl (fun a p => if p.1 < 0 then Scalar.minNum a (-p.2 / p.1) else a) Scalar.infinity

end Vec

namespace Checked
variable {F : Type} [Scalar F]

def prod (x y : Vec F) : Checked (Vec F) := do
  sameLength x y
  return Vec.prod x y

def quotient (x y : Vec F) : Checked (Vec F) := do
  sameLength x y
  return Vec.quotient x y

def boundaryLength (x y : Vec F) : Checked F := do
  sameLength x y
  return Vec.boundaryLength x y

end Checked

end ConstrainedOpt
