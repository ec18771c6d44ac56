import ConstrainedOpt.Vec

/-! # Leaving a ball

Where the ray from `x` along `p` leaves the ball of a radius around the origin. Of the two formulas for
the root of `‖x + σ p‖ = radius` the one without cancellation is taken; a start outside the ball counts
as one on its boundary.
-/
namespace ConstrainedOpt.Sphere
variable {F : Type} [Scalar F]

/-- The nonnegative root of `a * σ² + b * σ + c`, with `a` positive and `c` not. -/
def root (a b c : F) : F :=
  let disc := Scalar.sqrt (Scalar.maxNum (b * b - Scalar.two * Scalar.two * a * c) 0)
  if 0 ≤ b then
    if 0 < b + disc then (Scalar.two * -c) / (b + disc) else 0
  else (disc - b) / (Scalar.two * a)

/-- The length at which the ray leaves the ball, or `still` along a zero direction. -/
def exit (still : F) (x p : Vec F) (radius : F) : Checked F := do
  let a := Vec.inner p p
  if a ≤ 0 then return still
  let b := Scalar.two * (← Checked.inner x p)
  return root a b (Scalar.minNum (Vec.inner x x - radius * radius) 0)

end ConstrainedOpt.Sphere
