import ConstrainedOpt.Registry.StopReasons
import ConstrainedOpt.Step.NormalEquations
import ConstrainedOpt.Step.Safeguard
import ConstrainedOpt.Step.Sphere

/-! # Quasinormal steps

A step that reduces the linearised constraint violation `‖g + A * s‖` within a fraction `ζ` of the trust
region and within the safeguard: the Cauchy point when a bound cuts it, otherwise the Newton point, a
dogleg toward it, or a part of it, whichever does not lose against the Cauchy point first.
-/
namespace ConstrainedOpt

structure QuasinormalParam (F : Type) where
  /-- Fraction of the trust-region radius the step may use. -/
  zeta : F
  /-- Is the Newton point tried after the Cauchy point. -/
  newton : Bool
  /-- Violation relative to `‖g‖` below which the linearised constraint counts as solved. -/
  epsSolved : F
  normalEq : NormalParam F

def QuasinormalParam.default {F : Type} [Scalar F] : QuasinormalParam F where
  zeta := 0.8
  newton := true
  epsSolved := 1e-10
  normalEq := .default

structure QuasinormalReport (F : Type) where
  stop : QuasinormalStop
  /-- `‖g + A * s‖` of the step. -/
  residual : F
  /-- Iterations of the normal equations. -/
  iter : Nat

/-- The step and the Cauchy point before any cut, as far as they were computed. -/
structure QuasinormalStep (F : Type) where
  step : Vec F
  cauchy : Vec F
  outcome : Except StepError (QuasinormalReport F)

namespace Quasinormal
variable {F : Type} [Scalar F]

/-- Scalars of work that `solve` needs for a Jacobian of `m` rows and `n` columns. -/
def workLength (m n : Nat) : Nat := n * 4 + m + NormalEquations.workLength m n

def residual (A : Operator F) (g v : Vec F) : Journaled F F := do
  return Vec.norm (← A.apply 1 v 1 g)

/-- The largest fraction of `p` that ends within the ball. -/
def boundary (x p : Vec F) (radius : F) : Checked F := do
  return Scalar.minNum (← Sphere.exit 1 x p radius) 1

/-- The fraction of a vector of norm `norm` within a radius. -/
def radialFraction (norm radius : F) : F := if radius < norm then radius / norm else 1

/-- The fraction of a path toward the Newton point and its label; uncut it reaches the Newton point. -/
def cut (trust safe : F) (atTrust atSafe : QuasinormalStop) : F × QuasinormalStop :=
  if safe < 1 ∧ safe ≤ trust then (safe, atSafe)
  else if trust < 1 then (trust, atTrust)
  else (1, .newton)

/-- What the choice among the Newton candidates depends on. -/
structure Context (F : Type) where
  A : Operator F
  g : Vec F
  radius : F
  safeguard : Safeguard F
  cauchy : Vec F
  cauchyResidual : F

/-- The Newton point itself, when both bounds admit it and it does not lose against the Cauchy point;
also the number of the next safeguard call. -/
def newtonInside (k : Context F) (newton : Vec F) (call : Nat) : Journaled F (Bool × Nat) := do
  let res ← residual k.A k.g newton
  if Vec.norm newton ≤ k.radius ∧ res ≤ k.cauchyResidual then
    let safe ← k.safeguard.fraction call (Vec.zerosLike newton) newton
    return (decide (1 ≤ safe), call + 1)
  return (false, call)

/-- The dogleg from the Cauchy point toward the Newton point, cut at the first bound. -/
def dogleg (k : Context F) (newton : Vec F) (call : Nat) : Journaled F (Vec F × QuasinormalStop) := do
  let leg ← Checked.add (-1) k.cauchy newton
  let trust ← boundary k.cauchy leg k.radius
  let safe ← k.safeguard.fraction call k.cauchy leg
  let (θ, stop) := cut trust safe .doglegTrustRegion .doglegSafeguard
  return (← Checked.add θ leg k.cauchy, stop)

/-- The Newton direction cut at the first bound. -/
def newtonPart (k : Context F) (newton : Vec F) (call : Nat) : Journaled F (Vec F × QuasinormalStop) := do
  let trust := radialFraction (Vec.norm newton) k.radius
  let safe ← k.safeguard.fraction call (Vec.zerosLike newton) newton
  let (τ, stop) := cut trust safe .newtonTrustRegion .newtonSafeguard
  return (Vec.scale τ newton, stop)

/-- The first candidate that does not lose against the Cauchy point. -/
def choose (k : Context F) (newton : Vec F) (call : Nat) : Journaled F (Vec F × QuasinormalStop) := do
  let (inside, call) ← newtonInside k newton call
  if inside then return (newton, .newton)
  let leg ← dogleg k newton call
  if (← residual k.A k.g leg.1) ≤ k.cauchyResidual then return leg
  let part ← newtonPart k newton (call + 1)
  if (← residual k.A k.g part.1) ≤ k.cauchyResidual then return part
  return (k.cauchy, .cauchySolved)

/-- The residual of the chosen step, and its record. -/
def finish (A : Operator F) (g : Vec F) (normG : F) (step cauchy : Vec F) (stop : QuasinormalStop)
    (iter : Nat) : Journaled F (QuasinormalStep F) := do
  let res ← residual A g step
  Journaled.log .debug ["quasinormal: ", Registry.text stop, ", residual ", .scientific 3 normG,
    " -> ", .scientific 3 res]
  return ⟨step, cauchy, .ok ⟨stop, res, iter⟩⟩

/-- The step from a Cauchy point that differs from zero. -/
def fromCauchy (par : QuasinormalParam F) (A : Operator F) (g : Vec F) (δ : F) (safeguard : Safeguard F)
    (normG : F) (cauchy : Vec F) : Journaled F (QuasinormalStep F) := do
  let res ← residual A g cauchy
  let radius := par.zeta * δ
  let trust := radialFraction (Vec.norm cauchy) radius
  let safe ← safeguard.fraction 0 (Vec.zerosLike cauchy) cauchy
  if safe < 1 ∧ safe ≤ trust then
    finish A g normG (Vec.scale safe cauchy) cauchy .cauchySafeguard 0
  else if trust < 1 then
    finish A g normG (Vec.scale trust cauchy) cauchy .cauchyTrustRegion 0
  else if res ≤ par.epsSolved * normG ∨ !par.newton then
    finish A g normG cauchy cauchy .cauchySolved 0
  else
    let newton ← NormalEquations.leastNorm par.normalEq A g (Vec.zeros A.cols)
      (NormalEquations.workLength A.rows A.cols)
    match newton.outcome with
    | .error e => return ⟨Vec.zerosLike cauchy, cauchy, .error e⟩
    | .ok iter =>
        let (step, stop) ← choose ⟨A, g, radius, safeguard, cauchy, res⟩ newton.vector 1
        finish A g normG step cauchy stop iter

/-- The quasinormal step for the violation `g` with Jacobian `A`, written over `step` and `cauchy`, given
`work` scalars to work with. -/
def solve (par : QuasinormalParam F) (A : Operator F) (g : Vec F) (δ : F) (safeguard : Safeguard F)
    (step cauchy : Vec F) (work : Nat) : Journaled F (QuasinormalStep F) := do
  if g.length ≠ A.rows ∨ step.length ≠ A.cols ∨ cauchy.length ≠ A.cols then
    Journaled.log .error ["Size mismatch: op_g", A.sizePiece, ", g_x ", g.length, ", dx_n ",
      step.length, ", dx_ncp ", cauchy.length]
    return ⟨step, cauchy, .error .invalidOperator⟩
  if work < workLength A.rows A.cols then
    Journaled.log .error
      ["Work memory length ", work, " must be >= ", workLength A.rows A.cols]
    return ⟨step, cauchy, .error .workShortage⟩
  let zero := Vec.zeros A.cols
  if A.rows = 0 then return ⟨zero, zero, .ok ⟨.skipped, 0, 0⟩⟩
  let normG := Vec.norm g
  if !Scalar.isFinite normG then return ⟨zero, zero, .error .numericalInstability⟩
  let d ← A.applyTransposed (-1) g 0 zero
  let Ad ← A.apply 1 d 0 (Vec.zeros A.rows)
  let normD2 := Vec.inner d d
  let normAd2 := Vec.inner Ad Ad
  if ¬(0 < normD2 ∧ 0 < normAd2) then return ⟨zero, zero, .ok ⟨.cauchySolved, normG, 0⟩⟩
  fromCauchy par A g δ safeguard normG (Vec.scale (normD2 / normAd2) d)

end Quasinormal

end ConstrainedOpt
