import ConstrainedOpt.Problem
import ConstrainedOpt.Vec.Orthant
import ConstrainedOpt.Step.NormalEquations

/-! # The barrier Lagrangian

Inequality constraints enter the objective as a logarithmic barrier, `φ x = f x - μ log det h x`, and
equality constraints with multipliers. This module has the values, the gradient, the least-squares
multipliers, the exact Hessian and the projector onto the null space of the equality constraints.
-/
namespace ConstrainedOpt
variable {F : Type} [Scalar F]

namespace Barrier

/-- `f x - μ log det h x`, positive infinity unless `h x` is strictly feasible. -/
def objective (f : F) (h : Vec F) (μ : F) : F :=
  if h.isEmpty then f
  else
    let b := Vec.logBarrier h
    if Scalar.isFinite b then f - μ * b else Scalar.infinity

/-- The merit function `φ x + ⟨y, g x⟩ + ρ ‖g x‖²`. -/
def merit (f : F) (g h y : Vec F) (μ ρ : F) : Checked F := do
  let φ := objective f h μ
  if g.isEmpty then return φ
  let normG := Vec.norm g
  return φ + (← Checked.inner y g) + ρ * normG * normG

/-- The gradient of the barrier objective, `size` components of it. -/
def gradient (p : Problem F) (x h : Vec F) (μ : F) (size : Nat) : Journaled F (Vec F) := do
  let out ← p.objective.gradient x size
  match p.inequality with
  | none => return out
  | some c =>
      let inverse ← Checked.quotient h (Vec.ones h.length)
      (c.jacobian x).applyTransposed (-μ) inverse 1 out

/-- The least-squares multipliers of the equality constraints at the gradient of the barrier objective,
written over `y`. -/
def multipliers (p : Problem F) (par : NormalParam F) (x gradient y : Vec F) :
    Journaled F (Vec F × Except StepError Unit) := do
  match p.equality with
  | none => return (y, .ok ())
  | some c =>
      let A := c.jacobian x
      let b ← A.apply (-1) gradient 0 (Vec.zeros c.rows)
      let s ← NormalEquations.solve par A b y (NormalEquations.workLength c.rows c.cols)
      return (s.vector, s.outcome.map fun _ => ())

/-- Multipliers and gradient of the barrier Lagrangian, the multipliers computed on demand. Without them
the gradient is that of the barrier objective. -/
def lagrangianGradient (p : Problem F) (par : NormalParam F) (updateY : Bool) (x h y : Vec F) (μ : F)
    (size : Nat) : Journaled F (Vec F × Vec F × Except StepError Unit) := do
  let φ ← gradient p x h μ size
  match p.equality with
  | none => return (y, φ, .ok ())
  | some c =>
      let (y, outcome) ← (if updateY then multipliers p par x φ y else return (y, .ok ()) :
        Journaled F (Vec F × Except StepError Unit))
      match outcome with
      | .error e => return (y, φ, .error e)
      | .ok () => return (y, ← (c.jacobian x).applyTransposed 1 y 1 φ, .ok ())

/-- The part of the Hessian the inequality constraints add to `t`, at `dx`. -/
def inequalityHessian (c : Constraint F) (x h : Vec F) (μ : F) (dx t : Vec F) : Journaled F (Vec F) := do
  let J := c.jacobian x
  let hdx ← J.apply 1 dx 0 (Vec.zerosLike h)
  let w ← Checked.quotient h (← Checked.quotient h hdx)
  let t ← J.applyTransposed μ w 1 t
  let e ← Checked.quotient h (Vec.ones h.length)
  let u ← c.second x dx e x.length
  Checked.add (-μ) u t

/-- The Hessian of the barrier Lagrangian,
`∇²f dx + (g'' dx)ᵀ y + μ h'ᵀ (1 / h²) h' dx - μ (h'' dx)ᵀ (1 / h)`. -/
def hessian (p : Problem F) (x y h : Vec F) (μ : F) : Operator F :=
  .selfAdjoint x.length fun a dx b out => do
    let t ← p.objective.hessian x dx x.length
    let t ← (match p.equality with
      | none => return t
      | some c => do Checked.add 1 (← c.second x dx y x.length) t : Journaled F (Vec F))
    let t ← (match p.inequality with
      | none => return t
      | some c => inequalityHessian c x h μ dx t : Journaled F (Vec F))
    Checked.axpby a t b out

/-- The orthogonal projector onto the null space of `A`. A failed projection is undefined in every
component. -/
def nullProjector (A : Operator F) (par : NormalParam F) : Operator F :=
  .selfAdjoint A.cols fun a v b out => do
    let s ← NormalEquations.project par A v (Vec.zeros A.cols)
      (NormalEquations.workLength A.rows A.cols)
    let u ← (match s.outcome with
      | .ok _ => return s.vector
      | .error e => do
          Journaled.log .warn ["null space projection failed: ", e.message]
          return List.replicate A.cols Scalar.nan : Journaled F (Vec F))
    Checked.axpby a u b out

end Barrier

end ConstrainedOpt
