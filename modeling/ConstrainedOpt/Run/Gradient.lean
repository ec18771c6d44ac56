import ConstrainedOpt.Run.Monad

/-! # Moving to a point

Evaluating the functions at trial points, and refreshing the multipliers, the gradient of the barrier
Lagrangian and the norms at an accepted one.
-/
namespace ConstrainedOpt
variable {F : Type} [Scalar F]

/-- The barrier objective at a trial point. -/
def Trial.barrier (t : Trial F) (μ : F) : F := Barrier.objective t.f t.h μ

namespace Running

/-- Refreshes the gradient and the norms, and the multipliers before them on demand. -/
def updateGradient (k : Setup F) (updateY : Bool) : Running F (Except StepError Unit) := do
  let s ← getState
  let (y, grad, outcome) ← Barrier.lagrangianGradient k.problem k.par.normalEq updateY s.x s.h s.y s.mu
    s.grad.length
  update fun s => { s with y, grad }
  match outcome with
  | .error e => return .error e
  | .ok () =>
      update fun s => { s with normGrad := Vec.norm s.grad, normG := Vec.norm s.g }
      return if Scalar.isFinite (Vec.norm grad) then .ok () else .error .numericalInstability

/-- Moves to an accepted point. -/
def accept (k : Setup F) (t : Trial F) : Running F Unit := do
  update fun s => { s with x := t.x, f := t.f, g := t.g, h := t.h }
  visit k .afterStepBeforeGradient
  match ← updateGradient k true with
  | .error e => stepFailure k e "Gradient update"
  | .ok () => visit k .afterGradient

end Running

/-- The Hessian of the model: exact on demand, otherwise a quasi-Newton operator. The scaled identity is
scaled by the norm of the gradient over the largest radius. -/
def Setup.hessian (k : Setup F) (s : State F) : Operator F :=
  match k.par.hessian with
  | .userDefined => Barrier.hessian k.problem s.x s.y s.h s.mu
  | kind => QuasiNewton.operator kind k.n (s.normGrad / k.par.deltaMax) s.history

/-- The preconditioner of the model. -/
def Setup.preconditioner (k : Setup F) (s : State F) : Operator F :=
  match k.par.preconditioner, k.problem.preconditioner with
  | .userDefined, some p => p
  | kind, _ => QuasiNewton.operator kind k.n 1 s.history

/-- The safeguard of the inequality constraints at the current iterate. -/
def Setup.safeguard (k : Setup F) (s : State F) (κ : F) :
    Journaled F (Except StepError (Safeguard F)) :=
  match k.problem.inequality with
  | none => return .ok .unlimited
  | some c => Safeguard.linear (c.jacobian s.x) s.h κ (Safeguard.workLength k.inequalities)

end ConstrainedOpt
