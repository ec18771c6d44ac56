import ConstrainedOpt.Run.Gradient

/-! # Trust-region steps

A composite step is the sum of a quasinormal step, which reduces the linearised constraint violation, and
a tangential one, which reduces the model in the null space of the constraints. The reduction of the
merit function decides whether it is accepted; a rejected one shrinks the radius.
-/
namespace ConstrainedOpt
variable {F : Type} [Scalar F]

namespace TrustRegion
open Running

def quasinormalStep (k : Setup F) : Running F (Except StepError QuasinormalStop) := do
  let s ← getState
  match k.problem.equality with
  | none =>
      update fun s => { s with
        dxNormal := Vec.zerosLike s.dxNormal, dxCauchy := Vec.zerosLike s.dxCauchy }
      return .ok .skipped
  | some c =>
      match ← k.safeguard s (k.par.quasinormal.zeta * k.par.gamma) with
      | .error e => return .error e
      | .ok safeguard =>
          let r ← Quasinormal.solve k.par.quasinormal (c.jacobian s.x) s.g s.delta safeguard s.dxNormal
            s.dxCauchy (Quasinormal.workLength k.equalities k.n)
          update fun s => { s with dxNormal := r.step, dxCauchy := r.cauchy }
          return r.outcome.map (·.stop)

/-- The space tangential steps stay in. -/
def projector (k : Setup F) (s : State F) : Operator F :=
  match k.problem.equality with
  | none => Operator.identity k.n
  | some c => Barrier.nullProjector (c.jacobian s.x) k.par.normalEq

def tangentialSolve (k : Setup F) (s : State F) : Journaled F (Except StepError (TruncatedResult F)) := do
  let H := k.hessian s
  let g ← H.apply 1 s.dxNormal 1 s.grad
  match ← k.safeguard s k.par.gamma with
  | .error e => return .error e
  | .ok safeguard =>
      TruncatedCG.solve ⟨k.par.truncated, H, k.preconditioner s, projector k s, g, s.delta, safeguard⟩
        s.dxNormal s.dxTangential (TruncatedCG.workLength k.n k.par.truncated.orthogMax)

def tangentialStep (k : Setup F) : Running F (Except StepError TruncatedStop) := do
  match ← tangentialSolve k (← getState) with
  | .error e => return .error e
  | .ok r =>
      update fun s => { s with
        dxTangential := r.step
        truncatedStop := r.stop
        krylovIter := r.iter
        krylovIterTotal := s.krylovIterTotal + r.iter }
      return .ok r.stop

/-- Value of the model at `dx`, and reduction of the linearised violation there. -/
def modelAndViolation (k : Setup F) (s : State F) : Journaled F (F × F) := do
  let hdx ← (k.hessian s).apply 1 s.dx 0 (Vec.zeros k.n)
  let sloped ← Checked.inner s.grad s.dx
  let curved ← Checked.inner s.dx hdx
  let model := sloped + Scalar.half * curved
  match k.problem.equality with
  | none => return (model, 0)
  | some c =>
      let linear ← (c.jacobian s.x).apply 1 s.dx 1 s.g
      let normG := Vec.norm s.g
      let normLinear := Vec.norm linear
      return (model, normG * normG - normLinear * normLinear)

/-- Predicted reduction of the merit function, after raising the penalty when the model would not
reduce it. -/
def predictedReduction (k : Setup F) : Running F F := do
  let s ← getState
  let (model, v) ← modelAndViolation k s
  if 0 < v ∧ Scalar.half * s.rho * v < model then
    let rho := Scalar.maxNum (Scalar.two * s.rho) (Scalar.two * model / v)
    update fun s => { s with rho }
    log .debug [s.iter, ": rho raised to ", .scientific 2 rho]
  return -model + (← getState).rho * v

/-- Ratio of the actual to the predicted reduction, with an allowance for rounding in both. -/
def reductionRatio (merit ared pred : F) : F :=
  let tiny := 10.0 * Scalar.epsilon * Scalar.maxNum (Scalar.abs merit) 1
  if 0 < pred + tiny then (ared + tiny) / (pred + tiny) else -Scalar.infinity

inductive Attempt where
  /-- The step was accepted, or a stop was met. -/
  | finished
  | rejected

/-- Computes the composite step; no step is left when a stop was met on the way. -/
def compositeStep (k : Setup F) : Running F (Option TruncatedStop) := do
  match ← quasinormalStep k with
  | .error e =>
      stepFailure k e "Quasinormal step"
      return none
  | .ok stop => update fun s => { s with quasinormalStop := stop }
  match ← tangentialStep k with
  | .error e =>
      stepFailure k e "Tangential step"
      return none
  | .ok stop =>
      if stop.isNumericalFailure ∨ stop = .offsetViolatesTrustRegion then
        log .warn [(← getState).iter, ": tangential step stopped by ", Registry.text stop]
        setStop .globalizationFailure
        return none
      let s ← getState
      let dx ← Checked.add 1 s.dxTangential s.dxNormal
      update fun s => { s with dx }
      return some stop

/-- Shrinks the radius to half the rejected step. -/
def reject (k : Setup F) (ratio : F) : Running F Attempt := do
  update fun s => { s with
    delta := if 0 < s.normDx then Scalar.half * s.normDx else Scalar.half * s.delta
    rejected := s.rejected + 1
    rejectedTotal := s.rejectedTotal + 1 }
  let s ← getState
  log .debug [s.iter, ": rejected, ared ", .scientific 2 s.ared, " pred ", .scientific 2 s.pred,
    " delta ", .scientific 2 s.delta]
  if 2 ≤ k.par.msgLevel then
    event (.note (.line [.textColumn "", "rejected: ared/pred ", .real ratio, " delta ", .real s.delta]))
  visit k .afterRejectedTrustRegion
  let s ← getState
  if k.par.rejectedMax ≤ s.rejected then
    log .warn [s.iter, ": ", s.rejected, " steps rejected in a row"]
    setStop .globalizationFailure
    return .finished
  return if s.stop = .notConverged then .rejected else .finished

/-- Compares the reductions of the merit function, and accepts or rejects the step. -/
def judge (k : Setup F) (stop : TruncatedStop) : Running F Attempt := do
  let pred ← predictedReduction k
  let s ← getState
  let t ← tryStep k s.dx 1
  let here ← Barrier.merit s.f s.g s.h s.y s.mu s.rho
  let there ← Barrier.merit t.f t.g t.h s.y s.mu s.rho
  let ared := here - there
  let ratio := reductionRatio here ared pred
  update fun s => { s with ared, pred }
  if Scalar.isFinite there ∧ k.par.eta1 ≤ ratio then
    if k.par.eta2 < ratio ∧ stop.isBoundary then
      update fun s => { s with delta := Scalar.minNum (Scalar.two * s.delta) k.par.deltaMax }
    accept k t
    return .finished
  reject k ratio

/-- One composite step, accepted or rejected. -/
def attempt (k : Setup F) : Running F Attempt := do
  visit k .beforeGetStep
  match ← compositeStep k with
  | none => return .finished
  | some stop =>
      visit k .getStep
      update fun s => { s with normDx := Vec.norm s.dx }
      let s ← getState
      if s.normDx == 0 ∧ (s.truncatedStop.isSafeguard ∨ s.quasinormalStop.isSafeguard) then
        log .warn [s.iter, ": step vanished at the boundary of the inequality constraint"]
        setStop .interiorPointInstability
        return .finished
      visit k .beforeActualVersusPredicted
      judge k stop

/-- Attempts until one is not rejected. -/
def attempts (k : Setup F) : (fuel : Nat) → Running F Unit
  | 0 => throw .outOfFuel
  | fuel + 1 => do
      match ← attempt k with
      | .finished => return
      | .rejected => attempts k fuel

def step (k : Setup F) : Running F Unit := attempts k (k.par.rejectedMax + patience)

end TrustRegion

end ConstrainedOpt
