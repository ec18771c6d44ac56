import ConstrainedOpt.Run.Gradient
import ConstrainedOpt.Diagnostics

/-! # Entering a run

The parameters and the sizes of the problem are checked before anything else; then the state is made
ready, which keeps only the iterate, its multipliers and what is not yet computed.
-/
namespace ConstrainedOpt
variable {F : Type} [Scalar F]

/-- The first fault of the parameters for a problem. -/
def Setup.parameterError? (k : Setup F) : Option ParameterError :=
  match k.par.validate k.problem.problemClass with
  | .error e => some e
  | .ok () =>
      if k.par.preconditioner = .userDefined ∧ k.problem.preconditioner.isNone then
        some (.invalidOperator "precond")
      else none

omit [Scalar F] in
/-- Do the sizes of the functions and of the multipliers fit the iterate. -/
def Setup.sizesFit (k : Setup F) (y : Vec F) : Bool :=
  k.problem.equality.all (fun c => c.cols == k.n) &&
  k.problem.inequality.all (fun c => c.cols == k.n) &&
  k.problem.preconditioner.all (fun p => p.size == (k.n, k.n)) &&
  (y.isEmpty || y.length == k.equalities)

/-- The state a run starts from. -/
def Setup.prepare (k : Setup F) (s : State F) : State F :=
  let zero := Vec.zeros k.n
  { x := s.x, y := s.y
    dx := zero, dxNormal := zero, dxCauchy := zero, dxTangential := zero, direction := zero
    grad := zero, xOld := zero, gradOld := zero, gradChange := zero
    g := Vec.zeros k.equalities, h := Vec.zeros k.inequalities
    history := .empty
    f := s.f, normGrad := s.normGrad, normGradTyp := s.normGradTyp
    normG := s.normG, normGTyp := s.normGTyp
    delta := k.par.delta
    mu := if 0 < k.inequalities then k.par.mu else 0
    rho := k.par.rho
    alpha := 1, alphaStart := 1
    normDx := Scalar.nan, normDxTyp := Scalar.nan, ared := Scalar.nan, pred := Scalar.nan
    iter := 0, rejected := 0, rejectedTotal := 0, krylovIter := 0, krylovIterTotal := 0
    lineSearchIter := 0, lineSearchIterTotal := 0
    truncatedStop := .notConverged, quasinormalStop := .skipped, stop := .notConverged
    algorithm := k.par.algorithm
    problemClass := k.problem.problemClass
    hessian := k.par.hessian
    preconditioner := k.par.preconditioner
    checkSchedule := k.par.checkSchedule }

namespace Running

/-- Ends the run unless the parameters and the sizes fit. -/
def check (k : Setup F) : Running F Unit := do
  if let some e := k.parameterError? then
    log .error [e.message]
    fail k ((Failure.plain e.message).context "Invalid parameters")
  let s ← getState
  if !k.sizesFit s.y then
    let sizeOf (c : Option (Constraint F)) : Piece F := .size? (c.map Constraint.size)
    log .error ["Size mismatch: x ", k.n, ", g", sizeOf k.problem.equality, ", h",
      sizeOf k.problem.inequality, ", precond", .size? (k.problem.preconditioner.map Operator.size),
      ", y ", s.y.length]
    fail k ((Failure.plain StepError.invalidOperator.message).context "Invalid problem")

/-- Runs the diagnostics; a check that ends in a non-finite error stops the run. -/
def diagnose (k : Setup F) : Running F Unit := do
  let s ← getState
  let ok ← Diagnostics.run k.problem s.x k.par.functionChecks k.par.spaceChecks
  if !ok then
    log .warn ["diagnostics found a non-finite value"]
    setStop .globalizationFailure

end Running

end ConstrainedOpt
