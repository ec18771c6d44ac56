import ConstrainedOpt.Run.TrustRegion
import ConstrainedOpt.Run.LineSearch
import ConstrainedOpt.Run.UserStep
import ConstrainedOpt.Run.Entry
import ConstrainedOpt.Run.Table

/-! # Outer iterations

Each iteration reduces the barrier parameter when the barrier problem is nearly solved, tests the
stopping criteria, takes one accepted step, and stores its quasi-Newton pair.
-/
namespace ConstrainedOpt
variable {F : Type} [Scalar F]

/-- What a relative tolerance is multiplied by. -/
def Parameters.typical (p : Parameters F) (v : F) : F :=
  if p.toleranceKind = .relative ∧ 0 < v ∧ Scalar.isFinite v then v else 1

/-- The stopping criterion a state meets, the one requested in it first. -/
def Setup.criterion (k : Setup F) (s : State F) : Stop :=
  if s.stop ≠ .notConverged then s.stop
  else if s.normGrad ≤ k.par.epsGrad * k.par.typical s.normGradTyp ∧
      (k.equalities = 0 ∨ s.normG ≤ k.par.epsConstr * k.par.typical s.normGTyp) ∧
      (k.inequalities = 0 ∨ s.mu ≤ k.par.epsMu) then .gradientSmall
  else if 0 < s.iter ∧ s.normDx ≤ k.par.epsDx * k.par.typical s.normDxTyp then .stepSmall
  else if k.par.iterMax ≤ s.iter then .maxItersExceeded
  else .notConverged

namespace Running

/-- Reduces the barrier parameter when the gradient is small against it. -/
def updateMu (k : Setup F) : Running F Unit := do
  let s ← getState
  if k.inequalities = 0 ∨ s.mu ≤ k.par.epsMu then return
  if s.normGrad ≤ k.par.epsMuGrad * s.mu then
    let mu := s.mu * k.par.muReduce
    update fun s => { s with mu }
    log .debug [s.iter, ": mu reduced to ", .scientific 2 mu]
    if let .error e ← updateGradient k true then stepFailure k e "Barrier update"

/-- Keeps the iterate and the gradient of its barrier objective alone. -/
def saveOld (k : Setup F) : Running F Unit := do
  update fun s => { s with xOld := s.x, gradOld := s.grad }
  if let some c := k.problem.equality then
    let s ← getState
    let gradOld ← (c.jacobian s.x).applyTransposed (-1) s.y 1 s.gradOld
    update fun s => { s with gradOld }

/-- Stores the step with the change of the gradient of the Lagrangian, both taken with the new
multipliers. -/
def updateHistory (k : Setup F) : Running F Unit := do
  let s ← getState
  let change ← Checked.add (-1) s.gradOld s.grad
  let change ← (match k.problem.equality with
    | none => return change
    | some c => (c.jacobian s.xOld).applyTransposed (-1) s.y 1 change : Journaled F (Vec F))
  update fun s => { s with
    gradChange := change
    history := s.history.push s.dx change k.par.storedHistory }

def takeStep (k : Setup F) : Running F Unit :=
  match k.par.algorithm with
  | .trustRegion => TrustRegion.step k
  | .lineSearch => LineSearch.step k
  | .userDefined => UserStep.step k

/-- Counts an accepted step and reports it. -/
def countIteration (k : Setup F) : Running F Unit := do
  update fun s => { s with iter := s.iter + 1 }
  update fun s => if s.iter = 1 then { s with normDxTyp := s.normDx } else s
  let s ← getState
  log .debug [s.iter, ": f ", .scientific 2 s.f, " grad ", .scientific 2 s.normGrad, " dx ",
    .scientific 2 s.normDx, " g ", .scientific 2 s.normG, " mu ", .scientific 2 s.mu]
  Table.printRow k

/-- Brings the barrier parameter down, tests the stopping criteria and runs the diagnostics. -/
def assess (k : Setup F) : Running F Unit := do
  updateMu k
  setStop (k.criterion (← getState))
  if ← stopped then return
  if 0 < (← getState).iter ∧ k.par.checkSchedule = .everyIteration then diagnose k

/-- The step of an iteration. -/
def body (k : Setup F) : Running F Unit := do
  visit k .beforeSaveOld
  saveOld k
  visit k .beforeStep
  update fun s => { s with rejected := 0 }
  takeStep k

/-- The end of an iteration whose step was accepted. -/
def tail (k : Setup F) : Running F Unit := do
  visit k .beforeQuasi
  updateHistory k
  visit k .afterQuasi
  countIteration k
  visit k .endOfOptimizationIteration

/-- One iteration; does the run go on. -/
def iteration (k : Setup F) : Running F Bool := do
  visit k .beginningOfOptimizationLoop
  assess k
  if ← stopped then return false
  body k
  if ← stopped then return false
  tail k
  return true

/-- Iterations until one does not go on. -/
def iterations (k : Setup F) : (fuel : Nat) → Running F Unit
  | 0 => throw .outOfFuel
  | fuel + 1 => do if ← iteration k then iterations k fuel

/-- Reports the stop. -/
def finish (k : Setup F) : Running F Stop := do
  let stop := (← getState).stop
  let message : Message F := ["----- ", Registry.text stop]
  match stop with
  | .gradientSmall | .stepSmall => log .info ["----- Converged"]
  | .userDefined => log .info message
  | _ => log .warn message
  if 1 ≤ k.par.msgLevel then
    event (.note (.line ["Optimization stopped: ", Registry.text stop]))
  visit k .endOfOptimization
  return (← getState).stop

/-- The diagnostics before the first evaluation, when they are scheduled. -/
def initialDiagnostics (k : Setup F) : Running F Unit := do
  if k.par.checkSchedule = .never then return
  diagnose k
  if ← stopped then return
  if k.par.checkSchedule = .diagnosticsOnly then setStop .userDefined

/-- The first evaluation, which has to be finite and strictly feasible. Answers whether it is. -/
def initialEvaluation (k : Setup F) : Running F Bool := do
  visit k .beforeInitialFuncAndGrad
  let t ← k.problem.evaluate (← getState).x
  update fun s => { s with f := t.f, g := t.g, h := t.h }
  let s ← getState
  if Scalar.isFinite (t.barrier s.mu) then return true
  log .error ["initial point: f(x) ", .scientific 2 s.f, ", not strictly feasible or not finite"]
  setStop (if 0 < k.inequalities then .interiorPointInstability else .globalizationFailure)
  return false

/-- The first gradient; least-squares multipliers unless they were given. Answers whether it is sound. -/
def initialGradient (k : Setup F) : Running F Bool := do
  let updateY := decide ((← getState).y.length ≠ k.equalities)
  if updateY then update fun s => { s with y := Vec.zeros k.equalities }
  match ← updateGradient k updateY with
  | .error e =>
      stepFailure k e "Initial gradient"
      return false
  | .ok () =>
      update fun s => { s with normGradTyp := s.normGrad, normGTyp := s.normG }
      return true

/-- Everything before the first iteration. Answers whether there is one. -/
def opening (k : Setup F) : Running F Bool := do
  log .info ["----- Initializing"]
  visit k .beginningOfOptimization
  check k
  update k.prepare
  initialDiagnostics k
  if ← stopped then return false
  if !(← initialEvaluation k) then return false
  initialGradient k

/-- The iterations with their table, and the report of the stop. -/
def loop (k : Setup F) : Running F Stop := do
  Table.printHeader k
  Table.printRow k
  visit k .beforeOptimizationLoop
  log .info ["----- Started"]
  iterations k (k.par.iterMax + patience)
  finish k

/-- A run from its first gradient on. -/
def optimize (k : Setup F) : Running F Stop := do
  visit k .afterInitialFuncAndGrad
  loop k

/-- A whole run. -/
def whole (k : Setup F) : Running F Stop := do if ← opening k then optimize k else finish k

end Running

end ConstrainedOpt
