import ConstrainedOpt.Run.Gradient

/-! # Line-search steps

A direction, and a length along it that decreases the barrier objective sufficiently. Lengths never leave
the safeguard of the inequality constraints; a rejected search halves the length the next one starts from.
-/
namespace ConstrainedOpt
variable {F : Type} [Scalar F]

namespace LineSearch
open Running

/-! ### Directions -/

/-- The weight of the last direction in a nonlinear conjugate gradient direction. -/
def conjugateWeight (k : Setup F) (s : State F) (last : Vec F) : Checked F := do
  if s.iter = 0 then return 0
  let before ← Checked.add (-1) s.gradChange s.grad
  let normBefore := Vec.norm before
  let β ← (match k.par.direction with
    | .fletcherReeves => return s.normGrad * s.normGrad / (normBefore * normBefore)
    | .polakRibiere => return (← Checked.inner s.grad s.gradChange) / (normBefore * normBefore)
    | _ => do
        let up ← Checked.inner s.grad s.gradChange
        return up / (← Checked.inner last s.gradChange) : Checked F)
  return if Scalar.isFinite β then β else 0

/-- The Newton step by truncated conjugate gradients without bounds, written over `last`. -/
def newtonSolve (k : Setup F) (s : State F) (last : Vec F) :
    Journaled F (Except StepError (TruncatedResult F)) :=
  TruncatedCG.solve ⟨k.par.truncated, k.hessian s, k.preconditioner s, Operator.identity k.n, s.grad,
      Scalar.infinity, .unlimited⟩
    (Vec.zeros k.n) last (TruncatedCG.workLength k.n k.par.truncated.orthogMax)

/-- Computes the Newton direction; the last one is kept when there is none. -/
def newtonDirection (k : Setup F) (last : Vec F) : Running F (Except StepError (Vec F)) := do
  match ← newtonSolve k (← getState) last with
  | .error e =>
      update fun s => { s with direction := last }
      return .error e
  | .ok r =>
      update fun s => { s with
        truncatedStop := r.stop
        krylovIter := r.iter
        krylovIterTotal := s.krylovIterTotal + r.iter }
      if r.stop.isNumericalFailure then
        log .warn [(← getState).iter, ": Newton direction stopped by ", Registry.text r.stop]
        setStop .globalizationFailure
      return .ok r.step

/-- The last direction in the dimension of the iterate. -/
def lastDirection (k : Setup F) (s : State F) : Vec F :=
  s.direction.take k.n ++ Vec.zeros (k.n - s.direction.length)

/-- The search direction. -/
def direction (k : Setup F) (last : Vec F) : Running F (Except StepError (Vec F)) := do
  let s ← getState
  match k.par.direction with
  | .steepestDescent => return .ok (Vec.scale (-1) (← Checked.copy s.grad last))
  | .fletcherReeves | .polakRibiere | .hestenesStiefel =>
      let β ← conjugateWeight k s last
      return .ok (← Checked.add (-1) s.grad (Vec.scale β last))
  | .bfgs =>
      let inverse := QuasiNewton.operator .invBfgs k.n 1 s.history
      return .ok (← inverse.apply (-1) s.grad 0 last)
  | .newtonCg => newtonDirection k last

/-- Computes the search direction. -/
def updateDirection (k : Setup F) : Running F (Except StepError Unit) := do
  match ← direction k (lastDirection k (← getState)) with
  | .error e => return .error e
  | .ok d =>
      update fun s => { s with direction := d }
      return .ok ()

/-- The slope along the direction, which is replaced by the negative gradient unless it descends. -/
def descend : Running F F := do
  let s ← getState
  let slope ← Checked.inner s.grad s.direction
  if slope < 0 then return slope
  log .debug [s.iter, ": not a descent direction, restarted from the gradient"]
  update fun s => { s with direction := Vec.scale (-1) s.grad }
  return -s.normGrad * s.normGrad

/-! ### Lengths -/

/-- The two-point length from the last step, if the rule asks for it and it is usable. -/
def twoPointLength? (k : Setup F) (s : State F) : Checked (Option F) := do
  if s.iter = 0 then return none
  let usable (α : F) : Option F := if 0 < α ∧ Scalar.isFinite α then some α else none
  match k.par.lengthRule with
  | .twoPointA => return usable (Vec.inner s.dx s.dx / (← Checked.inner s.dx s.gradChange))
  | .twoPointB =>
      return usable ((← Checked.inner s.dx s.gradChange) / Vec.inner s.gradChange s.gradChange)
  | _ => return none

/-- The longest safe length up to `α`. -/
def safeLength (k : Setup F) (α : F) : Running F F := do
  if k.problem.inequality.isNone then return α
  let s ← getState
  match ← k.safeguard s k.par.gamma with
  | .error e => fail k ((Failure.plain e.message).context "Safeguard")
  | .ok safeguard =>
      return α * (← safeguard.fraction 0 (Vec.zeros k.n) (Vec.scale α s.direction))

/-- A trial point at a length along the direction. -/
structure Probe (F : Type) where
  alpha : F
  trial : Trial F
  /-- The barrier objective there, infinite when it is undefined. -/
  merit : F

def probe (k : Setup F) (α : F) : Running F (Probe F) := do
  let s ← getState
  let t ← tryStep k s.direction α
  let merit := t.barrier s.mu
  return ⟨α, t, if Scalar.isNaN merit then Scalar.infinity else merit⟩

/-- A bracket of golden-section search with its inner probes, `left` below `right`. -/
structure Bracket (F : Type) where
  a : F
  b : F
  left : Probe F
  right : Probe F

/-- The golden ratio of a bracket to its part. -/
def goldenRatio : F := (Scalar.sqrt (Scalar.ofNat 5) - 1) / (1 + 1)

/-- Drops the part of the bracket beside the worse probe. -/
def Bracket.narrow (k : Setup F) (br : Bracket F) : Running F (Bracket F) := do
  if br.left.merit ≤ br.right.merit then
    let left ← probe k (br.right.alpha - goldenRatio * (br.right.alpha - br.a))
    return ⟨br.a, br.right.alpha, left, br.left⟩
  else
    let right ← probe k (br.left.alpha + goldenRatio * (br.b - br.left.alpha))
    return ⟨br.left.alpha, br.b, br.right, right⟩

def Bracket.narrowTimes (k : Setup F) : Nat → Bracket F → Running F (Bracket F)
  | 0, br => return br
  | n + 1, br => do narrowTimes k n (← br.narrow k)

/-- Golden-section search with a number of evaluations, at least one. -/
def goldenSection (k : Setup F) (iterMax : Nat) (αMax : F) : Running F (Probe F × Nat) := do
  let c := αMax - goldenRatio * (αMax - 0)
  let d := 0 + goldenRatio * (αMax - 0)
  let left ← probe k c
  if iterMax ≤ 1 then return (left, 1)
  let right ← probe k d
  let br ← Bracket.narrowTimes k (iterMax - 2) ⟨0, αMax, left, right⟩
  return (if br.left.merit ≤ br.right.merit then br.left else br.right, iterMax)

/-- Halves the length until the decrease is sufficient; `budget` more evaluations after `evals`. -/
def backTrack (k : Setup F) (limit slope : F) : (budget evals : Nat) → F → Running F (Probe F × Nat)
  | 0, evals, α => return (← probe k α, evals + 1)
  | budget + 1, evals, α => do
      let t ← probe k α
      if t.merit ≤ limit + k.par.c1 * α * slope then return (t, evals + 1)
      backTrack k limit slope budget (evals + 1) (Scalar.half * α)

/-- The probe a length rule ends at, and its number of evaluations. -/
def search (k : Setup F) (αMax limit slope : F) : Running F (Probe F × Nat) :=
  match k.par.lengthRule with
  | .goldenSection => goldenSection k k.par.lineSearchIterMax αMax
  | .backTracking => backTrack k limit slope (k.par.lineSearchIterMax - 1) 0 αMax
  | .twoPointA | .twoPointB => return (← probe k αMax, 1)

/-! ### Steps -/

/-- What the lengths of one step are measured against: the barrier objective at the iterate, the same
with an allowance for rounding, and the slope. -/
structure Reference (F : Type) where
  merit : F
  limit : F
  slope : F

def reference (s : State F) (slope : F) : Reference F :=
  let merit := Barrier.objective s.f s.h s.mu
  ⟨merit, merit + 10.0 * Scalar.epsilon * Scalar.maxNum (Scalar.abs merit) 1, slope⟩

/-- Length the next search starts from after a step of length `α`. -/
def nextStart (d : Direction) (α : F) : F :=
  match d with
  | .bfgs | .newtonCg => 1
  | _ => Scalar.two * α

def acceptProbe (k : Setup F) (r : Reference F) (t : Probe F) : Running F Unit := do
  update fun s =>
    let dx := Vec.scale t.alpha s.direction
    { s with
      alpha := t.alpha
      dx
      normDx := Vec.norm dx
      ared := r.merit - t.merit
      pred := -t.alpha * r.slope
      alphaStart := nextStart k.par.direction t.alpha }
  accept k t.trial

/-- Halves the length the next search starts from; does the step go on. -/
def reject (k : Setup F) (r : Reference F) (αMax : F) (t : Probe F) : Running F Bool := do
  update fun s => { s with
    alphaStart := Scalar.half * αMax
    rejected := s.rejected + 1
    rejectedTotal := s.rejectedTotal + 1 }
  log .debug [(← getState).iter, ": rejected, alpha ", .scientific 2 t.alpha, " merit ",
    .scientific 2 r.merit, " -> ", .scientific 2 t.merit]
  visit k .afterRejectedLineSearch
  let s ← getState
  if k.par.rejectedMax ≤ s.rejected then
    log .warn [s.iter, ": ", s.rejected, " line searches rejected in a row"]
    setStop .globalizationFailure
    return false
  return decide (s.stop = .notConverged)

/-- One search; does the step go on with another one. -/
def attempt (k : Setup F) (r : Reference F) : Running F Bool := do
  let αMax ← safeLength k (← getState).alphaStart
  if ¬(0 < αMax) then
    log .warn [(← getState).iter, ": step vanished at the boundary of the inequality constraint"]
    setStop .interiorPointInstability
    return false
  let (t, evals) ← search k αMax r.limit r.slope
  update fun s => { s with
    lineSearchIter := evals
    lineSearchIterTotal := s.lineSearchIterTotal + evals }
  let sufficient := decide (t.merit ≤ r.limit + k.par.c1 * t.alpha * r.slope)
  if Scalar.isFinite t.merit ∧ (sufficient ∨ !k.par.lengthRule.isSufficientDecrease) then
    acceptProbe k r t
    return false
  reject k r αMax t

/-- Searches until one is not rejected. -/
def attempts (k : Setup F) (r : Reference F) : (fuel : Nat) → Running F Unit
  | 0 => throw .outOfFuel
  | fuel + 1 => do if ← attempt k r then attempts k r fuel

def step (k : Setup F) : Running F Unit := do
  visit k .beforeGetStep
  if let .error e ← updateDirection k then
    stepFailure k e "Search direction"
    return
  if ← stopped then return
  visit k .getStep
  let slope ← descend
  if let some α ← twoPointLength? k (← getState) then
    update fun s => { s with alphaStart := α }
  visit k .beforeLineSearch
  attempts k (reference (← getState) slope) (k.par.rejectedMax + patience)

end LineSearch

end ConstrainedOpt
