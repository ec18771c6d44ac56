import ConstrainedOpt.Registry.StopReasons
import ConstrainedOpt.Step.Safeguard
import ConstrainedOpt.Step.Sphere

/-! # Truncated conjugate gradients

Steps that reduce the model `m(s) = ⟨g, s⟩ + ½ ⟨s, H * s⟩` with `offset + s` within the trust region and
the safeguard. The recurrence is preconditioned by `C * B * C`, with `C` a projector onto the space the
step has to stay in, and watches its operators: faults of theirs end it with a stop reason, not with an
error, and the step is the last one reached safely.
-/
namespace ConstrainedOpt

structure TruncatedParam (F : Type) where
  iterMax : Nat
  /-- Tolerance of the preconditioned residual relative to the first one. -/
  eps : F
  /-- Number of past residuals the current one is checked to be orthogonal to. -/
  orthogMax : Nat
  /-- Number of steps the safeguard may cut. -/
  failedSafeguardMax : Nat
  epsSym : F
  epsProj : F
  epsOrth : F

def TruncatedParam.default {F : Type} [Scalar F] : TruncatedParam F where
  iterMax := 100
  eps := 1e-2
  orthogMax := 1
  failedSafeguardMax := 5
  epsSym := 1e-6
  epsProj := 1e-6
  epsOrth := 1e-1

structure TruncatedResult (F : Type) where
  step : Vec F
  stop : TruncatedStop
  iter : Nat
  /-- Number of steps cut by the safeguard. -/
  failedSafeguard : Nat
  /-- Value of the model at the step. -/
  model : F

namespace TruncatedCG
variable {F : Type} [Scalar F]

/-- Scalars of work that `solve` needs for steps of dimension `n`. -/
def workLength (n orthogMax : Nat) : Nat := n * 11 + orthogMax * n + orthogMax

/-- A preconditioned residual with its inner product with the residual. -/
structure Slot (F : Type) where
  z : Vec F
  rz : F

/-- A ring of `size` slots for the residuals since the last start, filled in turn. Slots from before the
last start stay until they are overwritten. -/
def record (size seq : Nat) (e : Slot F) (slots : List (Slot F)) : List (Slot F) :=
  if size = 0 then slots
  else if seq % size < slots.length then slots.set (seq % size) e
  else slots ++ [e]

/-- What a pass leaves for the checks of the next one. -/
structure Previous (F : Type) where
  r : Vec F
  z : Vec F
  p : Vec F
  hp : Vec F
  rz : F

structure Iterate (F : Type) where
  /-- The step. -/
  s : Vec F
  /-- The offset plus the step. -/
  x : Vec F
  /-- The residual, the negative gradient of the model. -/
  r : Vec F
  model : F
  /-- Passes since the last start. -/
  seq : Nat
  iter : Nat
  failedSafeguard : Nat
  /-- Safeguard calls so far. -/
  calls : Nat
  /-- The last pass since the last start. -/
  previous : Option (Previous F)
  slots : List (Slot F)
  normZ0 : F

inductive Progress (F : Type) where
  | next (it : Iterate F)
  | stop (reason : TruncatedStop) (it : Iterate F)

/-- What a solve works on. -/
structure Model (F : Type) where
  par : TruncatedParam F
  H : Operator F
  B : Operator F
  C : Operator F
  g : Vec F
  δ : F
  safeguard : Safeguard F

/-- The residual through the preconditioner, or the fault of the preconditioner. -/
def precondition (k : Model F) (r : Vec F) : Journaled F (Except TruncatedStop (Vec F)) := do
  let zero := Vec.zerosLike r
  let once ← k.C.apply 1 r 0 zero
  let twice ← k.C.apply 1 once 0 zero
  let change ← Checked.add (-1) once twice
  let normOnce := Vec.norm once
  if !Scalar.isFinite normOnce then return .error .nanPreconditioner
  if k.par.epsProj * Scalar.maxNum normOnce 1 < Vec.norm change then
    return .error .nonProjectorPreconditioner
  let b ← k.B.apply 1 once 0 zero
  let z ← k.C.apply 1 b 0 zero
  if !Vec.isFinite z then return .error .nanPreconditioner
  return .ok z

/-- `⟨a, b'⟩` and `⟨b, a'⟩` differ by more than rounding. -/
def asymmetric (eps : F) (a b a' b' : Vec F) : Checked Bool := do
  let u ← Checked.inner a b'
  let v ← Checked.inner b a'
  let scale := Vec.norm a * Vec.norm b' + Vec.norm b * Vec.norm a'
  return decide (eps * scale < Scalar.abs (u - v))

/-- The residual has a component along a past one. -/
def notOrthogonal (eps : F) (r : Vec F) (rz : F) (e : Slot F) : Checked Bool := do
  let u ← Checked.inner r e.z
  return decide (eps * Scalar.sqrt (Scalar.abs rz * Scalar.abs e.rz) < Scalar.abs u)

/-- The fault the residuals since the last start show. -/
def residualFault? (par : TruncatedParam F) (it : Iterate F) (z : Vec F) (rz : F) :
    Checked (Option TruncatedStop) := do
  match it.previous with
  | none => return none
  | some prev =>
      if ← asymmetric par.epsSym z it.r prev.z prev.r then
        return some .nonSymmetricPreconditioner
      let lost ← (it.slots.take (min par.orthogMax it.seq)).mapM (notOrthogonal par.epsOrth it.r rz)
      if lost.any id then return some .lossOfOrthogonality
      return none

/-- The fault the directions since the last start show. -/
def directionFault? (par : TruncatedParam F) (it : Iterate F) (p hp : Vec F) :
    Checked (Option TruncatedStop) := do
  match it.previous with
  | none => return none
  | some prev =>
      if ← asymmetric par.epsSym hp p prev.hp prev.p then return some .nonSymmetricOperator
      return none

/-- The next direction, conjugate to the last one. -/
def direction (it : Iterate F) (z : Vec F) (rz : F) : Checked (Vec F) :=
  match it.previous with
  | none => .ok z
  | some prev => Checked.add 1 z (Vec.scale (rz / prev.rz) prev.p)

/-- Value of the model after a step of length `σ` along a direction with slope `-rp` and curvature `κ`. -/
def modelAfter (model σ rp κ : F) : F := model - σ * rp + Scalar.half * σ * σ * κ

/-- A direction without positive curvature is followed to the boundary of the trust region. Without one,
only the first direction is followed. -/
def followNegative (k : Model F) (it : Iterate F) (p : Vec F) (rp κ : F) : Journaled F (Progress F) := do
  let σ ← (if Scalar.isFinite k.δ then Sphere.exit 0 it.x p k.δ
    else if Vec.norm it.s == 0 then .ok 1 else .ok 0 : Checked F)
  let fraction ← k.safeguard.fraction it.calls it.x (Vec.scale σ p)
  let σ := σ * fraction
  return .stop .negativeCurvature { it with
    s := ← Checked.add σ p it.s
    model := modelAfter it.model σ rp κ
    calls := it.calls + 1 }

/-- A step the safeguard cuts is taken as far as it is safe, and the recurrence starts again. -/
def restart (k : Model F) (it : Iterate F) (p : Vec F) (α fraction rp κ : F) :
    Journaled F (Progress F) := do
  let α := α * fraction
  let s ← Checked.add α p it.s
  let x ← Checked.add α p it.x
  let it := { it with
    s, x
    model := modelAfter it.model α rp κ
    failedSafeguard := it.failedSafeguard + 1 }
  if k.par.failedSafeguardMax < it.failedSafeguard then return .stop .tooManyFailedSafeguard it
  Journaled.log .trace ["truncated_cg ", it.iter, ": safeguard cut ", .scientific 2 fraction, ", restart"]
  let hs ← k.H.apply 1 s 0 (Vec.zerosLike s)
  let r ← Checked.add 1 k.g hs
  return .next { it with r := Vec.scale (-1) r, seq := 0, previous := none }

/-- A direction of positive curvature is followed to the minimum of the model, or to the boundary of the
trust region. -/
def followPositive (k : Model F) (it : Iterate F) (z p hp : Vec F) (rz rp κ : F) :
    Journaled F (Progress F) := do
  let α := rz / κ
  let target ← Checked.add α p it.x
  let crossing := decide (k.δ ≤ Vec.norm target)
  let α ← (if crossing then Sphere.exit 0 it.x p k.δ else .ok α : Checked F)
  let model := modelAfter it.model α rp κ
  if it.model < model then return .stop .objectiveIncrease it
  let fraction ← k.safeguard.fraction it.calls it.x (Vec.scale α p)
  let it := { it with calls := it.calls + 1 }
  if fraction < 1 then restart k it p α fraction rp κ
  else
    let s ← Checked.add α p it.s
    let x ← Checked.add α p it.x
    let it := { it with s, x, model }
    if crossing then return .stop .trustRegionViolated it
    let r ← Checked.add (-α) hp it.r
    return .next { it with r, seq := it.seq + 1, previous := some ⟨it.r, z, p, hp, rz⟩ }

/-- The step along a direction whose product with `H` is known to be sound. -/
def follow (k : Model F) (it : Iterate F) (z p hp : Vec F) (rz normZ : F) : Journaled F (Progress F) := do
  let it := { it with iter := it.iter + 1 }
  let κ ← Checked.inner p hp
  let rp ← Checked.inner it.r p
  Journaled.log .trace ["truncated_cg ", it.iter, ": rel_res ", .scientific 2 (normZ / it.normZ0),
    ", curv ", .scientific 2 κ]
  if κ ≤ 0 then followNegative k it p rp κ else followPositive k it z p hp rz rp κ

/-- One pass of the recurrence. -/
def pass (k : Model F) (it : Iterate F) : Journaled F (Progress F) := do
  match ← precondition k it.r with
  | .error fault => return .stop fault it
  | .ok z =>
      let normZ := Vec.norm z
      let it := if it.iter = 0 then { it with normZ0 := normZ } else it
      if normZ ≤ k.par.eps * it.normZ0 then return .stop .relativeErrorSmall it
      let rz ← Checked.inner it.r z
      if let some fault ← residualFault? k.par it z rz then return .stop fault it
      let it := { it with slots := record k.par.orthogMax it.seq ⟨z, rz⟩ it.slots }
      let p ← direction it z rz
      let hp ← k.H.apply 1 p 0 (Vec.zerosLike p)
      if !Vec.isFinite hp then return .stop .nanOperator it
      if let some fault ← directionFault? k.par it p hp then return .stop fault it
      follow k it z p hp rz normZ

/-- Up to `budget` more passes; each one that goes on counts as an iteration. -/
def iterate (k : Model F) : (budget : Nat) → Iterate F → Journaled F (TruncatedStop × Iterate F)
  | 0, it => return (.maxItersExceeded, it)
  | budget + 1, it => do
      match ← pass k it with
      | .next it => iterate k budget it
      | .stop reason it => return (reason, it)

/-- The iterate a solve starts from. -/
def start (g offset : Vec F) : Iterate F where
  s := Vec.zerosLike g
  x := offset
  r := Vec.scale (-1) g
  model := 0
  seq := 0
  iter := 0
  failedSafeguard := 0
  calls := 1
  previous := none
  slots := []
  normZ0 := 0

def result (reason : TruncatedStop) (it : Iterate F) : TruncatedResult F :=
  ⟨it.s, reason, it.iter, it.failedSafeguard, it.model⟩

/-- The fault of an offset outside the trust region or the safeguard. -/
def offsetFault? (offset : Vec F) (δ : F) (safeguard : Safeguard F) :
    Journaled F (Option TruncatedStop) := do
  let normOffset := Vec.norm offset
  if ¬(normOffset ≤ δ * (1 + Scalar.sqrt Scalar.epsilon)) then
    Journaled.log .debug ["offset ", .scientific 3 normOffset, " is out of the trust region ",
      .scientific 3 δ]
    return some .offsetViolatesTrustRegion
  let fraction ← safeguard.fraction 0 (Vec.zerosLike offset) offset
  if fraction < 1 then
    Journaled.log .debug ["offset is not safe"]
    return some .offsetViolatesSafeguard
  return none

/-- The step for the model, from `offset` and written over `s`, given `work` scalars to work with. -/
def solve (k : Model F) (offset s : Vec F) (work : Nat) :
    Journaled F (Except StepError (TruncatedResult F)) := do
  let n := k.g.length
  if k.H.size ≠ (n, n) ∨ k.B.size ≠ (n, n) ∨ k.C.size ≠ (n, n) then
    Journaled.log .error ["Size mismatch: g ", n, ", op_h", k.H.sizePiece, ", op_b", k.B.sizePiece,
      ", op_c", k.C.sizePiece]
    return .error .invalidOperator
  if offset.length ≠ n ∨ s.length ≠ n then
    Journaled.log .error ["Size mismatch: g ", n, ", offset ", offset.length, ", s ", s.length]
    return .error .invalidOperator
  if work < workLength n k.par.orthogMax then
    Journaled.log .error
      ["Work memory length ", work, " must be >= ", workLength n k.par.orthogMax]
    return .error .workShortage
  match ← offsetFault? offset k.δ k.safeguard with
  | some fault => return .ok (result fault (start k.g offset))
  | none =>
      let (reason, it) ← iterate k k.par.iterMax (start k.g offset)
      Journaled.log .debug ["truncated_cg: ", Registry.text reason, " after ", it.iter,
        " iterations, model ", .scientific 3 it.model]
      return .ok (result reason it)

end TruncatedCG

end ConstrainedOpt
