import ConstrainedOpt.QuasiNewton
import ConstrainedOpt.Registry.StopReasons

/-! # The state of a run

Made from an initial guess, updated by every outer iteration, and left to the user at the end. A state
may be used for several runs; each one starts from its iterate and its multipliers.
-/
namespace ConstrainedOpt

structure State (F : Type) where
  x : Vec F
  /-- The last step, and its parts. -/
  dx : Vec F
  dxNormal : Vec F
  /-- The Cauchy point of the quasinormal step before any cut. -/
  dxCauchy : Vec F
  dxTangential : Vec F
  /-- Direction of the line search. -/
  direction : Vec F
  /-- Multipliers of the equality constraints. -/
  y : Vec F
  /-- Gradient of the barrier Lagrangian. -/
  grad : Vec F
  g : Vec F
  h : Vec F
  xOld : Vec F
  /-- Gradient of the barrier objective at the last iterate. -/
  gradOld : Vec F
  /-- Change of the gradient of the barrier Lagrangian over the last step. -/
  gradChange : Vec F
  history : History F
  f : F
  delta : F
  mu : F
  rho : F
  /-- Length of the line-search step. -/
  alpha : F
  /-- Length the next line search starts from. -/
  alphaStart : F
  normGrad : F
  /-- The norms relative tolerances refer to. -/
  normGradTyp : F
  normDx : F
  normDxTyp : F
  normG : F
  normGTyp : F
  /-- Actual and predicted reduction of the merit function over the last step. -/
  ared : F
  pred : F
  iter : Nat
  /-- Rejected steps in a row. -/
  rejected : Nat
  rejectedTotal : Nat
  krylovIter : Nat
  krylovIterTotal : Nat
  lineSearchIter : Nat
  lineSearchIterTotal : Nat
  truncatedStop : TruncatedStop
  quasinormalStop : QuasinormalStop
  stop : Stop
  algorithm : Algorithm
  problemClass : ProblemClass
  hessian : OperatorKind
  preconditioner : OperatorKind
  checkSchedule : CheckSchedule

namespace State
variable {F : Type} [Scalar F]

/-- The state at an initial guess. -/
def new (x : Vec F) : State F :=
  let zero := Vec.zerosLike x
  { x := x, dx := zero, dxNormal := zero, dxCauchy := zero, dxTangential := zero, direction := zero
    y := [], grad := zero, g := [], h := [], xOld := zero, gradOld := zero, gradChange := zero
    history := .empty
    f := Scalar.nan, delta := 1, mu := 1, rho := 1, alpha := 1, alphaStart := 1
    normGrad := Scalar.nan, normGradTyp := Scalar.nan, normDx := Scalar.nan, normDxTyp := Scalar.nan
    normG := 0, normGTyp := 0, ared := Scalar.nan, pred := Scalar.nan
    iter := 0, rejected := 0, rejectedTotal := 0, krylovIter := 0, krylovIterTotal := 0
    lineSearchIter := 0, lineSearchIterTotal := 0
    truncatedStop := .notConverged, quasinormalStop := .skipped, stop := .notConverged
    algorithm := .trustRegion, problemClass := .unconstrained, hessian := .identity
    preconditioner := .identity, checkSchedule := .never }

/-- The state with an initial guess of the multipliers. -/
def withMultipliers (s : State F) (y : Vec F) : State F := { s with y }

omit [Scalar F] in
def dim (s : State F) : Nat := s.x.length

end State

end ConstrainedOpt
