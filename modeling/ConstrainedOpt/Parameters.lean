import ConstrainedOpt.Registry.Choices
import ConstrainedOpt.Step.Quasinormal
import ConstrainedOpt.Step.TruncatedCG

/-! # Parameters

Everything a run can be told, and the check that the parameters fit each other and the problem.
-/
namespace ConstrainedOpt

structure Parameters (F : Type) where
  algorithm : Algorithm
  /-- Most outer iterations. -/
  iterMax : Nat
  epsGrad : F
  epsDx : F
  /-- Tolerance of the equality constraint violation. -/
  epsConstr : F
  toleranceKind : ToleranceKind
  /-- Trust-region radius at the start. -/
  delta : F
  deltaMax : F
  /-- Steps with a reduction ratio below this are rejected. -/
  eta1 : F
  /-- The radius grows with a ratio above this and a step on the boundary. -/
  eta2 : F
  /-- Most rejected steps in a row. -/
  rejectedMax : Nat
  hessian : OperatorKind
  preconditioner : OperatorKind
  /-- Number of stored quasi-Newton pairs. -/
  storedHistory : Nat
  direction : Direction
  lengthRule : LengthRule
  /-- Most function evaluations of one line search. -/
  lineSearchIterMax : Nat
  /-- Sufficient decrease constant. -/
  c1 : F
  /-- Fraction of the way to the boundary of the inequality constraints a step may go. -/
  gamma : F
  /-- Barrier parameter at the start. -/
  mu : F
  muReduce : F
  /-- The barrier parameter is reduced when the gradient falls below this times its value. -/
  epsMuGrad : F
  epsMu : F
  /-- Penalty of the equality constraint violation at the start. -/
  rho : F
  functionChecks : FunctionChecks
  spaceChecks : SpaceChecks
  checkSchedule : CheckSchedule
  /-- Level of the iteration table; nothing is printed at zero. -/
  msgLevel : Nat
  truncated : TruncatedParam F
  quasinormal : QuasinormalParam F
  normalEq : NormalParam F

/-- Why parameters do not fit. -/
inductive ParameterError where
  | lineSearchWithEquality
  | outOfRange (name : String)
  /-- An operator kind that cannot be used at the named place. -/
  | invalidOperator (name : String)
deriving DecidableEq, Repr

namespace ParameterError

def kind : ParameterError → String
  | lineSearchWithEquality => "LineSearchWithEquality"
  | outOfRange _ => "OutOfRange"
  | invalidOperator _ => "InvalidOperator"

def detail : ParameterError → String
  | lineSearchWithEquality => "line search cannot handle equality constraints"
  | outOfRange name => name ++ " is out of its valid range"
  | invalidOperator name => name ++ " is not usable there"

def message (e : ParameterError) : String := e.kind ++ ": " ++ e.detail

end ParameterError

namespace Parameters
variable {F : Type} [Scalar F]

def default : Parameters F where
  algorithm := .trustRegion
  iterMax := 1000
  epsGrad := 1e-8
  epsDx := 1e-12
  epsConstr := 1e-8
  toleranceKind := .relative
  delta := 1e2
  deltaMax := 1e4
  eta1 := 0.1
  eta2 := 0.9
  rejectedMax := 20
  hessian := .identity
  preconditioner := .identity
  storedHistory := 0
  direction := .steepestDescent
  lengthRule := .goldenSection
  lineSearchIterMax := 5
  c1 := 1e-4
  gamma := 0.95
  mu := 1
  muReduce := 0.5
  epsMuGrad := 1
  epsMu := 1e-8
  rho := 1
  functionChecks := .noDiagnostics
  spaceChecks := .noDiagnostics
  checkSchedule := .never
  msgLevel := 1
  truncated := .default
  quasinormal := .default
  normalEq := .default

/-- Strictly between zero and one. -/
def isFraction (x : F) : Bool := 0 < x && x < 1

/-- The parameters with the tests of their ranges, in the order they are checked. -/
def ranges (p : Parameters F) : List (Bool × String) := [
  (0 < p.delta, "delta"),
  (p.delta ≤ p.deltaMax, "delta_max"),
  (0 < p.eta1 && p.eta1 < p.eta2, "eta1"),
  (p.eta2 < 1, "eta2"),
  (0 ≤ p.epsGrad, "eps_grad"),
  (0 ≤ p.epsDx, "eps_dx"),
  (0 ≤ p.epsConstr, "eps_constr"),
  (isFraction p.c1, "c1"),
  (0 < p.lineSearchIterMax, "linesearch_iter_max"),
  (isFraction p.gamma, "gamma"),
  (0 < p.mu, "mu"),
  (isFraction p.muReduce, "mu_reduce"),
  (0 < p.epsMuGrad, "eps_mu_grad"),
  (0 ≤ p.epsMu, "eps_mu"),
  (0 < p.rho, "rho"),
  (isFraction p.quasinormal.zeta, "quasinormal.zeta"),
  (0 < p.truncated.iterMax, "truncated.iter_max")]

/-- Can the kind approximate a Hessian. -/
def usableHessian : OperatorKind → Bool
  | .invBfgs | .invSr1 => false
  | _ => true

/-- Can the kind precondition. -/
def usablePreconditioner : OperatorKind → Bool
  | .identity | .invBfgs | .invSr1 | .userDefined => true
  | _ => false

/-- The first inconsistency, if there is one. -/
def validate (p : Parameters F) (c : ProblemClass) : Except ParameterError Unit := do
  if p.algorithm = .lineSearch ∧ (c = .equalityConstrained ∨ c = .constrained) then
    throw .lineSearchWithEquality
  if let some (_, name) := p.ranges.find? (fun r => !r.1) then throw (.outOfRange name)
  if !usableHessian p.hessian then throw (.invalidOperator "h_type")
  if !usablePreconditioner p.preconditioner then throw (.invalidOperator "precond")

end Parameters

end ConstrainedOpt
