import ConstrainedOpt.Registry

/-! # Choices

What a user chooses: the algorithm, its operators and searches, the checks, and the measure of
tolerances; and the class of a problem, which decides what may be chosen.
-/
namespace ConstrainedOpt

/-- Which algorithm computes the steps; user-defined steps come from the manipulator. -/
inductive Algorithm where
  | trustRegion
  | lineSearch
  | userDefined
deriving DecidableEq, Repr, Inhabited

instance : Registry Algorithm where
  domain := "AlgorithmClass"
  all := [.trustRegion, .lineSearch, .userDefined]
  text
    | .trustRegion => "TrustRegion"
    | .lineSearch => "LineSearch"
    | .userDefined => "UserDefined"

/-- Kind of a Hessian approximation or of a preconditioner. -/
inductive OperatorKind where
  | identity
  | scaledIdentity
  | bfgs
  | invBfgs
  | sr1
  | invSr1
  | userDefined
deriving DecidableEq, Repr, Inhabited

instance : Registry OperatorKind where
  domain := "Operators"
  all := [.identity, .scaledIdentity, .bfgs, .invBfgs, .sr1, .invSr1, .userDefined]
  text
    | .identity => "Identity"
    | .scaledIdentity => "ScaledIdentity"
    | .bfgs => "BFGS"
    | .invBfgs => "InvBFGS"
    | .sr1 => "SR1"
    | .invSr1 => "InvSR1"
    | .userDefined => "UserDefined"

/-- Search direction of the line-search method. -/
inductive Direction where
  | steepestDescent
  | fletcherReeves
  | polakRibiere
  | hestenesStiefel
  | bfgs
  | newtonCg
deriving DecidableEq, Repr, Inhabited

instance : Registry Direction where
  domain := "LineSearchDirection"
  all := [.steepestDescent, .fletcherReeves, .polakRibiere, .hestenesStiefel, .bfgs, .newtonCg]
  text
    | .steepestDescent => "SteepestDescent"
    | .fletcherReeves => "FletcherReeves"
    | .polakRibiere => "PolakRibiere"
    | .hestenesStiefel => "HestenesStiefel"
    | .bfgs => "BFGS"
    | .newtonCg => "NewtonCG"

/-- Step length selection of the line-search method. -/
inductive LengthRule where
  | goldenSection
  | backTracking
  | twoPointA
  | twoPointB
deriving DecidableEq, Repr, Inhabited

instance : Registry LengthRule where
  domain := "LineSearchKind"
  all := [.goldenSection, .backTracking, .twoPointA, .twoPointB]
  text
    | .goldenSection => "GoldenSection"
    | .backTracking => "BackTracking"
    | .twoPointA => "TwoPointA"
    | .twoPointB => "TwoPointB"

/-- Does the rule ask for a sufficient decrease. -/
def LengthRule.isSufficientDecrease : LengthRule → Bool
  | .goldenSection | .backTracking => true
  | .twoPointA | .twoPointB => false

/-- Which constraints a problem has. -/
inductive ProblemClass where
  | unconstrained
  | equalityConstrained
  | inequalityConstrained
  | constrained
deriving DecidableEq, Repr, Inhabited

instance : Registry ProblemClass where
  domain := "ProblemClass"
  all := [.unconstrained, .equalityConstrained, .inequalityConstrained, .constrained]
  text
    | .unconstrained => "Unconstrained"
    | .equalityConstrained => "EqualityConstrained"
    | .inequalityConstrained => "InequalityConstrained"
    | .constrained => "Constrained"

/-- Finite-difference checks of the functions of a problem. -/
inductive FunctionChecks where
  | noDiagnostics
  | firstOrder
  | secondOrder
deriving DecidableEq, Repr, Inhabited

instance : Registry FunctionChecks where
  domain := "FunctionDiagnostics"
  all := [.noDiagnostics, .firstOrder, .secondOrder]
  text
    | .noDiagnostics => "NoDiagnostics"
    | .firstOrder => "FirstOrder"
    | .secondOrder => "SecondOrder"

/-- Algebraic checks of the vector space and of its cone. -/
inductive SpaceChecks where
  | noDiagnostics
  | basic
  | euclideanJordan
deriving DecidableEq, Repr, Inhabited

instance : Registry SpaceChecks where
  domain := "VectorSpaceDiagnostics"
  all := [.noDiagnostics, .basic, .euclideanJordan]
  text
    | .noDiagnostics => "NoDiagnostics"
    | .basic => "Basic"
    | .euclideanJordan => "EuclideanJordan"

/-- When the checks run. -/
inductive CheckSchedule where
  | never
  | diagnosticsOnly
  | everyIteration
deriving DecidableEq, Repr, Inhabited

instance : Registry CheckSchedule where
  domain := "DiagnosticScheme"
  all := [.never, .diagnosticsOnly, .everyIteration]
  text
    | .never => "Never"
    | .diagnosticsOnly => "DiagnosticsOnly"
    | .everyIteration => "EveryIteration"

/-- Tolerances are relative to the values at the start, or taken as they are. -/
inductive ToleranceKind where
  | relative
  | absolute
deriving DecidableEq, Repr, Inhabited

instance : Registry ToleranceKind where
  domain := "ToleranceKind"
  all := [.relative, .absolute]
  text
    | .relative => "Relative"
    | .absolute => "Absolute"

end ConstrainedOpt
