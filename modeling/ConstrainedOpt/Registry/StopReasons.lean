import ConstrainedOpt.Registry

/-! # Stop reasons

Why a run, a quasinormal step or a truncated conjugate gradient iteration ended.
-/
namespace ConstrainedOpt

/-- Why an optimisation ended; not converged while it is running. -/
inductive Stop where
  | notConverged
  | gradientSmall
  | stepSmall
  | maxItersExceeded
  | interiorPointInstability
  | globalizationFailure
  | userDefined
deriving DecidableEq, Repr, Inhabited

instance : Registry Stop where
  domain := "OptimizationStop"
  all := [.notConverged, .gradientSmall, .stepSmall, .maxItersExceeded,
    .interiorPointInstability, .globalizationFailure, .userDefined]
  text
    | .notConverged => "NotConverged"
    | .gradientSmall => "GradientSmall"
    | .stepSmall => "StepSmall"
    | .maxItersExceeded => "MaxItersExceeded"
    | .interiorPointInstability => "InteriorPointInstability"
    | .globalizationFailure => "GlobalizationFailure"
    | .userDefined => "UserDefined"

/-- How a quasinormal step was determined: the path it took and the bound that cut it. -/
inductive QuasinormalStop where
  | newton
  | cauchyTrustRegion
  | cauchySafeguard
  | doglegTrustRegion
  | doglegSafeguard
  | newtonTrustRegion
  | newtonSafeguard
  | skipped
  | cauchySolved
deriving DecidableEq, Repr, Inhabited

instance : Registry QuasinormalStop where
  domain := "QuasinormalStop"
  all := [.newton, .cauchyTrustRegion, .cauchySafeguard, .doglegTrustRegion, .doglegSafeguard,
    .newtonTrustRegion, .newtonSafeguard, .skipped, .cauchySolved]
  text
    | .newton => "Newton"
    | .cauchyTrustRegion => "CauchyTrustRegion"
    | .cauchySafeguard => "CauchySafeguard"
    | .doglegTrustRegion => "DoglegTrustRegion"
    | .doglegSafeguard => "DoglegSafeguard"
    | .newtonTrustRegion => "NewtonTrustRegion"
    | .newtonSafeguard => "NewtonSafeguard"
    | .skipped => "Skipped"
    | .cauchySolved => "CauchySolved"

/-- The text in the iteration table. -/
def QuasinormalStop.shortText : QuasinormalStop → String
  | .newton => "Newton"
  | .cauchyTrustRegion => "CauchyTR"
  | .cauchySafeguard => "CauchySafe"
  | .doglegTrustRegion => "DoglegTR"
  | .doglegSafeguard => "DoglegSafe"
  | .newtonTrustRegion => "NewtonTR"
  | .newtonSafeguard => "NewtonSafe"
  | .skipped => "Skipped"
  | .cauchySolved => "CauchySlv"

/-- Did the safeguard cut the step. -/
def QuasinormalStop.isSafeguard : QuasinormalStop → Bool
  | .cauchySafeguard | .doglegSafeguard | .newtonSafeguard => true
  | _ => false

/-- Why truncated conjugate gradients ended. -/
inductive TruncatedStop where
  | notConverged
  | negativeCurvature
  | relativeErrorSmall
  | maxItersExceeded
  | trustRegionViolated
  | nanOperator
  | nanPreconditioner
  | nonProjectorPreconditioner
  | nonSymmetricPreconditioner
  | nonSymmetricOperator
  | lossOfOrthogonality
  | offsetViolatesTrustRegion
  | offsetViolatesSafeguard
  | tooManyFailedSafeguard
  | objectiveIncrease
deriving DecidableEq, Repr, Inhabited

instance : Registry TruncatedStop where
  domain := "TruncatedStop"
  all := [.notConverged, .negativeCurvature, .relativeErrorSmall, .maxItersExceeded,
    .trustRegionViolated, .nanOperator, .nanPreconditioner, .nonProjectorPreconditioner,
    .nonSymmetricPreconditioner, .nonSymmetricOperator, .lossOfOrthogonality,
    .offsetViolatesTrustRegion, .offsetViolatesSafeguard, .tooManyFailedSafeguard,
    .objectiveIncrease]
  text
    | .notConverged => "NotConverged"
    | .negativeCurvature => "NegativeCurvature"
    | .relativeErrorSmall => "RelativeErrorSmall"
    | .maxItersExceeded => "MaxItersExceeded"
    | .trustRegionViolated => "TrustRegionViolated"
    | .nanOperator => "NanOperator"
    | .nanPreconditioner => "NanPreconditioner"
    | .nonProjectorPreconditioner => "NonProjectorPreconditioner"
    | .nonSymmetricPreconditioner => "NonSymmetricPreconditioner"
    | .nonSymmetricOperator => "NonSymmetricOperator"
    | .lossOfOrthogonality => "LossOfOrthogonality"
    | .offsetViolatesTrustRegion => "OffsetViolatesTrustRegion"
    | .offsetViolatesSafeguard => "OffsetViolatesSafeguard"
    | .tooManyFailedSafeguard => "TooManyFailedSafeguard"
    | .objectiveIncrease => "ObjectiveIncrease"

/-- The text in the iteration table. -/
def TruncatedStop.shortText : TruncatedStop → String
  | .notConverged => "NotConv"
  | .negativeCurvature => "NegCurv"
  | .relativeErrorSmall => "RelErrSml"
  | .maxItersExceeded => "IterExcd"
  | .trustRegionViolated => "TrstReg"
  | .nanOperator => "NanOp"
  | .nanPreconditioner => "NanPre"
  | .nonProjectorPreconditioner => "NonProjPre"
  | .nonSymmetricPreconditioner => "NonSymmPre"
  | .nonSymmetricOperator => "NonSymmOp"
  | .lossOfOrthogonality => "OrthogLost"
  | .offsetViolatesTrustRegion => "OffsetTR"
  | .offsetViolatesSafeguard => "OffsetSafe"
  | .tooManyFailedSafeguard => "Safeguard"
  | .objectiveIncrease => "ObjIncr"

/-- The operators failed numerically, so the step cannot be trusted. -/
def TruncatedStop.isNumericalFailure : TruncatedStop → Bool
  | .nanOperator | .nanPreconditioner | .nonProjectorPreconditioner | .nonSymmetricPreconditioner
  | .nonSymmetricOperator | .lossOfOrthogonality => true
  | _ => false

/-- Did the safeguard end the iteration. -/
def TruncatedStop.isSafeguard : TruncatedStop → Bool
  | .offsetViolatesSafeguard | .tooManyFailedSafeguard => true
  | _ => false

/-- Does the step end on the boundary of the trust region, or in a direction without a minimum. -/
def TruncatedStop.isBoundary : TruncatedStop → Bool
  | .trustRegionViolated | .negativeCurvature => true
  | _ => false

end ConstrainedOpt
