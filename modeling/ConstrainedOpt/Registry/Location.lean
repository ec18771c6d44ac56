import ConstrainedOpt.Registry

/-! # Locations

The points of a run at which the state manipulator is called.
-/
namespace ConstrainedOpt

/-- A hook point of an optimisation run. -/
inductive Location where
  | beginningOfOptimization
  | beforeInitialFuncAndGrad
  | afterInitialFuncAndGrad
  | beforeOptimizationLoop
  | beginningOfOptimizationLoop
  | beforeSaveOld
  | beforeStep
  | beforeGetStep
  | getStep
  | afterStepBeforeGradient
  | afterGradient
  | beforeQuasi
  | afterQuasi
  | endOfOptimizationIteration
  | beforeLineSearch
  | afterRejectedTrustRegion
  | afterRejectedLineSearch
  | beforeActualVersusPredicted
  | endOfOptimization
deriving DecidableEq, Repr, Inhabited

instance : Registry Location where
  domain := "OptimizationLocation"
  all := [.beginningOfOptimization, .beforeInitialFuncAndGrad, .afterInitialFuncAndGrad,
    .beforeOptimizationLoop, .beginningOfOptimizationLoop, .beforeSaveOld, .beforeStep,
    .beforeGetStep, .getStep, .afterStepBeforeGradient, .afterGradient, .beforeQuasi,
    .afterQuasi, .endOfOptimizationIteration, .beforeLineSearch, .afterRejectedTrustRegion,
    .afterRejectedLineSearch, .beforeActualVersusPredicted, .endOfOptimization]
  text
    | .beginningOfOptimization => "BeginningOfOptimization"
    | .beforeInitialFuncAndGrad => "BeforeInitialFuncAndGrad"
    | .afterInitialFuncAndGrad => "AfterInitialFuncAndGrad"
    | .beforeOptimizationLoop => "BeforeOptimizationLoop"
    | .beginningOfOptimizationLoop => "BeginningOfOptimizationLoop"
    | .beforeSaveOld => "BeforeSaveOld"
    | .beforeStep => "BeforeStep"
    | .beforeGetStep => "BeforeGetStep"
    | .getStep => "GetStep"
    | .afterStepBeforeGradient => "AfterStepBeforeGradient"
    | .afterGradient => "AfterGradient"
    | .beforeQuasi => "BeforeQuasi"
    | .afterQuasi => "AfterQuasi"
    | .endOfOptimizationIteration => "EndOfOptimizationIteration"
    | .beforeLineSearch => "BeforeLineSearch"
    | .afterRejectedTrustRegion => "AfterRejectedTrustRegion"
    | .afterRejectedLineSearch => "AfterRejectedLineSearch"
    | .beforeActualVersusPredicted => "BeforeActualVersusPredicted"
    | .endOfOptimization => "EndOfOptimization"

end ConstrainedOpt
