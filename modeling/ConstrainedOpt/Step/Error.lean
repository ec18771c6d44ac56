/-! # Step errors

Why a step solver gives no step. A step cut at a bound is no error; it is told by a stop reason.
-/
namespace ConstrainedOpt

inductive StepError where
  /-- The size of an operator does not match the vectors. -/
  | invalidOperator
  | workShortage
  /-- An undefined or infinite value appeared. -/
  | numericalInstability
deriving DecidableEq, Repr

namespace StepError

def kind : StepError → String
  | invalidOperator => "InvalidOp"
  | workShortage => "WorkShortage"
  | numericalInstability => "NumericalInstability"

def detail : StepError → String
  | invalidOperator => "operator size mismatch"
  | workShortage => "shortage of work slice length"
  | numericalInstability => "non-finite value in an auxiliary solve"

def message (e : StepError) : String := e.kind ++ ": " ++ e.detail

end StepError

end ConstrainedOpt
