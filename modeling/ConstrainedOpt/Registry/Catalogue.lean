import ConstrainedOpt.Registry.Choices
import ConstrainedOpt.Registry.Location
import ConstrainedOpt.Registry.StopReasons

/-! # The catalogue of registries

Every registry by its domain, with its values standing as their texts. Domains are distinct, so a domain
and a text tell what a stored value is.
-/
namespace ConstrainedOpt.Registry

structure Catalogued where
  domain : String
  /-- The texts of all values, in the order of the registry. -/
  texts : List String
  isValid : String → Bool
  parse : String → Except InvalidValue String

def catalogued (α : Type) [Registry α] : Catalogued where
  domain := domain α
  texts := (all : List α).map text
  isValid := isValid α
  parse s := (parse s : Except InvalidValue α).map text

def catalogue : List Catalogued := [
  catalogued Algorithm, catalogued Stop, catalogued OperatorKind, catalogued Direction,
  catalogued LengthRule, catalogued Location, catalogued ProblemClass, catalogued FunctionChecks,
  catalogued SpaceChecks, catalogued CheckSchedule, catalogued ToleranceKind,
  catalogued QuasinormalStop, catalogued TruncatedStop]

end ConstrainedOpt.Registry
