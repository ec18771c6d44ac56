/-! # Registries

A registry is a closed set of values with one canonical text each; the texts are how a value is
stored, configured and reported.
-/
namespace ConstrainedOpt

class Registry (α : Type) where
  domain : String
  /-- Every value, in the order of the registry. -/
  all : List α
  text : α → String

/-- A text outside a registry. -/
structure InvalidValue where
  domain : String
  value : String
deriving DecidableEq, Repr

def InvalidValue.message (e : InvalidValue) : String :=
  "InvalidEnumValue: \"" ++ e.value ++ "\" is not a valid " ++ e.domain

namespace Registry
variable {α : Type} [Registry α]

def parse (s : String) : Except InvalidValue α :=
  match (all : List α).find? (fun a => text a == s) with
  | some a => .ok a
  | none => .error ⟨domain α, s⟩

variable (α) in
def isValid (s : String) : Bool := (all : List α).any (fun a => text a == s)

end Registry

end ConstrainedOpt
