import ConstrainedOpt.Run.Monad

/-! # Manipulation by rules

A state manipulator given by a list of rules, each of which edits the state at a location, if the
counters of the state are the ones it waits for.
-/
namespace ConstrainedOpt

structure Rule (F : Type) where
  location : Location
  iter : Option Nat
  rejected : Option Nat
  edit : State F → State F

namespace Rule
variable {F : Type}

def fires (r : Rule F) (loc : Location) (s : State F) : Bool :=
  r.location == loc && r.iter.all (· == s.iter) && r.rejected.all (· == s.rejected)

def apply (loc : Location) (s : State F) (r : Rule F) : State F :=
  if r.fires loc s then r.edit s else s

/-- The rules in their order, each one on the state the others leave. -/
def applyAll (rules : List (Rule F)) (loc : Location) (s : State F) : State F :=
  rules.foldl (apply loc) s

end Rule

def Hooks.ofRules {F : Type} (rules : List (Rule F)) : Hooks F := ⟨Rule.applyAll rules, id⟩

end ConstrainedOpt
