import ConstrainedOpt.Diagnostics.Checks
import ConstrainedOpt.Diagnostics.Random

/-! # Diagnostics

The selected checks of a problem at a point, along random directions that are the same every time.
-/
namespace ConstrainedOpt.Diagnostics
variable {F : Type} [Scalar F]

def seed : UInt64 := 0x5eedc0de

def checkObjective (f : Objective F) (second : Bool) (x dx dxx : Vec F) : Journaled F (List F) := do
  Journaled.line ["Diagnostics on the objective"]
  let first ← gradientCheck f x dx
  if !second then return [first]
  let hessian ← hessianCheck f x dx
  return [first, hessian, ← hessianSymmetryCheck f x dx dxx]

def checkConstraint (name : String) (c : Option (Constraint F)) (second : Bool) (x dx : Vec F)
    (g : Generator) : Journaled F (List F × Generator) := do
  match c with
  | none => return ([], g)
  | some c =>
      let (dy, g) := g.vector c.rows
      Journaled.line ["Diagnostics on the ", name, " constraint"]
      let first ← derivativeCheck c x dx
      let adjoint ← adjointCheck c x dx dy
      if !second then return ([first, adjoint], g)
      return ([first, adjoint, ← secondDerivativeCheck c x dx dy], g)

def checkFunctions (p : Problem F) (checks : FunctionChecks) (x dx dxx : Vec F) (g : Generator) :
    Journaled F (List F × Generator) := do
  if checks = .noDiagnostics then return ([], g)
  let second := checks == .secondOrder
  let f ← checkObjective p.objective second x dx dxx
  let (equality, g) ← checkConstraint "equality" p.equality second x dx g
  let (inequality, g) ← checkConstraint "inequality" p.inequality second x dx g
  return (f ++ equality ++ inequality, g)

def checkSpace (p : Problem F) (checks : SpaceChecks) (n : Nat) (dx dxx : Vec F) (g : Generator) :
    Journaled F (List F) := do
  if checks = .noDiagnostics then return []
  Journaled.line ["Diagnostics on the vector space"]
  let space ← spaceCheck dx dxx
  if checks ≠ .euclideanJordan then return [space]
  let m := (p.inequality.map Constraint.rows).getD n
  let (u, g) := g.vector m
  let (v, _) := g.vector m
  Journaled.line ["Diagnostics on the Euclidean-Jordan algebra"]
  return [space, ← jordanCheck u v]

/-- Do the selected checks at `x` all end in a finite error. -/
def run (p : Problem F) (x : Vec F) (functions : FunctionChecks) (space : SpaceChecks) :
    Journaled F Bool := do
  let (dx, g) := (Generator.ofSeed seed).vector x.length
  let (dxx, g) := g.vector x.length
  let (errs, g) ← checkFunctions p functions x dx dxx g
  return (errs ++ (← checkSpace p space x.length dx dxx g)).all Scalar.isFinite

end ConstrainedOpt.Diagnostics
