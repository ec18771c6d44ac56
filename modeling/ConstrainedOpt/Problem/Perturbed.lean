import ConstrainedOpt.Problem

/-! # Perturbed functions

Functions changed in one of their parts and left alone in the others, so that the part no longer fits
the rest. The diagnostics exist to find such functions.
-/
namespace ConstrainedOpt
variable {F : Type} [Scalar F]

/-- A jump of the given height where a variable exceeds a threshold. -/
structure Bump (F : Type) where
  index : Nat
  threshold : F
  height : F

/-- Is `x` beyond the threshold. -/
def Bump.applies (b : Bump F) (x : Vec F) : Checked Bool := do
  return decide (b.threshold < (← Checked.get x b.index))

/-- The entries of `extra` added to `v`, as far as both reach. -/
def Vec.addShorter (extra v : Vec F) : Vec F :=
  List.zipWith (· + ·) v extra ++ v.drop extra.length

namespace Objective

def bump (f : Objective F) (b : Bump F) : Objective F :=
  { f with value := fun x => do
      let v ← f.value x
      return if ← b.applies x then v + b.height else v }

def addGradient (f : Objective F) (extra : Vec F) : Objective F :=
  { f with gradient := fun x size => do return Vec.addShorter extra (← f.gradient x size) }

def replaceHessian (f : Objective F) (hessian : Vec F → Nat → Checked (Vec F)) : Objective F :=
  { f with hessian := fun _ dx size => hessian dx size }

end Objective

namespace Constraint

/-- Only the first component jumps. -/
def bump (c : Constraint F) (b : Bump F) : Constraint F :=
  { c with value := fun x size => do
      let y ← c.value x size
      if ← b.applies x then Checked.set y 0 ((← Checked.get y 0) + b.height) else return y }

def addForward (c : Constraint F) (extra : Vec F) : Constraint F :=
  { c with forward := fun x dx size => do return Vec.addShorter extra (← c.forward x dx size) }

def addAdjoint (c : Constraint F) (extra : Vec F) : Constraint F :=
  { c with adjoint := fun x dy size => do return Vec.addShorter extra (← c.adjoint x dy size) }

def addSecond (c : Constraint F) (extra : Vec F) : Constraint F :=
  { c with second := fun x dx dy size => do return Vec.addShorter extra (← c.second x dx dy size) }

end Constraint

end ConstrainedOpt
