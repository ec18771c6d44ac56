import ConstrainedOpt.Operator
import ConstrainedOpt.Registry.Choices

/-! # Problems

Minimise an objective subject to equality constraints `g x = 0` and inequality constraints `h x ≥ 0`.
Functions are given by their values and by the actions of their derivatives; each is asked for a number
of components and may panic on vectors that do not suit it.
-/
namespace ConstrainedOpt

structure Objective (F : Type) where
  value : (x : Vec F) → Checked F
  gradient : (x : Vec F) → (size : Nat) → Checked (Vec F)
  /-- The Hessian at `x` times `dx`. -/
  hessian : (x dx : Vec F) → (size : Nat) → Checked (Vec F)

structure Constraint (F : Type) where
  rows : Nat
  cols : Nat
  value : (x : Vec F) → (size : Nat) → Checked (Vec F)
  /-- The Jacobian at `x` times `dx`. -/
  forward : (x dx : Vec F) → (size : Nat) → Checked (Vec F)
  /-- The transposed Jacobian at `x` times `dy`. -/
  adjoint : (x dy : Vec F) → (size : Nat) → Checked (Vec F)
  /-- The derivative of the transposed Jacobian along `dx`, times `dy`. -/
  second : (x dx dy : Vec F) → (size : Nat) → Checked (Vec F)

def Constraint.size {F : Type} (c : Constraint F) : Nat × Nat := (c.rows, c.cols)

/-- The Jacobian of a constraint at a point. -/
def Constraint.jacobian {F : Type} [Scalar F] (c : Constraint F) (x : Vec F) : Operator F where
  rows := c.rows
  cols := c.cols
  apply a dx b y := do
    let t ← c.forward x dx y.length
    Checked.axpby a t b y
  applyTransposed a dy b z := do
    let t ← c.adjoint x dy z.length
    Checked.axpby a t b z

structure Problem (F : Type) where
  objective : Objective F
  equality : Option (Constraint F)
  inequality : Option (Constraint F)
  preconditioner : Option (Operator F)

namespace Problem
variable {F : Type}

def problemClass (p : Problem F) : ProblemClass :=
  match p.equality, p.inequality with
  | none, none => .unconstrained
  | some _, none => .equalityConstrained
  | none, some _ => .inequalityConstrained
  | some _, some _ => .constrained

/-- Number of equality constraints. -/
def equalities (p : Problem F) : Nat := (p.equality.map Constraint.rows).getD 0

/-- Number of inequality constraints. -/
def inequalities (p : Problem F) : Nat := (p.inequality.map Constraint.rows).getD 0

end Problem

/-- A point with its function values. -/
structure Trial (F : Type) where
  x : Vec F
  f : F
  g : Vec F
  h : Vec F

/-- The functions at `x`, the constraints before the objective. -/
def Problem.evaluate {F : Type} (p : Problem F) (x : Vec F) : Checked (Trial F) := do
  let g ← (match p.equality with
    | none => .ok []
    | some c => c.value x c.rows : Checked (Vec F))
  let h ← (match p.inequality with
    | none => .ok []
    | some c => c.value x c.rows : Checked (Vec F))
  return ⟨x, ← p.objective.value x, g, h⟩

/-- The functions at `x + α dx`. -/
def Problem.trial {F : Type} [Scalar F] (p : Problem F) (x dx : Vec F) (α : F) : Checked (Trial F) := do
  p.evaluate (← Checked.add α dx x)

end ConstrainedOpt
