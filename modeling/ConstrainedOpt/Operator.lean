import ConstrainedOpt.Matrix.Product

/-! # Linear operators

Hessians, preconditioners and Jacobians reach the solvers as operators: a size, and the updates
`a * K * x + b * y` and `a * Kᵀ * x + b * y` of a vector `y`.
-/
namespace ConstrainedOpt

structure Operator (F : Type) where
  rows : Nat
  cols : Nat
  apply : (a : F) → (x : Vec F) → (b : F) → (y : Vec F) → Journaled F (Vec F)
  applyTransposed : (a : F) → (x : Vec F) → (b : F) → (y : Vec F) → Journaled F (Vec F)

namespace Operator
variable {F : Type}

def size (k : Operator F) : Nat × Nat := (k.rows, k.cols)

def sizePiece (k : Operator F) : Piece F := .size k.rows k.cols

/-- An operator that is its own transpose. -/
def selfAdjoint (n : Nat) (apply : F → Vec F → F → Vec F → Journaled F (Vec F)) : Operator F where
  rows := n
  cols := n
  apply := apply
  applyTransposed := apply

variable [Scalar F]

def identity (n : Nat) : Operator F := selfAdjoint n fun a x b y => Checked.axpby a x b y

end Operator

def Matrix.operator {F : Type} [Scalar F] (m : Matrix F) : Operator F where
  rows := m.rows
  cols := m.cols
  apply a x b y := m.product false a x b y
  applyTransposed a x b y := m.product true a x b y

end ConstrainedOpt
