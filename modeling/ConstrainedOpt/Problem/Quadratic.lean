import ConstrainedOpt.Problem

/-! # Quadratic objectives and affine constraints

The ready-made functions `½ xᵀ P x + qᵀ x + r`, with a symmetric `P`, and `A x - b`.
-/
namespace ConstrainedOpt
variable {F : Type} [Scalar F]

/-- The objective `½ xᵀ P x + qᵀ x + r`, unless the sizes mismatch or `P` is not stored as symmetric. -/
def Objective.quadratic (P q : Matrix F) (r : F) : Journaled F (Option (Objective F)) := do
  if !P.isSymmetric ∨ (q.rows, q.cols) ≠ (P.rows, 1) then
    Journaled.log .error
      ["Size mismatch: sym_p", .size P.rows P.cols, ", vec_q", .size q.rows q.cols]
    return none
  return some {
    value := fun x => do
      let px ← P.product false 1 x 0 (Vec.zerosLike x)
      let curved ← Checked.inner x px
      let sloped ← Checked.inner q.entries.toList x
      return Scalar.half * curved + sloped + r
    gradient := fun x size => do
      let q ← Checked.copy q.entries.toList (Vec.zeros size)
      P.product false 1 x 1 q
    hessian := fun _ dx size => P.product false 1 dx 0 (Vec.zeros size) }

/-- The constraint `A x - b`, unless the sizes mismatch. -/
def Constraint.affine (A b : Matrix F) : Journaled F (Option (Constraint F)) := do
  if (b.rows, b.cols) ≠ (A.rows, 1) then
    Journaled.log .error
      ["Size mismatch: mat_a", .size A.rows A.cols, ", vec_b", .size b.rows b.cols]
    return none
  return some {
    rows := A.rows
    cols := A.cols
    value := fun x size => do
      let b ← Checked.copy b.entries.toList (Vec.zeros size)
      A.product false 1 x (-1) b
    forward := fun _ dx size => A.product false 1 dx 0 (Vec.zeros size)
    adjoint := fun _ dy size => A.product true 1 dy 0 (Vec.zeros size)
    second := fun _ _ _ size => .ok (Vec.zeros size) }

end ConstrainedOpt
