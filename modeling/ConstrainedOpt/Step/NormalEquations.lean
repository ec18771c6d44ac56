import ConstrainedOpt.Operator
import ConstrainedOpt.Step.Error

/-! # Normal equations

Systems `A * Aᵀ * w = b` by conjugate gradients in the range of `A`. Least-norm solutions of `A * u = -g`
and projections onto the null space of `A` reduce to them. A rank-deficient `A` ends the iteration at
the least-squares solution reached so far.
-/
namespace ConstrainedOpt

structure NormalParam (F : Type) where
  maxIter : Nat
  /-- Tolerance of the residual relative to the right-hand side. -/
  epsRel : F

def NormalParam.default {F : Type} [Scalar F] : NormalParam F where
  maxIter := 200
  epsRel := 1e-10

/-- A vector, as far as it was computed, with the number of iterations or an error. -/
structure Solved (F : Type) where
  vector : Vec F
  outcome : Except StepError Nat

namespace NormalEquations
variable {F : Type} [Scalar F]

/-- Scalars of work that `solve` needs for an operator of `m` rows and `n` columns. -/
def solveWorkLength (m n : Nat) : Nat := m * 3 + n

/-- Scalars of work that `leastNorm` and `project` need. -/
def workLength (m n : Nat) : Nat := m * 3 + n + m * 2

/-- Solution, residual, direction and squared residual norm between two iterations. -/
structure Iterate (F : Type) where
  w : Vec F
  r : Vec F
  p : Vec F
  rr : F

inductive Progress (F : Type) where
  | next (s : Iterate F)
  | done (w : Vec F)
  | failed (w : Vec F)

/-- Iteration number `i`. -/
def pass (par : NormalParam F) (A : Operator F) (normB : F) (i : Nat) (s : Iterate F) :
    Journaled F (Progress F) := do
  let t ← A.applyTransposed 1 s.p 0 (Vec.zeros A.cols)
  let q ← A.apply 1 t 0 (Vec.zeros A.rows)
  let curvature := Vec.inner t t
  if !Scalar.isFinite curvature then return .failed s.w
  if curvature ≤ 0 then
    Journaled.log .trace ["normal_eq ", i, ": breakdown"]
    return .done s.w
  let α := s.rr / curvature
  let w ← Checked.add α s.p s.w
  let r ← Checked.add (-α) q s.r
  let rr := Vec.inner r r
  Journaled.log .trace ["normal_eq ", i, ": rel_res ", .scientific 2 (Scalar.sqrt rr / normB)]
  if Scalar.sqrt rr ≤ par.epsRel * normB then return .done w
  let p ← Checked.add 1 r (Vec.scale (rr / s.rr) s.p)
  return .next ⟨w, r, p, rr⟩

/-- The solution with the number of iterations, unless it is not finite. -/
def finish (i : Nat) (w : Vec F) : Solved F :=
  ⟨w, if Vec.isFinite w then .ok i else .error .numericalInstability⟩

/-- Up to `budget` more iterations after the first `i`. -/
def iterate (par : NormalParam F) (A : Operator F) (normB : F) :
    (budget i : Nat) → Iterate F → Journaled F (Solved F)
  | 0, i, s => return finish i s.w
  | budget + 1, i, s => do
      match ← pass par A normB (i + 1) s with
      | .next s => iterate par A normB budget (i + 1) s
      | .done w => return finish (i + 1) w
      | .failed w => return ⟨w, .error .numericalInstability⟩

/-- Solves `A * Aᵀ * w = b` into `w`, given `work` scalars to work with. -/
def solve (par : NormalParam F) (A : Operator F) (b w : Vec F) (work : Nat) : Journaled F (Solved F) := do
  if b.length ≠ A.rows ∨ w.length ≠ A.rows then
    Journaled.log .error
      ["Size mismatch: op_a", A.sizePiece, ", b ", b.length, ", w ", w.length]
    return ⟨w, .error .invalidOperator⟩
  if work < solveWorkLength A.rows A.cols then
    Journaled.log .error
      ["Work memory length ", work, " must be >= ", solveWorkLength A.rows A.cols]
    return ⟨w, .error .workShortage⟩
  let w := Vec.zerosLike w
  let rr := Vec.inner b b
  let normB := Scalar.sqrt rr
  if !Scalar.isFinite normB then return ⟨w, .error .numericalInstability⟩
  if normB == 0 then return ⟨w, .ok 0⟩
  iterate par A normB par.maxIter 0 ⟨w, b, b, rr⟩

/-- Logs and refuses a work slice that is too short for `leastNorm` or `project`. -/
def workShortage? (A : Operator F) (work : Nat) : Journaled F Bool := do
  if work < workLength A.rows A.cols then
    Journaled.log .error
      ["Work memory length ", work, " must be >= ", workLength A.rows A.cols]
    return true
  return false

/-- The least-norm solution `u = Aᵀ * w` of `A * u = -g`. -/
def leastNorm (par : NormalParam F) (A : Operator F) (g u : Vec F) (work : Nat) :
    Journaled F (Solved F) := do
  if u.length ≠ A.cols then
    Journaled.log .error ["Size mismatch: op_a", A.sizePiece, ", u ", u.length]
    return ⟨u, .error .invalidOperator⟩
  if ← workShortage? A work then return ⟨u, .error .workShortage⟩
  let b ← Checked.copy g (Vec.zeros A.rows)
  let s ← solve par A (Vec.scale (-1) b) (Vec.zeros A.rows) (solveWorkLength A.rows A.cols)
  match s.outcome with
  | .error e => return ⟨u, .error e⟩
  | .ok i => return ⟨← A.applyTransposed 1 s.vector 0 u, .ok i⟩

/-- The projection `u = v - Aᵀ * w` of `v` onto the null space of `A`. -/
def project (par : NormalParam F) (A : Operator F) (v u : Vec F) (work : Nat) :
    Journaled F (Solved F) := do
  if v.length ≠ A.cols ∨ u.length ≠ A.cols then
    Journaled.log .error
      ["Size mismatch: op_a", A.sizePiece, ", v ", v.length, ", u ", u.length]
    return ⟨u, .error .invalidOperator⟩
  if ← workShortage? A work then return ⟨u, .error .workShortage⟩
  let b ← A.apply 1 v 0 (Vec.zeros A.rows)
  let s ← solve par A b (Vec.zeros A.rows) (solveWorkLength A.rows A.cols)
  match s.outcome with
  | .error e => return ⟨u, .error e⟩
  | .ok i => return ⟨← A.applyTransposed (-1) s.vector 1 v, .ok i⟩

end NormalEquations

end ConstrainedOpt
