import ConstrainedOpt.Operator
import ConstrainedOpt.Vec.Orthant
import ConstrainedOpt.Step.Error

/-! # Safeguards

A safeguard tells how far a step may go. The linearised one keeps `κ * h + J * s` in the nonnegative
orthant, so a step along a linearised constraint leaves at least `1 - κ` of the current slack `h`.
-/
namespace ConstrainedOpt

structure Safeguard (F : Type) where
  /-- The fraction of `direction` that stays safe after the step `base`, zero if `base` is unsafe itself.
  Calls are numbered from zero within one solve. -/
  fraction : (call : Nat) → (base direction : Vec F) → Journaled F F

namespace Safeguard
variable {F : Type} [Scalar F]

/-- Every step is safe. -/
def unlimited : Safeguard F where
  fraction _ _ _ := return 1

/-- Answers with the given fractions in turn, and with one after their end. -/
def ofFractions (fractions : List F) : Safeguard F where
  fraction call _ _ := return fractions[call]?.getD 1

/-- The fraction of the linearised constraint at `base` along `direction`. -/
def linearFraction (jac : Operator F) (h : Vec F) (κ : F) (base direction : Vec F) : Journaled F F := do
  let y ← jac.apply 1 base κ h
  let lowest ← Checked.boundaryLength (Vec.scale (-1) (Vec.ones h.length)) y
  let tolerance := Scalar.sqrt Scalar.epsilon * κ * Vec.norm h
  if Scalar.isNaN lowest || lowest < -tolerance then return 0
  let d ← jac.apply 1 direction 0 (Vec.zerosLike h)
  let reach ← Checked.boundaryLength d y
  if Scalar.isNaN reach then return 0
  return Scalar.maxNum (Scalar.minNum reach 1) 0

def workLength (m : Nat) : Nat := m * 2

/-- The safeguard of a linearised constraint, given `work` scalars to work with. -/
def linear (jac : Operator F) (h : Vec F) (κ : F) (work : Nat) :
    Journaled F (Except StepError (Safeguard F)) := do
  if h.length ≠ jac.rows then
    Journaled.log .error ["Size mismatch: op_h", jac.sizePiece, ", h_x ", h.length]
    return .error .invalidOperator
  if work < workLength jac.rows then
    Journaled.log .error ["Work memory length ", work, " must be >= ", workLength jac.rows]
    return .error .workShortage
  return .ok { fraction := fun _ base direction => linearFraction jac h κ base direction }

end Safeguard

end ConstrainedOpt
