import ConstrainedOpt.Run.Gradient

/-! # User-defined steps

The manipulator supplies the step; it is taken when it stays strictly feasible.
-/
namespace ConstrainedOpt.UserStep
open Running
variable {F : Type} [Scalar F]

def step (k : Setup F) : Running F Unit := do
  visit k .beforeGetStep
  update fun s => { s with dx := Vec.zerosLike s.dx }
  visit k .getStep
  let s ← getState
  if s.dx.length ≠ k.n then
    log .error ["Size mismatch: x ", k.n, ", dx ", s.dx.length]
    fail k ((Failure.plain StepError.invalidOperator.message).context "User-defined step")
  update fun s => { s with normDx := Vec.norm s.dx }
  let t ← tryStep k s.dx 1
  if !Scalar.isFinite (t.barrier s.mu) then
    log .warn ["user-defined step left the strictly feasible region"]
    setStop .interiorPointInstability
  else accept k t

end ConstrainedOpt.UserStep
