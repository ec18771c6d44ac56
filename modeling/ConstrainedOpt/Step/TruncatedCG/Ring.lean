import ConstrainedOpt.Step.TruncatedCG

/-! # The ring of past residuals in work memory

A solve that is given work memory keeps the preconditioned residuals of its last passes there: `orthogMax` vectors one
after the other, and behind them their inner products with the residuals. It neither clears the ring when it starts nor
when the safeguard makes the recurrence start again, and it reads a slot before it writes over one.
-/
namespace ConstrainedOpt.TruncatedCG
variable {F : Type} [Scalar F]

/-- The slots of a ring as they lie in memory. -/
structure Ring (F : Type) where
  z : Vec F
  rz : Vec F

namespace Ring

/-- The ring of `size` slots in work memory, behind the eleven vectors of a pass. -/
def ofWork (n size : Nat) (work : Vec F) : Checked (Ring F) := do
  let (_, rest) ← Checked.split work (n * 11)
  let (z, rz, _) ← Checked.splitTwice rest (size * n) size
  return ⟨z, rz⟩

def read (ring : Ring F) (n j : Nat) : Checked (Slot F) := do
  let (_, z, _) ← Checked.splitTwice ring.z (j * n) n
  return ⟨z, ← Checked.get ring.rz j⟩

def write (ring : Ring F) (n j : Nat) (e : Slot F) : Checked (Ring F) := do
  let (before, old, after) ← Checked.splitTwice ring.z (j * n) n
  let z ← Checked.copy e.z old
  return ⟨before ++ z ++ after, ← Checked.set ring.rz j e.rz⟩

/-- The slots that the residual of an iterate is compared with. -/
def compared (ring : Ring F) (k : Model F) (it : Iterate F) : Checked (List (Slot F)) :=
  (List.range (min k.par.orthogMax it.seq)).mapM fun j => ring.read k.g.length j

/-- The slot of the pass is written over. -/
def record (ring : Ring F) (k : Model F) (seq : Nat) (e : Slot F) : Checked (Ring F) :=
  if k.par.orthogMax = 0 then return ring else ring.write k.g.length (seq % k.par.orthogMax) e

end Ring

/-- The first preconditioned residual is what later ones are measured by. -/
def Iterate.begun (it : Iterate F) (z : Vec F) : Iterate F :=
  if it.iter = 0 then { it with normZ0 := Vec.norm z } else it

/-- The rest of a pass, from its preconditioned residual on. -/
def advanceIn (k : Model F) (it : Iterate F) (ring : Ring F) (z : Vec F) : Journaled F (Progress F × Ring F) := do
  let normZ := Vec.norm z
  if normZ ≤ k.par.eps * it.normZ0 then return (.stop .relativeErrorSmall it, ring)
  let rz ← Checked.inner it.r z
  let slots ← ring.compared k it
  if let some fault ← residualFault? k.par { it with slots } z rz then return (.stop fault it, ring)
  let ring ← ring.record k it.seq ⟨z, rz⟩
  let p ← direction it z rz
  let hp ← k.H.apply 1 p 0 (Vec.zerosLike p)
  if !Vec.isFinite hp then return (.stop .nanOperator it, ring)
  if let some fault ← directionFault? k.par it p hp then return (.stop fault it, ring)
  return (← follow k it z p hp rz normZ, ring)

/-- One pass of the recurrence, with the ring in memory. -/
def passIn (k : Model F) (it : Iterate F) (ring : Ring F) : Journaled F (Progress F × Ring F) := do
  match ← precondition k it.r with
  | .error fault => return (.stop fault it, ring)
  | .ok z => advanceIn k (it.begun z) ring z

/-- Up to `budget` more passes, as `iterate` makes them. -/
def iterateIn (k : Model F) : (budget : Nat) → Iterate F → Ring F → Journaled F (TruncatedStop × Iterate F)
  | 0, it, _ => return (.maxItersExceeded, it)
  | budget + 1, it, ring => do
      match ← passIn k it ring with
      | (.next it, ring) => iterateIn k budget it ring
      | (.stop reason it, _) => return (reason, it)

/-- The step for the model, as `solve` finds it, with whatever `work` holds. -/
def solveIn (k : Model F) (offset s work : Vec F) : Journaled F (Except StepError (TruncatedResult F)) := do
  let n := k.g.length
  if k.H.size ≠ (n, n) ∨ k.B.size ≠ (n, n) ∨ k.C.size ≠ (n, n) then
    Journaled.log .error ["Size mismatch: g ", n, ", op_h", k.H.sizePiece, ", op_b", k.B.sizePiece,
      ", op_c", k.C.sizePiece]
    return .error .invalidOperator
  if offset.length ≠ n ∨ s.length ≠ n then
    Journaled.log .error ["Size mismatch: g ", n, ", offset ", offset.length, ", s ", s.length]
    return .error .invalidOperator
  if work.length < workLength n k.par.orthogMax then
    Journaled.log .error
      ["Work memory length ", work.length, " must be >= ", workLength n k.par.orthogMax]
    return .error .workShortage
  let ring ← Ring.ofWork n k.par.orthogMax work
  match ← offsetFault? offset k.δ k.safeguard with
  | some fault => return .ok (result fault (start k.g offset))
  | none =>
      let (reason, it) ← iterateIn k k.par.iterMax (start k.g offset) ring
      Journaled.log .debug ["truncated_cg: ", Registry.text reason, " after ", it.iter,
        " iterations, model ", .scientific 3 it.model]
      return .ok (result reason it)

end ConstrainedOpt.TruncatedCG
