import ConstrainedOpt.Operator
import ConstrainedOpt.Registry.Choices

/-! # Limited-memory quasi-Newton operators

Approximations of a Hessian or of its inverse, built on the identity from stored pairs of a step and the
gradient difference along it. Pairs that would break an update are skipped: those of nonpositive
curvature for BFGS, those with a vanishing denominator for SR1.
-/
namespace ConstrainedOpt

/-- Stored steps and gradient differences, newest first. -/
structure History (F : Type) where
  steps : List (Vec F)
  changes : List (Vec F)

namespace History
variable {F : Type}

def empty : History F := ⟨[], []⟩

/-- Stores a pair, keeping at most `size` of them. -/
def push (h : History F) (step change : Vec F) (size : Nat) : History F :=
  if size = 0 then empty
  else ⟨(step :: h.steps).take size, (change :: h.changes).take size⟩

/-- The pairs, newest first. -/
def newestFirst (h : History F) : List (Vec F × Vec F) := h.steps.zip h.changes

/-- The pairs, oldest first. -/
def oldestFirst (h : History F) : List (Vec F × Vec F) := h.steps.reverse.zip h.changes.reverse

end History

namespace QuasiNewton
variable {F : Type} [Scalar F]

/-- A rank-two update: `bs = B * s`, `⟨s, bs⟩`, `y` and `⟨y, s⟩`. -/
structure RankTwo (F : Type) where
  bs : Vec F
  sbs : F
  y : Vec F
  ys : F

/-- Adds an update applied to `v`. -/
def RankTwo.addTo (v out : Vec F) (t : RankTwo F) : Checked (Vec F) := do
  let a := -(← Checked.inner t.bs v) / t.sbs
  let b := (← Checked.inner t.y v) / t.ys
  Checked.add b t.y (← Checked.add a t.bs out)

/-- The identity with updates, applied to `v`. -/
def applyRankTwo (updates : List (RankTwo F)) (v : Vec F) : Checked (Vec F) :=
  updates.foldlM (RankTwo.addTo v) v

/-- Extends the updates by a pair of positive curvature. -/
def pushRankTwo (updates : List (RankTwo F)) (pair : Vec F × Vec F) : Checked (List (RankTwo F)) := do
  let (s, y) := pair
  let bs ← applyRankTwo updates s
  let sbs ← Checked.inner s bs
  let ys ← Checked.inner y s
  return if 0 < ys ∧ 0 < sbs then updates ++ [⟨bs, sbs, y, ys⟩] else updates

def bfgs (h : History F) (v : Vec F) : Checked (Vec F) := do
  applyRankTwo (← h.oldestFirst.foldlM pushRankTwo []) v

/-- The pairs of positive curvature with that curvature, newest first. -/
def curvedPairs (h : History F) : Checked (List (Vec F × Vec F × F)) := do
  let pairs ← h.newestFirst.mapM fun (s, y) => do return (s, y, ← Checked.inner y s)
  return pairs.filter fun (_, _, ys) => decide (0 < ys)

/-- The inverse by two loops: through the pairs from the newest to the oldest, and back. -/
def inverseLoops : List (Vec F × Vec F × F) → Vec F → Checked (Vec F)
  | [], v => .ok v
  | (s, y, ys) :: older, v => do
      let a := (← Checked.inner s v) / ys
      let v ← inverseLoops older (← Checked.add (-a) y v)
      let b := (← Checked.inner y v) / ys
      Checked.add (a - b) s v

def inverseBfgs (h : History F) (v : Vec F) : Checked (Vec F) := do inverseLoops (← curvedPairs h) v

/-- A rank-one update: `r` and `⟨r, u⟩`. -/
structure RankOne (F : Type) where
  r : Vec F
  ru : F

/-- Adds `sign` times an update applied to `u`. -/
def RankOne.addTo (negative : Bool) (u out : Vec F) (t : RankOne F) : Checked (Vec F) := do
  let c := (← Checked.inner t.r u) / t.ru
  Checked.add (if negative then -c else c) t.r out

/-- Extends the updates by a pair `w = M * u` whose denominator does not vanish. -/
def pushRankOne (updates : List (RankOne F)) (pair : Vec F × Vec F) : Checked (List (RankOne F)) := do
  let (u, w) := pair
  let r ← updates.foldlM (RankOne.addTo true u) (← Checked.add (-1) u w)
  let ru ← Checked.inner r u
  return if Scalar.sqrt Scalar.epsilon * Vec.norm r * Vec.norm u < Scalar.abs ru then
    updates ++ [⟨r, ru⟩] else updates

def sr1 (inverse : Bool) (h : History F) (v : Vec F) : Checked (Vec F) := do
  let pairs := h.oldestFirst.map fun (s, y) => if inverse then (y, s) else (s, y)
  let updates ← pairs.foldlM pushRankOne []
  updates.foldlM (RankOne.addTo false v) v

/-- A quasi-Newton operator applied to `v`. The scale is that of the scaled identity; a user-defined
operator counts as the identity. -/
def applyTo (kind : OperatorKind) (scale : F) (h : History F) (v : Vec F) : Checked (Vec F) :=
  match kind with
  | .identity | .userDefined => .ok v
  | .scaledIdentity => .ok (Vec.scale scale v)
  | .bfgs => bfgs h v
  | .invBfgs => inverseBfgs h v
  | .sr1 => sr1 false h v
  | .invSr1 => sr1 true h v

def operator (kind : OperatorKind) (n : Nat) (scale : F) (h : History F) : Operator F :=
  .selfAdjoint n fun a x b y => do
    let x ← Checked.copy x (Vec.zeros n)
    Checked.axpby a (← applyTo kind scale h x) b y

end QuasiNewton

end ConstrainedOpt
