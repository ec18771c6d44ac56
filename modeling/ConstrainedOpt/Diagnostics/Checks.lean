import ConstrainedOpt.Problem
import ConstrainedOpt.Vec.Orthant

/-! # Checks of functions and of the vector space

Derivatives are compared with central differences over steps from `10⁻¹` down to `10⁻⁸`; the smallest
relative error counts. Algebraic laws are checked on two vectors; there the largest error counts.
-/
namespace ConstrainedOpt.Diagnostics
variable {F : Type} [Scalar F]

def relativeError (approx exact : F) : F :=
  Scalar.abs (approx - exact) / (Scalar.epsilon + Scalar.abs exact)

def relativeErrorVec (approx exact : Vec F) : Checked F := do
  let d ← Checked.add (-1) exact approx
  return Vec.norm d / (Scalar.epsilon + Vec.norm exact)

/-- Reports the error at every step size, and the smallest one of them. -/
def stepReport (errorAt : F → Checked F) : (ks : List Nat) → (best : F) → Journaled F F
  | [], best => return best
  | k :: ks, best => do
      let ε : F := Scalar.tenth k
      let err ← errorAt ε
      Journaled.row [.textColumn "  step", .realColumn ε, .realColumn err]
      stepReport errorAt ks (Scalar.minNum best err)

/-- The report of a finite-difference check. -/
def differenceReport (title : String) (errorAt : F → Checked F) : Journaled F F := do
  Journaled.line [title]
  let best ← stepReport errorAt [1, 2, 3, 4, 5, 6, 7, 8] Scalar.infinity
  Journaled.log .debug [title, ": ", .scientific 2 best]
  return best

/-- The report of a single error. -/
def errorReport (title : String) (err : F) : Journaled F F := do
  Journaled.row [.textColumn title, .realColumn err]
  Journaled.log .debug [title, ": ", .scientific 2 err]
  return err

/-- The largest error, undefined when one of them is. -/
def worst (errs : List F) : F :=
  errs.foldl (fun a e => if Scalar.isNaN e || Scalar.isNaN a then Scalar.nan else Scalar.maxNum a e) 0

/-- Central difference of a vector function along `dx`. -/
def difference (f : Vec F → Checked (Vec F)) (x dx : Vec F) (ε : F) : Checked (Vec F) := do
  let up ← f (← Checked.add ε dx x)
  let down ← f (← Checked.add (-ε) dx x)
  return Vec.scale (1 / (Scalar.two * ε)) (← Checked.add (-1) down up)

def gradientCheck (f : Objective F) (x dx : Vec F) : Journaled F F := do
  let slope ← Checked.inner (← f.gradient x x.length) dx
  differenceReport "Finite difference test on the gradient" fun ε => do
    let up ← f.value (← Checked.add ε dx x)
    let down ← f.value (← Checked.add (-ε) dx x)
    return relativeError ((up - down) / (Scalar.two * ε)) slope

def hessianCheck (f : Objective F) (x dx : Vec F) : Journaled F F := do
  let exact ← f.hessian x dx x.length
  differenceReport "Finite difference test on the Hessian-vector product" fun ε => do
    relativeErrorVec (← difference (f.gradient · x.length) x dx ε) exact

def hessianSymmetryCheck (f : Objective F) (x dx dxx : Vec F) : Journaled F F := do
  let hdx ← f.hessian x dx x.length
  let hdxx ← f.hessian x dxx x.length
  let a ← Checked.inner hdx dxx
  let b ← Checked.inner dx hdxx
  errorReport "Symmetry test on the Hessian" (relativeError a b)

def derivativeCheck (c : Constraint F) (x dx : Vec F) : Journaled F F := do
  let exact ← c.forward x dx c.rows
  differenceReport "Finite difference test on the derivative" fun ε => do
    relativeErrorVec (← difference (c.value · c.rows) x dx ε) exact

def adjointCheck (c : Constraint F) (x dx dy : Vec F) : Journaled F F := do
  let p ← c.forward x dx c.rows
  let ps ← c.adjoint x dy c.cols
  let a ← Checked.inner p dy
  let b ← Checked.inner dx ps
  errorReport "Adjoint test on the derivative" (relativeError a b)

def secondDerivativeCheck (c : Constraint F) (x dx dy : Vec F) : Journaled F F := do
  let exact ← c.second x dx dy c.cols
  differenceReport "Finite difference test on the second derivative" fun ε => do
    relativeErrorVec (← difference (c.adjoint · dy c.cols) x dx ε) exact

/-- The laws of a Euclidean space on `x` and `y`. -/
def spaceCheck (x y : Vec F) : Journaled F F := do
  let a : F := 0.75
  let xy ← Checked.add 1 y x
  let yx ← Checked.add 1 x y
  let commutes ← errorReport "Commutativity of the addition" (← relativeErrorVec xy yx)
  let right ← Checked.add a y (Vec.scale a x)
  let distributes ← errorReport "Distributivity of the scaling"
    (← relativeErrorVec (Vec.scale a xy) right)
  let copied ← Checked.copy x (Vec.zerosLike x)
  let copies ← errorReport "Copy" (← relativeErrorVec copied x)
  let clears ← errorReport "Zero" (Vec.norm (Vec.zerosLike copied))
  let ab ← Checked.inner x y
  let ba ← Checked.inner y x
  let symmetric ← errorReport "Symmetry of the inner product" (relativeError ab ba)
  let norm := Vec.norm x
  let normed ← errorReport "Norm by the inner product" (relativeError (norm * norm) (Vec.inner x x))
  return worst [commutes, distributes, copies, clears, symmetric, normed]

/-- The laws of the Euclidean Jordan algebra on `x` and `y`. -/
def jordanCheck (x y : Vec F) : Journaled F F := do
  let e : Vec F := Vec.ones x.length
  let xy ← Checked.prod x y
  let yx ← Checked.prod y x
  let commutes ← errorReport "Commutativity of the product" (← relativeErrorVec xy yx)
  let ex ← Checked.prod e x
  let identity ← errorReport "Identity of the product" (← relativeErrorVec ex x)
  -- `x ∘ x + e` lies in the interior of the cone
  let p ← Checked.add 1 e (← Checked.prod x x)
  let q ← Checked.quotient p (← Checked.prod p y)
  let inverse ← errorReport "Inverse of the product operator" (← relativeErrorVec q y)
  let root := Vec.sqrt p
  let squared ← errorReport "Square root" (← relativeErrorVec (← Checked.prod root root) p)
  let barrier ← errorReport "Barrier at the identity" (Scalar.abs (Vec.logBarrier e))
  let reach ← Checked.boundaryLength (Vec.scale (-1) e) e
  let search ← errorReport "Line search from the identity" (relativeError reach 1)
  return worst [commutes, identity, inverse, squared, barrier, search]

end ConstrainedOpt.Diagnostics
