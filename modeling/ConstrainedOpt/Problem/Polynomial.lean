import ConstrainedOpt.Problem

/-! # Polynomials

Objectives and constraints given by polynomials: lists of terms with a coefficient and the exponents of
the variables, exponents beyond the end of a list being zero.
-/
namespace ConstrainedOpt

structure Term (F : Type) where
  coefficient : F
  exponents : List Nat

abbrev Polynomial (F : Type) := List (Term F)

namespace Term
variable {F : Type} [Scalar F]

def exponent (t : Term F) (i : Nat) : Nat := t.exponents.getD i 0

/-- `c` times `u ^ e`, one factor at a time. -/
def timesPower (u : F) : (e : Nat) → F → F
  | 0, c => c
  | e + 1, c => timesPower u e (c * u)

/-- `c` times the powers of the variables from index `i` on. Variables with exponent zero are not read. -/
def powers (x : Vec F) : (i : Nat) → List Nat → F → Checked F
  | _, [], c => .ok c
  | i, 0 :: rest, c => powers x (i + 1) rest c
  | i, e@(_ + 1) :: rest, c => do
      let u ← Checked.get x i
      powers x (i + 1) rest (timesPower u e c)

def value (t : Term F) (x : Vec F) : Checked F := powers x 0 t.exponents t.coefficient

/-- The derivative in direction `i`, unless the variable is missing from the term. -/
def derivative? (t : Term F) (i : Nat) : Option (Term F) :=
  let e := t.exponent i
  if e = 0 then none
  else some ⟨t.coefficient * Scalar.ofNat e, t.exponents.set i (e - 1)⟩

/-- The second derivative in directions `i` and `j`, unless it vanishes; the factor of both powers is
formed before it meets the coefficient. -/
def secondDerivative? (t : Term F) (i j : Nat) : Option (Term F) :=
  let e := t.exponent i
  let lowered : Term F := ⟨t.coefficient, t.exponents.set i (e - 1)⟩
  let d := lowered.exponent j
  if e = 0 ∨ d = 0 then none
  else some ⟨t.coefficient * Scalar.ofNat (e * d), lowered.exponents.set j (d - 1)⟩

end Term

namespace Polynomial
variable {F : Type} [Scalar F]

/-- The sum of the values of terms, each one possibly scaled. -/
def sumTerms {α : Type} (terms : List α) (value : α → Checked F) : Checked F :=
  terms.foldlM (fun s t => do return s + (← value t)) 0

def value (p : Polynomial F) (x : Vec F) : Checked F := sumTerms p (·.value x)

def partialDerivative (p : Polynomial F) (x : Vec F) (i : Nat) : Checked F :=
  sumTerms (p.filterMap (·.derivative? i)) (·.value x)

def gradient (p : Polynomial F) (x : Vec F) (size : Nat) : Checked (Vec F) :=
  (List.range size).mapM (partialDerivative p x)

/-- Component `i` of the Hessian at `x` times `dx`. -/
def hessianRow (p : Polynomial F) (x dx : Vec F) (i : Nat) : Checked F :=
  let parts := p.flatMap fun t =>
    (List.range x.length).filterMap fun j => (t.secondDerivative? i j).map fun d => (d, j)
  sumTerms parts fun (d, j) => do
    let v ← d.value x
    return v * (← Checked.get dx j)

def hessian (p : Polynomial F) (x dx : Vec F) (size : Nat) : Checked (Vec F) :=
  (List.range size).mapM (hessianRow p x dx)

end Polynomial

variable {F : Type} [Scalar F]

def Objective.polynomial (p : Polynomial F) : Objective F where
  value := p.value
  gradient := p.gradient
  hessian := p.hessian

/-- The sum over the rows of `rows` times the entries of `dy`. -/
def Constraint.combineRows (rows : List (Vec F)) (dy : Vec F) (size : Nat) : Checked (Vec F) :=
  rows.zipIdx.foldlM (fun z (row, k) => do
    let u ← Checked.get dy k
    return List.zipWith (fun z r => z + r * u) z row) (Vec.zeros size)

/-- The constraint with one polynomial per row, in `n` variables. -/
def Constraint.polynomial (ps : List (Polynomial F)) (n : Nat) : Constraint F where
  rows := ps.length
  cols := n
  value x size := do Checked.copy (← ps.mapM (·.value x)) (Vec.zeros size)
  forward x dx size := do
    let y ← ps.mapM fun p => do Checked.inner (← p.gradient x n) dx
    Checked.copy y (Vec.zeros size)
  adjoint x dy size := do combineRows (← ps.mapM (·.gradient x size)) dy size
  second x dx dy size := do combineRows (← ps.mapM (·.hessian x dx size)) dy size

end ConstrainedOpt
