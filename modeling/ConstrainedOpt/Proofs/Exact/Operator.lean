import Mathlib.Analysis.InnerProductSpace.Adjoint
import ConstrainedOpt.Problem
import ConstrainedOpt.Proofs.Exact.Vector

/-! # Linear operators, exactly

An operator acts as a linear map when its updates of real vectors are those of the map and of its adjoint. The
Jacobian of a constraint does when the actions of its derivative are.
-/
namespace ConstrainedOpt
open Exact Journaled
variable {ε : Set.Ioi (0 : ℝ)} {n m : ℕ}

section Transpose
variable {𝕜 E F : Type*} [RCLike 𝕜] [NormedAddCommGroup E] [InnerProductSpace 𝕜 E] [FiniteDimensional 𝕜 E]
  [NormedAddCommGroup F] [InnerProductSpace 𝕜 F] [FiniteDimensional 𝕜 F]

/-- The adjoint as a map alone, without the structure that taking it preserves. -/
noncomputable abbrev transpose (L : E →ₗ[𝕜] F) : F →ₗ[𝕜] E := LinearMap.adjoint L

end Transpose

structure Operator.Acts (A : Operator (Exact ε)) (L : Euclidean n →ₗ[ℝ] Euclidean m) : Prop where
  rows : A.rows = m
  cols : A.cols = n
  apply : ∀ a b s y, (A.apply (real a) (vec s) (real b) (vec y)).Ensures fun z => z = vec (a • L s + b • y)
  applyTransposed : ∀ a b w z, (A.applyTransposed (real a) (vec w) (real b) (vec z)).Ensures fun v =>
    v = vec (a • LinearMap.adjoint L w + b • z)

/-- The transposed updates of real vectors are real, of whatever map they are. -/
structure Operator.Pulls (A : Operator (Exact ε)) (n m : ℕ) : Prop where
  rows : A.rows = m
  cols : A.cols = n
  real : ∀ (a b : ℝ) (w : Euclidean m) (z : Euclidean n),
    (A.applyTransposed (real a) (vec w) (real b) (vec z)).Ensures fun v => ∃ u : Euclidean n, v = vec u

theorem Operator.Acts.pulls {A : Operator (Exact ε)} {L : Euclidean n →ₗ[ℝ] Euclidean m} (hA : A.Acts L) :
    A.Pulls n m where
  rows := hA.rows
  cols := hA.cols
  real a b w z := (hA.applyTransposed a b w z).mono fun _ h => ⟨_, h⟩

/-- At `x` the actions of the derivative of a constraint are those of `J` and of its adjoint. -/
structure Constraint.Linearises (c : Constraint (Exact ε)) (x : Vec (Exact ε))
    (J : Euclidean n →ₗ[ℝ] Euclidean m) : Prop where
  rows : c.rows = m
  cols : c.cols = n
  forward : ∀ s, c.forward x (vec s) m = .ok (vec (J s))
  adjoint : ∀ w, c.adjoint x (vec w) n = .ok (vec (LinearMap.adjoint J w))

/-- A constraint over the reals, with the values of `G` and the derivatives `J`. -/
structure Constraint.Realises (c : Constraint (Exact ε)) (G : Euclidean n → Euclidean m)
    (J : Euclidean n → Euclidean n →ₗ[ℝ] Euclidean m) : Prop where
  value : ∀ x : Euclidean n, c.value (vec x) c.rows = .ok (vec (G x))
  linearises : ∀ x : Euclidean n, c.Linearises (vec x) (J x)

/-- A constraint with the values `A x + b` and their derivative. -/
abbrev Constraint.Affine (c : Constraint (Exact ε)) (A : Euclidean n →ₗ[ℝ] Euclidean m) (b : Euclidean m) : Prop :=
  c.Realises (fun x => A x + b) fun _ => A

theorem Exact.axpby_ensures (a b : ℝ) (u v : Euclidean n) :
    Ensures (Checked.axpby (real a) (vec u) (real b) (vec v) : Journaled (Exact ε) (Vec (Exact ε))) fun z =>
      z = vec (a • u + b • v) := ensures_lift fun _ => checked_axpby_eq_ok

theorem Operator.identity_acts (n : ℕ) : (identity n : Operator (Exact ε)).Acts (LinearMap.id : Euclidean n →ₗ[ℝ] Euclidean n) where
  rows := rfl
  cols := rfl
  apply a b s y := axpby_ensures a b s y
  applyTransposed a b w z := by
    rw [LinearMap.adjoint_id]
    exact axpby_ensures a b w z

theorem Constraint.Linearises.acts {c : Constraint (Exact ε)} {x : Vec (Exact ε)}
    {J : Euclidean n →ₗ[ℝ] Euclidean m} (hJ : c.Linearises x J) : (c.jacobian x).Acts J where
  rows := hJ.rows
  cols := hJ.cols
  apply a b s y := by
    refine ensures_bind (P := fun t => t = vec (J s)) (ensures_lift fun t ht => ?_) ?_
    · rw [length_vec, hJ.forward s] at ht
      exact (Except.ok.inj ht).symm
    · rintro _ rfl
      exact axpby_ensures a b _ y
  applyTransposed a b w z := by
    refine ensures_bind (P := fun t => t = vec (LinearMap.adjoint J w)) (ensures_lift fun t ht => ?_) ?_
    · rw [length_vec, hJ.adjoint w] at ht
      exact (Except.ok.inj ht).symm
    · rintro _ rfl
      exact axpby_ensures a b _ z

end ConstrainedOpt
