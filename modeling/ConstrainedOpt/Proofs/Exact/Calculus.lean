import Mathlib.Analysis.Calculus.FDeriv.Symmetric
import Mathlib.Analysis.Calculus.Gradient.Basic
import Mathlib.Analysis.InnerProductSpace.Adjoint
import Mathlib.Analysis.InnerProductSpace.Calculus
import Mathlib.Analysis.SpecialFunctions.Log.Deriv
import ConstrainedOpt.Proofs.Exact.Vector

/-! # Derivatives of barrier terms

The gradient of a logarithmic barrier, the derivative of a pullback `J zᵀ r z` along a moving point, and why the
derivative of a gradient is symmetric.
-/
namespace ConstrainedOpt.Exact
open Filter Topology
open scoped Gradient
variable {n m l : ℕ} {x : Euclidean n} {h : Euclidean n → Euclidean l} {h' : Euclidean n →L[ℝ] Euclidean l}

noncomputable section

/-- Dividing componentwise by `u`. -/
def dividing (u : Euclidean n) : Euclidean n →L[ℝ] Euclidean n :=
  LinearMap.toContinuousLinearMap
    { toFun := fun v => WithLp.toLp 2 fun i => v i / u i
      map_add' := fun v w => by ext i; exact add_div _ _ _
      map_smul' := fun a v => by ext i; exact mul_div_assoc _ _ _ }

@[simp] theorem dividing_apply (u v : Euclidean n) (i : Fin n) : dividing u v i = v i / u i := rfl

/-- The componentwise inverse. -/
def reciprocal (u : Euclidean n) : Euclidean n := dividing u (WithLp.toLp 2 fun _ => 1)

@[simp] theorem reciprocal_apply (u : Euclidean n) (i : Fin n) : reciprocal u i = (u i)⁻¹ := one_div _

end

/-- Taking the adjoint is linear over the reals. -/
theorem isBoundedLinearMap_adjoint :
    IsBoundedLinearMap ℝ fun A : Euclidean n →L[ℝ] Euclidean m => A.adjoint where
  map_add := map_add _
  map_smul a A := by simp
  bound := ⟨1, one_pos, fun A => by rw [one_mul, LinearIsometryEquiv.norm_map]⟩

theorem hasFDerivAt_entries :
    HasFDerivAt h h' x ↔ ∀ i, HasFDerivAt (fun z => h z i) (EuclideanSpace.proj i ∘L h') x := by
  simp only [← hasFDerivWithinAt_univ]
  exact hasFDerivWithinAt_euclidean

theorem hasFDerivAt_reciprocal (hh : HasFDerivAt h h' x) (hne : ∀ i, h x i ≠ 0) :
    HasFDerivAt (fun z => reciprocal (h z)) (-(dividing (h x) ∘L dividing (h x) ∘L h')) x := by
  refine hasFDerivAt_entries.mpr fun i => ?_
  have hi := (hasDerivAt_inv (hne i)).comp_hasFDerivAt x (hasFDerivAt_entries.mp hh i)
  refine (hi.congr_fderiv ?_).congr_of_eventuallyEq (.of_forall fun z => reciprocal_apply _ i)
  ext s
  simp [div_eq_mul_inv]
  ring

/-- The product rule of a pullback: the vector moves along the derivative of `r`, and the Jacobian turns under the
vector held fast. -/
theorem hasFDerivAt_pullback {J : Euclidean n → Euclidean n →L[ℝ] Euclidean m} {r : Euclidean n → Euclidean m}
    {r' : Euclidean n →L[ℝ] Euclidean m} (hJ : DifferentiableAt ℝ J x) (hr : HasFDerivAt r r' x) :
    HasFDerivAt (fun z => (J z).adjoint (r z))
      ((J x).adjoint ∘L r' + fderiv ℝ (fun z => (J z).adjoint (r x)) x) x := by
  have hT : HasFDerivAt (fun z => (J z).adjoint) (isBoundedLinearMap_adjoint.toContinuousLinearMap ∘L fderiv ℝ J x) x :=
    isBoundedLinearMap_adjoint.hasFDerivAt.comp x hJ.hasFDerivAt
  have hfix : fderiv ℝ (fun z => (J z).adjoint (r x)) x =
      (isBoundedLinearMap_adjoint.toContinuousLinearMap ∘L fderiv ℝ J x).flip (r x) := by
    refine HasFDerivAt.fderiv ?_
    simpa using hT.clm_apply (hasFDerivAt_const (r x) x)
  rw [hfix]
  exact hT.clm_apply hr

theorem hasGradientAt_barrier {φ : Euclidean n → ℝ} (μ : ℝ) (hφ : DifferentiableAt ℝ φ x) (hh : HasFDerivAt h h' x)
    (hpos : ∀ i, 0 < h x i) :
    HasGradientAt (fun z => φ z - μ * ∑ i, Real.log (h z i)) (∇ φ x - μ • h'.adjoint (reciprocal (h x))) x := by
  have hlog := HasFDerivAt.fun_sum (u := .univ) fun i _ => (hasFDerivAt_entries.mp hh i).log (hpos i).ne'
  have hsum := hφ.hasGradientAt.hasFDerivAt.fun_sub (hlog.const_mul μ)
  refine hasGradientAt_iff_hasFDerivAt.mpr (hsum.congr_fderiv ?_)
  ext s
  have hlogs : ∑ i, (h x i)⁻¹ * h' s i = inner ℝ (reciprocal (h x)) (h' s) := by
    simp [PiLp.inner_apply, mul_comm]
  simp [hlogs, ContinuousLinearMap.adjoint_inner_left]

/-- The pullback of `y` by the Jacobian is the gradient of `⟨y, g x⟩`. -/
theorem hasGradientAt_inner {g : Euclidean n → Euclidean m} {g' : Euclidean n →L[ℝ] Euclidean m} (y : Euclidean m)
    (hg : HasFDerivAt g g' x) : HasGradientAt (fun z => inner ℝ y (g z)) (g'.adjoint y) x := by
  refine hasGradientAt_iff_hasFDerivAt.mpr (((innerSL ℝ y).hasFDerivAt.comp x hg).congr_fderiv ?_)
  ext s
  simp [ContinuousLinearMap.adjoint_inner_left]

theorem hasGradientAt_add {φ ψ : Euclidean n → ℝ} {a b : Euclidean n} (hφ : HasGradientAt φ a x)
    (hψ : HasGradientAt ψ b x) : HasGradientAt (fun z => φ z + ψ z) (a + b) x :=
  hasGradientAt_iff_hasFDerivAt.mpr ((hφ.hasFDerivAt.fun_add hψ.hasFDerivAt).congr_fderiv (map_add _ a b).symm)

/-- The derivative of a gradient is symmetric. -/
theorem isSymmetric_of_gradient {L : Euclidean n → ℝ} {a : Euclidean n → Euclidean n}
    {H : Euclidean n →L[ℝ] Euclidean n} (hL : ∀ᶠ z in 𝓝 x, HasGradientAt L (a z) z) (ha : HasFDerivAt a H x) :
    (H : Euclidean n →ₗ[ℝ] Euclidean n).IsSymmetric := by
  intro u v
  have hdual := (innerSL ℝ (E := Euclidean n)).hasFDerivAt.comp x ha
  have hsymm := second_derivative_symmetric_of_eventually (hL.mono fun z hz => hz.hasFDerivAt) hdual u v
  have huv : inner ℝ (H u) v = inner ℝ (H v) u := hsymm
  exact huv.trans (real_inner_comm _ _)

end ConstrainedOpt.Exact
