import ConstrainedOpt.Proofs.Derivatives
import ConstrainedOpt.Proofs.Diagnostics

/-! # Diagnostics of functions of degree two

Central differences of a function of degree at most two are its derivative, whatever the step size. So over the reals the
report of a check is the relative error of the derivative it is given, and is zero only for one that agrees with the true
derivative along the tested direction.
-/
namespace ConstrainedOpt
open Exact Journaled Checked
open scoped Gradient
variable {ε : Set.Ioi (0 : ℝ)} {n m : ℕ}

namespace Exact
variable {E F : Type} [NormedAddCommGroup E] [NormedSpace ℝ E] [NormedAddCommGroup F] [NormedSpace ℝ F]

/-- The function is a constant, a linear and a bilinear term. -/
def DegreeTwo (f : Euclidean n → E) : Prop :=
  ∃ (B : Euclidean n →L[ℝ] Euclidean n →L[ℝ] E) (L : Euclidean n →L[ℝ] E) (c : E), ∀ z, f z = B z z + L z + c

variable {f : Euclidean n → E}

theorem DegreeTwo.hasFDerivAt {B : Euclidean n →L[ℝ] Euclidean n →L[ℝ] E} {L : Euclidean n →L[ℝ] E} {c : E}
    (h : ∀ z, f z = B z z + L z + c) (x : Euclidean n) : HasFDerivAt f (B x + B.flip x + L) x := by
  have hsq := B.hasFDerivAt_of_bilinear (hasFDerivAt_id x) (hasFDerivAt_id x)
  have hsum := (hsq.add L.hasFDerivAt).add_const c
  refine (hsum.congr_fderiv ?_).congr_of_eventuallyEq (.of_forall h)
  ext s
  simp

/-- The derivative has degree at most one. -/
theorem degreeTwo_fderiv (h : DegreeTwo f) : DegreeTwo (fderiv ℝ f) := by
  obtain ⟨B, L, c, h⟩ := h
  refine ⟨0, B + B.flip, L, fun z => ?_⟩
  rw [(DegreeTwo.hasFDerivAt h z).fderiv]
  simp

theorem DegreeTwo.differentiable (h : DegreeTwo f) : Differentiable ℝ f := by
  obtain ⟨B, L, c, h⟩ := h
  exact fun x => (hasFDerivAt h x).differentiableAt

theorem DegreeTwo.comp {T : E → F} (hT : IsBoundedLinearMap ℝ T) (h : DegreeTwo f) : DegreeTwo fun z => T (f z) := by
  obtain ⟨B, L, c, h⟩ := h
  refine ⟨ContinuousLinearMap.compL ℝ (Euclidean n) E F hT.toContinuousLinearMap ∘L B, hT.toContinuousLinearMap ∘L L, T c,
    fun z => ?_⟩
  dsimp only
  rw [h, hT.map_add, hT.map_add]
  rfl

/-- Central differences are the derivative. -/
theorem DegreeTwo.central_difference (h : DegreeTwo f) (x d : Euclidean n) (r : ℝ) :
    f (x + r • d) - f (x + (-r) • d) = (2 * r) • fderiv ℝ f x d := by
  obtain ⟨B, L, c, h⟩ := h
  rw [(hasFDerivAt h x).fderiv, h, h]
  simp
  module

theorem isBoundedLinearMap_dual : IsBoundedLinearMap ℝ (InnerProductSpace.toDual ℝ (Euclidean n)).symm where
  map_add := map_add _
  map_smul a A := by simp
  bound := ⟨1, one_pos, fun A => by rw [one_mul, LinearIsometryEquiv.norm_map]⟩

theorem isBoundedLinearMap_adjoint_apply (w : Euclidean m) :
    IsBoundedLinearMap ℝ fun A : Euclidean n →L[ℝ] Euclidean m => A.adjoint w :=
  (ContinuousLinearMap.apply ℝ (Euclidean n) w).isBoundedLinearMap.comp isBoundedLinearMap_adjoint

theorem degreeTwo_gradient {φ : Euclidean n → ℝ} (h : DegreeTwo φ) : DegreeTwo (∇ φ) := by
  have hdual := (degreeTwo_fderiv h).comp isBoundedLinearMap_dual
  exact hdual

/-- The derivative of the adjoint is the adjoint of the second derivative. -/
theorem fderiv_adjoint_apply {G : Euclidean n → Euclidean m} (h : DegreeTwo G) (w : Euclidean m) (x d : Euclidean n) :
    fderiv ℝ (fun z => (fderiv ℝ G z).adjoint w) x d = (fderiv ℝ (fderiv ℝ G) x d).adjoint w := by
  have hderiv := (isBoundedLinearMap_adjoint_apply w).hasFDerivAt.comp x ((degreeTwo_fderiv h).differentiable x).hasFDerivAt
  exact congrArg (· d) hderiv.fderiv

end Exact

namespace Diagnostics

/-- The check yields the relative error of `b` against the true value `a`, which is zero exactly if they agree. -/
def Measures {E : Type} [NormedAddCommGroup E] (check : Journaled (Exact ε) (Exact ε)) (a b : E) : Prop :=
  check.Yields fun e => e = real (‖a - b‖ / (ε + ‖b‖)) ∧ (e = real 0 ↔ a = b)

/-- The smallest of the errors for the step sizes left, if all of them are the same. It is infinite before the first one. -/
theorem stepReport_same {errorAt : Exact ε → Checked (Exact ε)} {e : ℝ} (h : ∀ r : ℝ, r ≠ 0 → errorAt (real r) = .ok (real e))
    (ks : List ℕ) {best : Exact ε} (hbest : best = real e ∨ best = infinite false ∧ ks ≠ []) :
    (stepReport errorAt ks best).Yields fun b => b = real e := by
  induction ks generalizing best with
  | nil => exact yields_pure (hbest.resolve_right fun hfirst => hfirst.2 rfl)
  | cons j ks ih =>
    obtain ⟨r, hr, htenth⟩ := tenth_real (ε := ε) j
    unfold stepReport
    rw [htenth]
    refine yields_lift_bind (h r hr) ?_
    refine yields_bind (P := fun _ => True) (fun _ => ⟨(), _, rfl, trivial⟩) fun _ _ => ih (.inl ?_)
    rcases hbest with rfl | ⟨rfl, -⟩
    · rw [minNum_real, min_self]
    · exact infinite_minNum _

/-- A report of the same error for all step sizes. -/
theorem differenceReport_measures {E : Type} [NormedAddCommGroup E] (title : String)
    {errorAt : Exact ε → Checked (Exact ε)} {a b : E}
    (h : ∀ r : ℝ, r ≠ 0 → errorAt (real r) = .ok (real (‖a - b‖ / (ε + ‖b‖)))) :
    Measures (differenceReport title errorAt) a b := by
  have hzero : ‖a - b‖ / (ε + ‖b‖) = 0 ↔ a = b := by
    have hpos : (ε : ℝ) + ‖b‖ ≠ 0 := (add_pos_of_pos_of_nonneg ε.2 (norm_nonneg b)).ne'
    rw [div_eq_zero_iff, or_iff_left hpos, norm_eq_zero, sub_eq_zero]
  refine yields_bind (P := fun _ => True) (fun _ => ⟨(), _, rfl, trivial⟩) fun _ _ => ?_
  refine yields_bind (stepReport_same h _ (.inr ⟨rfl, List.cons_ne_nil _ _⟩)) fun best hbest => ?_
  refine yields_bind (yields_log _ _) fun _ _ => yields_pure ⟨hbest, ?_⟩
  rw [hbest, real_inj, hzero]

/-- The report on a derivative of a function of degree two. -/
theorem differenceReport_exact (title : String) {f : Vec (Exact ε) → Checked (Vec (Exact ε))}
    {ψ : Euclidean n → Euclidean m} (hψ : DegreeTwo ψ) (hf : ∀ z, f (vec z) = .ok (vec (ψ z))) (x d : Euclidean n)
    (v : Euclidean m) :
    Measures (differenceReport title fun ε => do relativeErrorVec (← difference f (vec x) (vec d) ε) (vec v))
      (fderiv ℝ ψ x d) v := by
  refine differenceReport_measures title fun r hr => ?_
  refine Checked.bind_eq_ok.mpr ⟨_, difference_eq hf x d hr, ?_⟩
  rw [hψ.central_difference, one_div, inv_smul_smul₀ (mul_ne_zero two_ne_zero hr), relativeErrorVec_eq]

/-- Checks of functions of degree at most two measure the derivatives they are given, at all points and along all directions.

The objective has the value of `φ`, the constraint that of `G`; `v` and `w` are what they answer as a derivative. The check
of a second derivative takes differences of the first, which is the true one. -/
theorem checks_exact {φ : Euclidean n → ℝ} (hφ : DegreeTwo φ) {G : Euclidean n → Euclidean m} (hG : DegreeTwo G)
    {o : Objective (Exact ε)} (hvalue : ∀ z, o.value (vec z) = .ok (real (φ z)))
    {c : Constraint (Exact ε)} (hrows : c.rows = m) (hcols : c.cols = n) (hvec : ∀ z, c.value (vec z) m = .ok (vec (G z)))
    (x dx : Euclidean n) (dy : Euclidean m) :
    (∀ v : Euclidean n, o.gradient (vec x) n = .ok (vec v) →
      Measures (gradientCheck o (vec x) (vec dx)) (inner ℝ (∇ φ x) dx) (inner ℝ v dx)) ∧
    (∀ v : Euclidean n, (∀ z, o.gradient (vec z) n = .ok (vec (∇ φ z))) → o.hessian (vec x) (vec dx) n = .ok (vec v) →
      Measures (hessianCheck o (vec x) (vec dx)) (fderiv ℝ (∇ φ) x dx) v) ∧
    (∀ w : Euclidean m, c.forward (vec x) (vec dx) m = .ok (vec w) →
      Measures (derivativeCheck c (vec x) (vec dx)) (fderiv ℝ G x dx) w) ∧
    ∀ v : Euclidean n, (∀ z, c.adjoint (vec z) (vec dy) n = .ok (vec ((fderiv ℝ G z).adjoint dy))) →
      c.second (vec x) (vec dx) (vec dy) n = .ok (vec v) →
      Measures (secondDerivativeCheck c (vec x) (vec dx) (vec dy)) ((fderiv ℝ (fderiv ℝ G) x dx).adjoint dy) v := by
  refine ⟨fun v hv => ?_, fun v hgrad hv => ?_, fun w hw => ?_, fun v hadjoint hv => ?_⟩
  · unfold gradientCheck
    rw [length_vec]
    refine yields_lift_bind hv ?_
    refine yields_lift_bind checked_inner_vec ?_
    refine differenceReport_measures _ fun r hr => ?_
    have hslope : fderiv ℝ φ x dx = inner ℝ (∇ φ x) dx :=
      (InnerProductSpace.toDual_symm_apply (𝕜 := ℝ) (x := dx) (y := fderiv ℝ φ x)).symm
    rw [slopeError_eq hvalue x dx _ hr, hφ.central_difference, smul_eq_mul,
      mul_div_cancel_left₀ _ (mul_ne_zero two_ne_zero hr), hslope]
  · unfold hessianCheck
    rw [length_vec]
    refine yields_lift_bind hv ?_
    exact differenceReport_exact _ (degreeTwo_gradient hφ) hgrad x dx v
  · unfold derivativeCheck
    rw [hrows]
    refine yields_lift_bind hw ?_
    exact differenceReport_exact _ hG hvec x dx w
  · unfold secondDerivativeCheck
    rw [hcols, ← fderiv_adjoint_apply hG]
    refine yields_lift_bind hv ?_
    exact differenceReport_exact _ ((degreeTwo_fderiv hG).comp (isBoundedLinearMap_adjoint_apply dy)) hadjoint x dx v

theorem degreeTwo_halfSquare : DegreeTwo fun z : Euclidean n => (1 : ℝ) / 2 * inner ℝ z z :=
  ⟨(1 / 2 : ℝ) • innerSL ℝ, 0, 0, fun _ => (add_zero _).symm.trans (add_zero _).symm⟩

theorem degreeTwo_ballSlack (r : ℝ) : DegreeTwo (ballSlack r : Euclidean n → Euclidean 1) := by
  refine ⟨(ContinuousLinearMap.smulRightL ℝ (Euclidean n) (Euclidean 1)).flip (WithLp.toLp 2 fun _ => -1) ∘L innerSL ℝ, 0,
    WithLp.toLp 2 fun _ => r, fun z => ?_⟩
  ext i
  change r - inner ℝ z z = inner ℝ z z * -1 + 0 + r
  ring

/-- The half square with twice its Hessian, and the unit ball with a second derivative that is the direction: the checks of
the first derivatives find nothing, those of the second ones do. -/
theorem checks_exact_doubled :
    let o : Objective (Exact ⟨1, Set.mem_Ioi.mpr one_pos⟩) :=
      { Problem.leastHalfSquare.objective with hessian := fun _ dx _ => .ok (Vec.scale Scalar.two dx) }
    let c : Constraint (Exact ⟨1, Set.mem_Ioi.mpr one_pos⟩) := { Constraint.ball 1 1 with second := fun _ dx _ _ => .ok dx }
    let x : Euclidean 1 := WithLp.toLp 2 fun _ => 1
    (∀ z : Euclidean 1, o.value (vec z) = .ok (real (1 / 2 * inner ℝ z z))) ∧
    (∀ z : Euclidean 1, c.value (vec z) 1 = .ok (vec (ballSlack 1 z))) ∧
    Measures (gradientCheck o (vec x) (vec x)) (inner ℝ x x) (inner ℝ x x) ∧
    Measures (hessianCheck o (vec x) (vec x)) x ((2 : ℝ) • x) ∧
    Measures (derivativeCheck c (vec x) (vec x)) ((-2 : ℝ) • x) ((-2 : ℝ) • x) ∧
    Measures (secondDerivativeCheck c (vec x) (vec x) (vec x)) ((-2 : ℝ) • x) x := by
  intro o c x
  have hunit : inner ℝ x x = 1 := by
    rw [PiLp.inner_apply, Fin.sum_univ_one]
    norm_num [x]
  have hcorrect (z : Euclidean 1) := Constraint.ball_differentiates (ε := ⟨1, Set.mem_Ioi.mpr one_pos⟩) 1 z
  have hvalue : ∀ z : Euclidean 1, o.value (vec z) = .ok (real (1 / 2 * inner ℝ z z)) := fun z => by
    simp [o, Problem.leastHalfSquare]
  have hgrad : ∇ (fun z : Euclidean 1 => (1 : ℝ) / 2 * inner ℝ z z) = id :=
    funext fun z => (Problem.hasGradientAt_halfSquare z).gradient
  have hcopy : ∀ z : Euclidean 1, o.gradient (vec z) 1 = .ok (vec z) := fun z =>
    Checked.copy_eq_ok.mpr ⟨by simp, rfl⟩
  have htwice : o.hessian (vec x) (vec x) 1 = .ok (vec ((2 : ℝ) • x)) := by
    change Except.ok (Vec.scale Scalar.two (vec x)) = _
    rw [two_eq, scale_vec]
  have hforward : fderiv ℝ (ballSlack 1) x x = (-2 : ℝ) • x := by
    rw [fderiv_ballSlack]
    ext i
    change inner ℝ x x * -2 = -2 * 1
    rw [hunit, one_mul, mul_one]
  have hsecond : (fderiv ℝ (fderiv ℝ (ballSlack 1)) x x).adjoint x = (-2 : ℝ) • x := by
    have hderiv : HasFDerivAt (fun z : Euclidean 1 => (-(2 * x 0)) • z) ((-(2 * x 0)) • ContinuousLinearMap.id ℝ _) x :=
      (hasFDerivAt_id x).fun_const_smul _
    rw [← fderiv_adjoint_apply (degreeTwo_ballSlack 1)]
    simp only [adjoint_fderiv_ballSlack]
    rw [hderiv.fderiv]
    norm_num [x]
  obtain ⟨hfirst, hhessian, hderivative, hadjoint⟩ := checks_exact degreeTwo_halfSquare (degreeTwo_ballSlack 1) hvalue
    (c := c) rfl rfl (fun z => (hcorrect z).value) x x x
  rw [hgrad] at hfirst hhessian
  rw [hforward] at hderivative
  rw [hsecond] at hadjoint
  refine ⟨hvalue, fun z => (hcorrect z).value, hfirst x (hcopy x), ?_, hderivative _ ?_,
    hadjoint x (fun z => ?_) rfl⟩
  · have hmeasures := hhessian _ hcopy htwice
    rwa [fderiv_id] at hmeasures
  · rw [← hforward]
    exact (hcorrect x).linearises.forward x
  · exact (hcorrect z).linearises.adjoint x

end Diagnostics
end ConstrainedOpt
