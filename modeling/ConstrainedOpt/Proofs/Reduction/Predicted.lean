import ConstrainedOpt.Proofs.Containment.Composite
import ConstrainedOpt.Proofs.Step.Krylov

/-! # Predicted reductions

With an exact projector the tangential step does not change the linearised constraint, so the violation a
composite step predicts is that of its quasinormal step, which does not raise it. The value of the model there
adds up from those of the two parts, and the penalty is raised until the reduction of the violation outweighs it.
-/
namespace ConstrainedOpt
open Exact Journaled TruncatedCG
variable {ε : Set.Ioi (0 : ℝ)} {n m l : ℕ} {k : Setup (Exact ε)} {s t : State (Exact ε)}
  {J : Euclidean n →ₗ[ℝ] Euclidean m} {H : Euclidean n →ₗ[ℝ] Euclidean n} {g : Euclidean m} {a d e : Euclidean n}
  {γ ζ δ ρ : ℝ}

/-- The projector of a run on an equality constraint `c` is exact: no tolerance, and an iteration for each row. -/
structure Setup.ExactProjector (k : Setup (Exact ε)) (c : Constraint (Exact ε)) : Prop where
  equality : k.problem.equality = some c
  tolerance : k.par.normalEq.epsRel = real 0
  iterations : c.rows ≤ k.par.normalEq.maxIter

/-- The reduction of the linearised violation by the step `w`. -/
noncomputable def violationReduction (J : Euclidean n →ₗ[ℝ] Euclidean m) (g : Euclidean m) (w : Euclidean n) : ℝ :=
  ‖g‖ ^ 2 - ‖g + J w‖ ^ 2

namespace TrustRegion
variable {c : Constraint (Exact ε)}

theorem projector_acts (hc : k.ExactProjector c) (hJ : (c.jacobian s.x).Acts J) :
    (projector k s).Acts (NormalEquations.kernelProjection J) := by
  have hiter : m ≤ k.par.normalEq.maxIter := (hJ.rows : c.rows = m) ▸ hc.iterations
  unfold projector
  rw [hc.equality]
  exact Barrier.nullProjector_acts hJ hc.tolerance ((NormalEquations.rank_le_rows J).trans hiter)

/-- The tangential space is the null space of the constraint. -/
theorem projector_into_kernel (hc : k.ExactProjector c) (hJ : (c.jacobian s.x).Acts J) (x : Vec (Exact ε)) :
    ((projector k s).apply 1 x 0 (vec (0 : Euclidean n))).Ensures fun z =>
      Vec.isFinite z = true → ∃ v ∈ LinearMap.ker J, z = vec v := by
  have hiter : m ≤ k.par.normalEq.maxIter := (hJ.rows : c.rows = m) ▸ hc.iterations
  unfold projector
  rw [hc.equality]
  exact Barrier.nullProjector_into hJ hc.tolerance ((NormalEquations.rank_le_rows J).trans hiter) x

/-! ### The quasinormal step -/

/-- A quasinormal step vanishes or reduces the linearised violation. -/
theorem normalStep_reduces {J' : Euclidean n →ₗ[ℝ] Euclidean l} {h : Euclidean l} (hk : k.RealAt s J' h)
    (hpar : k.par.Fractions γ ζ) (hδ : s.delta = real δ) (hδ0 : 0 < δ) (hc : k.problem.equality = some c)
    (hJ : (c.jacobian s.x).Acts J) (hg : s.g = vec g) {stop : QuasinormalStop} (hstep : k.NormalStep s (vec d) stop) :
    d = 0 ∨ ‖g + J d‖ < ‖g‖ := by
  have hκ : 0 ≤ ζ * γ := mul_nonneg hpar.zeta_pos.le hpar.gamma_pos.le
  unfold Setup.NormalStep at hstep
  rw [hc] at hstep
  obtain ⟨sg, r, report, hsg, hr, hout, hd, -⟩ := hstep
  rw [hpar.zeta, hpar.gamma, real_mul] at hsg
  rw [hδ, hg] at hr
  have hguards := (hk.safeguard hκ).answer hsg sg rfl
  have hzero : Within (k.problem.safe J' h (ζ * γ)) (real (ζ * δ) : Exact ε) 0 := by
    refine ⟨?_, Problem.zero_mem_safe hk.slack hκ⟩
    rw [norm_zero]
    exact real_le.mpr (mul_nonneg hpar.zeta_pos.le hδ0.le)
  have hsolve := Quasinormal.solve_reduces hJ hguards hzero hpar.zeta g s.dxNormal s.dxCauchy
    (Quasinormal.workLength k.equalities k.n)
  obtain ⟨d', hd', hreduces⟩ := hsolve.answer hr report hout
  rw [vec_inj.mp (hd.symm.trans hd')]
  exact hreduces

theorem violationReduction_nonneg (hd : d = 0 ∨ ‖g + J d‖ < ‖g‖) : 0 ≤ violationReduction J g d := by
  refine sub_nonneg.mpr (pow_le_pow_left₀ (norm_nonneg _) ?_ 2)
  rcases hd with rfl | hd
  · rw [map_zero, add_zero]
  · exact hd.le

theorem eq_zero_of_violationReduction (hd : d = 0 ∨ ‖g + J d‖ < ‖g‖) (hv : violationReduction J g d ≤ 0) : d = 0 := by
  refine hd.resolve_right fun hlt => ?_
  have hsq := pow_lt_pow_left₀ hlt (norm_nonneg _) two_ne_zero
  exact hv.not_gt (sub_pos.mpr hsq)

/-- A step in the null space changes nothing of the linearised constraint. -/
theorem linear_add_kernel (he : e ∈ LinearMap.ker J) : J (d + e) = J d := by
  rw [map_add, LinearMap.mem_ker.mp he, add_zero]

/-! ### The prediction -/

theorem modelAndViolation_ensures (hdim : k.n = n) (hc : k.problem.equality = some c)
    (hJ : (c.jacobian s.x).Acts J) (hH : (k.hessian s).Acts H) (hg : s.g = vec g) (ha : s.grad = vec a)
    (hdx : s.dx = vec d) :
    (modelAndViolation k s).Ensures fun r => r = (real (quadratic H a d), real (violationReduction J g d)) := by
  unfold modelAndViolation
  rw [hdx, ha, hg, hdim, zeros_eq, hc]
  refine ensures_bind (hH.apply 1 0 d 0) ?_
  rintro _ rfl
  rw [one_smul, smul_zero, add_zero]
  refine ensures_bind (ensures_lift fun _ => checked_inner_eq_ok) ?_
  rintro _ rfl
  refine ensures_bind (ensures_lift fun _ => checked_inner_eq_ok) ?_
  rintro _ rfl
  refine ensures_bind (hJ.apply 1 1 d g) ?_
  rintro _ rfl
  refine ensures_pure ?_
  rw [half_eq, norm_vec, norm_vec, one_smul, one_smul, real_mul, real_add, real_mul, real_mul, real_sub, ← pow_two,
    ← pow_two, add_comm (J d)]
  rfl

/-- The penalty grows, until half of it outweighs the model against a reduction of the violation. -/
theorem raisedPenalty_real (hρ : 0 < ρ) (q v : ℝ) :
    ∃ ρ', raisedPenalty (real ρ : Exact ε) (real q) (real v) = real ρ' ∧ ρ ≤ ρ' ∧ (0 < v → q ≤ 1 / 2 * ρ' * v) := by
  unfold raisedPenalty
  rw [half_eq, two_eq, zero_eq, real_mul, real_mul, real_mul, real_mul]
  split
  case isTrue h =>
    have h : 0 < v ∧ 1 / 2 * ρ * v < q := h
    rw [real_div h.1.ne', maxNum_real]
    refine ⟨_, rfl, le_max_of_le_left (by linarith), fun hv => ?_⟩
    have hle : 2 * q / v ≤ max (2 * ρ) (2 * q / v) := le_max_right _ _
    rw [div_le_iff₀ hv] at hle
    linarith
  case isFalse h => exact ⟨ρ, rfl, le_rfl, fun hv => not_lt.mp fun hlt => h ⟨hv, hlt⟩⟩

theorem Raised.real {rho : Exact ε} (h : Raised k s rho) (hdim : k.n = n) (hc : k.problem.equality = some c)
    (hJ : (c.jacobian s.x).Acts J) (hH : (k.hessian s).Acts H) (hg : s.g = vec g) (ha : s.grad = vec a)
    (hdx : s.dx = vec d) (hrho : s.rho = Exact.real ρ) (hρ : 0 < ρ) : ∃ ρ', rho = Exact.real ρ' ∧ 0 < ρ' := by
  obtain ⟨q, v, hanswer, rfl⟩ := h
  obtain ⟨rfl, rfl⟩ := Prod.mk.inj ((modelAndViolation_ensures hdim hc hJ hH hg ha hdx).answer hanswer)
  obtain ⟨ρ', hρ', hle, -⟩ := raisedPenalty_real (ε := ε) hρ (quadratic H a d) (violationReduction J g d)
  exact ⟨ρ', by rw [hrho, hρ'], hρ.trans_le hle⟩

/-- What a composite step `d + e` promises at a state where it is judged: the tangential part `e` is in the null
space of the constraint, the violation `‖g‖` does not grow to first order, the model adds up from its two parts, and the
predicted reduction of the merit function is at least half that of its penalty term. -/
structure Promises (k : Setup (Exact ε)) (s : State (Exact ε)) (J : Euclidean n →ₗ[ℝ] Euclidean m)
    (H : Euclidean n →ₗ[ℝ] Euclidean n) (g : Euclidean m) (a d e : Euclidean n) (ρ : ℝ) : Prop where
  normal : s.dxNormal = vec d
  tangential : s.dxTangential = vec e
  dx : s.dx = vec (d + e)
  grad : s.grad = vec a
  values : s.g = vec g
  rho : s.rho = real ρ
  kernel : J e = 0
  linear : g + J (d + e) = g + J d
  violation : 0 ≤ violationReduction J g (d + e)
  model : ∃ out q, (tangentialSolve k s).answer = .ok (.ok out) ∧ out.step = s.dxTangential ∧ out.model = real q ∧
    ∀ r, (modelAndViolation k s).answer = .ok r →
      r = (real (inner ℝ a d + 1 / 2 * inner ℝ d (H d) + q), real (violationReduction J g (d + e)))
  predicted : ∀ pred r, (predictedReduction k).run ⟨s, #[]⟩ = (.ok pred, r) → ∃ ρ' π : ℝ,
    r.state.rho = real ρ' ∧ pred = real π ∧ ρ ≤ ρ' ∧ 1 / 2 * ρ' * violationReduction J g (d + e) ≤ π ∧ 0 ≤ π

theorem predictedReduction_run {pred : Exact ε} {r : Run (Exact ε)}
    (h : (predictedReduction k).run ⟨s, #[]⟩ = (.ok pred, r)) :
    ∃ q v, (modelAndViolation k s).answer = .ok (q, v) ∧ r.state.rho = raisedPenalty s.rho q v ∧
      pred = -q + raisedPenalty s.rho q v * v := by
  obtain ⟨_, -, -, hok, -⟩ := Running.wp_run (predictedReduction_spec (W := .any) k s) #[]
  rw [h] at hok
  obtain ⟨q, v, hanswer, hstate, hpred⟩ := hok pred rfl
  exact ⟨q, v, hanswer, by rw [hstate], hpred⟩

/-- A composite step in the null space with a quasinormal part that reduces the violation promises a reduction. -/
theorem Composed.promises {J' : Euclidean n →ₗ[ℝ] Euclidean l} {h : Euclidean l}
    (hs : Composed k (LinearMap.ker J) J' h γ δ s d e) (hd : d = 0 ∨ ‖g + J d‖ < ‖g‖) (hdim : k.n = n)
    (hc : k.problem.equality = some c) (hJ : (c.jacobian s.x).Acts J) (hmodel : k.ModelAt s H a) (hg : s.g = vec g)
    (hrho : s.rho = real ρ) (hρ : 0 < ρ) : Promises k s J H g a d e ρ := by
  obtain ⟨out, hout, hstep, hvalue⟩ := hs.answer
  obtain ⟨hq, hnonpos⟩ := hvalue H a hmodel
  have hlinear : J (d + e) = J d := linear_add_kernel hs.mem
  have hv : violationReduction J g (d + e) = violationReduction J g d := by
    unfold violationReduction
    rw [hlinear]
  have hnonneg := violationReduction_nonneg hd
  have hsplit : quadratic H a (d + e) = quadratic H a d + quadratic H (a + H d) e := quadratic_split hmodel.symmetric
  have hboth := modelAndViolation_ensures hdim hc hJ hmodel.hessian hg hmodel.grad hs.dx
  refine ⟨hs.normal, hs.tangential, hs.dx, hmodel.grad, hg, hrho, LinearMap.mem_ker.mp hs.mem, by rw [hlinear],
    hv ▸ hnonneg, ⟨out, _, hout, hstep, hq, fun r hr => ?_⟩, fun pred r hr => ?_⟩
  · rw [hboth.answer hr, hsplit]
    rfl
  · obtain ⟨q, v, hanswer, hstate, hpred⟩ := predictedReduction_run hr
    obtain ⟨rfl, rfl⟩ := Prod.mk.inj (hboth.answer hanswer)
    obtain ⟨ρ', hρ', hle, hweight⟩ := raisedPenalty_real (ε := ε) hρ (quadratic H a (d + e))
      (violationReduction J g (d + e))
    rw [hrho, hρ'] at hstate hpred
    rw [real_neg, real_mul, real_add] at hpred
    have hhalf : 0 ≤ 1 / 2 * ρ' * violationReduction J g (d + e) := by
      rw [hv]
      have hpos := hρ.trans_le hle
      positivity
    have hbound : 1 / 2 * ρ' * violationReduction J g (d + e) ≤
        -quadratic H a (d + e) + ρ' * violationReduction J g (d + e) := by
      rcases (hv ▸ hnonneg).eq_or_lt with hzero | hpos
      · -- without a reduction of the violation there is no quasinormal step, and the model does not rise
        have hd0 : quadratic H a d = 0 := by
          rw [eq_zero_of_violationReduction hd (hv ▸ hzero.ge), quadratic_zero]
        rw [← hzero]
        linarith
      · have := hweight hpos
        linarith
    exact ⟨ρ', _, hstate, hpred, hle, hbound, hhalf.trans hbound⟩

end TrustRegion
end ConstrainedOpt
