import ConstrainedOpt.Proofs.Quadratic.Program
import ConstrainedOpt.Proofs.Reduction.Merit
import ConstrainedOpt.Proofs.Reduction.Runs
import ConstrainedOpt.Proofs.Step.Segments

/-! # Trust-region steps on quadratic programs

On a quadratic program with its exact Hessian the model is exact: an attempt computes its step without a fault, the
merit falls by exactly what was predicted, and the attempt ends with an accepted step.
-/
namespace ConstrainedOpt
open Exact Journaled Running
variable {ε : Set.Ioi (0 : ℝ)} {n m : ℕ} {Q : QuadraticProgram n m} {k : Setup (Exact ε)} {s t : State (Exact ε)}
  {x d e : Euclidean n} {y : Euclidean m}

/-- What is asked of the parameters of a trust-region run with `m` equality constraints: the exact Hessian, an exact
projector, tolerances that are not negative, and a finite radius and penalty. -/
structure Parameters.ExactSteps (par : Parameters (Exact ε)) (m : ℕ) : Prop where
  algorithm : par.algorithm = .trustRegion
  hessian : par.hessian = .userDefined
  tolerance : par.normalEq.epsRel = real 0
  iterations : m ≤ par.normalEq.maxIter
  eps : Nonneg par.truncated.eps
  epsSym : Nonneg par.truncated.epsSym
  epsProj : Nonneg par.truncated.epsProj
  epsOrth : Nonneg par.truncated.epsOrth
  epsNewton : Nonneg par.quasinormal.normalEq.epsRel
  delta : Scalar.isFinite par.delta = true
  rho : Scalar.isFinite par.rho = true

/-- The preconditioner is symmetric and positive semidefinite, whatever real pairs are stored. -/
def Setup.PreconditionsSymmetrically (k : Setup (Exact ε)) (n : ℕ) : Prop :=
  ∀ s : State (Exact ε), s.history.Real n → ∃ B : Euclidean n →ₗ[ℝ] Euclidean n,
    (k.preconditioner s).Acts B ∧ B.IsSymmetric ∧ ∀ v, 0 ≤ inner ℝ v (B v)

/-- A trust-region run on a quadratic program whose steps are exact. -/
structure Setup.Programmed (k : Setup (Exact ε)) (Q : QuadraticProgram n m) : Prop extends k.par.ExactSteps m where
  poses : k.problem.Poses Q
  dim : k.n = n
  hooks : k.hooks.Observing
  valid : k.parameterError? = none
  preconditioner : k.PreconditionsSymmetrically n

/-- A state at the point `x` of a quadratic program with the multipliers `y`. -/
structure Setup.At (k : Setup (Exact ε)) (Q : QuadraticProgram n m) (x : Euclidean n) (y : Euclidean m)
    (s : State (Exact ε)) : Prop where
  point : s.x = vec x
  objective : s.f = real (Q.value x)
  values : s.g = vec (Q.constraint x)
  slack : s.h = []
  multipliers : s.y = vec y
  grad : s.grad = vec (Q.gradient x y)
  history : s.history.Real n
  sizes : s.history.Sized n

/-- The vectors the parts of a step are written to have their sizes. -/
structure State.Roomy (n : ℕ) (s : State (Exact ε)) : Prop where
  normal : s.dxNormal.length = n
  cauchy : s.dxCauchy.length = n
  tangential : s.dxTangential.length = n

theorem Setup.At.of_kept (hs : k.At Q x y s) (ht : t.kept = s.kept) : k.At Q x y t := by
  have hx : t.x = s.x := congrArg Kept.x ht
  have hf : t.f = s.f := congrArg Kept.f ht
  have hg : t.g = s.g := congrArg Kept.g ht
  have hh : t.h = s.h := congrArg Kept.h ht
  have hy : t.y = s.y := congrArg Kept.y ht
  have hgrad : t.grad = s.grad := congrArg Kept.grad ht
  have hhistory : t.history = s.history := congrArg Kept.history ht
  exact ⟨hx.trans hs.point, hf.trans hs.objective, hg.trans hs.values, hh.trans hs.slack, hy.trans hs.multipliers,
    hgrad.trans hs.grad, hhistory ▸ hs.history, hhistory ▸ hs.sizes⟩

namespace Setup.Programmed
variable (hk : k.Programmed Q)
include hk

theorem fills : k.problem.Fills k.n := hk.dim ▸ hk.poses.fills

theorem equalities : k.equalities = m := hk.poses.equalities

theorem sized (hs : k.At Q x y s) (hroom : s.Roomy n) : k.Sized s where
  x := by rw [hs.point, length_vec, hk.dim]
  y := by rw [hs.multipliers, length_vec, hk.equalities]
  g := by rw [hs.values, length_vec, hk.equalities]
  h := by
    rw [hs.slack]
    exact hk.poses.inequalities.symm
  grad := by rw [hs.grad, length_vec, hk.dim]
  dxNormal := hroom.normal.trans hk.dim.symm
  dxCauchy := hroom.cauchy.trans hk.dim.symm
  dxTangential := hroom.tangential.trans hk.dim.symm
  history := hk.dim ▸ hs.sizes

theorem safeguard_eq (s : State (Exact ε)) (κ : Exact ε) : k.safeguard s κ = pure (.ok .unlimited) := by
  unfold Setup.safeguard
  rw [hk.poses.inequality]

theorem hessian_acts (hs : k.At Q x y s) : (k.hessian s).Acts Q.P := by
  unfold Setup.hessian
  rw [hk.hessian]
  change (Barrier.hessian k.problem s.x s.y s.h s.mu).Acts Q.P
  rw [hs.multipliers]
  exact hk.poses.hessian_acts (by rw [hs.point, length_vec]) y s.h s.mu

/-- Without a constraint the projector is the identity, which is the projection onto everything. -/
theorem projector_acts (hs : k.At Q x y s) :
    (TrustRegion.projector k s).Acts (NormalEquations.kernelProjection Q.A) := by
  cases hc : k.problem.equality with
  | none =>
    have := hk.poses.multipliers_subsingleton hc
    have hid : NormalEquations.kernelProjection Q.A = LinearMap.id := by
      refine LinearMap.ext fun v => ?_
      rw [← NormalEquations.sub_adjoint_eq_kernelProjection (L := Q.A) (w := 0) (Subsingleton.elim _ _), map_zero, sub_zero]
      rfl
    unfold TrustRegion.projector
    rw [hc, hid, hk.dim]
    refine ⟨rfl, rfl, axpby_ensures, ?_⟩
    rw [LinearMap.adjoint_id]
    exact axpby_ensures
  | some c =>
    have hA := hk.poses.jacobian_acts hc x
    have hrows : c.rows = m := hA.rows
    rw [← hs.point] at hA
    exact TrustRegion.projector_acts ⟨hc, hk.tolerance, hrows ▸ hk.iterations⟩ hA

theorem projector_into (hs : s.x = vec x) (v : Vec (Exact ε)) :
    ((TrustRegion.projector k s).apply 1 v 0 (vec (0 : Euclidean n))).Ensures fun z =>
      Vec.isFinite z = true → ∃ u ∈ LinearMap.ker Q.A, z = vec u := by
  cases hc : k.problem.equality with
  | none =>
    have := hk.poses.multipliers_subsingleton hc
    refine (TrustRegion.projector_into k s v).mono fun z hz hfin => ?_
    obtain ⟨u, -, hu⟩ := hz hfin
    exact ⟨u, LinearMap.mem_ker.mpr (Subsingleton.elim _ _), hu⟩
  | some c =>
    have hA := hk.poses.jacobian_acts hc x
    have hrows : c.rows = m := hA.rows
    rw [← hs] at hA
    exact TrustRegion.projector_into_kernel ⟨hc, hk.tolerance, hrows ▸ hk.iterations⟩ hA v

theorem realAt (hs : k.At Q x y s) : k.RealAt s (0 : Euclidean n →ₗ[ℝ] Euclidean 0) 0 where
  dim := hk.dim
  length := by rw [hs.point, length_vec]
  hessian := by
    have hlength : s.x.length = n := by rw [hs.point, length_vec]
    unfold Setup.hessian
    rw [hk.hessian]
    exact (hk.poses.hessian_strict hlength s.y s.h s.mu).propagates hlength
  equality c hc := by
    have hA := hk.poses.jacobian_acts hc x
    have hrows : c.rows = m := hA.rows
    rw [hs.point, hrows]
    exact hA.pulls
  inequality c hc := by
    rw [hk.poses.inequality] at hc
    cases hc
  slack h := absurd hk.poses.inequality h

theorem modelAt (hs : k.At Q x y s) : k.ModelAt s Q.P (Q.gradient x y) := by
  obtain ⟨B, hB, -, hpos⟩ := hk.preconditioner s hs.history
  exact ⟨hk.hessian_acts hs, Q.symmetric, hs.grad, ⟨B, hB, hpos⟩, _, hk.projector_acts hs,
    NormalEquations.kernelProjection_symmetric⟩

/-- The tangential solve meets no fault. -/
theorem tangentialSolve_harmless (hs : k.At Q x y s) (hd : s.dxNormal = vec d) :
    (TrustRegion.tangentialSolve k s).Ensures fun out => ∀ r, out = .ok r → r.stop.Harmless := by
  obtain ⟨B, hB, hsym, hpos⟩ := hk.preconditioner s hs.history
  unfold TrustRegion.tangentialSolve
  rw [hd, hs.grad, hk.safeguard_eq]
  refine ensures_bind ((hk.hessian_acts hs).apply 1 1 d (Q.gradient x y)) ?_
  rintro _ rfl
  refine ensures_bind (P := fun r => r = .ok .unlimited) (ensures_pure rfl) ?_
  rintro _ rfl
  refine TruncatedCG.solve_harmless (H := Q.P) (B := B) (C := NormalEquations.kernelProjection Q.A) ?_ rfl _ _ _
  exact {
    hessian := hk.hessian_acts hs
    symmetric := Q.symmetric
    preconditioner := hB
    preconditioner_symmetric := hsym
    preconditioner_nonneg := hpos
    projector := hk.projector_acts hs
    projector_symmetric := NormalEquations.kernelProjection_symmetric
    idempotent := NormalEquations.kernelProjection_idempotent
    safeguard := rfl
    eps := hk.eps
    epsSym := hk.epsSym
    epsProj := hk.epsProj
    epsOrth := hk.epsOrth }

/-! ### The composite step -/

variable {W : Watch (Exact ε)} {E : Halt → State (Exact ε) → Prop}

/-- A quasinormal step is found, and no safeguard cuts it. -/
theorem quasinormalStep_wp (hs : k.At Q x y s) (hroom : s.Roomy n) :
    wp W (TrustRegion.quasinormalStep k)
      (fun q t => ∃ step cauchy stop, q = .ok stop ∧ stop.isSafeguard = false ∧ k.NormalStep s step stop ∧
        step.length = n ∧ cauchy.length = n ∧ t = { s with dxNormal := step, dxCauchy := cauchy }) E s := by
  have hsized := hk.sized hs hroom
  unfold TrustRegion.quasinormalStep
  refine wp_bind (wp_getState ?_)
  split
  case h_1 hc =>
    refine wp_bind (wp_update (wp_pure ⟨_, _, _, rfl, rfl, ?_, ?_, ?_, rfl⟩))
    · simp [Setup.NormalStep, hc]
    · rw [Vec.length_zerosLike, hroom.normal]
    · rw [Vec.length_zerosLike, hroom.cauchy]
  case h_2 c hc =>
    have hA := hk.poses.jacobian_acts hc x
    rw [← hs.point] at hA
    have huncut := Quasinormal.solve_uncut hA hk.epsNewton (Q.constraint x) s.delta s.dxNormal s.dxCauchy
      (Quasinormal.workLength k.equalities k.n)
    rw [← hs.values] at huncut
    have hsafe : (k.safeguard s (k.par.quasinormal.zeta * k.par.gamma)).answer = .ok (.ok .unlimited) := by
      rw [hk.safeguard_eq]
      rfl
    refine wp_bind (wp_yields (P := fun r => r = .ok .unlimited) ?_ ?_)
    · rw [hk.safeguard_eq]
      exact yields_pure rfl
    rintro _ - rfl
    have hsolve := (hsized.quasinormal_sized hk.fills hc (Safeguard.unlimited_fills k.n)).and huncut
    refine wp_bind (wp_yields hsolve fun r hr hr' => ?_)
    obtain ⟨hlen, hstable, hstops⟩ := hr'
    obtain ⟨report, hreport⟩ := hlen.outcome.exists_ok hstable
    refine wp_bind (wp_update (wp_pure ⟨r.step, r.cauchy, report.stop, ?_, hstops report hreport, ?_, ?_, ?_, rfl⟩))
    · rw [hreport]
      rfl
    · simp only [Setup.NormalStep, hc]
      exact ⟨_, r, report, hsafe, hr, hreport, rfl, rfl⟩
    · exact hlen.step.trans hk.dim
    · exact hlen.cauchy.trans hk.dim

/-- A tangential step is found. -/
theorem tangentialStep_wp (hs : k.At Q x y s) (hroom : s.Roomy n) (hd : s.dxNormal = vec d) :
    wp W (TrustRegion.tangentialStep k)
      (fun q t => ∃ r, (TrustRegion.tangentialSolve k s).answer = .ok (.ok r) ∧ q = .ok r.stop ∧ r.stop.Harmless ∧
        r.step.length = n ∧
        t = { s with
          dxTangential := r.step
          truncatedStop := r.stop
          krylovIter := r.iter
          krylovIterTotal := s.krylovIterTotal + r.iter }) E s := by
  unfold TrustRegion.tangentialStep
  refine wp_bind (wp_getState ?_)
  have hsolve := ((hk.sized hs hroom).tangentialSolve_sized hk.fills).and (hk.tangentialSolve_harmless hs hd)
  refine wp_bind (wp_yields hsolve ?_)
  rintro _ hr ⟨⟨r, rfl, hlen⟩, hharmless⟩
  exact wp_bind (wp_update (wp_pure ⟨r, hr, rfl, hharmless r rfl, hlen.trans hk.dim, rfl⟩))

variable {γ ζ δ : ℝ}

/-- A composite step is found. -/
theorem compositeStep_wp (hs : k.At Q x y s) (hroom : s.Roomy n) (hpar : k.par.Fractions γ ζ) (hδ : s.delta = real δ)
    (hδ0 : 0 < δ) :
    wp W (TrustRegion.compositeStep k)
      (fun o t => ∃ stop, o = some stop ∧ TrustRegion.CompositeStep k s stop t ∧ t.Roomy n ∧
        t.truncatedStop.isSafeguard = false ∧ t.quasinormalStop.isSafeguard = false) E s := by
  unfold TrustRegion.compositeStep
  refine wp_bind (wp_mono (hk.quasinormalStep_wp hs hroom) ?_ fun _ _ h => h)
  rintro _ _ ⟨step, cauchy, normal, rfl, hcut, hstep, hlen, hlen', rfl⟩
  refine wp_bind (wp_update ?_)
  obtain ⟨d, hd⟩ : ∃ d : Euclidean n, step = vec d := by
    rcases (hk.realAt hs).normalStep hpar hδ hδ0 hstep with ⟨d, hd, -⟩ | ⟨l, rfl⟩
    · exact ⟨d, hd⟩
    · exact ⟨0, by rw [← hlen, Vec.length_zeros, zeros_eq]⟩
  have hroom' : State.Roomy n { s with dxNormal := step, dxCauchy := cauchy, quasinormalStop := normal } :=
    ⟨hlen, hlen', hroom.tangential⟩
  have hs' : k.At Q x y { s with dxNormal := step, dxCauchy := cauchy, quasinormalStop := normal } := hs.of_kept rfl
  refine wp_bind (wp_mono (hk.tangentialStep_wp hs' hroom' hd) ?_ fun _ _ h => h)
  rintro _ _ ⟨r, hr, rfl, hharmless, hlenr, rfl⟩
  obtain ⟨-, -, -, hblame, -⟩ := TrustRegion.tangential_answers (hk.realAt hs) hpar hδ hδ0 hstep
    (t := { s with dxNormal := step, dxCauchy := cauchy, quasinormalStop := normal }) rfl rfl rfl
    (hk.projector_into hs'.point) hr
  have hoffset : r.stop ≠ .offsetViolatesTrustRegion := fun h => hblame (.inl h)
  dsimp only
  rw [if_neg (by simp [hharmless.1, hoffset])]
  refine wp_bind (wp_getState ?_)
  refine wp_bind (wp_yields (yields_lift (Checked.answers_add 1 hlenr hlen)) fun dx hdx _ => ?_)
  refine wp_bind (wp_update (wp_pure ⟨r.stop, rfl, ?_, ⟨hlen, hlen', hlenr⟩, hharmless.2, hcut⟩))
  exact ⟨step, cauchy, normal, r, dx, hstep, hr, rfl, hharmless.1, hoffset, Checked.lift_answer hdx, rfl⟩

end Setup.Programmed
end ConstrainedOpt
