import ConstrainedOpt.Proofs.Interior
import ConstrainedOpt.Proofs.Exact.Gradient
import ConstrainedOpt.Proofs.QuasiNewton.Histories
import ConstrainedOpt.Proofs.Reduction.Predicted

/-! # Reductions along runs

A trust-region run over the reals stays over the reals: its iterates and multipliers, the gradient, the history, the
radius and the penalty. So each step that is judged keeps the promises of a composite step, and where the equality
constraint is affine its violation does not grow.
-/
namespace ConstrainedOpt
open Exact Journaled Running
variable {ε : Set.Ioi (0 : ℝ)} {n m l : ℕ} {k : Setup (Exact ε)} {s t : State (Exact ε)} {c : Constraint (Exact ε)}
  {G : Euclidean n → Euclidean m} {J : Euclidean n → Euclidean n →ₗ[ℝ] Euclidean m} {h : Euclidean n → Euclidean l}
  {J' : Euclidean n → Euclidean n →ₗ[ℝ] Euclidean l} {H : State (Exact ε) → Euclidean n →ₗ[ℝ] Euclidean n}
  {x x' : Euclidean n} {γ ζ : ℝ}

/-- The constraints are functions of the reals: the equality constraint `c` that of `G`, and the inequality
constraint, if there is one, that of `h`. -/
structure Setup.Smooth (k : Setup (Exact ε)) (c : Constraint (Exact ε)) (G : Euclidean n → Euclidean m)
    (J : Euclidean n → Euclidean n →ₗ[ℝ] Euclidean m) (h : Euclidean n → Euclidean l)
    (J' : Euclidean n → Euclidean n →ₗ[ℝ] Euclidean l) : Prop where
  equality : c.Realises G J
  inequality : ∀ c', k.problem.inequality = some c' → c'.Realises h J'

/-- A state at the real point `x`, strictly feasible for the inequality constraint, before its gradient. -/
structure Setup.RealPoint (k : Setup (Exact ε)) (G : Euclidean n → Euclidean m) (h : Euclidean n → Euclidean l)
    (x : Euclidean n) (s : State (Exact ε)) : Prop where
  point : s.x = vec x
  values : s.g = vec (G x)
  slack : k.problem.inequality ≠ none → s.h = vec (h x) ∧ ∀ i, 0 < h x i
  multipliers : ∃ y : Euclidean m, s.y = vec y
  mu : ∃ μ, s.mu = real μ ∧ 0 ≤ μ
  history : s.history.Real n
  size : s.grad.length = n

/-- A state at the real point `x` with a real gradient. -/
structure Setup.RealState (k : Setup (Exact ε)) (G : Euclidean n → Euclidean m) (h : Euclidean n → Euclidean l)
    (x : Euclidean n) (s : State (Exact ε)) : Prop extends k.RealPoint G h x s where
  grad : ∃ a : Euclidean n, s.grad = vec a ∧ s.normGrad = real ‖a‖

/-- At every state over the reals the Hessian of the model is the symmetric `H`, which propagates what is
undefined, and the preconditioner is symmetric and positive semidefinite. -/
structure Setup.SymmetricModel (k : Setup (Exact ε)) (G : Euclidean n → Euclidean m) (h : Euclidean n → Euclidean l)
    (H : State (Exact ε) → Euclidean n →ₗ[ℝ] Euclidean n) : Prop where
  hessian : ∀ x s, k.RealState G h x s → (k.hessian s).Acts (H s)
  symmetric : ∀ x s, k.RealState G h x s → (H s).IsSymmetric
  propagates : ∀ x s, k.RealState G h x s → (k.hessian s).Propagates n
  preconditioner : ∀ x s, k.RealState G h x s → ∃ B : Euclidean n →ₗ[ℝ] Euclidean n,
    (k.preconditioner s).Acts B ∧ B.IsSymmetric ∧ ∀ v, 0 ≤ inner ℝ v (B v)

theorem Setup.RealState.of_eq (hs : k.RealState G h x s) (hx : t.x = s.x) (hg : t.g = s.g) (hh : t.h = s.h)
    (hy : t.y = s.y) (hmu : t.mu = s.mu) (hgrad : t.grad = s.grad) (hnorm : t.normGrad = s.normGrad)
    (hhistory : t.history.Real n) : k.RealState G h x t where
  point := hx.trans hs.point
  values := hg.trans hs.values
  slack := hh ▸ hs.slack
  multipliers := hy ▸ hs.multipliers
  mu := hmu ▸ hs.mu
  history := hhistory
  size := hgrad ▸ hs.size
  grad := hgrad ▸ hnorm ▸ hs.grad

theorem Setup.RealState.of_kept (hs : k.RealState G h x s) (ht : t.kept = s.kept) : k.RealState G h x t := by
  have hx : t.x = s.x := congrArg Kept.x ht
  have hg : t.g = s.g := congrArg Kept.g ht
  have hh : t.h = s.h := congrArg Kept.h ht
  have hy : t.y = s.y := congrArg Kept.y ht
  have hmu : t.mu = s.mu := congrArg Kept.mu ht
  have hhistory : t.history = s.history := congrArg Kept.history ht
  have hgrad : t.grad = s.grad := congrArg Kept.grad ht
  have hnorm : t.normGrad = s.normGrad := congrArg Kept.normGrad ht
  exact hs.of_eq hx hg hh hy hmu hgrad hnorm (hhistory ▸ hs.history)

theorem Setup.RealState.realAt (hp : k.Smooth c G J h J') (hc : k.problem.equality = some c) (hdim : k.n = n)
    (hprop : (k.hessian s).Propagates n) (hs : k.RealState G h x s) : k.RealAt s (J' x) (h x) where
  dim := hdim
  length := by rw [hs.point, length_vec]
  hessian := hprop
  equality c' hc' := by
    obtain rfl : c = c' := Option.some.inj (hc.symm.trans hc')
    have hJ := hp.equality.linearises x
    rw [hs.point, hJ.rows]
    exact hJ.acts.pulls
  inequality c' hc' := by
    refine ⟨hs.point ▸ (hp.inequality c' hc').linearises x, (hs.slack ?_).1⟩
    simp [hc']
  slack hne := (hs.slack hne).2

theorem Setup.RealState.jacobian (hp : k.Smooth c G J h J') (hs : k.RealState G h x s) :
    (c.jacobian s.x).Acts (J x) := hs.point ▸ (hp.equality.linearises x).acts

theorem Setup.RealState.modelAt (hp : k.Smooth c G J h J') (hc : k.ExactProjector c) (hm : k.SymmetricModel G h H)
    (hs : k.RealState G h x s) : ∃ a, k.ModelAt s (H s) a := by
  obtain ⟨a, ha, -⟩ := hs.grad
  obtain ⟨B, hB, -, hpos⟩ := hm.preconditioner x s hs
  exact ⟨a, hm.hessian x s hs, hm.symmetric x s hs, ha, ⟨B, hB, hpos⟩, _, TrustRegion.projector_acts hc (hs.jacobian hp),
    NormalEquations.kernelProjection_symmetric⟩

/-! ### Gradients and points -/

theorem Setup.RealPoint.graded (hp : k.Smooth c G J h J') (hc : k.problem.equality = some c)
    (hsize : k.problem.objective.Sized) (hs : k.RealPoint G h x s) {updateY : Bool} {y grad : Vec (Exact ε)}
    (hg : k.Graded updateY s y grad) : k.RealState G h x (s.graded y grad) := by
  obtain ⟨a, rfl⟩ := hg.real hsize (by rw [hs.point, length_vec]) hs.size
  exact {
    point := hs.point
    values := hs.values
    slack := hs.slack
    multipliers := hg.real_multipliers hc (hp.equality.linearises x).rows (.inr hs.multipliers)
    mu := hs.mu
    history := hs.history
    size := length_vec
    grad := ⟨a, rfl, norm_vec⟩ }

/-- A point that passes is a real one. -/
theorem Setup.RealState.moved (hp : k.Smooth c G J h J') (hc : k.problem.equality = some c)
    (hs : k.RealState G h x s) {v : Trial (Exact ε)} (hv : v.x = vec x') (heval : k.problem.evaluate v.x = .ok v)
    (hpos : ∀ u ∈ v.h, 0 < u) : k.RealPoint G h x' (s.moveTo v) where
  point := hv
  values := by
    have hg := (Problem.evaluate_eq_ok heval).2.2.1 c hc
    rw [hv, hp.equality.value] at hg
    exact (Except.ok.inj hg).symm
  slack hne := by
    obtain ⟨c', hc'⟩ := Option.ne_none_iff_exists'.mp hne
    have hh := (Problem.evaluate_eq_ok heval).2.2.2.2.1 c' hc'
    rw [hv, (hp.inequality c' hc').value] at hh
    have hh : v.h = vec (h x') := (Except.ok.inj hh).symm
    exact ⟨hh, fun i => real_lt.mp (hpos _ (hh ▸ List.mem_ofFn.mpr ⟨i, rfl⟩))⟩
  multipliers := hs.multipliers
  mu := hs.mu
  history := hs.history
  size := hs.size

theorem Setup.RealState.lowered (hk : k.parameterError? = none) (hs : k.RealState G h x s) :
    k.RealPoint G h x (s.lowered k.par) where
  point := hs.point
  values := hs.values
  slack := hs.slack
  multipliers := hs.multipliers
  mu := by
    obtain ⟨μ, hμ, h0⟩ := hs.mu
    obtain ⟨θ, hθ, hθ0, -⟩ := Setup.muReduce_real hk
    refine ⟨μ * θ, ?_, mul_nonneg h0 hθ0.le⟩
    unfold State.lowered
    rw [hμ, hθ, real_mul]
  history := hs.history
  size := hs.size

/-! ### The invariant -/

/-- A radius and a penalty that are positive reals. -/
def Bounds (delta rho : Exact ε) : Prop := (∃ δ, delta = real δ ∧ 0 < δ) ∧ ∃ ρ, rho = real ρ ∧ 0 < ρ

/-- The invariant of a run at the beginning of its iterations. -/
structure Setup.OnTrack (k : Setup (Exact ε)) (G : Euclidean n → Euclidean m) (h : Euclidean n → Euclidean l)
    (s : State (Exact ε)) : Prop where
  state : ∃ x, k.RealState G h x s
  bounds : Bounds s.delta s.rho

/-- The invariant after a step: besides, what was remembered of the last point is real. -/
structure Setup.Landed (k : Setup (Exact ε)) (G : Euclidean n → Euclidean m) (h : Euclidean n → Euclidean l)
    (s : State (Exact ε)) : Prop extends k.OnTrack G h s where
  old : ∃ u : Euclidean n, s.xOld = vec u
  gradOld : ∃ a : Euclidean n, s.gradOld = vec a
  dx : ∃ w : Euclidean n, s.dx = vec w

/-- What is asked of a run: constraints over the reals, an exact projector, a symmetric model, a sized gradient,
and checked parameters that are finite. -/
structure Setup.Scheduled (k : Setup (Exact ε)) (c : Constraint (Exact ε)) (G : Euclidean n → Euclidean m)
    (J : Euclidean n → Euclidean n →ₗ[ℝ] Euclidean m) (h : Euclidean n → Euclidean l)
    (J' : Euclidean n → Euclidean n →ₗ[ℝ] Euclidean l) (H : State (Exact ε) → Euclidean n →ₗ[ℝ] Euclidean n) :
    Prop where
  smooth : k.Smooth c G J h J'
  projector : k.ExactProjector c
  model : k.SymmetricModel G h H
  sized : k.problem.objective.Sized
  dim : k.n = n
  hooks : k.hooks.Observing
  valid : k.parameterError? = none
  algorithm : k.par.algorithm = .trustRegion
  delta : Scalar.isFinite k.par.delta = true
  rho : Scalar.isFinite k.par.rho = true
  mu : Scalar.isFinite k.par.mu = true

theorem Setup.Scheduled.pulls (hk : k.Scheduled c G J h J' H) {z : Vec (Exact ε)} (hz : z = vec x) :
    ∀ c', k.problem.equality = some c' → (c'.jacobian z).Pulls n m := by
  intro c' hc'
  obtain rfl : c = c' := Option.some.inj (hk.projector.equality.symm.trans hc')
  exact hz ▸ (hk.smooth.equality.linearises x).acts.pulls

theorem Setup.OnTrack.lowered (hk : k.Scheduled c G J h J' H) (hs : k.OnTrack G h s) (ht : Lowered k s t)
    (hrunning : t.stop = .notConverged) : k.OnTrack G h t := by
  rcases ht with rfl | ⟨-, ht⟩
  · exact hs
  · obtain ⟨x, hx⟩ := hs.state
    obtain ⟨y, grad, hg, rfl⟩ := ht.sound_of_running hrunning
    exact ⟨⟨x, (hx.lowered hk.valid).graded hk.smooth hk.projector.equality hk.sized hg⟩, hs.bounds⟩

theorem Setup.OnTrack.assessed (hk : k.Scheduled c G J h J' H) (hs : k.OnTrack G h s) (ht : Assessed k s t) :
    StepEnds (k.OnTrack G h) (fun _ => True) t :=
  .of_running fun hrunning => hs.lowered hk (ht.lowered hrunning) hrunning

/-! ### Steps -/

/-- Judged steps keep their promises, and an accepted one does not raise the linearised violation. -/
def Watch.promises (k : Setup (Exact ε)) (G : Euclidean n → Euclidean m)
    (J : Euclidean n → Euclidean n →ₗ[ℝ] Euclidean m) (H : State (Exact ε) → Euclidean n →ₗ[ℝ] Euclidean n) :
    Watch (Exact ε) where
  visit loc s :=
    (loc = .beforeActualVersusPredicted → ∃ x a d e ρ, s.x = vec x ∧
      TrustRegion.Promises k s (J x) (H s) (G x) a d e ρ) ∧
    (loc = .afterStepBeforeGradient → ∃ x w, s.xOld = vec x ∧ s.x = vec (x + w) ∧ s.g = vec (G (x + w)) ∧
      0 ≤ violationReduction (J x) (G x) w)
  trial _ _ := True

/-- What a step starts from: a real point that is its own last one, with a real gradient remembered. -/
structure Setup.SetsOut (k : Setup (Exact ε)) (G : Euclidean n → Euclidean m) (h : Euclidean n → Euclidean l)
    (x : Euclidean n) (q : Kept (Exact ε)) : Prop where
  at_state : ∀ s : State (Exact ε), s.kept = q → k.RealState G h x s
  old : q.xOld = q.x
  gradOld : ∃ a : Euclidean n, q.gradOld = vec a

/-- A composite step that is about to be judged. -/
structure Setup.Poised (k : Setup (Exact ε)) (G : Euclidean n → Euclidean m)
    (J : Euclidean n → Euclidean n →ₗ[ℝ] Euclidean m) (h : Euclidean n → Euclidean l)
    (J' : Euclidean n → Euclidean n →ₗ[ℝ] Euclidean l) (γ : ℝ) (x : Euclidean n) (s : State (Exact ε)) : Prop where
  bounds : Bounds s.delta s.rho
  step : ∃ δ d e, TrustRegion.Composed k (LinearMap.ker (J x)) (J' x) (h x) γ δ s d e ∧
    (d = 0 ∨ ‖G x + J x d‖ < ‖G x‖) ∧ s.normDx = real ‖d + e‖

variable {q : Kept (Exact ε)}

theorem Setup.SetsOut.xOld (hq : k.SetsOut G h x q) (hs : s.kept = q) : s.xOld = vec x := by
  have hold : s.xOld = q.xOld := congrArg Kept.xOld hs
  have hx : s.x = q.x := congrArg Kept.x hs
  rw [hold, hq.old, ← hx, (hq.at_state s hs).point]

theorem Setup.SetsOut.visit (hq : k.SetsOut G h x q) {loc : Location} (hloc : loc ≠ .beforeActualVersusPredicted)
    (hs : s.kept = q) : (Watch.promises k G J H).visit loc s := by
  have hstate := hq.at_state s hs
  refine ⟨fun h => absurd h hloc, fun _ => ⟨x, 0, hq.xOld hs, ?_, ?_, ?_⟩⟩
  · rw [add_zero, hstate.point]
  · rw [add_zero, hstate.values]
  · exact TrustRegion.violationReduction_nonneg (.inl rfl)

theorem Setup.Poised.promises (hk : k.Scheduled c G J h J' H) (hq : k.SetsOut G h x q) (hs : s.kept = q)
    (hC : k.Poised G J h J' γ x s) : ∃ a d e ρ, TrustRegion.Promises k s (J x) (H s) (G x) a d e ρ := by
  have hstate := hq.at_state s hs
  obtain ⟨δ, d, e, hcomp, hd, -⟩ := hC.step
  obtain ⟨-, ρ, hrho, hρ⟩ := hC.bounds
  obtain ⟨a, hmodel⟩ := hstate.modelAt hk.smooth hk.projector hk.model
  exact ⟨a, d, e, ρ, hcomp.promises hd hk.dim hk.projector.equality (hstate.jacobian hk.smooth) hmodel hstate.values
    hrho hρ⟩

theorem Setup.Poised.raised (hk : k.Scheduled c G J h J' H) (hq : k.SetsOut G h x q) (hs : s.kept = q)
    (hC : k.Poised G J h J' γ x s) {rho : Exact ε} (hrho : TrustRegion.Raised k s rho) :
    ∃ ρ, rho = real ρ ∧ 0 < ρ := by
  have hstate := hq.at_state s hs
  obtain ⟨δ, d, e, hcomp, -⟩ := hC.step
  obtain ⟨-, ρ, hρ, hpos⟩ := hC.bounds
  obtain ⟨a, hmodel⟩ := hstate.modelAt hk.smooth hk.projector hk.model
  exact hrho.real hk.dim hk.projector.equality (hstate.jacobian hk.smooth) hmodel.hessian hstate.values hmodel.grad
    hcomp.dx hρ hpos

/-- A composite step is ready to be judged. -/
theorem Setup.SetsOut.poised (hk : k.Scheduled c G J h J' H) (hpar : k.par.Fractions γ ζ) (hq : k.SetsOut G h x q)
    (hs : s.kept = q) (hR : Bounds s.delta s.rho) {stop : TruncatedStop} (ht : TrustRegion.CompositeStep k s stop t) :
    k.Poised G J h J' γ x { t with normDx := Vec.norm t.dx } := by
  have hstate := hq.at_state s hs
  have hJ := hstate.jacobian hk.smooth
  have hreal := hstate.realAt hk.smooth hk.projector.equality hk.dim (hk.model.propagates x s hstate)
  obtain ⟨⟨δ, hδ, hδ0⟩, ρ, hρ, hρ0⟩ := hR
  obtain ⟨⟨normal, hnormal⟩, hdelta, hrho⟩ := ht.normalStep
  obtain ⟨d, e, hcomp⟩ := TrustRegion.CompositeStep.composed hreal hpar hδ hδ0
    (V := LinearMap.ker (J x)) (fun u hu => TrustRegion.projector_into_kernel hk.projector (hu ▸ hJ)) ht
  rw [hcomp.normal] at hnormal
  have hreduces := TrustRegion.normalStep_reduces hreal hpar hδ hδ0 hk.projector.equality hJ hstate.values hnormal
  refine ⟨⟨⟨δ, hdelta.trans hδ, hδ0⟩, ρ, hrho.trans hρ, hρ0⟩, δ, d, e, hcomp.withNorm _, hreduces, ?_⟩
  change Vec.norm t.dx = _
  rw [hcomp.dx, norm_vec]

/-- Accepting the end of a composite step keeps the invariant. -/
theorem Setup.Poised.accept_wp (hk : k.Scheduled c G J h J' H) (hq : k.SetsOut G h x q) (hs : s.kept = q)
    (hC : k.Poised G J h J' γ x s) {v : Trial (Exact ε)} (hv : k.problem.trial s.x s.dx 1 = .ok v) (hpass : v.Passes t)
    (ht : t.kept = q) (hdx : t.dx = s.dx) (hR : Bounds t.delta t.rho) :
    wp (Watch.promises k G J H) (accept k v) (fun _ => StepEnds (k.Landed G h) fun _ => True) (fun _ _ => True) t := by
  obtain ⟨δ, d, e, hcomp, hd, -⟩ := hC.step
  obtain ⟨hadd, heval⟩ := Problem.trial_eq_ok hv
  rw [hcomp.dx, (hq.at_state s hs).point] at hadd
  have hx : v.x = vec (x + (d + e)) := by
    have hx := checked_add_eq_ok (a := 1) hadd
    rwa [one_smul] at hx
  have hold : t.xOld = vec x := hq.xOld ht
  have hpoint := (hq.at_state t ht).moved hk.smooth hk.projector.equality hx heval hpass.interior.2
  refine Running.accept_wp hk.hooks.stepOnly v ⟨nofun, fun _ => ?_⟩ (fun _ _ _ => ⟨nofun, nofun⟩) (fun u hu => ?_)
    fun _ _ _ => trivial
  · refine ⟨x, d + e, hold, hx, hpoint.values, ?_⟩
    have hnonneg := TrustRegion.violationReduction_nonneg hd
    unfold violationReduction at hnonneg ⊢
    rwa [TrustRegion.linear_add_kernel hcomp.mem]
  · unfold StepEnds
    split
    case isFalse => trivial
    case isTrue hrunning =>
      obtain ⟨y, grad, hg, rfl⟩ := hu.sound_of_running hrunning
      have hgradOld : t.gradOld = q.gradOld := congrArg Kept.gradOld ht
      exact ⟨⟨⟨_, hpoint.graded hk.smooth hk.projector.equality hk.sized hg⟩, hR⟩, ⟨x, hold⟩,
        hgradOld ▸ hq.gradOld, ⟨d + e, hdx.trans hcomp.dx⟩⟩

theorem Setup.SetsOut.attemptFrame (hk : k.Scheduled c G J h J' H) (hpar : k.par.Fractions γ ζ)
    (hq : k.SetsOut G h x q) :
    TrustRegion.AttemptFrame k (Watch.promises k G J H) (fun _ => StepEnds (k.Landed G h) fun _ => True)
      (fun _ _ => True) q Bounds (k.Poised G J h J' γ x) where
  hooks := hk.hooks.stepOnly
  visit loc s _ hloc hs := hq.visit hloc hs
  failed _ hs hstop := .of_stuck ⟨hs, .inl hstop⟩ trivial
  vanished _ hs _ _ := .of_stuck ⟨hs.kept, .inr rfl⟩ trivial
  halted _ _ _ := trivial
  composed s stop t dx hs hR ht hhook := by
    obtain rfl : t.dx = dx := congrArg State.dx ((hk.hooks .getStep t).symm.trans hhook)
    exact hq.poised hk hpar hs.kept hR ht
  seen s hs hC := by
    obtain ⟨a, d, e, ρ, hpromises⟩ := hC.promises hk hq hs.kept
    exact ⟨fun _ => ⟨x, a, d, e, ρ, (hq.at_state s hs.kept).point, hpromises⟩, nofun⟩
  trial _ _ _ _ _ _ := trivial
  shrunk s rho hs hC hrho := by
    obtain ⟨⟨δ, hδ, hpos⟩, -⟩ := hC.bounds
    obtain ⟨-, d, e, -, -, hnorm⟩ := hC.step
    exact ⟨TrustRegion.shrunk_real hδ hpos hnorm, hC.raised hk hq hs.kept hrho⟩
  grown s rho hs hC hrho := by
    obtain ⟨⟨δ, hδ, hpos⟩, -⟩ := hC.bounds
    obtain ⟨δ₀, hδ₀⟩ := isFinite_iff.mp hk.delta
    obtain ⟨hpos₀, hmax⟩ := Setup.radius_pos hk.valid hδ₀
    have hraised := hC.raised hk hq hs.kept hrho
    exact ⟨⟨⟨δ, hδ, hpos⟩, hraised⟩, TrustRegion.grown_real hδ hpos hpos₀ hmax, hraised⟩
  accepted s t v hs hC hv hpass ht hdx hR := hC.accept_wp hk hq hs.kept hv hpass.passes ht.kept hdx hR

/-! ### Runs -/

theorem Setup.OnTrack.takeStep_wp (hk : k.Scheduled c G J h J' H) (hs : k.OnTrack G h s)
    (hrunning : s.stop = .notConverged) {v : Vec (Exact ε)} (hv : WithoutMultipliers k s.x s.y s.grad v) :
    wp (Watch.promises k G J H) (takeStep k) (fun _ => StepEnds (k.Landed G h) fun _ => True) (fun _ _ => True)
      (s.beforeStep v) := by
  obtain ⟨x, hx⟩ := hs.state
  obtain ⟨y, hy⟩ := hx.multipliers
  obtain ⟨a, ha, hnorm⟩ := hx.grad
  have hstart : k.RealState G h x (s.beforeStep v) := hx.of_eq rfl rfl rfl rfl rfl rfl rfl hx.history
  have hq : k.SetsOut G h x (s.beforeStep v).kept :=
    ⟨fun t ht => hstart.of_kept ht, rfl, hv.real (hk.pulls hx.point) hy ha⟩
  obtain ⟨γ, ζ, hpar⟩ := Setup.exists_fractions hk.valid
  unfold takeStep
  rw [hk.algorithm]
  exact TrustRegion.attempts_wp (hq.attemptFrame hk hpar) _ ⟨⟨rfl, hrunning⟩, hs.bounds⟩

/-- The pair that is stored after a step is real. -/
theorem Setup.Landed.paired (hk : k.Scheduled c G J h J' H) (hs : k.Landed G h s) {v : Vec (Exact ε)}
    (hv : Changed k s v) : k.OnTrack G h (s.paired v k.par.storedHistory).counted := by
  obtain ⟨x, hx⟩ := hs.state
  obtain ⟨xOld, hold⟩ := hs.old
  obtain ⟨y, hy⟩ := hx.multipliers
  obtain ⟨a, ha, -⟩ := hx.grad
  obtain ⟨b, hb⟩ := hs.gradOld
  obtain ⟨w, hw⟩ := hs.dx
  obtain ⟨u, hu, hv⟩ := hv
  rw [ha, hb] at hu
  obtain ⟨p, rfl⟩ := hv.real (hk.pulls hold) hy (checked_add_eq_ok (a := -1) hu)
  have hhistory : (s.history.push s.dx (vec p) k.par.storedHistory).Real n := by
    rw [hw]
    exact hx.history.push _ _ _
  exact ⟨⟨x, hx.of_eq rfl rfl rfl rfl rfl rfl rfl hhistory⟩, hs.bounds⟩

theorem Setup.Scheduled.loopFrame (hk : k.Scheduled c G J h J' H) :
    LoopFrame k (Watch.promises k G J H) (fun _ _ => True) (k.OnTrack G h) (k.OnTrack G h) (k.Landed G h)
      (fun _ => True) where
  hooks := hk.hooks.stepOnly
  head _ _ := ⟨nofun, nofun⟩
  assessed _ _ hs ht := hs.assessed hk ht
  assessHalted _ _ _ _ _ := trivial
  started _ _ := ⟨nofun, nofun⟩
  saved _ _ hs hrunning hv := ⟨⟨nofun, nofun⟩, hs.takeStep_wp hk hrunning hv⟩
  saveHalted _ _ _ _ := trivial
  stepped _ _ := ⟨nofun, nofun⟩
  paired _ _ hs _ hv := ⟨⟨nofun, nofun⟩, ⟨nofun, nofun⟩, hs.paired hk hv⟩
  pairHalted _ _ _ := trivial
  outOfFuel _ _ := trivial

theorem Setup.Scheduled.opened (hk : k.Scheduled c G J h J' H) (hs : s.x = vec x) (hy : Vec.isFinite s.y = true)
    {v : Trial (Exact ε)} {y grad : Vec (Exact ε)} (ho : k.Opened s v y grad) :
    k.OnTrack G h (k.openedState s v y grad) := by
  obtain ⟨hx, -, hg, -, hh, -⟩ := Problem.evaluate_eq_ok ho.evaluated
  have hpos := (Barrier.objective_finite ho.feasible).2
  have hrows : k.equalities = m := by
    unfold Setup.equalities Problem.equalities
    rw [hk.projector.equality]
    exact (hk.smooth.equality.linearises x).rows
  obtain ⟨δ, hδ⟩ := isFinite_iff.mp hk.delta
  obtain ⟨ρ, hρ⟩ := isFinite_iff.mp hk.rho
  obtain ⟨μ, hμ⟩ := isFinite_iff.mp hk.mu
  have hpoint : k.RealPoint G h x (k.firstPoint s v) := {
    point := hx.trans hs
    values := by
      have hvalue := hg c hk.projector.equality
      rw [hs, hk.smooth.equality.value] at hvalue
      exact (Except.ok.inj hvalue).symm
    slack := fun hne => by
      obtain ⟨c', hc'⟩ := Option.ne_none_iff_exists'.mp hne
      have hvalue := hh c' hc'
      rw [hs, (hk.smooth.inequality c' hc').value] at hvalue
      have hv : v.h = vec (h x) := (Except.ok.inj hvalue).symm
      exact ⟨hv, fun i => real_lt.mp (hpos _ (hv ▸ List.mem_ofFn.mpr ⟨i, rfl⟩))⟩
    multipliers := by
      change ∃ y : Euclidean m, k.firstMultipliers s.y = vec y
      unfold Setup.firstMultipliers
      split
      case isTrue hlen => exact exists_vec (hlen.trans hrows) hy
      case isFalse => exact ⟨0, by rw [hrows, zeros_eq]⟩
    mu := by
      change ∃ μ, (if 0 < k.inequalities then k.par.mu else 0) = real μ ∧ 0 ≤ μ
      split
      · exact ⟨μ, hμ, (Setup.barrier_pos hk.valid hμ).le⟩
      · exact ⟨0, rfl, le_rfl⟩
    history := nofun
    size := by
      change (Vec.zeros k.n : Vec (Exact ε)).length = n
      rw [Vec.length_zeros, hk.dim] }
  have hstate := hpoint.graded hk.smooth hk.projector.equality hk.sized ho.graded
  exact ⟨⟨x, hstate.of_eq rfl rfl rfl rfl rfl rfl rfl hstate.history⟩,
    ⟨δ, hδ, (Setup.radius_pos hk.valid hδ).1⟩, ρ, hρ, Setup.penalty_pos hk.valid hρ⟩

/-- Each visit of a run is as the promises want it. -/
theorem Setup.Scheduled.visits {p : Problem (Exact ε)} {par : Parameters (Exact ε)} {hooks : Hooks (Exact ε)}
    (hk : (⟨par, p, hooks, n⟩ : Setup (Exact ε)).Scheduled c G J h J' H) {s₀ : State (Exact ε)} (hx : s₀.x = vec x)
    (hy : Vec.isFinite s₀.y = true) {loc : Location} (hs : (loc, s) ∈ (p.solve par hooks s₀).visits) :
    (Watch.promises ⟨par, p, hooks, n⟩ G J H).visit loc s := by
  have hgoes : (p.solve par hooks s₀).Goes (Watch.promises ⟨par, p, hooks, n⟩ G J H) (fun _ _ _ => True)
      (fun _ _ _ => True) ⟨par, p, hooks, n⟩ s₀ := by
    refine solve_goes (by rw [hx, length_vec]) hk.hooks.stepOnly fun v y grad ho => ?_
    refine wp_mono (LoopFrame.loop_wp hk.loopFrame (hk.opened hx hy ho) ⟨nofun, nofun⟩ fun _ _ => ⟨nofun, nofun⟩) ?_
      fun _ _ h => h
    exact fun _ _ _ => trivial
  rcases hgoes.visit hs with hopening | rfl | hpromises
  · rcases hopening with rfl | rfl | rfl <;> exact ⟨nofun, nofun⟩
  · exact ⟨nofun, nofun⟩
  · exact hpromises

/-! ### Reductions -/

/-- An affine constraint is its linearisation. -/
theorem norm_affine_le {A : Euclidean n →ₗ[ℝ] Euclidean m} {b : Euclidean m} (hG : ∀ x, G x = A x + b)
    (hJ : ∀ x, J x = A) {w : Euclidean n} (hw : 0 ≤ violationReduction (J x) (G x) w) : ‖G (x + w)‖ ≤ ‖G x‖ := by
  have hmove : G (x + w) = G x + J x w := by
    rw [hG, hG, hJ, map_add]
    abel
  rw [hmove]
  exact (sq_le_sq₀ (norm_nonneg _) (norm_nonneg _)).mp (sub_nonneg.mp hw)

/-- Trust-region runs over the reals promise reductions, for an equality constraint with an exact projector, a
symmetric model at every state over the reals, checked parameters that are finite, and an observing manipulator.

Each step that is judged consists of a quasinormal part `d` and a tangential part `e` in the null space of the
constraint, and keeps what `TrustRegion.Promises` says of them. An accepted step on an affine constraint does not raise
the violation, and from a feasible point it leads to a feasible one. -/
theorem Problem.reductions_promised {p : Problem (Exact ε)} {par : Parameters (Exact ε)} {hooks : Hooks (Exact ε)}
    (hhooks : hooks.Observing) (hvalid : (⟨par, p, hooks, n⟩ : Setup (Exact ε)).parameterError? = none)
    (htr : par.algorithm = .trustRegion) (hδ : Scalar.isFinite par.delta = true) (hρ : Scalar.isFinite par.rho = true)
    (hμ : Scalar.isFinite par.mu = true) (hc : (⟨par, p, hooks, n⟩ : Setup (Exact ε)).ExactProjector c)
    (hp : (⟨par, p, hooks, n⟩ : Setup (Exact ε)).Smooth c G J h J')
    (hmodel : (⟨par, p, hooks, n⟩ : Setup (Exact ε)).SymmetricModel G h H) (hsize : p.objective.Sized)
    {s₀ : State (Exact ε)} (hx : s₀.x = vec x) (hy : Vec.isFinite s₀.y = true) :
    (∀ s, (.beforeActualVersusPredicted, s) ∈ (p.solve par hooks s₀).visits →
      ∃ (x : Euclidean n) (a d e : Euclidean n) (ρ : ℝ), s.x = vec x ∧
        TrustRegion.Promises ⟨par, p, hooks, n⟩ s (J x) (H s) (G x) a d e ρ) ∧
    (∀ (A : Euclidean n →ₗ[ℝ] Euclidean m) (b : Euclidean m), (∀ x, G x = A x + b) → (∀ x, J x = A) →
      ∀ s, (.afterStepBeforeGradient, s) ∈ (p.solve par hooks s₀).visits →
        ∃ u v : Euclidean n, s.xOld = vec u ∧ s.x = vec v ∧ s.g = vec (G v) ∧ ‖G v‖ ≤ ‖G u‖ ∧ (G u = 0 → G v = 0)) := by
  have hk : (⟨par, p, hooks, n⟩ : Setup (Exact ε)).Scheduled c G J h J' H :=
    ⟨hp, hc, hmodel, hsize, rfl, hhooks, hvalid, htr, hδ, hρ, hμ⟩
  constructor
  · intro s hs
    exact (hk.visits hx hy hs).1 rfl
  · intro A b hG hJ s hs
    obtain ⟨u, w, hold, hnew, hvalues, hw⟩ := (hk.visits hx hy hs).2 rfl
    have hle := norm_affine_le hG hJ hw
    refine ⟨u, u + w, hold, hnew, hvalues, hle, fun hzero => ?_⟩
    rw [hzero, norm_zero] at hle
    exact norm_le_zero_iff.mp hle

/-! ### The nearest vector of a given sum -/

section UnitSum
variable {F : Type} [Scalar F]

/-- The vectors whose entries sum up to one. -/
def Constraint.unitSum (n : ℕ) : Constraint F where
  rows := 1
  cols := n
  value x _ := .ok [Vec.sum x - 1]
  forward _ dx _ := .ok [Vec.sum dx]
  adjoint _ w size := .ok (List.replicate size (Vec.sum w))
  second _ dx _ _ := .ok (Vec.zerosLike dx)

/-- The least half square of two numbers that sum up to one. -/
def Problem.nearestUnitSum : Problem F where
  objective := {
    value := fun x => .ok (Scalar.half * Vec.inner x x)
    gradient := fun x n => Checked.copy x (Vec.zeros n)
    hessian := fun _ dx _ => .ok dx }
  equality := some (.unitSum 2)
  inequality := none
  preconditioner := none

end UnitSum

/-- The sum of the entries. -/
noncomputable def sumMap (n : ℕ) : Euclidean n →ₗ[ℝ] Euclidean 1 where
  toFun x := WithLp.toLp 2 fun _ => ∑ i, x i
  map_add' x y := by
    ext
    simp [Finset.sum_add_distrib]
  map_smul' r x := by
    ext
    simp [Finset.mul_sum]

/-- One entry, everywhere. -/
noncomputable def spreadMap (n : ℕ) : Euclidean 1 →ₗ[ℝ] Euclidean n where
  toFun w := WithLp.toLp 2 fun _ => w 0
  map_add' v w := by
    ext
    simp
  map_smul' r w := by
    ext
    simp

theorem adjoint_sumMap : LinearMap.adjoint (sumMap n) = spreadMap n := by
  symm
  rw [LinearMap.eq_adjoint_iff]
  intro w x
  simp [sumMap, spreadMap, PiLp.inner_apply, Finset.sum_mul]

theorem vec_one (r : ℝ) : (vec (WithLp.toLp 2 fun _ => r : Euclidean 1) : Vec (Exact ε)) = [real r] := by
  simp [vec]

theorem sum_vec (x : Euclidean n) : Vec.sum (vec x : Vec (Exact ε)) = real (∑ i, x i) := sum_ofFn x

theorem Constraint.unitSum_realises : (unitSum n : Constraint (Exact ε)).Affine (sumMap n)
    (WithLp.toLp 2 fun _ => -1) := by
  refine ⟨fun x => ?_, fun x => ⟨rfl, rfl, fun s => ?_, fun w => ?_⟩⟩
  · have hvalue : (Vec.sum (vec x) - 1 : Exact ε) = real (∑ i, x i + -1) := by
      rw [sum_vec, one_eq, real_sub, sub_eq_add_neg]
    have hmove : sumMap n x + (WithLp.toLp 2 fun _ => -1 : Euclidean 1) = WithLp.toLp 2 fun _ => ∑ i, x i + -1 := rfl
    simp only [unitSum, hvalue, hmove, vec_one]
  · simp only [unitSum, sum_vec]
    simp [vec, sumMap]
  · rw [adjoint_sumMap]
    simp only [unitSum, sum_vec]
    simp [vec, spreadMap, List.ofFn_const]

theorem Problem.nearestUnitSum_sized : (nearestUnitSum : Problem (Exact ε)).objective.Sized := by
  intro x n v hv
  obtain ⟨hlen, rfl⟩ := Checked.copy_eq_ok.mp hv
  exact hlen.trans (Vec.length_zeros n)

theorem Problem.reductions_promised_nearestUnitSum :
    let p : Problem (Exact ⟨1, Set.mem_Ioi.mpr one_pos⟩) := .nearestUnitSum
    let par : Parameters (Exact ⟨1, Set.mem_Ioi.mpr one_pos⟩) := { Parameters.default with normalEq := ⟨200, 0⟩ }
    let k : Setup (Exact ⟨1, Set.mem_Ioi.mpr one_pos⟩) := ⟨par, p, .passive, 2⟩
    let b : Euclidean 1 := WithLp.toLp 2 fun _ => -1
    let G : Euclidean 2 → Euclidean 1 := fun x => sumMap 2 x + b
    let s₀ : State (Exact ⟨1, Set.mem_Ioi.mpr one_pos⟩) := State.new (vec (0 : Euclidean 2))
    k.hooks.Observing ∧ k.parameterError? = none ∧ k.ExactProjector (.unitSum 2) ∧
    (∀ s, (.beforeActualVersusPredicted, s) ∈ (p.solve par .passive s₀).visits →
      ∃ (x : Euclidean 2) (a d e : Euclidean 2) (ρ : ℝ), s.x = vec x ∧
        TrustRegion.Promises k s (sumMap 2) LinearMap.id (G x) a d e ρ) ∧
    (∀ s, (.afterStepBeforeGradient, s) ∈ (p.solve par .passive s₀).visits →
      ∃ u v : Euclidean 2, s.xOld = vec u ∧ s.x = vec v ∧ s.g = vec (G v) ∧ ‖G v‖ ≤ ‖G u‖ ∧ (G u = 0 → G v = 0)) := by
  intro p par k b G s₀
  have hhooks : k.hooks.Observing := fun _ _ => rfl
  have hvalid : k.parameterError? = none := by
    have hpar : par.validate k.problem.problemClass = .ok () := Parameters.default_valid
    unfold Setup.parameterError?
    rw [hpar]
    rfl
  have hc : k.ExactProjector (.unitSum 2) := ⟨rfl, rfl, by decide⟩
  have hsmooth : k.Smooth (.unitSum 2) G (fun _ => sumMap 2) (fun _ => (0 : Euclidean 0)) (fun _ => 0) :=
    ⟨Constraint.unitSum_realises, nofun⟩
  have hmodel : k.SymmetricModel G (fun _ => (0 : Euclidean 0)) (fun _ => LinearMap.id) := {
    hessian := fun _ _ _ => QuasiNewton.identity_acts 2 _ _
    symmetric := fun _ _ _ _ _ => rfl
    propagates := fun _ _ _ => (QuasiNewton.operator_strict .identity 2 _ _).propagates rfl
    preconditioner := fun _ _ _ =>
      ⟨LinearMap.id, QuasiNewton.identity_acts 2 _ _, fun _ _ => rfl, fun _ => real_inner_self_nonneg⟩ }
  obtain ⟨hpromises, haffine⟩ := Problem.reductions_promised hhooks hvalid rfl rfl rfl rfl hc hsmooth hmodel
    Problem.nearestUnitSum_sized (show s₀.x = vec 0 from rfl) rfl
  exact ⟨hhooks, hvalid, hc, hpromises, haffine (sumMap 2) b (fun _ => rfl) fun _ => rfl⟩

end ConstrainedOpt
