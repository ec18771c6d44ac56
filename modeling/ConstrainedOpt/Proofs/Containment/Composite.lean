import ConstrainedOpt.Proofs.Parameters
import ConstrainedOpt.Proofs.Run.Kept
import ConstrainedOpt.Proofs.Step.Quasinormal
import ConstrainedOpt.Proofs.Step.Boundary

/-! # Contained composite steps

In exact arithmetic the quasinormal and the tangential step fit together: the first one leaves the second one
room in the trust region and in the safeguard, and their sum stays in both.
-/
namespace ConstrainedOpt
open Exact Journaled TruncatedCG
variable {ε : Set.Ioi (0 : ℝ)} {n m : ℕ} {k : Setup (Exact ε)} {s : State (Exact ε)}
  {J : Euclidean n →ₗ[ℝ] Euclidean m} {h : Euclidean m} {γ ζ κ δ : ℝ}

/-- The steps that leave at least `1 - κ` of the slack along the linearised inequality constraint, if there is
one. -/
def Problem.safe (p : Problem (Exact ε)) (J : Euclidean n →ₗ[ℝ] Euclidean m) (h : Euclidean m) (κ : ℝ) :
    Set (Euclidean n) := {d | p.inequality ≠ none → d ∈ safeSteps J h κ}

/-- A state of `n` dimensions at which the problem is one over the reals, as far as a step looks at it: the
Hessian of the model propagates what is undefined, the transposed Jacobian of the equality constraint takes real vectors to
real ones, and the inequality constraint has the derivative `J` and the positive slack `h`. -/
structure Setup.RealAt (k : Setup (Exact ε)) (s : State (Exact ε)) (J : Euclidean n →ₗ[ℝ] Euclidean m)
    (h : Euclidean m) : Prop where
  dim : k.n = n
  length : s.x.length = n
  hessian : (k.hessian s).Propagates n
  equality : ∀ c, k.problem.equality = some c → (c.jacobian s.x).Pulls n c.rows
  inequality : ∀ c, k.problem.inequality = some c → c.Linearises s.x J ∧ s.h = vec h
  slack : k.problem.inequality ≠ none → ∀ i, 0 < h i

theorem Setup.hessian_of_kept {t : State (Exact ε)} (ht : t.kept = s.kept) : k.hessian t = k.hessian s := by
  have hx : t.x = s.x := congrArg Kept.x ht
  have hh : t.h = s.h := congrArg Kept.h ht
  have hy : t.y = s.y := congrArg Kept.y ht
  have hmu : t.mu = s.mu := congrArg Kept.mu ht
  have hnorm : t.normGrad = s.normGrad := congrArg Kept.normGrad ht
  have hhistory : t.history = s.history := congrArg Kept.history ht
  unfold Setup.hessian
  rw [hx, hy, hh, hmu, hnorm, hhistory]

theorem Setup.preconditioner_of_kept {t : State (Exact ε)} (ht : t.kept = s.kept) :
    k.preconditioner t = k.preconditioner s := by
  have hhistory : t.history = s.history := congrArg Kept.history ht
  unfold Setup.preconditioner
  rw [hhistory]

theorem TrustRegion.projector_of_kept {t : State (Exact ε)} (ht : t.kept = s.kept) : projector k t = projector k s := by
  have hx : t.x = s.x := congrArg Kept.x ht
  unfold projector
  rw [hx]

/-- Nothing of a state matters that a step changes. -/
theorem Setup.RealAt.of_kept {t : State (Exact ε)} (hk : k.RealAt s J h) (ht : t.kept = s.kept) : k.RealAt t J h := by
  have hx : t.x = s.x := congrArg Kept.x ht
  have hh : t.h = s.h := congrArg Kept.h ht
  have hH : k.hessian t = k.hessian s := Setup.hessian_of_kept ht
  exact {
    dim := hk.dim
    length := hx ▸ hk.length
    hessian := hH ▸ hk.hessian
    equality := hx ▸ hk.equality
    inequality := by
      rw [hx, hh]
      exact hk.inequality
    slack := hk.slack }

/-- The model at `s` is one over the reals, with the Hessian `H` and the gradient `a`, a positive semidefinite
preconditioner and a symmetric projector. -/
structure Setup.ModelAt (k : Setup (Exact ε)) (s : State (Exact ε)) (H : Euclidean n →ₗ[ℝ] Euclidean n)
    (a : Euclidean n) : Prop where
  hessian : (k.hessian s).Acts H
  symmetric : H.IsSymmetric
  grad : s.grad = vec a
  preconditioner : ∃ B : Euclidean n →ₗ[ℝ] Euclidean n, (k.preconditioner s).Acts B ∧ ∀ v, 0 ≤ inner ℝ v (B v)
  projector : ∃ C : Euclidean n →ₗ[ℝ] Euclidean n, (TrustRegion.projector k s).Acts C ∧ C.IsSymmetric

theorem Setup.ModelAt.of_kept {t : State (Exact ε)} {H : Euclidean n →ₗ[ℝ] Euclidean n} {a : Euclidean n}
    (hk : k.ModelAt s H a) (ht : t.kept = s.kept) : k.ModelAt t H a := by
  have hgrad : t.grad = s.grad := congrArg Kept.grad ht
  exact {
    hessian := Setup.hessian_of_kept (k := k) ht ▸ hk.hessian
    symmetric := hk.symmetric
    grad := hgrad.trans hk.grad
    preconditioner := Setup.preconditioner_of_kept (k := k) ht ▸ hk.preconditioner
    projector := TrustRegion.projector_of_kept (k := k) ht ▸ hk.projector }

/-! ### The safeguards of a step -/

theorem Problem.zero_mem_safe {p : Problem (Exact ε)} (hslack : p.inequality ≠ none → ∀ i, 0 < h i) (hκ : 0 ≤ κ) :
    0 ∈ p.safe J h κ := by
  intro hp i
  rw [map_zero]
  simpa using mul_nonneg hκ (hslack hp i).le

theorem Problem.safe_mono {p : Problem (Exact ε)} (hslack : p.inequality ≠ none → ∀ i, 0 < h i) {κ' : ℝ}
    (hκ : κ ≤ κ') : p.safe J h κ ⊆ p.safe J h κ' := by
  intro d hd hp i
  have hle := mul_le_mul_of_nonneg_right hκ (hslack hp i).le
  have := hd hp i
  linarith

theorem Setup.RealAt.safeguard (hk : k.RealAt s J h) (hκ : 0 ≤ κ) :
    (k.safeguard s (real κ)).Ensures fun r => ∀ sg, r = .ok sg → sg.Guards (k.problem.safe J h κ) := by
  unfold Setup.safeguard
  split
  case h_1 hp =>
    have huniv : k.problem.safe J h κ = Set.univ := by
      ext d
      simp [Problem.safe, hp]
    rw [huniv]
    refine ensures_pure ?_
    rintro _ ⟨⟩
    exact Safeguard.unlimited_guards
  case h_2 c hp =>
    have hsafe : k.problem.safe J h κ = safeSteps J h κ := by
      ext d
      simp [Problem.safe, hp]
    obtain ⟨hJ, hh⟩ := hk.inequality c hp
    rw [hsafe, hh]
    exact Safeguard.linear_guards hJ.acts h hκ _

/-! ### The quasinormal step -/

/-- A quasinormal step is a real vector within its bounds, or there is nothing to do and it is zero. -/
theorem Setup.RealAt.normalStep (hk : k.RealAt s J h) (hpar : k.par.Fractions γ ζ) (hδ : s.delta = real δ)
    (hδ0 : 0 < δ) {step : Vec (Exact ε)} {stop : QuasinormalStop} (hstep : k.NormalStep s step stop) :
    (∃ d, step = vec d ∧ Within (k.problem.safe J h (ζ * γ)) (real (ζ * δ) : Exact ε) d) ∨
      ∃ l, step = Vec.zeros l := by
  have hκ : 0 ≤ ζ * γ := mul_nonneg hpar.zeta_pos.le hpar.gamma_pos.le
  unfold Setup.NormalStep at hstep
  split at hstep
  · exact .inr ⟨_, hstep.1⟩
  case h_2 c hc =>
    obtain ⟨sg, r, report, hsg, hr, hout, rfl, -⟩ := hstep
    rw [hpar.zeta, hpar.gamma, real_mul] at hsg
    rw [hδ] at hr
    have hguards := (hk.safeguard hκ).answer hsg sg rfl
    have hzero : Within (k.problem.safe J h (ζ * γ)) (real (ζ * δ) : Exact ε) 0 := by
      refine ⟨?_, Problem.zero_mem_safe hk.slack hκ⟩
      rw [norm_zero]
      exact real_le.mpr (mul_nonneg hpar.zeta_pos.le hδ0.le)
    have hsolve := Quasinormal.solve_within (hk.equality c hc) hguards hzero hpar.zeta s.g s.dxNormal
      s.dxCauchy (Quasinormal.workLength k.equalities k.n)
    exact .inl (hsolve.answer hr report hout)

/-- A quasinormal step uses a fraction of the trust region. -/
theorem Setup.RealAt.norm_normalStep (hk : k.RealAt s J h) (hpar : k.par.Fractions γ ζ) (hδ : s.delta = real δ)
    (hδ0 : 0 < δ) {step : Vec (Exact ε)} {stop : QuasinormalStop} (hstep : k.NormalStep s step stop) :
    Vec.norm step ≤ k.par.quasinormal.zeta * s.delta := by
  rw [hpar.zeta, hδ, real_mul]
  rcases hk.normalStep hpar hδ hδ0 hstep with ⟨d, rfl, hd⟩ | ⟨l, rfl⟩
  · rw [norm_vec]
    exact hd.norm
  · rw [zeros_eq, norm_vec, norm_zero]
    exact real_le.mpr (mul_nonneg hpar.zeta_pos.le hδ0.le)

/-- The quasinormal bounds leave room in those of the whole step. -/
theorem Setup.RealAt.room (hk : k.RealAt s J h) (hpar : k.par.Fractions γ ζ) (hδ0 : 0 < δ) {d : Euclidean n}
    (hd : Within (k.problem.safe J h (ζ * γ)) (real (ζ * δ) : Exact ε) d) :
    Within (k.problem.safe J h γ) (real δ : Exact ε) d := by
  have hκ : ζ * γ ≤ γ := mul_le_of_le_one_left hpar.gamma_pos.le hpar.zeta_lt.le
  have hδζ : ζ * δ ≤ δ := mul_le_of_le_one_left hδ0.le hpar.zeta_lt.le
  exact ⟨real_le.mpr ((real_le.mp hd.norm).trans hδζ), Problem.safe_mono hk.slack hκ hd.safe⟩

/-! ### The tangential step -/

namespace TrustRegion

theorem projector_into (k : Setup (Exact ε)) (s : State (Exact ε)) (x : Vec (Exact ε)) :
    ((projector k s).apply 1 x 0 (vec (0 : Euclidean n))).Ensures fun z =>
      Vec.isFinite z = true → ∃ v ∈ (⊤ : Submodule ℝ (Euclidean n)), z = vec v := by
  have hreal : ∀ {x z : Vec (Exact ε)}, Checked.axpby 1 x 0 (vec (0 : Euclidean n)) = .ok z →
      Vec.isFinite z = true → ∃ v ∈ (⊤ : Submodule ℝ (Euclidean n)), z = vec v := by
    intro x z hz hfin
    obtain ⟨v, hv⟩ := exists_vec ((Checked.axpby_length hz).trans length_vec) hfin
    exact ⟨v, trivial, hv⟩
  unfold projector
  split
  · exact ensures_lift fun z => hreal
  · refine ensures_bind (ensures_true _) fun _ _ => ensures_bind (ensures_true _) fun u _ => ?_
    exact ensures_lift fun z => hreal

/-- What a tangential step in `V` from an offset `d` within the quasinormal bounds answers at `s`. -/
def Answers (k : Setup (Exact ε)) (s : State (Exact ε)) (V : Submodule ℝ (Euclidean n))
    (J : Euclidean n →ₗ[ℝ] Euclidean m) (h : Euclidean m) (γ δ : ℝ) (d : Euclidean n)
    (r : TruncatedResult (Exact ε)) : Prop :=
  ¬ r.stop.BlamesOffset ∧
    ∃ t ∈ V, r.step = vec t ∧ Within (k.problem.safe J h γ) (real δ : Exact ε) (d + t) ∧
      ∀ H a, k.ModelAt s H a → r.model = real (quadratic H (a + H d) t) ∧ quadratic H (a + H d) t ≤ 0

/-- From an offset `d` within the bounds a tangential solve is one of a model over the reals. -/
theorem tangentialSolve_solves (hk : k.RealAt s J h) (hpar : k.par.Fractions γ ζ) (hδ : s.delta = real δ)
    {V : Submodule ℝ (Euclidean n)}
    (hV : ∀ x, ((projector k s).apply 1 x 0 (vec (0 : Euclidean n))).Ensures fun z =>
      Vec.isFinite z = true → ∃ v ∈ V, z = vec v)
    {d : Euclidean n} (hd : s.dxNormal = vec d) {P : TruncatedResult (Exact ε) → Prop}
    (hsolve : ∀ g sg, (∀ (H : Euclidean n →ₗ[ℝ] Euclidean n) a, k.ModelAt s H a → g = vec (a + H d)) →
      TruncatedCG.Parts ⟨k.par.truncated, k.hessian s, k.preconditioner s, projector k s, g, real δ, sg⟩ V
        (k.problem.safe J h γ) →
      (TruncatedCG.solve ⟨k.par.truncated, k.hessian s, k.preconditioner s, projector k s, g, real δ, sg⟩ (vec d)
        s.dxTangential (TruncatedCG.workLength k.n k.par.truncated.orthogMax)).Ensures fun out => ∀ r, out = .ok r → P r) :
    (tangentialSolve k s).Ensures fun out => ∀ r, out = .ok r → P r := by
  unfold tangentialSolve
  refine ensures_bind (P := fun g => ∀ (H : Euclidean n →ₗ[ℝ] Euclidean n) a, k.ModelAt s H a → g = vec (a + H d))
    ?_ fun g hg => ?_
  · refine ensures_forall fun H => ensures_forall fun a => ensures_forall fun hmodel => ?_
    rw [hd, hmodel.grad]
    refine (hmodel.hessian.apply 1 1 d a).mono fun g hg => ?_
    rwa [one_smul, one_smul, add_comm] at hg
  rw [hpar.gamma]
  refine ensures_bind (hk.safeguard hpar.gamma_pos.le) fun q hq => ?_
  split
  · exact ensures_pure nofun
  case h_2 sg =>
    rw [hd, hδ]
    exact hsolve g sg hg {
      hessian := hk.hessian
      projector := projector_strict k s
      into := hV
      guards := hq sg rfl
      zero := Problem.zero_mem_safe hk.slack hpar.gamma_pos.le }

theorem tangentialSolve_ensures (hk : k.RealAt s J h) (hpar : k.par.Fractions γ ζ) (hδ : s.delta = real δ)
    {V : Submodule ℝ (Euclidean n)}
    (hV : ∀ x, ((projector k s).apply 1 x 0 (vec (0 : Euclidean n))).Ensures fun z =>
      Vec.isFinite z = true → ∃ v ∈ V, z = vec v)
    {d : Euclidean n} (hd : s.dxNormal = vec d) (hwithin : Within (k.problem.safe J h γ) (real δ : Exact ε) d) :
    (tangentialSolve k s).Ensures fun out => ∀ r, out = .ok r → Answers k s V J h γ δ d r := by
  refine tangentialSolve_solves hk hpar hδ hV hd fun g sg hg hparts => ?_
  refine (TruncatedCG.solve_ensures hparts hwithin _ _).mono fun out hout r hr => ?_
  obtain ⟨hblame, t, ht, hstep, hin, hvalue⟩ := hout r hr
  refine ⟨hblame, t, ht, hstep, hin, fun H a hmodel => hvalue H _ ?_⟩
  exact ⟨hmodel.hessian, hmodel.symmetric, hg H a hmodel, hmodel.preconditioner, hmodel.projector⟩

/-- A tangential solve that stops at the boundary has come to it, unless its last direction ends short of it. -/
theorem tangentialSolve_bounded (hk : k.RealAt s J h) (hpar : k.par.Fractions γ ζ) (hδ : s.delta = real δ)
    {d : Euclidean n} (hd : s.dxNormal = vec d) (hwithin : Within (k.problem.safe J h γ) (real δ : Exact ε) d) :
    (tangentialSolve k s).Ensures fun out => ∀ r, out = .ok r →
      Bounded (k.hessian s) (k.problem.safe J h γ) δ d r.stop r.step :=
  tangentialSolve_solves hk hpar hδ (projector_into k s) hd fun _ _ _ hparts =>
    TruncatedCG.solve_bounded hparts hwithin rfl _ _

theorem tangentialSolve_length (hk : k.RealAt s J h) {r : TruncatedResult (Exact ε)}
    (hr : (tangentialSolve k s).answer = .ok (.ok r)) : s.dxNormal.length = n ∧ s.dxTangential.length = n := by
  have hcols : (k.hessian s).cols = n := (Setup.hessian_cols (hk.length.trans hk.dim.symm)).trans hk.dim
  have hensures : (tangentialSolve k s).Ensures fun out => ∀ r, out = .ok r →
      s.dxNormal.length = (k.hessian s).cols ∧ s.dxTangential.length = (k.hessian s).cols := by
    unfold tangentialSolve
    refine ensures_bind (ensures_true _) fun g _ => ensures_bind (ensures_true _) fun q _ => ?_
    split
    · exact ensures_pure nofun
    · exact TruncatedCG.solve_length _ _ _ _
  exact hcols ▸ hensures.answer hr r rfl

/-- The tangential solve depends on the kept part of the state, the radius and the quasinormal step. -/
theorem tangentialSolve_congr {t : State (Exact ε)} (ht : t.kept = s.kept) (hdelta : t.delta = s.delta)
    (hnormal : t.dxNormal = s.dxNormal) (hlen : t.dxTangential.length = s.dxTangential.length) :
    tangentialSolve k t = tangentialSolve k s := by
  have hx : t.x = s.x := congrArg Kept.x ht
  have hh : t.h = s.h := congrArg Kept.h ht
  have hgrad : t.grad = s.grad := congrArg Kept.grad ht
  unfold tangentialSolve Setup.safeguard
  rw [Setup.hessian_of_kept ht, Setup.preconditioner_of_kept ht, projector_of_kept ht, hx, hh, hgrad, hdelta, hnormal]
  simp only [TruncatedCG.solve_congr _ _ hlen]

/-- After a quasinormal step the tangential solve does not blame its offset, and ends within the bounds. -/
theorem tangential_answers (hk : k.RealAt s J h) (hpar : k.par.Fractions γ ζ) (hδ : s.delta = real δ) (hδ0 : 0 < δ)
    {V : Submodule ℝ (Euclidean n)} {step : Vec (Exact ε)} {stop : QuasinormalStop}
    (hstep : k.NormalStep s step stop) {t : State (Exact ε)} (ht : t.kept = s.kept) (hdelta : t.delta = s.delta)
    (hnormal : t.dxNormal = step)
    (hV : ∀ x, ((projector k t).apply 1 x 0 (vec (0 : Euclidean n))).Ensures fun z =>
      Vec.isFinite z = true → ∃ v ∈ V, z = vec v)
    {r : TruncatedResult (Exact ε)} (hr : (tangentialSolve k t).answer = .ok (.ok r)) :
    ∃ d, step = vec d ∧ Within (k.problem.safe J h (ζ * γ)) (real (ζ * δ) : Exact ε) d ∧
      Answers k t V J h γ δ d r := by
  have hkt : k.RealAt t J h := hk.of_kept ht
  obtain ⟨d, hd, hwithin⟩ : ∃ d, step = vec d ∧ Within (k.problem.safe J h (ζ * γ)) (real (ζ * δ) : Exact ε) d := by
    rcases hk.normalStep hpar hδ hδ0 hstep with hd | ⟨l, hl⟩
    · exact hd
    · have hlen := (tangentialSolve_length hkt hr).1
      rw [hnormal, hl, Vec.length_zeros] at hlen
      refine ⟨0, by rw [hl, hlen, zeros_eq], ?_, ?_⟩
      · rw [norm_zero]
        exact real_le.mpr (mul_nonneg hpar.zeta_pos.le hδ0.le)
      · exact Problem.zero_mem_safe hk.slack (mul_nonneg hpar.zeta_pos.le hpar.gamma_pos.le)
  have hanswers := tangentialSolve_ensures hkt hpar (hdelta.trans hδ) hV (hnormal.trans hd) (hk.room hpar hδ0 hwithin)
  exact ⟨d, hd, hwithin, hanswers.answer hr r rfl⟩

/-- The step of a composite step is the sum of a quasinormal and a tangential one in `V`, within the bounds. The
tangential one is the answer of a solve that does not raise the model. -/
structure Composed (k : Setup (Exact ε)) (V : Submodule ℝ (Euclidean n)) (J : Euclidean n →ₗ[ℝ] Euclidean m)
    (h : Euclidean m) (γ δ : ℝ) (t : State (Exact ε)) (d e : Euclidean n) : Prop where
  normal : t.dxNormal = vec d
  tangential : t.dxTangential = vec e
  mem : e ∈ V
  dx : t.dx = vec (d + e)
  within : Within (k.problem.safe J h γ) (real δ : Exact ε) (d + e)
  answer : ∃ r, (tangentialSolve k t).answer = .ok (.ok r) ∧ r.step = t.dxTangential ∧
    ∀ H a, k.ModelAt t H a → r.model = real (quadratic H (a + H d) e) ∧ quadratic H (a + H d) e ≤ 0

theorem CompositeStep.composed (hk : k.RealAt s J h) (hpar : k.par.Fractions γ ζ) (hδ : s.delta = real δ)
    (hδ0 : 0 < δ) {V : Submodule ℝ (Euclidean n)}
    (hV : ∀ u : State (Exact ε), u.x = s.x → ∀ x, ((projector k u).apply 1 x 0 (vec (0 : Euclidean n))).Ensures fun z =>
      Vec.isFinite z = true → ∃ v ∈ V, z = vec v)
    {stop : TruncatedStop} {t : State (Exact ε)} (ht : CompositeStep k s stop t) :
    ∃ d e, Composed k V J h γ δ t d e := by
  obtain ⟨step, cauchy, normal, r, dx, hstep, hr, -, -, -, hdx, rfl⟩ := ht
  let u : State (Exact ε) := { s with dxNormal := step, dxCauchy := cauchy, quasinormalStop := normal }
  obtain ⟨d, hd, -, -, e, he, hre, hwithin, hvalue⟩ :=
    tangential_answers hk hpar hδ hδ0 hstep (t := u) rfl rfl rfl (hV u rfl) hr
  have hlen : r.step.length = u.dxTangential.length := by
    rw [hre, length_vec, (tangentialSolve_length (hk.of_kept (t := u) rfl) hr).2]
  have hsolve : tangentialSolve k (afterComposite s step cauchy normal r dx) = tangentialSolve k u :=
    tangentialSolve_congr rfl rfl rfl hlen
  refine ⟨d, e, hd, hre, he, ?_, hwithin, r, by rw [hsolve, hr], rfl, fun H a hmodel => hvalue H a ?_⟩
  · rw [hd, hre] at hdx
    have hsum := checked_add_eq_ok hdx
    rwa [one_smul] at hsum
  · exact hmodel.of_kept rfl

/-- A composite step whose tangential part stops at the boundary has come to it, unless that part ends short of it. -/
theorem CompositeStep.bounded (hk : k.RealAt s J h) (hpar : k.par.Fractions γ ζ) (hδ : s.delta = real δ) (hδ0 : 0 < δ)
    {V : Submodule ℝ (Euclidean n)} {stop : TruncatedStop} {t : State (Exact ε)} (ht : CompositeStep k s stop t)
    {d e : Euclidean n} (hs : Composed k V J h γ δ t d e) :
    Bounded (k.hessian s) (k.problem.safe J h γ) δ d stop (vec e) := by
  obtain ⟨step, cauchy, normal, r, dx, hstep, hr, rfl, -, -, -, rfl⟩ := ht
  obtain ⟨d', hd', hwithin, -⟩ := tangential_answers hk hpar hδ hδ0 hstep
    (t := { s with dxNormal := step, dxCauchy := cauchy, quasinormalStop := normal }) rfl rfl rfl (projector_into k _) hr
  obtain rfl : d = d' := vec_inj.mp (hs.normal.symm.trans hd')
  have hbounded := tangentialSolve_bounded (s := { s with dxNormal := step, dxCauchy := cauchy, quasinormalStop := normal })
    (hk.of_kept rfl) hpar hδ hd' (hk.room hpar hδ0 hwithin)
  rw [← hs.tangential]
  exact hbounded.answer hr r rfl

/-- The norm of the step is no part of it. -/
theorem Composed.withNorm {V : Submodule ℝ (Euclidean n)} {d e : Euclidean n} (hs : Composed k V J h γ δ s d e)
    (normDx : Exact ε) : Composed k V J h γ δ { s with normDx } d e where
  normal := hs.normal
  tangential := hs.tangential
  mem := hs.mem
  dx := hs.dx
  within := hs.within
  answer := by
    obtain ⟨r, hr, hstep, hvalue⟩ := hs.answer
    have hsolve : tangentialSolve k { s with normDx } = tangentialSolve k s := tangentialSolve_congr rfl rfl rfl rfl
    exact ⟨r, by rw [hsolve, hr], hstep, fun H a hmodel => hvalue H a (hmodel.of_kept rfl)⟩

/-! ### The radius -/

/-- A rejected step within the radius halves it at least. -/
theorem shrunk_le {r : ℝ} (hδ : s.delta = real δ) (hδ0 : 0 < δ) (hr : s.normDx = real r) (hle : r ≤ δ) :
    ∃ δ', shrunk s = real δ' ∧ 0 < δ' ∧ δ' ≤ 1 / 2 * δ := by
  unfold shrunk
  rw [hr, hδ, half_eq, real_mul, real_mul]
  split
  case isTrue hlt =>
    have hlt := real_lt.mp hlt
    exact ⟨_, rfl, by positivity, by linarith⟩
  case isFalse => exact ⟨_, rfl, by positivity, le_rfl⟩

theorem shrunk_real {r : ℝ} (hδ : s.delta = real δ) (hδ0 : 0 < δ) (hr : s.normDx = real r) :
    ∃ δ', shrunk s = real δ' ∧ 0 < δ' := by
  unfold shrunk
  rw [hr, hδ, half_eq, real_mul, real_mul]
  split
  case isTrue hlt =>
    have hlt := real_lt.mp hlt
    exact ⟨_, rfl, by positivity⟩
  case isFalse => exact ⟨_, rfl, by positivity⟩

theorem grown_real {δ₀ : ℝ} (hδ : s.delta = real δ) (hδ0 : 0 < δ) (hδ₀ : 0 < δ₀) (hmax : real δ₀ ≤ k.par.deltaMax) :
    ∃ δ', Scalar.minNum (Scalar.two * s.delta) k.par.deltaMax = real δ' ∧ 0 < δ' := by
  rw [hδ, two_eq, real_mul]
  rcases bound_cases hmax with hinf | ⟨D, hD, hle⟩
  · exact ⟨2 * δ, by rw [hinf, minNum_infinite], by positivity⟩
  · exact ⟨min (2 * δ) D, by rw [hD, minNum_real], lt_min (by positivity) (hδ₀.trans_le hle)⟩

end TrustRegion
end ConstrainedOpt
