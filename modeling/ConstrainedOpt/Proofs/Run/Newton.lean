import ConstrainedOpt.Proofs.Completion.Steps
import ConstrainedOpt.Proofs.Reduction.Runs
import ConstrainedOpt.Proofs.Run.Effects
import ConstrainedOpt.Proofs.Run.Search
import ConstrainedOpt.Proofs.Step.Downhill

/-! # Newton directions

A line-search step takes its direction from a truncated solve without bounds. Where the model is one over the reals with a
symmetric positive definite preconditioner, the solve ends in a direction that descends, so the step never restarts from
the negative gradient.
-/
namespace ConstrainedOpt
open Running

/-! ### Steps along one direction -/

section Along
variable {F : Type} [Scalar F] {k : Setup F} {s : State F} {W : Watch F} {d : Vec F}

/-- The watch looks at the trial points and at the states where a search along the direction begins, and has nothing
against those of the direction `d`. -/
structure Watch.Along (W : Watch F) (d g : Vec F) : Prop where
  trial : ∀ s t, s.direction = d → W.trial s t
  search : ∀ s, s.direction = d → s.grad = g → W.visit .beforeLineSearch s
  elsewhere : ∀ loc s, loc ≠ .beforeLineSearch → W.visit loc s

namespace LineSearch
variable {g : Vec F} (hk : k.hooks.StepOnly) (hW : W.Along d g)
include hk hW

theorem attempt_along (hs : s.direction = d) (r : Reference F) :
    wp W (attempt k r) (fun more t => more = true → t.direction = d) (fun _ _ => True) s := by
  unfold attempt
  refine wp_bind (wp_getState (wp_bind (wp_mono safeLength_spec ?_ fun _ _ _ => trivial)))
  rintro a t ⟨rfl, -⟩
  split
  · exact wp_bind (wp_getState (wp_bind (wp_log (wp_bind (wp_setStop (wp_pure nofun))))))
  · have hprobing : Probing k W (fun _ _ => True) t (fun _ => True) (fun _ => True) :=
      { zero := trivial
        lower := fun _ _ => trivial
        half := fun _ _ => trivial
        below := fun _ _ _ _ => trivial
        above := fun _ _ _ _ => trivial
        sees := fun p _ _ => hW.trial t p.trial hs
        halted := fun _ => trivial }
    refine wp_bind (wp_mono (search_wp hprobing r.limit r.slope trivial) ?_ fun _ _ _ => trivial)
    rintro ⟨p, evals⟩ u ⟨rfl, -⟩
    refine wp_bind (wp_update_of (P := fun t => t.direction = d) hs fun t ht => ?_)
    dsimp only
    split
    · refine wp_bind (wp_bind (wp_update ?_))
      refine accept_wp hk p.trial (hW.elsewhere _ _ nofun) (fun _ _ _ => hW.elsewhere _ _ nofun) (fun _ _ => wp_pure nofun)
        fun _ _ _ => trivial
    · unfold reject
      refine wp_bind (wp_update_of (P := fun t => t.direction = d) ht fun t ht => ?_)
      refine wp_bind (wp_getState (wp_bind (wp_log (wp_bind (wp_quiet hk nofun (hW.elsewhere _ _ nofun) ?_)))))
      refine wp_bind (wp_getState ?_)
      split
      · exact wp_bind (wp_log (wp_bind (wp_setStop (wp_pure nofun))))
      · exact wp_pure fun _ => ht

theorem attempts_along (fuel : ℕ) (hs : s.direction = d) (r : Reference F) :
    wp W (attempts k r fuel) (fun _ _ => True) (fun _ _ => True) s := by
  induction fuel generalizing s with
  | zero => exact wp_throw trivial
  | succ fuel ih =>
    refine wp_bind (wp_mono (attempt_along hk hW hs r) ?_ fun _ _ h => h)
    rintro (_ | _) t ht
    · exact wp_pure trivial
    · exact ih (ht rfl)

omit hW in
/-- Where the Newton solve ends in a direction that descends, the step searches along that direction. -/
theorem step_along {r : TruncatedResult F} (hW : W.Along r.step s.grad) (hdirection : k.par.direction = .newtonCg)
    (hrunning : s.stop = .notConverged) (hsolve : (newtonSolve k s (lastDirection k s)).answer = .ok (.ok r))
    (hsound : r.stop.isNumericalFailure = false) (hslope : ∀ c, Checked.inner s.grad r.step = .ok c → c < 0) :
    wp W (step k) (fun _ _ => True) (fun _ _ => True) s := by
  have hdirected : wp W (updateDirection k) (fun o t => o = .ok () ∧ t.stop = .notConverged ∧ t.direction = r.step ∧
      t.grad = s.grad) (fun _ _ => True) s := by
    unfold updateDirection direction newtonDirection
    refine wp_bind (wp_getState (wp_bind (wp_bind (wp_getState ?_))))
    rw [hdirection]
    refine wp_bind (wp_getState (wp_bind (wp_lift (fun out hout => ?_) fun _ _ => trivial)))
    cases hsolve.symm.trans hout
    refine wp_bind (wp_update ?_)
    rw [hsound, if_neg Bool.false_ne_true]
    exact wp_pure (wp_bind (wp_update (wp_pure ⟨rfl, hrunning, rfl, rfl⟩)))
  unfold step
  refine wp_bind (wp_quiet hk nofun (hW.elsewhere _ _ nofun) (wp_bind (wp_mono hdirected ?_ fun _ _ h => h)))
  rintro _ t ⟨rfl, hstop, hdir, hgrad⟩
  refine wp_bind (wp_stopped ?_)
  rw [hstop]
  refine wp_bind (wp_visit (hW.elsewhere _ _ nofun) ?_)
  obtain ⟨dx, hdx⟩ := hk.atGetStep t
  rw [hdx]
  -- the direction descends, and is kept
  have hkept : wp W descend (fun _ u => u.direction = r.step ∧ u.grad = s.grad) (fun _ _ => True) { t with dx } := by
    unfold descend
    refine wp_bind (wp_getState (wp_bind (wp_lift (fun c hc => ?_) fun _ _ => trivial)))
    have hc : Checked.inner t.grad t.direction = .ok c := Checked.lift_answer hc
    rw [hgrad, hdir] at hc
    rw [if_pos (hslope c hc)]
    exact wp_pure ⟨hdir, hgrad⟩
  refine wp_bind (wp_mono hkept ?_ fun _ _ h => h)
  rintro slope u ⟨hdir, hgrad⟩
  have hsearch : ∀ v : State F, v.direction = r.step → v.grad = s.grad → wp W (do
      visit k .beforeLineSearch
      attempts k (reference (← getState) slope) (k.par.rejectedMax + patience)) (fun _ _ => True) (fun _ _ => True) v := by
    intro v hdir hgrad
    refine wp_bind (wp_quiet hk nofun (hW.search v hdir hgrad) (wp_bind (wp_getState ?_)))
    exact attempts_along hk hW _ hdir _
  refine wp_bind (wp_getState (wp_bind (wp_lift (fun length _ => ?_) fun _ _ => trivial)))
  split
  · exact wp_bind (wp_update_of (P := fun v => v.direction = r.step ∧ v.grad = s.grad) ⟨hdir, hgrad⟩
      fun v hv => hsearch v hv.1 hv.2)
  · exact hsearch u hdir hgrad

end LineSearch
end Along

/-! ### Newton models over the reals -/

section Exact
open Exact Journaled
variable {ε : Set.Ioi (0 : ℝ)}

/-- The parameters let a truncated solve make a first pass, with tolerances that are not negative. -/
structure TruncatedParam.Fair (par : TruncatedParam (Exact ε)) : Prop where
  iterMax : 1 ≤ par.iterMax
  eps : ∃ e, par.eps = real e ∧ 0 ≤ e ∧ e < 1
  epsSym : Nonneg par.epsSym
  epsProj : Nonneg par.epsProj
  epsOrth : Nonneg par.epsOrth

/-- At `s` the gradient is `g`, the Hessian a symmetric map and the preconditioner a symmetric positive definite one. -/
structure Setup.NewtonModel (k : Setup (Exact ε)) (s : State (Exact ε)) (H B : Euclidean k.n →ₗ[ℝ] Euclidean k.n)
    (g : Euclidean k.n) : Prop where
  gradient : s.grad = vec g
  hessian : (k.hessian s).Acts H
  hessian_fills : (k.hessian s).Fills k.n k.n
  symmetric : H.IsSymmetric
  preconditioner : (k.preconditioner s).Acts B
  preconditioner_fills : (k.preconditioner s).Fills k.n k.n
  preconditioner_symmetric : B.IsSymmetric
  positive : ∀ v, v ≠ 0 → 0 < inner ℝ v (B v)

namespace LineSearch
variable {k : Setup (Exact ε)} {s : State (Exact ε)} {H B : Euclidean k.n →ₗ[ℝ] Euclidean k.n} {g : Euclidean k.n}

/-- What a solve for the Newton direction reads: neither a trust region nor a safeguard bounds it. -/
noncomputable def newtonModel (k : Setup (Exact ε)) (s : State (Exact ε)) : TruncatedCG.Model (Exact ε) :=
  ⟨k.par.truncated, k.hessian s, k.preconditioner s, .identity k.n, s.grad, Scalar.infinity, .unlimited⟩

section NewtonModel
variable (hmodel : k.NewtonModel s H B g)
include hmodel

theorem newtonModel_linear (hpar : k.par.truncated.Fair) :
    TruncatedCG.Linear (newtonModel k s) H B LinearMap.id where
  hessian := hmodel.hessian
  symmetric := hmodel.symmetric
  preconditioner := hmodel.preconditioner
  preconditioner_symmetric := hmodel.preconditioner_symmetric
  preconditioner_nonneg v := by
    by_cases hv : v = 0
    · rw [hv, inner_zero_left]
    · exact (hmodel.positive v hv).le
  projector := Operator.identity_acts k.n
  projector_symmetric _ _ := rfl
  idempotent _ := rfl
  safeguard := rfl
  eps := hpar.eps.imp fun _ he => ⟨he.1, he.2.1⟩
  epsSym := hpar.epsSym
  epsProj := hpar.epsProj
  epsOrth := hpar.epsOrth

theorem newtonModel_fits : (newtonModel k s).Fits k.n where
  hessian := hmodel.hessian_fills
  preconditioner := hmodel.preconditioner_fills
  projector := Operator.identity_fills k.n
  gradient := by
    change s.grad.length = k.n
    rw [hmodel.gradient, length_vec]
  safeguard := Safeguard.unlimited_fills k.n

theorem newtonSolve_descends (hg : g ≠ 0) (hpar : k.par.truncated.Fair) {last : Vec (Exact ε)} (hlast : last.length = k.n) :
    (newtonSolve k s last).Yields fun out => ∃ r d, out = .ok r ∧ r.step = vec d ∧ inner ℝ g d < 0 ∧
      r.stop.isNumericalFailure = false := by
  obtain ⟨e, he, -, he1⟩ := hpar.eps
  unfold newtonSolve
  rw [zeros_eq]
  exact TruncatedCG.solve_descends (newtonModel_linear hmodel hpar) rfl (newtonModel_fits hmodel) hmodel.gradient hpar.iterMax
    he he1 (hmodel.positive g hg) hlast le_rfl

end NewtonModel

/-- A truncated solve for the Newton direction ends in a direction that descends, whatever the curvature is. So a step with
this rule searches along the Newton direction, and does not restart from the negative gradient. -/
theorem step_searches_newton (hmodel : k.NewtonModel s H B g) (hg : g ≠ 0) (hpar : k.par.truncated.Fair) :
    (∀ last : Vec (Exact ε), last.length = k.n → (newtonSolve k s last).Yields fun out =>
      ∃ r d, out = .ok r ∧ r.step = vec d ∧ inner ℝ g d < 0) ∧
    (k.hooks.StepOnly → k.par.direction = .newtonCg → s.stop = .notConverged →
      ∃ r d, (newtonSolve k s (lastDirection k s)).answer = .ok (.ok r) ∧ r.step = vec d ∧ inner ℝ g d < 0 ∧
        (∀ u, .visit .beforeLineSearch u ∈ ((step k).run ⟨s, #[]⟩).2.events.toList →
          u.direction = vec d ∧ u.grad = vec g) ∧
        ∀ u t, .trial u t ∈ ((step k).run ⟨s, #[]⟩).2.events.toList → u.direction = vec d) := by
  refine ⟨fun last hlast => ?_, fun hk hdirection hrunning => ?_⟩
  · refine (newtonSolve_descends hmodel hg hpar hlast).mono ?_
    rintro out ⟨r, d, hout, hd, hneg, -⟩
    exact ⟨r, d, hout, hd, hneg⟩
  · obtain ⟨_, hanswer, r, d, rfl, hd, hneg, hsound⟩ := (newtonSolve_descends hmodel hg hpar (length_lastDirection k s)).answer
    let W : Watch (Exact ε) := ⟨fun loc u => loc = .beforeLineSearch → u.direction = r.step ∧ u.grad = s.grad,
      fun u _ => u.direction = r.step⟩
    have hW : W.Along r.step s.grad := ⟨fun _ _ h => h, fun _ hd hg _ => ⟨hd, hg⟩, fun _ _ h hloc => absurd hloc h⟩
    have hslope : ∀ c, Checked.inner s.grad r.step = .ok c → c < 0 := by
      intro c hc
      rw [hmodel.gradient, hd] at hc
      exact checked_inner_eq_ok hc ▸ hneg
    obtain ⟨es, hes, hsees, -⟩ := wp_run (step_along hk hW hdirection hrunning hanswer hsound hslope) #[]
    rw [List.nil_append] at hes
    refine ⟨r, d, hanswer, hd, hneg, fun u hu => ?_, fun u t hu => ?_⟩
    · have hsearch : W.Sees (.visit .beforeLineSearch u) := hsees _ (hes ▸ hu)
      rw [← hd, ← hmodel.gradient]
      exact hsearch rfl
    · have htrial : W.Sees (.trial u t) := hsees _ (hes ▸ hu)
      exact htrial.trans hd

end LineSearch

/-- The half square turned downwards. -/
noncomputable def Problem.fallingHalfSquare : Problem (Exact ε) where
  objective := {
    value := fun x => .ok (-(Scalar.half * Vec.inner x x))
    gradient := fun x n => Checked.copy (Vec.scale (-1) x) (Vec.zeros n)
    hessian := fun _ dx _ => .ok (Vec.scale (-1) dx) }
  equality := none
  inequality := none
  preconditioner := none

theorem Problem.fallingHalfSquare_acts {n : ℕ} {x : Vec (Exact ε)} (hx : x.length = n) (y h : Vec (Exact ε)) (μ : Exact ε) :
    (Barrier.hessian fallingHalfSquare x y h μ).Acts (-LinearMap.id : Euclidean n →ₗ[ℝ] Euclidean n) := by
  have happly : ∀ (a b : ℝ) (u v : Euclidean n),
      ((Barrier.hessian fallingHalfSquare x y h μ).apply (real a) (vec u) (real b) (vec v)).Ensures fun z =>
        z = vec (a • -u + b • v) := by
    intro a b u v
    refine ensures_bind (P := fun t => t = vec (-u)) (ensures_lift fun t ht => ?_) ?_
    · cases ht
      rw [one_eq, real_neg, scale_vec, neg_one_smul]
    · rintro _ rfl
      exact ensures_bind (ensures_pure rfl) fun _ h => h ▸ ensures_bind (ensures_pure rfl) fun _ h => h ▸ axpby_ensures a b (-u) v
  refine ⟨hx, hx, fun a b s y => happly a b s y, fun a b w z => ?_⟩
  rw [map_neg, LinearMap.adjoint_id]
  exact happly a b w z

theorem Problem.fallingHalfSquare_fills (n : ℕ) : (fallingHalfSquare : Problem (Exact ε)).Fills n where
  objective := {
    value := fun _ _ => ⟨_, rfl, trivial⟩
    gradient := fun x hx => (Checked.answers_copy ((Vec.length_scale _ x).trans hx) (Vec.length_zeros n)).mono fun _ hv =>
      hv ▸ (Vec.length_scale _ x).trans hx
    hessian := fun _ dx _ hdx => ⟨_, rfl, (Vec.length_scale _ dx).trans hdx⟩ }
  equality := nofun
  inequality := nofun
  preconditioner := nofun

theorem TruncatedParam.default_fair : (default : TruncatedParam (Exact ε)).Fair where
  iterMax := by norm_num [default]
  eps := ⟨1e-2, rfl, by norm_num, by norm_num⟩
  epsSym := ⟨1e-6, rfl, by norm_num⟩
  epsProj := ⟨1e-6, rfl, by norm_num⟩
  epsOrth := ⟨1e-1, rfl, by norm_num⟩

theorem LineSearch.step_searches_newton_fallingHalfSquare :
    let par : Parameters (Exact ⟨1, Set.mem_Ioi.mpr one_pos⟩) :=
      { Parameters.default with algorithm := .lineSearch, direction := .newtonCg, hessian := .userDefined }
    let k : Setup (Exact ⟨1, Set.mem_Ioi.mpr one_pos⟩) := ⟨par, .fallingHalfSquare, .passive, 1⟩
    let g : Euclidean 1 := EuclideanSpace.single 0 (-1)
    let s : State (Exact ⟨1, Set.mem_Ioi.mpr one_pos⟩) := { State.new (vec (-g)) with grad := vec g }
    k.NewtonModel s (-LinearMap.id) LinearMap.id g ∧ g ≠ 0 ∧ k.par.truncated.Fair ∧ k.hooks.StepOnly ∧
      ∃ r d, (newtonSolve k s (lastDirection k s)).answer = .ok (.ok r) ∧ r.step = vec d ∧ inner ℝ g d < 0 ∧
        (∀ u, .visit .beforeLineSearch u ∈ ((step k).run ⟨s, #[]⟩).2.events.toList →
          u.direction = vec d ∧ u.grad = vec g) ∧
        ∀ u t, .trial u t ∈ ((step k).run ⟨s, #[]⟩).2.events.toList → u.direction = vec d := by
  intro par k g s
  have hx : s.x.length = 1 := length_vec
  have hfills : (Barrier.hessian k.problem s.x s.y s.h s.mu).Fills 1 1 :=
    Barrier.hessian_fills (Problem.fallingHalfSquare_fills 1) hx rfl rfl _
  have hmodel : k.NewtonModel s (-LinearMap.id) LinearMap.id g := {
    gradient := rfl
    hessian := Problem.fallingHalfSquare_acts hx s.y s.h s.mu
    hessian_fills := hfills
    symmetric := fun u v => by simp
    preconditioner := QuasiNewton.identity_acts 1 _ _
    preconditioner_fills := QuasiNewton.operator_fills .identity _ ⟨nofun, nofun⟩
    preconditioner_symmetric := LinearMap.IsSymmetric.id
    positive := fun v hv => real_inner_self_pos.mpr hv }
  have hg : g ≠ 0 := by
    intro h
    have h0 := congrFun (congrArg WithLp.ofLp h) 0
    simp [g] at h0
  have hk : k.hooks.StepOnly := Hooks.Observing.stepOnly fun _ _ => rfl
  have hpar : k.par.truncated.Fair := TruncatedParam.default_fair
  exact ⟨hmodel, hg, hpar, hk, (LineSearch.step_searches_newton hmodel hg hpar).2 hk rfl rfl⟩

end Exact
end ConstrainedOpt
