import ConstrainedOpt.Proofs.Interior
import ConstrainedOpt.Proofs.Containment.Lengths

/-! # Contained runs

Where the inequality constraint is affine, its linearisation is exact: every trial point and every accepted
point of a run keeps at least the part `1 - γ` of the slack of the point it was tried from.
-/
namespace ConstrainedOpt
open Exact Journaled Running
variable {ε : Set.Ioi (0 : ℝ)} {n m : ℕ} {k : Setup (Exact ε)} {s t : State (Exact ε)}
  {A : Euclidean n →ₗ[ℝ] Euclidean m} {b : Euclidean m} {γ ζ : ℝ}

/-- From `x` to `x'` every entry keeps at least the part `1 - γ`, which is positive. -/
def Constraint.LeavesSlack (c : Constraint (Exact ε)) (γ : ℝ) (x x' : Vec (Exact ε)) : Prop :=
  ∃ (m : ℕ) (u v : Euclidean m), c.value x c.rows = .ok (vec u) ∧ c.value x' c.rows = .ok (vec v) ∧
    ∀ i, 0 < (1 - γ) * u i ∧ (1 - γ) * u i ≤ v i

theorem Constraint.Affine.leavesSlack {c : Constraint (Exact ε)} (hc : c.Affine A b) (hγ : γ < 1) {x d : Euclidean n}
    (hx : ∀ i, 0 < (A x + b) i) (hd : d ∈ safeSteps A (A x + b) γ) : c.LeavesSlack γ (vec x) (vec (x + d)) := by
  refine ⟨m, _, _, hc.value x, hc.value (x + d), fun i => ⟨mul_pos (sub_pos.mpr hγ) (hx i), ?_⟩⟩
  have hsplit : (A (x + d) + b) i = (A x + b) i + A d i := by
    rw [map_add]
    simp only [PiLp.add_apply]
    ring
  have := hd i
  rw [hsplit]
  linarith

/-- A problem over the reals with an affine inequality constraint. -/
structure Setup.AffineSlack (k : Setup (Exact ε)) (A : Euclidean n →ₗ[ℝ] Euclidean m) (b : Euclidean m) :
    Prop where
  hessian : ∀ (s : State (Exact ε)) (x : Euclidean n), s.x = vec x → (k.hessian s).Propagates n
  equality : ∀ c, k.problem.equality = some c → ∀ x : Euclidean n, (c.jacobian (vec x)).Pulls n c.rows
  inequality : ∀ c, k.problem.inequality = some c → c.Affine A b

/-! ### The invariant -/

/-- The vectors and the length a line search works on are real. -/
structure State.Searchable (n : ℕ) (s : State (Exact ε)) : Prop where
  grad : ∃ v : Euclidean n, s.grad = vec v
  gradOld : ∃ v : Euclidean n, s.gradOld = vec v
  dx : ∃ v : Euclidean n, s.dx = vec v
  direction : ∃ v : Euclidean n, s.direction = vec v
  alphaStart : ∃ a, s.alphaStart = real a
  history : s.history.Real n

/-- A real point with the slack of an affine constraint, which is positive. -/
structure Setup.PointAt (k : Setup (Exact ε)) (A : Euclidean n →ₗ[ℝ] Euclidean m) (b : Euclidean m)
    (x : Euclidean n) (s : State (Exact ε)) : Prop where
  point : s.x = vec x
  slack : k.problem.inequality ≠ none → s.h = vec (A x + b) ∧ ∀ i, 0 < (A x + b) i

/-- The invariant of a run: a point in the interior, and what its algorithm works on. -/
structure Setup.OnCourse (k : Setup (Exact ε)) (A : Euclidean n →ₗ[ℝ] Euclidean m) (b : Euclidean m)
    (s : State (Exact ε)) : Prop where
  point : ∃ x, k.PointAt A b x s
  delta : k.par.algorithm = .trustRegion → ∃ δ, s.delta = real δ ∧ 0 < δ
  search : k.par.algorithm = .lineSearch → s.stop = .notConverged → s.Searchable n

theorem Setup.PointAt.realAt {x : Euclidean n} (hp : k.AffineSlack A b) (hn : k.n = n)
    (hs : k.PointAt A b x s) : k.RealAt s A (A x + b) where
  dim := hn
  length := by rw [hs.point, length_vec]
  hessian := hp.hessian s x hs.point
  equality c hc := hs.point ▸ hp.equality c hc x
  inequality c hc := by
    refine ⟨hs.point ▸ (hp.inequality c hc).linearises x, (hs.slack ?_).1⟩
    simp [hc]
  slack hne := (hs.slack hne).2

theorem Setup.PointAt.of_kept {x : Euclidean n} (hs : k.PointAt A b x s) (ht : t.kept = s.kept) :
    k.PointAt A b x t := by
  have hx : t.x = s.x := congrArg Kept.x ht
  have hh : t.h = s.h := congrArg Kept.h ht
  exact ⟨hx.trans hs.point, hh ▸ hs.slack⟩

/-- Where a safe step leads. -/
theorem Setup.PointAt.moved {x d : Euclidean n} (hp : k.AffineSlack A b) (hγ : γ < 1)
    (hs : k.PointAt A b x s) (hd : d ∈ k.problem.safe A (A x + b) γ) {v : Trial (Exact ε)}
    (hv : v.x = vec (x + d)) (heval : k.problem.evaluate v.x = .ok v) (u : State (Exact ε)) :
    k.PointAt A b (x + d) (u.moveTo v) where
  point := hv
  slack hne := by
    obtain ⟨c, hc⟩ := Option.ne_none_iff_exists'.mp hne
    have hh := (Problem.evaluate_eq_ok heval).2.2.2.2.1 c hc
    rw [hv, (hp.inequality c hc).value] at hh
    refine ⟨(Except.ok.inj hh).symm, fun i => ?_⟩
    have hpos := (hs.slack hne).2 i
    have hstep := hd hne i
    have hsplit : (A (x + d) + b) i = (A x + b) i + A d i := by
      rw [map_add]
      simp only [PiLp.add_apply]
      ring
    nlinarith

theorem Setup.OnCourse.graded (hp : k.problem.objective.Sized) (hs : k.OnCourse A b s) {updateY : Bool}
    {y grad : Vec (Exact ε)} (hg : k.Graded updateY s y grad) : k.OnCourse A b (s.graded y grad) := by
  obtain ⟨x, hx⟩ := hs.point
  refine ⟨⟨x, hx.point, hx.slack⟩, hs.delta, fun hls hrunning => ?_⟩
  have hsearch := hs.search hls hrunning
  obtain ⟨g, hgrad⟩ := hsearch.grad
  have hreal := hg.real hp (by rw [hx.point, length_vec] : s.x.length = n) (by rw [hgrad, length_vec])
  exact ⟨hreal, hsearch.gradOld, hsearch.dx, hsearch.direction, hsearch.alphaStart, hsearch.history⟩

theorem Setup.OnCourse.regraded (hp : k.problem.objective.Sized) (hs : k.OnCourse A b s) (ht : Regraded k s t) :
    k.OnCourse A b t := by
  cases ht with
  | sound hg => exact hs.graded hp hg
  | failed hu =>
    unfold State.SameButGradient at hu
    rw [hu]
    obtain ⟨x, hx⟩ := hs.point
    exact ⟨⟨x, hx.point, hx.slack⟩, hs.delta, fun _ => nofun⟩

theorem Setup.OnCourse.lowered (hp : k.problem.objective.Sized) (hs : k.OnCourse A b s) (ht : Lowered k s t) :
    k.OnCourse A b t := by
  rcases ht with rfl | ⟨-, ht⟩
  · exact hs
  · obtain ⟨x, hx⟩ := hs.point
    have hmu : k.OnCourse A b (s.lowered k.par) := ⟨⟨x, hx.point, hx.slack⟩, hs.delta, fun hls hrunning => by
      obtain ⟨h1, h2, h3, h4, h5, h6⟩ := hs.search hls hrunning
      exact ⟨h1, h2, h3, h4, h5, h6⟩⟩
    exact hmu.regraded hp ht

theorem Setup.OnCourse.assessed (hp : k.problem.objective.Sized) (hs : k.OnCourse A b s) (ht : Assessed k s t) :
    StepEnds (k.OnCourse A b) (fun _ => True) t :=
  .of_running fun hrunning => hs.lowered hp (ht.lowered hrunning)

/-! ### What a run shows -/

/-- Trial points and accepted points leave slack. -/
def Watch.leavesSlack (p : Problem (Exact ε)) (γ : ℝ) : Watch (Exact ε) where
  visit loc s := loc = .afterStepBeforeGradient → ∀ c, p.inequality = some c → c.LeavesSlack γ s.xOld s.x
  trial s t := ∀ c, p.inequality = some c → c.LeavesSlack γ s.x t.x

/-- From a point to itself the slack stays. -/
theorem Setup.PointAt.leavesSlack {x d : Euclidean n} (hp : k.AffineSlack A b) (hγ : γ < 1)
    (hs : k.PointAt A b x s) (hd : d ∈ k.problem.safe A (A x + b) γ) :
    ∀ c, k.problem.inequality = some c → c.LeavesSlack γ s.x (vec (x + d)) := by
  intro c hc
  have hne : k.problem.inequality ≠ none := by simp [hc]
  rw [hs.point]
  exact (hp.inequality c hc).leavesSlack hγ (hs.slack hne).2 (hd hne)

/-- What a step starts from: a point that is its own last one. -/
structure Setup.Departs (k : Setup (Exact ε)) (A : Euclidean n →ₗ[ℝ] Euclidean m) (b : Euclidean m) (γ : ℝ)
    (x : Euclidean n) (c : Kept (Exact ε)) : Prop where
  problem : k.AffineSlack A b
  dim : k.n = n
  gamma : k.par.gamma = real γ
  gamma_pos : 0 < γ
  gamma_lt : γ < 1
  at_point : ∀ s : State (Exact ε), s.kept = c → k.PointAt A b x s
  old : c.xOld = c.x

theorem Setup.Departs.visit {x : Euclidean n} {c : Kept (Exact ε)} (hc : k.Departs A b γ x c) (loc : Location)
    (hs : s.kept = c) : (Watch.leavesSlack k.problem γ).visit loc s := by
  intro _
  have hpoint := hc.at_point s hs
  have hold : s.xOld = s.x := by
    have h1 : s.xOld = c.xOld := congrArg Kept.xOld hs
    have h2 : s.x = c.x := congrArg Kept.x hs
    rw [h1, h2, hc.old]
  have hzero := Problem.zero_mem_safe (p := k.problem) (J := A) (fun hne => (hpoint.slack hne).2) hc.gamma_pos.le
  have hstay := hpoint.leavesSlack hc.problem hc.gamma_lt hzero
  rw [add_zero, ← hpoint.point] at hstay
  exact hold ▸ hstay

/-! ### Steps -/

variable {x : Euclidean n} {c : Kept (Exact ε)}

/-- Accepting the end of a safe step keeps the invariant. -/
theorem Setup.Departs.accept_wp (hc : k.Departs A b γ x c) (hk : k.hooks.StepOnly)
    (hsize : k.problem.objective.Sized) (ht : t.kept = c) {d : Euclidean n}
    (hd : d ∈ k.problem.safe A (A x + b) γ) {v : Trial (Exact ε)} (hv : v.x = vec (x + d))
    (heval : k.problem.evaluate v.x = .ok v) (hdelta : k.par.algorithm = .trustRegion → ∃ δ, t.delta = real δ ∧ 0 < δ)
    (hsearch : k.par.algorithm = .lineSearch → t.Searchable n) :
    wp (Watch.leavesSlack k.problem γ) (accept k v) (fun _ => StepEnds (k.OnCourse A b) fun _ => True)
      (fun _ _ => True) t := by
  have hpoint := hc.at_point t ht
  have hon : k.OnCourse A b (t.moveTo v) := by
    refine ⟨⟨x + d, hpoint.moved hc.problem hc.gamma_lt hd hv heval t⟩, hdelta, fun hls _ => ?_⟩
    obtain ⟨h1, h2, h3, h4, h5, h6⟩ := hsearch hls
    exact ⟨h1, h2, h3, h4, h5, h6⟩
  refine Running.accept_wp hk v ?_ (fun _ _ _ => nofun) (fun u hu => ?_) fun _ _ _ => trivial
  · intro _
    have hold : (t.moveTo v).xOld = t.x := by
      have h1 : t.xOld = c.xOld := congrArg Kept.xOld ht
      have h2 : t.x = c.x := congrArg Kept.x ht
      exact h1.trans (hc.old.trans h2.symm)
    have hleaves := hpoint.leavesSlack hc.problem hc.gamma_lt hd
    rw [← hv] at hleaves
    exact hold ▸ hleaves
  · have hu := hon.regraded hsize hu
    unfold StepEnds
    split
    · exact hu
    · trivial

/-- A step that the trust region has proposed: safe, with its norm, and with a radius to go on with. -/
structure Setup.Proposes (k : Setup (Exact ε)) (A : Euclidean n →ₗ[ℝ] Euclidean m) (b : Euclidean m) (γ : ℝ)
    (x : Euclidean n) (s : State (Exact ε)) : Prop where
  delta : ∃ δ, s.delta = real δ ∧ 0 < δ
  dx : ∃ d, s.dx = vec d ∧ s.normDx = real ‖d‖ ∧ d ∈ k.problem.safe A (A x + b) γ

theorem Setup.Proposes.trial (hc : k.Departs A b γ x c) (hs : s.kept = c) (h : k.Proposes A b γ x s)
    {v : Trial (Exact ε)} (hv : k.problem.trial s.x s.dx 1 = .ok v) :
    ∃ d, s.dx = vec d ∧ d ∈ k.problem.safe A (A x + b) γ ∧ v.x = vec (x + d) ∧ k.problem.evaluate v.x = .ok v := by
  obtain ⟨d, hd, -, hsafe⟩ := h.dx
  obtain ⟨hadd, heval⟩ := Problem.trial_eq_ok hv
  rw [hd, (hc.at_point s hs).point] at hadd
  refine ⟨d, hd, hsafe, ?_, heval⟩
  have hx := checked_add_eq_ok (a := 1) hadd
  rwa [one_smul] at hx

theorem Setup.Departs.attemptFrame (hc : k.Departs A b γ x c) (hk : k.hooks.Observing)
    (hsize : k.problem.objective.Sized) (hpar : k.par.Fractions γ ζ) {δ₀ : ℝ} (hδ₀ : 0 < δ₀)
    (hmax : real δ₀ ≤ k.par.deltaMax) (htr : k.par.algorithm = .trustRegion) :
    TrustRegion.AttemptFrame k (Watch.leavesSlack k.problem γ) (fun _ => StepEnds (k.OnCourse A b) fun _ => True)
      (fun _ _ => True) c (fun r _ => ∃ δ, r = real δ ∧ 0 < δ) (k.Proposes A b γ x) where
  hooks := hk.stepOnly
  visit loc s _ _ hs := hc.visit loc hs
  failed _ hs hstop := .of_stuck ⟨hs, .inl hstop⟩ trivial
  vanished _ hs _ _ := .of_stuck ⟨hs.kept, .inr rfl⟩ trivial
  halted _ _ _ := trivial
  composed s stop t dx hs hR ht hhook := by
    obtain ⟨δ, hδ, hpos⟩ := hR
    have hreal := (hc.at_point s hs.kept).realAt hc.problem hc.dim
    obtain ⟨d, e, hcomp⟩ := TrustRegion.CompositeStep.composed hreal hpar hδ hpos
      (fun u _ => TrustRegion.projector_into k u) ht
    have hdx : dx = t.dx := congrArg State.dx (hhook.symm.trans (hk _ t))
    have hdelta : t.delta = s.delta := by
      obtain ⟨_, _, _, _, _, -, -, -, -, -, -, rfl⟩ := ht
      rfl
    refine ⟨⟨δ, hdelta.trans hδ, hpos⟩, d + e, hdx.trans hcomp.dx, ?_, hcomp.within.safe⟩
    exact (congrArg Vec.norm (hdx.trans hcomp.dx)).trans norm_vec
  seen s hs _ := hc.visit _ hs.kept
  trial s rho v hs hC hv := by
    obtain ⟨d, -, hsafe, hx, -⟩ := hC.trial hc hs.kept hv
    intro g hg
    rw [hx]
    exact (hc.at_point s hs.kept).leavesSlack hc.problem hc.gamma_lt hsafe g hg
  shrunk _ _ _ hC _ := by
    obtain ⟨δ, hδ, hpos⟩ := hC.delta
    obtain ⟨d, -, hnorm, -⟩ := hC.dx
    exact TrustRegion.shrunk_real hδ hpos hnorm
  grown _ _ _ hC _ := by
    obtain ⟨δ, hδ, hpos⟩ := hC.delta
    exact ⟨hC.delta, TrustRegion.grown_real hδ hpos hδ₀ hmax⟩
  accepted s t v hs hC hv _ ht _ hR := by
    obtain ⟨d, -, hsafe, hx, heval⟩ := hC.trial hc hs.kept hv
    refine hc.accept_wp hk.stepOnly hsize ht.kept hsafe hx heval (fun _ => hR) fun hls => ?_
    rw [htr] at hls
    cases hls

/-- A trial point of a line search is the end of a safe step. -/
theorem Setup.Departs.contained (hc : k.Departs A b γ x c) (hs : s.kept = c) {v : Trial (Exact ε)}
    (hv : LineSearch.Contained k A (A x + b) γ s v) :
    ∃ d ∈ k.problem.safe A (A x + b) γ, v.x = vec (x + d) ∧ k.problem.evaluate v.x = .ok v := by
  obtain ⟨α, d, -, hv, hsafe⟩ := hv
  obtain ⟨hadd, heval⟩ := Problem.trial_eq_ok hv
  rw [(hc.at_point s hs).point] at hadd
  exact ⟨α • d, hsafe, checked_add_eq_ok hadd, heval⟩

theorem Setup.Departs.containedFrame (hc : k.Departs A b γ x c) (hk : k.hooks.Observing)
    (hsize : k.problem.objective.Sized) (hls : k.par.algorithm = .lineSearch)
    (hgrad : ∃ g : Euclidean n, c.grad = vec g) (hold : ∃ g : Euclidean n, c.gradOld = vec g)
    (hhistory : c.history.Real n) :
    LineSearch.ContainedFrame k (Watch.leavesSlack k.problem γ) (fun _ => StepEnds (k.OnCourse A b) fun _ => True)
      (fun _ _ => True) c A (A x + b) γ where
  hooks := hk.stepOnly
  visit loc s _ hs := hc.visit loc hs
  stuck _ hs := .of_stuck hs trivial
  halted _ _ _ := trivial
  realAt s hs := (hc.at_point s hs).realAt hc.problem hc.dim
  gamma := hc.gamma
  gamma_nonneg := hc.gamma_pos.le
  grad := hgrad
  history := hhistory
  trial s v hs hv := by
    obtain ⟨d, hsafe, hx, -⟩ := hc.contained hs hv
    intro g hg
    rw [hx]
    exact (hc.at_point s hs).leavesSlack hc.problem hc.gamma_lt hsafe g hg
  accepted s v t hs hv _ ht hdir hdx hstart := by
    obtain ⟨w, hw, -⟩ := hdx
    obtain ⟨d, hsafe, hx, heval⟩ := hc.contained hs hv
    obtain ⟨_, dir, hdir', -⟩ := hv
    refine hc.accept_wp hk.stepOnly hsize ht.kept hsafe hx heval (fun htr => ?_) fun _ => ?_
    · rw [hls] at htr
      cases htr
    · have hg : t.grad = c.grad := congrArg Kept.grad ht.kept
      have ho : t.gradOld = c.gradOld := congrArg Kept.gradOld ht.kept
      have hh : t.history = c.history := congrArg Kept.history ht.kept
      exact ⟨hg ▸ hgrad, ho ▸ hold, ⟨w, hw⟩, ⟨dir, hdir.trans hdir'⟩, hstart, hh ▸ hhistory⟩

/-! ### Runs -/

/-- What is asked of a run: a problem of the dimension of its iterate, an observing manipulator, fractions and a
finite first radius, and a driver of its own. -/
structure Setup.Planned (k : Setup (Exact ε)) (A : Euclidean n →ₗ[ℝ] Euclidean m) (b : Euclidean m) (γ ζ : ℝ) :
    Prop where
  problem : k.AffineSlack A b
  sized : k.problem.objective.Sized
  dim : k.n = n
  hooks : k.hooks.Observing
  valid : k.parameterError? = none
  fractions : k.par.Fractions γ ζ
  delta : ∃ δ, k.par.delta = real δ
  driver : k.par.algorithm ≠ .userDefined

theorem Setup.Planned.takeStep_wp (hk : k.Planned A b γ ζ) (hs : k.OnCourse A b s) (hrunning : s.stop = .notConverged)
    {v : Vec (Exact ε)} (hv : WithoutMultipliers k s.x s.y s.grad v) :
    wp (Watch.leavesSlack k.problem γ) (takeStep k) (fun _ => StepEnds (k.OnCourse A b) fun _ => True)
      (fun _ _ => True) (s.beforeStep v) := by
  obtain ⟨x, hx⟩ := hs.point
  have hdeparts : k.Departs A b γ x (s.beforeStep v).kept := {
    problem := hk.problem
    dim := hk.dim
    gamma := hk.fractions.gamma
    gamma_pos := hk.fractions.gamma_pos
    gamma_lt := hk.fractions.gamma_lt
    at_point := fun t ht =>
      (⟨hx.point, hx.slack⟩ : k.PointAt A b x (s.beforeStep v)).of_kept ht
    old := rfl }
  unfold takeStep
  split
  case h_1 htr =>
    obtain ⟨δ₀, hδ₀⟩ := hk.delta
    obtain ⟨hpos, hmax⟩ := Setup.radius_pos hk.valid hδ₀
    exact TrustRegion.attempts_wp (hdeparts.attemptFrame hk.hooks hk.sized hk.fractions hpos hmax htr) _
      ⟨⟨rfl, hrunning⟩, hs.delta htr⟩
  case h_2 hls =>
    obtain ⟨hgrad, -, -, hdir, hstart, hhistory⟩ := hs.search hls hrunning
    have hold : ∃ g : Euclidean n, v = vec g := by
      rw [hv.of_none (Setup.equality_of_lineSearch hk.valid hls)]
      exact hgrad
    exact LineSearch.step_wp (hdeparts.containedFrame hk.hooks hk.sized hls hgrad hold hhistory).searchFrame
      ⟨⟨rfl, hrunning⟩, hdir, hstart⟩
  case h_3 hud => exact absurd hud hk.driver

theorem Setup.Planned.loopFrame (hk : k.Planned A b γ ζ) :
    LoopFrame k (Watch.leavesSlack k.problem γ) (fun _ _ => True) (k.OnCourse A b) (k.OnCourse A b) (k.OnCourse A b)
      (fun _ => True) where
  hooks := hk.hooks.stepOnly
  head _ _ := nofun
  assessed _ _ hs ht := hs.assessed hk.sized ht
  assessHalted _ _ _ _ _ := trivial
  started _ _ := nofun
  saved s v hs hrunning hv := ⟨nofun, hk.takeStep_wp hs hrunning hv⟩
  saveHalted _ _ _ _ := trivial
  stepped _ _ := nofun
  paired s v hs hrunning hv := by
    obtain ⟨x, hx⟩ := hs.point
    refine ⟨nofun, nofun, ⟨x, hx.point, hx.slack⟩, hs.delta, fun hls _ => ?_⟩
    obtain ⟨⟨g, hg⟩, ⟨o, ho⟩, ⟨d, hd⟩, hdir, hstart, hhistory⟩ := hs.search hls hrunning
    have hchange := hv.of_none (Setup.equality_of_lineSearch hk.valid hls)
    rw [hg, ho] at hchange
    have hchange := checked_add_eq_ok (a := -1) hchange
    refine ⟨⟨g, hg⟩, ⟨o, ho⟩, ⟨d, hd⟩, hdir, hstart, ?_⟩
    change (s.history.push s.dx v k.par.storedHistory).Real n
    rw [hd, hchange]
    exact hhistory.push _ _ _
  pairHalted _ _ _ := trivial
  outOfFuel _ _ := trivial

theorem Setup.Planned.opened (hk : k.Planned A b γ ζ) {x : Euclidean n} (hs : s.x = vec x) {v : Trial (Exact ε)}
    {y grad : Vec (Exact ε)} (h : k.Opened s v y grad) : k.OnCourse A b (k.openedState s v y grad) := by
  obtain ⟨hx, -, -, -, hh, -⟩ := Problem.evaluate_eq_ok h.evaluated
  have hpos := (Barrier.objective_finite h.feasible).2
  have hzeros : ∃ w : Euclidean n, (Vec.zeros k.n : Vec (Exact ε)) = vec w := ⟨0, by rw [hk.dim, zeros_eq]⟩
  obtain ⟨δ, hδ⟩ := hk.delta
  refine ⟨⟨x, hx.trans hs, fun hne => ?_⟩, fun _ => ⟨δ, hδ, (Setup.radius_pos hk.valid hδ).1⟩, fun _ _ => ?_⟩
  · obtain ⟨c, hc⟩ := Option.ne_none_iff_exists'.mp hne
    have hvalue := hh c hc
    rw [hs, (hk.problem.inequality c hc).value] at hvalue
    have hv : v.h = vec (A x + b) := (Except.ok.inj hvalue).symm
    refine ⟨hv, fun i => real_lt.mp (hpos _ ?_)⟩
    rw [hv]
    exact List.mem_ofFn.mpr ⟨i, rfl⟩
  · have hlen : (k.firstPoint s v).grad.length = n := by
      change (Vec.zeros k.n : Vec (Exact ε)).length = n
      rw [Vec.length_zeros, hk.dim]
    have hpoint : (k.firstPoint s v).x.length = n := by
      change v.x.length = n
      rw [hx, hs, length_vec]
    exact ⟨h.graded.real hk.sized hpoint hlen, hzeros, hzeros, hzeros, ⟨1, rfl⟩, nofun⟩

/-- A run from a real iterate leaves slack at each of its trial points and at each point it accepts. -/
theorem Setup.Planned.solve {p : Problem (Exact ε)} {par : Parameters (Exact ε)} {hooks : Hooks (Exact ε)}
    (hk : (⟨par, p, hooks, n⟩ : Setup (Exact ε)).Planned A b γ ζ) {s₀ : State (Exact ε)} {x : Euclidean n}
    (hx : s₀.x = vec x) :
    (∀ q ∈ (p.solve par hooks s₀).trials, ∀ c, p.inequality = some c → c.LeavesSlack γ q.1.x q.2.x) ∧
    (∀ s, (.afterStepBeforeGradient, s) ∈ (p.solve par hooks s₀).visits →
      ∀ c, p.inequality = some c → c.LeavesSlack γ s.xOld s.x) := by
  have hgoes : (p.solve par hooks s₀).Goes (Watch.leavesSlack p γ) (fun _ _ _ => True) (fun _ _ _ => True)
      ⟨par, p, hooks, n⟩ s₀ := by
    refine solve_goes (by rw [hx, length_vec]) hk.hooks.stepOnly fun v y grad h => ?_
    refine wp_mono (LoopFrame.loop_wp hk.loopFrame (hk.opened hx h) nofun fun _ _ => nofun) ?_ fun _ _ h => h
    exact fun _ _ _ => trivial
  refine ⟨fun q hq => hgoes.trial hq, fun s hs => ?_⟩
  rcases hgoes.visit hs with hopening | hstart | hleaves
  · simp [Watch.opening] at hopening
  · cases hstart
  · exact hleaves rfl

/-! ### Single steps -/

theorem TrustRegion.quasinormalStep_run {q : Except StepError QuasinormalStop} {r : Run (Exact ε)}
    (h : (quasinormalStep k).run ⟨s, #[]⟩ = (.ok q, r)) :
    ∃ step cauchy, r.state = { s with dxNormal := step, dxCauchy := cauchy } ∧
      ∀ stop, q = .ok stop → k.NormalStep s step stop := by
  obtain ⟨_, -, -, hok, -⟩ := wp_run (quasinormalStep_spec (W := .any) k s) #[]
  rw [h] at hok
  exact hok q rfl

theorem TrustRegion.compositeStep_run {stop : TruncatedStop} {r : Run (Exact ε)}
    (h : (compositeStep k).run ⟨s, #[]⟩ = (.ok (some stop), r)) : CompositeStep k s stop r.state := by
  obtain ⟨_, -, -, hok, -⟩ := wp_run (compositeStep_spec (W := .any) k s) #[]
  rw [h] at hok
  exact hok (some stop) rfl

theorem LineSearch.step_run {J : Euclidean n →ₗ[ℝ] Euclidean m} {h : Euclidean m} (hk : k.hooks.StepOnly)
    (hreal : k.RealAt s J h) (hpar : k.par.Fractions γ ζ) (hs : s.Searchable n) (hrunning : s.stop = .notConverged)
    {u : State (Exact ε)} {t : Trial (Exact ε)}
    (ht : .trial u t ∈ ((LineSearch.step k).run ⟨s, #[]⟩).2.events.toList) :
    u.x = s.x ∧ Contained k J h γ u t := by
  let W : Watch (Exact ε) := ⟨fun _ _ => True, fun u t => u.x = s.x ∧ Contained k J h γ u t⟩
  have hframe : ContainedFrame k W (fun _ _ => True) (fun _ _ => True) s.kept J h γ := {
    hooks := hk
    visit := fun _ _ _ _ => trivial
    stuck := fun _ _ => trivial
    halted := fun _ _ _ => trivial
    realAt := fun u hu => hreal.of_kept hu
    gamma := hpar.gamma
    gamma_nonneg := hpar.gamma_pos.le
    grad := hs.grad
    history := hs.history
    trial := fun u t hu ht => ⟨congrArg Kept.x hu, ht⟩
    accepted := fun u v t _ _ _ _ _ _ _ => Running.accept_wp hk v trivial (fun _ _ _ => trivial) (fun _ _ => trivial)
      fun _ _ _ => trivial }
  obtain ⟨es, hes, hsees, -⟩ := wp_run (step_wp hframe.searchFrame ⟨⟨rfl, hrunning⟩, hs.direction, hs.alphaStart⟩) #[]
  rw [hes] at ht
  exact hsees _ (by simpa using ht)

/-! ### Containment -/

/-- Steps in exact arithmetic are contained, for checked parameters with a finite first radius.

From a state of a problem over the reals the quasinormal step uses the part `ζ` of the trust region, the
tangential solve does not blame it as its offset, and the composite step stays in the trust region and keeps
the part `1 - γ` of the slack to first order; so does the step to each trial point of a line search. In a run
of either driver on an affine inequality constraint every trial point and every accepted point therefore keeps
that part of the slack itself. -/
theorem Problem.steps_contained {p : Problem (Exact ε)} {par : Parameters (Exact ε)} {hooks : Hooks (Exact ε)}
    (hhooks : hooks.Observing) (hvalid : (⟨par, p, hooks, n⟩ : Setup (Exact ε)).parameterError? = none)
    (hγ : par.gamma = real γ) (hζ : par.quasinormal.zeta = real ζ) {δ₀ : ℝ} (hδ₀ : par.delta = real δ₀) :
    let k : Setup (Exact ε) := ⟨par, p, hooks, n⟩
    (∀ (m : ℕ) (J : Euclidean n →ₗ[ℝ] Euclidean m) (h : Euclidean m) (s : State (Exact ε)) (δ : ℝ),
      k.RealAt s J h → s.delta = real δ → 0 < δ →
      (∀ q r, (TrustRegion.quasinormalStep k).run ⟨s, #[]⟩ = (.ok (.ok q), r) →
        Vec.norm r.state.dxNormal ≤ real (ζ * δ) ∧
        ∀ out, (TrustRegion.tangentialSolve k r.state).answer = .ok (.ok out) →
          out.stop ≠ .offsetViolatesTrustRegion ∧ out.stop ≠ .offsetViolatesSafeguard) ∧
      (∀ stop r, (TrustRegion.compositeStep k).run ⟨s, #[]⟩ = (.ok (some stop), r) →
        ∃ d e : Euclidean n, r.state.dxNormal = vec d ∧ r.state.dxTangential = vec e ∧ r.state.dx = vec (d + e) ∧
          ‖d + e‖ ≤ δ ∧ (p.inequality ≠ none → ∀ i, 0 ≤ γ * h i + J (d + e) i))) ∧
    (∀ (m : ℕ) (J : Euclidean n →ₗ[ℝ] Euclidean m) (h : Euclidean m) (s : State (Exact ε)),
      k.RealAt s J h → s.Searchable n → s.stop = .notConverged →
      ∀ u t, .trial u t ∈ ((LineSearch.step k).run ⟨s, #[]⟩).2.events.toList →
        u.x = s.x ∧ ∃ (α : ℝ) (d : Euclidean n), u.direction = vec d ∧ p.trial u.x (vec d) (real α) = .ok t ∧
          (p.inequality ≠ none → ∀ i, 0 ≤ γ * h i + α * J d i)) ∧
    (∀ (m : ℕ) (A : Euclidean n →ₗ[ℝ] Euclidean m) (b : Euclidean m) (s₀ : State (Exact ε)) (x : Euclidean n),
      k.AffineSlack A b → p.objective.Sized → par.algorithm ≠ .userDefined → s₀.x = vec x →
      (∀ q ∈ (p.solve par hooks s₀).trials, ∀ c, p.inequality = some c → c.LeavesSlack γ q.1.x q.2.x) ∧
      (∀ s, (.afterStepBeforeGradient, s) ∈ (p.solve par hooks s₀).visits →
        ∀ c, p.inequality = some c → c.LeavesSlack γ s.xOld s.x)) := by
  intro k
  have hpar : k.par.Fractions γ ζ := Setup.fractions hvalid hγ hζ
  refine ⟨fun m J h s δ hk hδ hδ0 => ⟨fun q r hr => ?_, fun stop r hr => ?_⟩, ?_, ?_⟩
  · obtain ⟨step, cauchy, hstate, hstep⟩ := TrustRegion.quasinormalStep_run hr
    have hstep := hstep q rfl
    have hnorm := hk.norm_normalStep hpar hδ hδ0 hstep
    rw [hpar.zeta, hδ, real_mul] at hnorm
    obtain ⟨hkept, hdelta, hnormal⟩ : r.state.kept = s.kept ∧ r.state.delta = s.delta ∧
        r.state.dxNormal = step := by
      rw [hstate]
      exact ⟨rfl, rfl, rfl⟩
    refine ⟨hnormal ▸ hnorm, fun out hout => ?_⟩
    obtain ⟨-, -, -, hblame, -⟩ := TrustRegion.tangential_answers hk hpar hδ hδ0 hstep hkept hdelta hnormal
      (TrustRegion.projector_into k _) hout
    exact not_or.mp hblame
  · obtain ⟨d, e, hcomp⟩ := TrustRegion.CompositeStep.composed hk hpar hδ hδ0
      (fun u _ => TrustRegion.projector_into k u) (TrustRegion.compositeStep_run hr)
    exact ⟨d, e, hcomp.normal, hcomp.tangential, hcomp.dx, real_le.mp hcomp.within.norm, hcomp.within.safe⟩
  · intro m J h s hk hs hrunning u t ht
    obtain ⟨hx, α, d, hd, htrial, hsafe⟩ := LineSearch.step_run hhooks.stepOnly hk hpar hs hrunning ht
    refine ⟨hx, α, d, hd, htrial, fun hne i => ?_⟩
    have hi := hsafe hne i
    rwa [map_smul] at hi
  · intro m A b s₀ x hp hsize hdriver hx
    exact Setup.Planned.solve ⟨hp, hsize, rfl, hhooks, hvalid, hpar, ⟨δ₀, hδ₀⟩, hdriver⟩ hx

theorem Setup.leastHalfSquare_affineSlack (par : Parameters (Exact ε)) (hooks : Hooks (Exact ε)) :
    (⟨par, .leastHalfSquare, hooks, 1⟩ : Setup (Exact ε)).AffineSlack
      (LinearMap.id : Euclidean 1 →ₗ[ℝ] Euclidean 1) 0 where
  hessian s x hs := by
    refine Setup.hessian_propagates (k := ⟨par, _, hooks, 1⟩) (fun _ dx _ z hz hfin => ?_) (hs ▸ length_vec)
    cases hz
    exact hfin
  equality := nofun
  inequality := by
    rintro c ⟨⟩
    exact ⟨fun x => by simp [Constraint.halfLine], fun x => ⟨rfl, rfl, fun s => rfl, fun w => by simp [Constraint.halfLine]⟩⟩

theorem Setup.leastHalfSquare_realAt (par : Parameters (Exact ε)) (hooks : Hooks (Exact ε)) {x : Euclidean 1}
    (hx : ∀ i, 0 < x i) :
    (⟨par, .leastHalfSquare, hooks, 1⟩ : Setup (Exact ε)).RealAt { State.new (vec x) with h := vec x } LinearMap.id x where
  dim := rfl
  length := length_vec
  hessian := (leastHalfSquare_affineSlack par hooks).hessian _ x rfl
  equality := nofun
  inequality c hc := ⟨((leastHalfSquare_affineSlack par hooks).inequality c hc).linearises x, rfl⟩
  slack _ := hx

theorem Problem.leastHalfSquare_sized : (leastHalfSquare : Problem (Exact ε)).objective.Sized := by
  intro x n v hv
  obtain ⟨hlen, rfl⟩ := Checked.copy_eq_ok.mp hv
  exact hlen.trans (Vec.length_zeros n)

theorem Problem.steps_contained_leastHalfSquare :
    let p : Problem (Exact ⟨1, Set.mem_Ioi.mpr one_pos⟩) := .leastHalfSquare
    let k : Setup (Exact ⟨1, Set.mem_Ioi.mpr one_pos⟩) := ⟨.default, p, .passive, 1⟩
    let x : Euclidean 1 := WithLp.toLp 2 fun _ => 1
    let s : State (Exact ⟨1, Set.mem_Ioi.mpr one_pos⟩) := { State.new (vec x) with h := vec x }
    k.hooks.Observing ∧ k.parameterError? = none ∧ k.RealAt s LinearMap.id x ∧ k.AffineSlack LinearMap.id (0 : Euclidean 1) ∧
    (∀ stop r, (TrustRegion.compositeStep k).run ⟨s, #[]⟩ = (.ok (some stop), r) →
      ∃ d e : Euclidean 1, r.state.dxNormal = vec d ∧ r.state.dxTangential = vec e ∧ r.state.dx = vec (d + e) ∧
        ‖d + e‖ ≤ 1 ∧ (p.inequality ≠ none → ∀ i, 0 ≤ 0.95 * x i + (LinearMap.id : Euclidean 1 →ₗ[ℝ] Euclidean 1) (d + e) i)) ∧
    (∀ q ∈ (p.solve .default .passive s).trials, ∀ c, p.inequality = some c → c.LeavesSlack 0.95 q.1.x q.2.x) := by
  intro p k x s
  have hhooks : k.hooks.Observing := fun _ _ => rfl
  have hvalid : k.parameterError? = none := by
    unfold Setup.parameterError?
    rw [Parameters.default_valid]
    rfl
  have haffine : k.AffineSlack (LinearMap.id : Euclidean 1 →ₗ[ℝ] Euclidean 1) 0 :=
    Setup.leastHalfSquare_affineSlack .default .passive
  have hreal : k.RealAt s LinearMap.id x := {
    dim := rfl
    length := rfl
    hessian := haffine.hessian s x rfl
    equality := nofun
    inequality := fun c hc => ⟨(haffine.inequality c hc).linearises x, rfl⟩
    slack := fun _ _ => one_pos }
  obtain ⟨hstep, -, hrun⟩ := Problem.steps_contained hhooks hvalid (show k.par.gamma = real 0.95 from rfl)
    (show k.par.quasinormal.zeta = real 0.8 from rfl) rfl
  exact ⟨hhooks, hvalid, hreal, haffine, (hstep 1 LinearMap.id x s 1 hreal rfl one_pos).2,
    (hrun 1 LinearMap.id 0 s x haffine Problem.leastHalfSquare_sized nofun rfl).1⟩

end ConstrainedOpt
