import ConstrainedOpt.Proofs.Quadratic.Runs

/-! # Solutions of quadratic programs

The trust-region model is exact on a quadratic program with its exact Hessian, so that no step of a run is rejected and
the run does not fail. Only a check that has nothing to check can stop it.
-/
namespace ConstrainedOpt
open Exact Journaled Running
variable {ε : Set.Ioi (0 : ℝ)} {n : ℕ} {p : Problem (Exact ε)} {par : Parameters (Exact ε)} {hooks : Hooks (Exact ε)}
  {s₀ : State (Exact ε)} {x : Euclidean n}

/-! ### Ready-made parameters -/

/-- Parameters for exact steps with some diagnostics, otherwise the default ones. -/
noncomputable def Parameters.exactSteps (checkSchedule : CheckSchedule) (spaceChecks : SpaceChecks) :
    Parameters (Exact ε) :=
  { Parameters.default with hessian := .userDefined, normalEq := ⟨200, 0⟩, checkSchedule, spaceChecks }

variable {schedule : CheckSchedule} {space : SpaceChecks}

theorem Parameters.exactSteps_exact {m : ℕ} (hm : m ≤ 200) :
    (exactSteps schedule space : Parameters (Exact ε)).ExactSteps m where
  algorithm := rfl
  hessian := rfl
  tolerance := rfl
  iterations := hm
  eps := ⟨_, rfl, by positivity⟩
  epsSym := ⟨_, rfl, by positivity⟩
  epsProj := ⟨_, rfl, by positivity⟩
  epsOrth := ⟨_, rfl, by positivity⟩
  epsNewton := ⟨_, rfl, by positivity⟩
  delta := rfl
  rho := rfl

theorem Setup.exactSteps_valid :
    (⟨.exactSteps schedule space, p, hooks, n⟩ : Setup (Exact ε)).parameterError? = none := by
  have hpar : (Parameters.exactSteps schedule space : Parameters (Exact ε)).validate p.problemClass = .ok () :=
    Parameters.default_valid
  unfold Setup.parameterError?
  rw [hpar]
  rfl

theorem Setup.exactSteps_preconditions :
    (⟨.exactSteps schedule space, p, hooks, n⟩ : Setup (Exact ε)).PreconditionsSymmetrically n :=
  fun _ _ => ⟨LinearMap.id, QuasiNewton.identity_acts n _ _, fun _ _ => rfl, fun _ => real_inner_self_nonneg⟩

/-! ### Exact runs -/

/-- The whole run on a quadratic program, whether it passes its check or not. -/
theorem Problem.IsQuadratic.whole_wp (hp : p.IsQuadratic n) (hhooks : hooks.Observing) (hpar : par.ExactSteps p.equalities)
    (hB : (⟨par, p, hooks, n⟩ : Setup (Exact ε)).PreconditionsSymmetrically n)
    (hcheck : (⟨par, p, hooks, n⟩ : Setup (Exact ε)).Checkable n) (hx : s₀.x = vec x)
    (hy : Vec.isFinite s₀.y = true) :
    wp (.faithful ⟨par, p, hooks, n⟩) (whole ⟨par, p, hooks, n⟩)
      (fun stop t => stop ≠ .globalizationFailure ∧ t.rejectedTotal = 0)
      (fun _ _ => ¬ ((⟨par, p, hooks, n⟩ : Setup (Exact ε)).parameterError? = none ∧
        (⟨par, p, hooks, n⟩ : Setup (Exact ε)).sizesFit s₀.y = true)) s₀ := by
  by_cases h : (⟨par, p, hooks, n⟩ : Setup (Exact ε)).parameterError? = none ∧
      (⟨par, p, hooks, n⟩ : Setup (Exact ε)).sizesFit s₀.y = true
  · obtain ⟨Q, hposes⟩ := hp.poses
    have hk : (⟨par, p, hooks, n⟩ : Setup (Exact ε)).Programmed Q := ⟨hpar, hposes, rfl, hhooks, h.1, hB⟩
    exact hk.whole_wp hcheck h.2 hx hy
  · refine wp_mono (whole_unfit_wp hhooks.stepOnly ⟨nofun, nofun, nofun⟩ h) (fun _ _ h => h.elim) fun _ _ _ => h

/-- The trust-region model is exact on quadratic programs.

Where the parameters and sizes fit, a run on a quadratic program has an answer; no answer is a failure, and no step was
rejected on the way to it. Every attempt of every run is the first one of its step, and ends with an accepted step
whose actual and predicted reductions are the same number, with the ratio one. -/
theorem Problem.solve_exact (hp : p.IsQuadratic n) (hhooks : hooks.Observing) (hpar : par.ExactSteps p.equalities)
    (hB : (⟨par, p, hooks, n⟩ : Setup (Exact ε)).PreconditionsSymmetrically n)
    (hcheck : (⟨par, p, hooks, n⟩ : Setup (Exact ε)).Checkable n) (hx : s₀.x = vec x)
    (hy : Vec.isFinite s₀.y = true) :
    ((⟨par, p, hooks, n⟩ : Setup (Exact ε)).parameterError? = none →
      (⟨par, p, hooks, n⟩ : Setup (Exact ε)).sizesFit s₀.y = true →
      ∃ stop, (p.solve par hooks s₀).result = .ok stop) ∧
    (∀ stop, (p.solve par hooks s₀).result = .ok stop →
      stop ≠ .globalizationFailure ∧ (p.solve par hooks s₀).state.rejectedTotal = 0) ∧
    (∀ s, (.beforeGetStep, s) ∈ (p.solve par hooks s₀).visits →
      s.rejected = 0 ∧ TrustRegion.Succeeds ⟨par, p, hooks, n⟩ s) ∧
    (∀ s, (.afterRejectedTrustRegion, s) ∉ (p.solve par hooks s₀).visits) ∧
    ∀ t, (.afterStepBeforeGradient, t) ∈ (p.solve par hooks s₀).visits →
      ∃ π, t.ared = real π ∧ t.pred = real π ∧ 0 ≤ π := by
  have hn : s₀.x.length = n := by rw [hx, length_vec]
  obtain ⟨hsees, hok, herror⟩ := solve_wp (by rw [hn]) (hp.whole_wp hhooks hpar hB hcheck hx hy)
  have hvisits : ∀ loc s, (loc, s) ∈ (p.solve par hooks s₀).visits →
      (Watch.faithful ⟨par, p, hooks, n⟩).visit loc s := fun _ _ h => hsees _ (Solution.mem_visits.mp h)
  refine ⟨fun hvalid hfits => ?_, hok, fun s hs => (hvisits _ s hs).2.1 rfl, fun s hs => (hvisits _ s hs).1 rfl,
    fun t ht => (hvisits _ t ht).2.2 rfl⟩
  cases hresult : (p.solve par hooks s₀).result with
  | ok stop => exact ⟨stop, rfl⟩
  | error e => exact absurd ⟨hvalid, hfits⟩ (herror e hresult)

/-- The least half square of a number less the number, on the line where the number is one. -/
theorem Problem.solve_exact_on_point :
    let ε : Set.Ioi (0 : ℝ) := ⟨1, Set.mem_Ioi.mpr one_pos⟩
    ∃ (o : Objective (Exact ε)) (c : Constraint (Exact ε)),
      (Objective.quadratic ⟨.diagonal 1, #[1], rfl⟩ (.column [-1]) (real 0)).answer = .ok (some o) ∧
      (Constraint.affine ⟨.general 1 1, #[1], rfl⟩ (.column [1])).answer = .ok (some c) ∧
      let r := (⟨o, some c, none, none⟩ : Problem (Exact ε)).solve (.exactSteps .never .noDiagnostics) .passive (.new [0])
      (∃ stop, r.result = .ok stop ∧ stop ≠ .globalizationFailure ∧ r.state.rejectedTotal = 0) ∧
      ∀ s, (.afterRejectedTrustRegion, s) ∉ r.visits := by
  intro ε
  obtain ⟨o, ho⟩ : ∃ o : Objective (Exact ε),
      (Objective.quadratic ⟨.diagonal 1, #[1], rfl⟩ (.column [-1]) (real 0)).answer = .ok (some o) := ⟨_, rfl⟩
  obtain ⟨c, hc⟩ : ∃ c : Constraint (Exact ε),
      (Constraint.affine ⟨.general 1 1, #[1], rfl⟩ (.column [1])).answer = .ok (some c) := ⟨_, rfl⟩
  have hfills : c.Fills 1 1 := Constraint.affine_fills hc
  have hP : (⟨.diagonal 1, #[1], rfl⟩ : Matrix (Exact ε)).Finite := List.forall_mem_singleton.mpr rfl
  have hq : (.column [-1] : Matrix (Exact ε)).Finite := List.forall_mem_singleton.mpr rfl
  have hA : (⟨.general 1 1, #[1], rfl⟩ : Matrix (Exact ε)).Finite := List.forall_mem_singleton.mpr rfl
  have hb : (.column [1] : Matrix (Exact ε)).Finite := List.forall_mem_singleton.mpr rfl
  have hp : (⟨o, some c, none, none⟩ : Problem (Exact ε)).IsQuadratic 1 := {
    objective := ⟨_, _, 0, hP, hq, rfl, ho⟩
    equality := by
      rintro _ ⟨⟩
      exact ⟨_, _, hA, hb, rfl, hc⟩
    inequality := rfl
    preconditioner := nofun }
  have hrows : (⟨o, some c, none, none⟩ : Problem (Exact ε)).equalities = 1 := hfills.rows
  have hfits : (⟨.exactSteps .never .noDiagnostics, ⟨o, some c, none, none⟩, .passive, 1⟩ :
      Setup (Exact ε)).sizesFit [] = true := by
    simp [Setup.sizesFit, hfills.cols]
  have hhooks : (Hooks.passive : Hooks (Exact ε)).Observing := fun _ _ => rfl
  have hstart : (State.new [0] : State (Exact ε)).x = vec (0 : Euclidean 1) := rfl
  obtain ⟨hanswer, hfine, -, hkept, -⟩ := Problem.solve_exact hp hhooks (Parameters.exactSteps_exact (by omega))
    Setup.exactSteps_preconditions (fun h => absurd rfl h) hstart rfl
  obtain ⟨stop, hstop⟩ := hanswer Setup.exactSteps_valid hfits
  exact ⟨o, c, ho, hc, ⟨stop, hstop, hfine stop hstop⟩, hkept⟩

/-! ### Runs that fail -/

/-- A run that its diagnostics stop answers what the manipulator makes of that stop. -/
theorem Problem.solve_checked {stop : Stop} (hp : p.OverReals n)
    (hbegin : hooks.manipulate .beginningOfOptimization s₀ = s₀)
    (hvalid : (⟨par, p, hooks, n⟩ : Setup (Exact ε)).parameterError? = none)
    (hfits : (⟨par, p, hooks, n⟩ : Setup (Exact ε)).sizesFit s₀.y = true) (hx : s₀.x = vec x)
    (hschedule : par.checkSchedule ≠ .never) (hstop : (⟨par, p, hooks, n⟩ : Setup (Exact ε)).StopsChecked n stop) :
    ∃ t, t.stop = stop ∧ (p.solve par hooks s₀).result = .ok (hooks.manipulate .endOfOptimization t).stop := by
  have hn : s₀.x.length = n := by rw [hx, length_vec]
  obtain ⟨-, hok, herror⟩ := solve_wp (by rw [hn]) (whole_checked_wp (k := ⟨par, p, hooks, n⟩)
    (E := fun _ _ => False) hp hbegin hvalid hfits hx hschedule hstop)
  cases hresult : (p.solve par hooks s₀).result with
  | ok answer =>
    obtain ⟨t, ht, rfl⟩ := hok answer hresult
    exact ⟨t, ht, rfl⟩
  | error e => exact (herror e hresult).elim

/-- A manipulator that calls every run a failure. -/
def Hooks.failing : Hooks (Exact ε) where
  manipulate loc s := if loc = .endOfOptimization then { s with stop := .globalizationFailure } else s
  fail := id

/-- A run on a quadratic program without variables fails when the Jordan algebra is checked, and when the manipulator
says so. -/
theorem Problem.solve_fails_without_variables :
    let ε : Set.Ioi (0 : ℝ) := ⟨1, Set.mem_Ioi.mpr one_pos⟩
    ∃ o : Objective (Exact ε),
      (Objective.quadratic ⟨.diagonal 0, #[], rfl⟩ (.column []) (real 0)).answer = .ok (some o) ∧
      let p : Problem (Exact ε) := ⟨o, none, none, none⟩
      p.IsQuadratic 0 ∧
      (∀ schedule space, (Parameters.exactSteps schedule space : Parameters (Exact ε)).ExactSteps p.equalities) ∧
      (∀ schedule space hooks,
        (⟨.exactSteps schedule space, p, hooks, 0⟩ : Setup (Exact ε)).PreconditionsSymmetrically 0) ∧
      (p.solve (.exactSteps .everyIteration .euclideanJordan) .passive (.new [])).result = .ok .globalizationFailure ∧
      (p.solve (.exactSteps .diagnosticsOnly .noDiagnostics) .failing (.new [])).result = .ok .globalizationFailure := by
  intro ε
  obtain ⟨o, ho⟩ : ∃ o : Objective (Exact ε),
      (Objective.quadratic ⟨.diagonal 0, #[], rfl⟩ (.column []) (real 0)).answer = .ok (some o) := ⟨_, rfl⟩
  have hP : (⟨.diagonal 0, #[], rfl⟩ : Matrix (Exact ε)).Finite := List.forall_mem_nil _
  have hq : (.column [] : Matrix (Exact ε)).Finite := List.forall_mem_nil _
  have hp : (⟨o, none, none, none⟩ : Problem (Exact ε)).IsQuadratic 0 := ⟨⟨_, _, 0, hP, hq, rfl, ho⟩, nofun, rfl, nofun⟩
  obtain ⟨Q, hposes⟩ := hp.poses
  have hstart : (State.new [] : State (Exact ε)).x = vec (0 : Euclidean 0) := rfl
  have hpassive : (Hooks.passive : Hooks (Exact ε)).manipulate .beginningOfOptimization (.new []) = .new [] := rfl
  have hfailing : (Hooks.failing : Hooks (Exact ε)).manipulate .beginningOfOptimization (.new []) = .new [] := rfl
  refine ⟨o, ho, hp, fun _ _ => Parameters.exactSteps_exact (Nat.zero_le 200), fun _ _ _ => Setup.exactSteps_preconditions,
    ?_, ?_⟩
  · have hstops : (⟨.exactSteps .everyIteration .euclideanJordan, ⟨o, none, none, none⟩, .passive, 0⟩ :
        Setup (Exact ε)).StopsChecked 0 .globalizationFailure :=
      .failed fun h => absurd (h (by rfl)) (lt_irrefl 0)
    have hschedule : (Parameters.exactSteps .everyIteration .euclideanJordan : Parameters (Exact ε)).checkSchedule ≠
        .never := nofun
    obtain ⟨t, ht, hresult⟩ := Problem.solve_checked hposes.overReals hpassive Setup.exactSteps_valid rfl hstart
      hschedule hstops
    rw [hresult]
    exact congrArg Except.ok ht
  · have hstops : (⟨.exactSteps .diagnosticsOnly .noDiagnostics, ⟨o, none, none, none⟩, .failing, 0⟩ :
        Setup (Exact ε)).StopsChecked 0 .userDefined := .only nofun rfl
    have hschedule : (Parameters.exactSteps .diagnosticsOnly .noDiagnostics : Parameters (Exact ε)).checkSchedule ≠
        .never := nofun
    obtain ⟨t, -, hresult⟩ := Problem.solve_checked hposes.overReals hfailing Setup.exactSteps_valid rfl hstart
      hschedule hstops
    rw [hresult]
    rfl

end ConstrainedOpt
