import ConstrainedOpt.Proofs.History.Requests
import ConstrainedOpt.Proofs.Interior
import ConstrainedOpt.Proofs.Run.Course
import ConstrainedOpt.Proofs.Step.Unguarded

/-! # The verdict without inequality constraints

A run ends for the reason its state holds. Without inequality constraints no solver stops for a safeguard, so the
inequality constraints take the blame in two places only, both by mistake: where the length a line search starts from
has vanished, and where the manipulator supplies a step to a point whose objective is not finite. Everywhere else a step
that finds no point is a failure of the globalization, and the criteria are met at finite points alone.
-/
namespace ConstrainedOpt
variable {F : Type} [Scalar F]
open Running

/-- The run has met one of its stopping criteria. -/
def Stop.isCriterion : Stop → Bool
  | .gradientSmall | .stepSmall | .maxItersExceeded => true
  | _ => false

theorem Setup.criterion_isCriterion {k : Setup F} {s : State F} (hrunning : s.stop = .notConverged)
    (h : k.criterion s ≠ .notConverged) : (k.criterion s).isCriterion = true := by
  unfold Setup.criterion at h ⊢
  rw [if_neg (by simp [hrunning])] at h ⊢
  split
  · rfl
  · split
    · rfl
    · split
      · rfl
      · simp_all

/-- The inequality constraints are blamed in the state `s`, although there need not be any. -/
inductive Setup.Misblames (k : Setup F) (s : State F) : Prop
  | length (hsearch : k.par.algorithm = .lineSearch) (hvanished : ¬ 0 < s.alphaStart)
  | supplied (huser : k.par.algorithm = .userDefined) {t : Trial F} (ht : k.problem.trial s.x s.dx 1 = .ok t)
      (hinfinite : Scalar.isFinite t.f = false)

/-! ### No inequality constraints -/

section Unbounded
variable {k : Setup F} {s : State F} (hp : k.problem.inequality = none)
include hp

theorem Setup.safeguard_of_none (s : State F) (κ : F) : k.safeguard s κ = pure (.ok .unlimited) := by
  unfold Setup.safeguard
  rw [hp]

omit [Scalar F] in
theorem Setup.inequalities_of_none : k.inequalities = 0 := by
  unfold Setup.inequalities Problem.inequalities
  rw [hp]
  rfl

/-- The barrier objective is the objective. -/
theorem Trial.barrier_of_none {x : Vec F} {t : Trial F} (ht : k.problem.evaluate x = .ok t) (μ : F) :
    t.barrier μ = t.f := by
  obtain ⟨-, -, -, -, -, hslack⟩ := Problem.evaluate_eq_ok ht
  unfold Trial.barrier Barrier.objective
  rw [hslack hp]
  rfl

theorem LineSearch.SafeLength.of_none {b : F} (h : LineSearch.SafeLength k s b) : b = s.alphaStart := by
  unfold LineSearch.SafeLength at h
  rwa [hp] at h

/-- There is no barrier parameter to be reduced. -/
theorem Running.Lowered.of_none {t : State F} (h : Lowered k s t) : t = s :=
  h.resolve_right fun hlowered => hlowered.1.1 (Setup.inequalities_of_none hp)

omit [Scalar F] in
theorem Setup.Abandons.of_none (h : k.Abandons s) :
    s.stop = .globalizationFailure ∨ s.stop = .userDefined ∧ k.par.checkSchedule = .diagnosticsOnly := by
  cases h with
  | failed h => exact .inl h
  | infeasible _ hbounded =>
    rw [Setup.inequalities_of_none hp] at hbounded
    exact absurd hbounded (Nat.lt_irrefl 0)
  | inspected h hschedule => exact .inr ⟨h, hschedule⟩

/-- No part of a composite step is cut by the safeguard. -/
theorem TrustRegion.CompositeStep.unblamed (hone : ¬ (1 : F) < 1) {stop : TruncatedStop} {t : State F}
    (h : CompositeStep k s stop t) : t.truncatedStop.isSafeguard = false ∧ t.quasinormalStop.isSafeguard = false := by
  obtain ⟨step, cauchy, normal, r, dx, hnormal, htangential, -, -, -, -, rfl⟩ := h
  constructor
  · have hsolve : ∀ u, (tangentialSolve k u).Ensures fun out => ∀ r, out = .ok r → r.stop.isSafeguard = false := by
      intro u
      unfold tangentialSolve
      refine Journaled.ensures_bind (Journaled.ensures_true _) fun g _ => ?_
      rw [Setup.safeguard_of_none hp]
      exact TruncatedCG.solve_unblamed hone rfl _ _ _
    exact (hsolve _).answer htangential r rfl
  · unfold Setup.NormalStep at hnormal
    split at hnormal
    · obtain ⟨-, rfl⟩ := hnormal
      rfl
    · obtain ⟨safeguard, q, report, hsafe, hq, hok, -, rfl⟩ := hnormal
      rw [Setup.safeguard_of_none hp] at hsafe
      obtain rfl : .unlimited = safeguard := Except.ok.inj (Except.ok.inj hsafe)
      exact (Quasinormal.solve_unblamed hone _ _ _ _ _ _ _).answer hq report hok

end Unbounded

/-! ### Steps -/

/-- Sees the objective finite wherever a step has moved to. -/
def Watch.finite : Watch F := ⟨fun loc s => loc = .afterStepBeforeGradient → Scalar.isFinite s.f = true, fun _ _ => True⟩

theorem Watch.finite_onStep {loc : Location} (h : loc.OnStep) (s : State F) : Watch.finite.visit loc s := by
  rintro rfl
  exact h.elim

variable {k : Setup F} {s t : State F} {vs : Visits F}

/-- A failure, or one blamed on the inequality constraints by mistake. -/
def Setup.Fails (k : Setup F) (s : State F) : Prop :=
  s.stop = .globalizationFailure ∨ s.stop = .interiorPointInstability ∧ k.Misblames s

/-- A step goes on from a point with a finite objective, or fails. -/
def Setup.Concludes (k : Setup F) (s : State F) : Prop :=
  StepEnds (fun s => Scalar.isFinite s.f = true) k.Fails s

theorem Setup.Fails.concludes (h : k.Fails s) : k.Concludes s := by
  unfold Setup.Concludes StepEnds
  rcases id h with hstop | ⟨hstop, -⟩ <;> simpa [hstop] using h

theorem accept_concludes (hk : k.hooks.StepOnly) (hrunning : s.stop = .notConverged) {v : Trial F}
    (hv : Scalar.isFinite v.f = true) : wp .finite (accept k v) (fun _ => k.Concludes) (fun _ _ => True) s := by
  refine accept_wp hk v (fun _ => hv) (fun _ _ _ => nofun) (fun t ht => ?_) fun _ _ _ => trivial
  cases ht with
  | @sound y grad =>
    have hstop : ((s.moveTo v).graded y grad).stop = .notConverged := hrunning
    unfold Setup.Concludes StepEnds
    rwa [if_pos hstop]
  | failed => exact Setup.Fails.concludes (.inl rfl)

section Step
variable [Absorbing F]

/-- What any driver does without blaming the inequality constraints. -/
theorem Setup.moveFrame (hk : k.hooks.StepOnly) (c : Kept F) :
    MoveFrame k .finite (fun _ => k.Concludes) (fun _ _ => True) c where
  hooks := hk
  visit _ s hloc _ := Watch.finite_onStep hloc s
  trial _ _ _ := trivial
  accepted _ _ hs _ hpass := accept_concludes hk hs.running hpass.interior.1
  failed _ _ hstop := Setup.Fails.concludes (.inl hstop)
  halted _ _ _ := trivial

/-- A trust-region step does not vanish at a bound that is not there. -/
theorem Setup.unboundedAttempts (hk : k.hooks.StepOnly) (hp : k.problem.inequality = none) (hone : ¬ (1 : F) < 1)
    (c : Kept F) :
    TrustRegion.AttemptFrame k .finite (fun _ => k.Concludes) (fun _ _ => True) c (fun _ _ => True)
      fun s => s.truncatedStop.isSafeguard = false ∧ s.quasinormalStop.isSafeguard = false :=
  TrustRegion.attemptFrame (Setup.moveFrame hk c) (fun _ _ _ _ ht => ht.unblamed hp hone)
    fun _ _ hflags hcut => by simp [hflags] at hcut

theorem Setup.unboundedSearch (hk : k.hooks.StepOnly) (hp : k.problem.inequality = none)
    (hls : k.par.algorithm = .lineSearch) (c : Kept F) :
    LineSearch.SearchFrame k .finite (fun _ => k.Concludes) (fun _ _ => True) c (fun _ => True) (fun _ => True)
      fun _ _ _ => True :=
  LineSearch.searchFrame (Setup.moveFrame hk c) fun _ _ _ hb hvanished =>
    Setup.Fails.concludes (.inr ⟨rfl, .length hls (hb.of_none hp ▸ hvanished)⟩)

theorem Setup.unboundedSupply (hk : k.hooks.StepOnly) (hp : k.problem.inequality = none)
    (huser : k.par.algorithm = .userDefined) (c : Kept F) :
    UserStep.SupplyFrame k .finite (fun _ => k.Concludes) (fun _ _ => True) c fun _ => True :=
  UserStep.supplyFrame (Setup.moveFrame hk c) fun _ _ _ ht hinfinite => by
    rw [Trial.barrier_of_none hp (Problem.trial_eq_ok ht).2] at hinfinite
    exact Setup.Fails.concludes (.inr ⟨rfl, .supplied huser ht hinfinite⟩)

/-- A step of any driver ends at a point with a finite objective, or it fails. -/
theorem takeStep_concludes (hk : k.hooks.StepOnly) (hp : k.problem.inequality = none) (hone : ¬ (1 : F) < 1)
    (hrunning : s.stop = .notConverged) : wp .finite (takeStep k) (fun _ => k.Concludes) (fun _ _ => True) s := by
  unfold takeStep
  split
  case h_1 =>
    exact TrustRegion.attempts_wp (Setup.unboundedAttempts hk hp hone s.kept) _ ⟨⟨rfl, hrunning⟩, trivial⟩
  case h_2 hls =>
    exact LineSearch.step_wp (Setup.unboundedSearch hk hp hls s.kept) ⟨⟨rfl, hrunning⟩, trivial, trivial⟩
  case h_3 huser => exact UserStep.supplied_wp (Setup.unboundedSupply hk hp huser s.kept) ⟨rfl, hrunning⟩

end Step

/-! ### Runs -/

/-- Wherever a step has moved to, the objective is finite. -/
def FinitePoints (vs : Visits F) : Prop := ∀ v ∈ vs, v.1 = .afterStepBeforeGradient → Scalar.isFinite v.2.f = true

theorem FinitePoints.append {ws : Visits F} (h : FinitePoints vs)
    (hws : ∀ v ∈ ws, v.1 = .afterStepBeforeGradient → Scalar.isFinite v.2.f = true) : FinitePoints (vs ++ ws) :=
  List.forall_mem_append.mpr ⟨h, hws⟩

/-- Away from the points steps move to, a visit shows nothing of the objective. -/
theorem FinitePoints.push (h : FinitePoints vs) (loc : Location) (s : State F)
    (hloc : loc ≠ .afterStepBeforeGradient := by nofun) : FinitePoints (vs ++ [(loc, s)]) := by
  refine h.append fun v hv heq => absurd ?_ hloc
  rw [← heq, List.mem_singleton.mp hv]

/-- The invariant of the iterations: the run goes on from a point with a finite objective. -/
structure AtFinitePoint (s : State F) (vs : Visits F) : Prop where
  running : s.stop = .notConverged
  finite : Scalar.isFinite s.f = true
  points : FinitePoints vs

/-- Why a run leaves its iterations in the state `s`: its step has failed, or a criterion is met at the beginning of an
iteration, where no step is under way. -/
inductive Setup.Leaves (k : Setup F) (s : State F) (vs : Visits F) : Prop
  | failed (h : k.Fails s)
  | met (h : s.stop.isCriterion = true) (hfinite : Scalar.isFinite s.f = true)
      (hlast : ∃ before u, vs = before ++ [(.beginningOfOptimizationLoop, u)])

theorem AtFinitePoint.assessed (hp : k.problem.inequality = none) (hs : AtFinitePoint s vs) (ht : Assessed k s t) :
    StepEnds (fun t => AtFinitePoint t (vs ++ [(.beginningOfOptimizationLoop, s)]))
      (fun t => k.Leaves t (vs ++ [(.beginningOfOptimizationLoop, s)]) ∧
        FinitePoints (vs ++ [(.beginningOfOptimizationLoop, s)])) t := by
  have hpoints := hs.points.push .beginningOfOptimizationLoop s
  unfold StepEnds
  cases ht with
  | stop hl hc =>
    obtain rfl := hl.of_none hp
    rw [if_neg hc]
    exact ⟨.met (Setup.criterion_isCriterion hs.running hc) hs.finite ⟨vs, _, rfl⟩, hpoints⟩
  | unsound => exact ⟨.failed (.inl rfl), hpoints⟩
  | go hl =>
    obtain rfl := hl.of_none hp
    exact ⟨rfl, hs.finite, hpoints⟩

theorem Setup.loopCourse_verdict [Absorbing F] (hk : k.hooks.StepOnly) (hp : k.problem.inequality = none)
    (hone : ¬ (1 : F) < 1) :
    LoopCourse k AtFinitePoint AtFinitePoint (fun s vs => Scalar.isFinite s.f = true ∧ FinitePoints vs)
      (fun s vs => k.Leaves s vs ∧ FinitePoints vs) FinitePoints where
  hooks := hk
  assessed s _ _ hs hp' := assess_leads (D := fun s vs => k.Leaves s vs ∧ FinitePoints vs) hp'
    (fun _ ht => hs.assessed hp ht) (hs.points.push _ s)
  stepped s v vs p hs hrunning _ hp' := by
    have hbefore : FinitePoints (Event.visits p) := by
      rw [hp']
      exact hs.points.append (by simp)
    refine leads_watched (takeStep_concludes hk hp hone (s := s.beforeStep v) hrunning) ?_ ?_
    · intro _ t ws q ht hws hq
      have hafter : FinitePoints (Event.visits q) := hq ▸ hbefore.append hws
      exact ht.mono (fun hfinite => ⟨hfinite, hafter⟩) fun hfails => ⟨.failed hfails, hafter⟩
    · intro _ _ ws q _ hws hq
      exact hq ▸ hbefore.append hws
  paired s v vs hs hrunning _ := ⟨hrunning, hs.1, hs.2.append (by simp)⟩
  saveHalted s vs hs := hs.points.push _ s
  pairHalted s vs hs := hs.2.push _ s
  outOfFuel _ _ hs := hs.points

/-- What a run without inequality constraints answers, from its visits and the state it leaves. -/
inductive Setup.Verdict (k : Setup F) (vs : Visits F) (s : State F) : Prop
  | failed (h : s.stop = .globalizationFailure)
  | misblamed (h : s.stop = .interiorPointInstability) (hmistake : k.Misblames s)
  | inspected (h : s.stop = .userDefined) (hschedule : k.par.checkSchedule = .diagnosticsOnly)
  | met (h : s.stop.isCriterion = true) (hfinite : Scalar.isFinite s.f = true)
      (hlast : ∃ before u, vs = before ++ [(.beginningOfOptimizationLoop, u), (.endOfOptimization, s)])

theorem Setup.Leaves.verdict (h : k.Leaves s vs) : k.Verdict (vs ++ [(.endOfOptimization, s)]) s := by
  cases h with
  | failed h =>
    rcases h with h | ⟨h, hmistake⟩
    · exact .failed h
    · exact .misblamed h hmistake
  | met h hfinite hlast =>
    obtain ⟨before, u, rfl⟩ := hlast
    exact .met h hfinite ⟨before, u, by simp⟩

/-- A run that is halted, or opens unsoundly, has not moved. -/
theorem OpeningVisits.finitePoints (h : OpeningVisits k s vs) : FinitePoints vs := by
  cases h with
  | refused => simp [FinitePoints]
  | unsound => simp [FinitePoints, Setup.openingVisits]

section Unsound
variable {p : Problem F} (hp : p.inequality = none) {hooks : Hooks F} (hk : hooks.StepOnly) (par : Parameters F)
  (s : State F) {v : Trial F} (hv : p.evaluate s.x = .ok v) (hinfinite : Scalar.isFinite v.f = false)
include hp hk hv hinfinite

/-- A run whose first objective is not finite ends with its opening. -/
theorem Problem.solve_unsound {stop : Stop} (hstop : (p.solve par hooks s).result = .ok stop) :
    stop = .globalizationFailure ∨ stop = .userDefined ∧ par.checkSchedule = .diagnosticsOnly := by
  let k : Setup F := ⟨par, p, hooks, s.x.length⟩
  have hwhole : wp .any (whole k) (fun stop t => k.Abandons t ∧ stop = t.stop) (fun _ _ => True) s := by
    unfold whole
    refine wp_bind (wp_mono (opening_spec hk fun _ _ _ => trivial) ?_ fun _ _ _ => trivial)
    rintro (_ | _) t ht
    · exact finish_wp hk trivial ⟨ht, rfl⟩
    · obtain ⟨w, y, grad, hopened, -⟩ := ht
      obtain rfl : v = w := Except.ok.inj (hv.symm.trans hopened.evaluated)
      have hfinite := hopened.feasible
      rw [Trial.barrier_of_none (k := k) hp hv, hinfinite] at hfinite
      cases hfinite
  obtain ⟨habandons, rfl⟩ := (solve_wp rfl hwhole).2.1 stop hstop
  exact habandons.of_none hp

/-- It answers for certain, unless the diagnostics come before the first evaluation. -/
theorem Problem.solve_unsound_fails (hvalid : (⟨par, p, hooks, s.x.length⟩ : Setup F).parameterError? = none)
    (hfits : (⟨par, p, hooks, s.x.length⟩ : Setup F).sizesFit s.y = true) (hnever : par.checkSchedule = .never) :
    (p.solve par hooks s).result = .ok .globalizationFailure := by
  let k : Setup F := ⟨par, p, hooks, s.x.length⟩
  have hevaluation : ∀ t : State F, t.x = s.x →
      wp .any (initialEvaluation k) (fun go t => go = false ∧ t.stop = .globalizationFailure) (fun _ _ => False) t := by
    intro t hx
    unfold initialEvaluation
    refine wp_bind (wp_quiet hk nofun trivial (wp_bind (wp_getState ?_)))
    rw [hx]
    refine wp_bind (wp_lift (fun w hw => ?_) fun q hq => ?_)
    · obtain rfl : v = w := Except.ok.inj (hv.symm.trans (Checked.lift_answer hw))
      refine wp_bind (wp_update (wp_bind (wp_getState ?_)))
      rw [Trial.barrier_of_none (k := k) hp hv, hinfinite, Setup.inequalities_of_none (k := k) hp]
      exact wp_bind (wp_log (wp_bind (wp_setStop (wp_pure ⟨rfl, rfl⟩))))
    · have hq : (liftM (p.evaluate s.x) : Journaled F (Trial F)).answer = .error q := hq
      rw [hv] at hq
      cases hq
  have hwhole : wp .any (whole k) (fun stop _ => stop = .globalizationFailure) (fun _ _ => False) s := by
    unfold whole opening
    refine wp_bind (wp_bind (wp_log (wp_bind (wp_quiet hk nofun trivial (wp_bind ?_)))))
    refine wp_mono (check_wp hvalid hfits) ?_ fun _ _ h => h
    rintro _ _ rfl
    refine wp_bind (wp_update (wp_bind ?_))
    unfold initialDiagnostics
    rw [if_pos hnever]
    refine wp_pure (wp_bind (wp_stopped ?_))
    rw [if_neg (by simp [Setup.prepare])]
    refine wp_bind (wp_mono (hevaluation _ rfl) ?_ fun _ _ h => h)
    rintro _ t ⟨rfl, hstop⟩
    exact wp_pure (finish_wp hk trivial hstop)
  obtain ⟨-, hok, herror⟩ := solve_wp rfl hwhole
  cases hresult : (p.solve par hooks s).result with
  | ok stop => rw [hok stop hresult]
  | error e => exact (herror e hresult).elim

end Unsound

/-- Without inequality constraints a run of a manipulator that writes at most steps is judged as follows.

An answer is a failure of the globalization, except that it blames the inequality constraints if a line search has halved
its length to nothing or the manipulator has supplied a step to a point whose objective is not finite, that the diagnostics
alone were asked for, or that a criterion is met at a point with a finite objective, no step being under way. No step moves
to a point whose objective is not finite. Should that of the first iterate not be finite the globalization has failed, and
the run answers so for certain unless the diagnostics come first. -/
theorem Problem.solve_verdict [Absorbing F] (hone : ¬ (1 : F) < 1) {p : Problem F} (hp : p.inequality = none)
    {hooks : Hooks F} (hk : hooks.StepOnly) (par : Parameters F) (s : State F) :
    let k : Setup F := ⟨par, p, hooks, s.x.length⟩
    let r := p.solve par hooks s
    (∀ stop, r.result = .ok stop → stop = r.state.stop ∧ k.Verdict r.visits r.state) ∧
    (∀ t, (.afterStepBeforeGradient, t) ∈ r.visits → Scalar.isFinite t.f = true) ∧
    ∀ v, p.evaluate s.x = .ok v → Scalar.isFinite v.f = false →
      (∀ stop, r.result = .ok stop →
        stop = .globalizationFailure ∨ stop = .userDefined ∧ par.checkSchedule = .diagnosticsOnly) ∧
      (k.parameterError? = none → k.sizesFit s.y = true → par.checkSchedule = .never →
        r.result = .ok .globalizationFailure) := by
  intro k r
  have hopened : ∀ t y grad, k.Opened s t y grad → AtFinitePoint (k.openedState s t y grad)
      [(.beginningOfOptimization, s), (.beforeInitialFuncAndGrad, k.prepare s),
        (.afterInitialFuncAndGrad, k.openedState s t y grad), (.beforeOptimizationLoop, k.openedState s t y grad)] := by
    intro t y grad hopened
    have hfinite := hopened.feasible
    rw [Trial.barrier_of_none (k := k) hp hopened.evaluated] at hfinite
    exact ⟨rfl, hfinite, by simp [FinitePoints]⟩
  obtain ⟨hok, herror⟩ := Problem.solve_leaves (k := k) hk rfl (fun _ => Setup.loopCourse_verdict hk hp hone) hopened
  refine ⟨fun stop hstop => ?_, ?_, fun v hv hinfinite => ⟨fun stop hstop => ?_, fun hvalid hfits hnever => ?_⟩⟩
  · obtain ⟨hanswer, before, hbefore | ⟨habandons, -, -⟩, hvisits⟩ := hok stop hstop
    · exact ⟨hanswer, hvisits ▸ hbefore.1.verdict⟩
    · refine ⟨hanswer, ?_⟩
      rcases habandons.of_none hp with h | ⟨h, hschedule⟩
      · exact .failed h
      · exact .inspected h hschedule
  · have hpoints : FinitePoints r.visits := by
      cases hresult : r.result with
      | ok stop =>
        obtain ⟨-, before, hbefore | ⟨-, -, hbefore⟩, hvisits⟩ := hok stop hresult
        · exact hvisits ▸ hbefore.2.push _ _
        · exact hvisits ▸ hbefore.finitePoints.push _ _
      | error e => exact (herror e hresult).elim id OpeningVisits.finitePoints
    exact fun t ht => hpoints _ ht rfl
  · exact Problem.solve_unsound hp hk par s hv hinfinite hstop
  · exact Problem.solve_unsound_fails hp hk par s hv hinfinite hvalid hfits hnever

/-- The square of `1e200` overflows, and the run answers that the globalization has failed. -/
theorem Problem.solve_verdict_leastSquare :
    let par : Parameters Float := .default
    let r := leastSquare.solve par .passive (.new [1e200])
    ¬ (1 : Float) < 1 ∧ leastSquare.inequality = none ∧ (Hooks.passive (F := Float)).StepOnly ∧
      (∃ v, leastSquare.evaluate [1e200] = .ok v ∧ Scalar.isFinite v.f = false) ∧
      r.result = .ok .globalizationFailure ∧ Setup.Verdict ⟨par, leastSquare, .passive, 1⟩ r.visits r.state := by
  intro par r
  have hone : ¬ (1 : Float) < 1 := by decide +kernel
  have hk : (Hooks.passive (F := Float)).StepOnly := Hooks.Observing.stepOnly fun _ _ => rfl
  obtain ⟨hanswer, -, hunsound⟩ := leastSquare.solve_verdict hone rfl hk par (.new [1e200])
  have hinfinite : ∃ v, leastSquare.evaluate [1e200] = .ok v ∧ Scalar.isFinite v.f = false :=
    ⟨_, rfl, by decide +kernel⟩
  obtain ⟨v, hv, hf⟩ := hinfinite
  have hresult : r.result = .ok .globalizationFailure :=
    (hunsound v hv hf).2 (Option.isNone_iff_eq_none.mp (by decide +kernel)) (by decide +kernel) rfl
  exact ⟨hone, rfl, hk, ⟨v, hv, hf⟩, hresult, (hanswer _ hresult).2⟩

/-- The inequality constraints are blamed where there are none: a step is supplied to a point whose square overflows. -/
theorem Problem.solve_blames_supplied_step :
    ¬ ∀ (p : Problem Float) (par : Parameters Float) (hooks : Hooks Float) (s : State Float), p.inequality = none →
      hooks.StepOnly → (p.solve par hooks s).result ≠ .ok .interiorPointInstability := by
  intro h
  let par : Parameters Float := { Parameters.default with algorithm := .userDefined }
  have hresult : (leastSquare.solve par (.proposing [1e200]) (.new [1])).result.toOption = some .interiorPointInstability := by
    decide +kernel
  refine h leastSquare par (.proposing [1e200]) (.new [1]) rfl (Hooks.proposing_stepOnly _) ?_
  cases hr : (leastSquare.solve par (.proposing [1e200]) (.new [1])).result <;> simp_all [Except.toOption]

end ConstrainedOpt
