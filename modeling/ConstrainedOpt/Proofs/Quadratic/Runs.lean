import ConstrainedOpt.Proofs.Diagnostics
import ConstrainedOpt.Proofs.Quadratic.Attempts

/-! # Runs on quadratic programs

A trust-region run on a quadratic program with its exact Hessian accepts the first attempt of every iteration, and ends
with a stop that is no failure. Nothing on its way can halt it, once its parameters and sizes were checked.
-/
namespace ConstrainedOpt
open Exact Journaled Running TruncatedCG
variable {ε : Set.Ioi (0 : ℝ)} {n m : ℕ} {Q : QuadraticProgram n m} {p : Problem (Exact ε)} {k : Setup (Exact ε)}
  {s t : State (Exact ε)} {x d : Euclidean n} {y : Euclidean m} {E : Halt → State (Exact ε) → Prop}

/-- From `s` an attempt ends with its step accepted, and delivers what it promised, whatever was recorded before. -/
def TrustRegion.Succeeds (k : Setup (Exact ε)) (s : State (Exact ε)) : Prop :=
  ∀ events, ∃ r, (attempt k).run ⟨s, events⟩ = (.ok .finished, r) ∧ Delivers k s r.state ∧
    r.state.stop = .notConverged

/-- Every attempt is the first one of its step and succeeds. -/
def Watch.faithful (k : Setup (Exact ε)) : Watch (Exact ε) where
  visit loc s := loc ≠ .afterRejectedTrustRegion ∧
    (loc = .beforeGetStep → s.rejected = 0 ∧ TrustRegion.Succeeds k s) ∧
    (loc = .afterStepBeforeGradient → ∃ π, s.ared = real π ∧ s.pred = real π ∧ 0 ≤ π)
  trial _ _ := True

/-- The state of a run that is under way and has met no trouble. -/
structure Setup.Untroubled (k : Setup (Exact ε)) (Q : QuadraticProgram n m) (s : State (Exact ε)) : Prop where
  point : ∃ x y, k.At Q x y s
  room : s.Roomy n
  bounds : Bounds s.delta s.rho
  running : s.stop = .notConverged
  rejectedTotal : s.rejectedTotal = 0

/-- The diagnostics that are scheduled have something to check. -/
def Setup.Checkable (k : Setup (Exact ε)) (n : ℕ) : Prop :=
  k.par.checkSchedule ≠ .never → k.problem.Checkable n k.par.spaceChecks

theorem Watch.faithful_admits (s : State (Exact ε)) : (Watch.faithful k).Admits k s where
  step _ := ⟨nofun, nofun, nofun⟩
  judged _ := ⟨nofun, nofun, nofun⟩
  accepted t ht := by
    obtain ⟨_, _, π, -, -, -, hared, hpred, hπ, -⟩ := ht.reductions
    exact ⟨nofun, nofun, fun _ => ⟨π, hared, hpred, hπ⟩⟩
  graded _ := ⟨nofun, nofun, nofun⟩
  trial _ _ := trivial

/-- The functions of a program are over the reals. -/
theorem Problem.Poses.overReals (hp : p.Poses Q) : p.OverReals n where
  objective := ⟨fun x => ⟨_, hp.value x⟩, fun x => ⟨_, hp.gradient x⟩, fun x d => ⟨_, hp.hessian _ d⟩⟩
  equality c hc := by
    rcases hp.equality with ⟨hnone, -⟩ | ⟨c', hc', hrealises, hsecond⟩
    · rw [hc] at hnone
      cases hnone
    obtain rfl : c = c' := Option.some.inj (hc.symm.trans hc')
    have hlinear := fun x => hrealises.linearises x
    have hrows : c.rows = m := (hlinear 0).rows
    rw [hrows]
    refine ⟨hrows, (hlinear 0).cols, fun x => ⟨_, hrows ▸ hrealises.value x⟩, fun x d => ⟨_, (hlinear x).forward d⟩,
      fun x w => ⟨_, (hlinear x).adjoint w⟩, fun x d w => ⟨0, ?_⟩⟩
    rw [hsecond, zeros_eq]
  inequality c hc := by
    rw [hp.inequality] at hc
    cases hc

/-! ### Diagnostics of a run -/

/-- The diagnostics of a problem over the reals stop a run if there is nothing to check. -/
theorem Running.diagnose_wp {W : Watch (Exact ε)} (hp : k.problem.OverReals n) (hx : s.x = vec x) :
    wp W (diagnose k) (fun _ t => k.problem.Checkable n k.par.spaceChecks ∧ t = s ∨
      ¬ k.problem.Checkable n k.par.spaceChecks ∧ t = { s with stop := .globalizationFailure }) E s := by
  have hchecks := Diagnostics.run_yields hp k.par.functionChecks k.par.spaceChecks x
  rw [← hx] at hchecks
  unfold diagnose
  refine wp_bind (wp_getState (wp_bind (wp_yields hchecks ?_)))
  rintro (_ | _) - hok
  · exact wp_bind (wp_log (wp_setStop (.inr ⟨fun h => by simpa using hok.mpr h, rfl⟩)))
  · exact wp_pure (.inl ⟨hok.mp rfl, rfl⟩)

/-- What the diagnostics stop a run for before its first evaluation. -/
inductive Setup.StopsChecked (k : Setup (Exact ε)) (n : ℕ) : Stop → Prop
  | failed : ¬ k.problem.Checkable n k.par.spaceChecks → k.StopsChecked n .globalizationFailure
  | only : k.problem.Checkable n k.par.spaceChecks → k.par.checkSchedule = .diagnosticsOnly →
      k.StopsChecked n .userDefined

theorem Running.opening_checked_wp {stop : Stop} (hp : k.problem.OverReals n)
    (hbegin : k.hooks.manipulate .beginningOfOptimization s = s) (hvalid : k.parameterError? = none)
    (hfits : k.sizesFit s.y = true) (hx : s.x = vec x) (hschedule : k.par.checkSchedule ≠ .never)
    (hstop : k.StopsChecked n stop) : wp .any (opening k) (fun go t => go = false ∧ t.stop = stop) E s := by
  unfold opening
  refine wp_bind (wp_log (wp_bind (wp_visit trivial ?_)))
  rw [hbegin]
  refine wp_bind (wp_mono (check_wp hvalid hfits) ?_ fun _ _ h => h)
  rintro _ s rfl
  refine wp_bind (wp_update (wp_bind ?_))
  unfold initialDiagnostics
  rw [if_neg hschedule]
  refine wp_bind (wp_mono (Running.diagnose_wp (s := k.prepare s) hp hx) ?_ fun _ _ h => h)
  cases hstop with
  | failed hfails =>
    rintro _ _ (⟨hpasses, -⟩ | ⟨-, rfl⟩)
    · exact absurd hpasses hfails
    · refine wp_bind (wp_stopped (wp_pure (wp_bind (wp_stopped ?_))))
      rw [if_pos (by simp)]
      exact wp_pure ⟨rfl, rfl⟩
  | only hpasses honly =>
    rintro _ _ (⟨-, rfl⟩ | ⟨hfails, -⟩)
    · refine wp_bind (wp_stopped ?_)
      rw [if_neg (by simp [Setup.prepare]), if_pos honly]
      refine wp_setStop (wp_bind (wp_stopped ?_))
      rw [if_pos (by simp)]
      exact wp_pure ⟨rfl, rfl⟩
    · exact absurd hpasses hfails

/-- A run that its diagnostics stop answers what the manipulator makes of that stop. -/
theorem Running.whole_checked_wp {stop : Stop} (hp : k.problem.OverReals n)
    (hbegin : k.hooks.manipulate .beginningOfOptimization s = s) (hvalid : k.parameterError? = none)
    (hfits : k.sizesFit s.y = true) (hx : s.x = vec x) (hschedule : k.par.checkSchedule ≠ .never)
    (hstop : k.StopsChecked n stop) :
    wp .any (whole k) (fun answer _ => ∃ t, t.stop = stop ∧ answer = (k.hooks.manipulate .endOfOptimization t).stop) E s := by
  unfold whole
  refine wp_bind (wp_mono (opening_checked_wp hp hbegin hvalid hfits hx hschedule hstop) ?_ fun _ _ h => h)
  rintro _ t ⟨rfl, hstop⟩
  exact finish_manipulated_wp trivial ⟨t, hstop, rfl⟩

namespace Setup.Programmed
variable (hk : k.Programmed Q)
include hk

/-- The attempts that are watched succeed. -/
theorem succeeds (hs : k.At Q x y s) (hroom : s.Roomy n) (hR : Bounds s.delta s.rho) (hrunning : s.stop = .notConverged) :
    TrustRegion.Succeeds k s := by
  intro events
  have hadmits : (Watch.any : Watch (Exact ε)).Admits k s :=
    ⟨fun _ => trivial, fun _ => trivial, fun _ _ => trivial, fun _ => trivial, fun _ _ => trivial⟩
  have hattempt := hk.attempt_wp (W := .any) (E := fun _ _ => False) hs hroom hR hrunning trivial hadmits
  obtain ⟨es, -, -, hok, herror⟩ := wp_run hattempt events
  rcases hrun : (TrustRegion.attempt k).run ⟨s, events⟩ with ⟨e | a, r⟩
  · rw [hrun] at herror
    exact (herror e rfl).elim
  · rw [hrun] at hok
    obtain ⟨rfl, harrived⟩ := hok a rfl
    exact ⟨r, rfl, harrived.delivers, harrived.running⟩

/-! ### The parts of an iteration -/

variable {W : Watch (Exact ε)}

theorem diagnose_wp (hcheck : k.problem.Checkable n k.par.spaceChecks) (hx : s.x = vec x) :
    wp W (diagnose k) (fun _ t => t = s) E s := by
  refine wp_mono (Running.diagnose_wp hk.poses.overReals hx) ?_ fun _ _ h => h
  rintro _ t (⟨-, ht⟩ | ⟨hfails, -⟩)
  · exact ht
  · exact absurd hcheck hfails

/-- Only the criteria can stop an untroubled run. -/
theorem assess_wp (hcheck : k.Checkable n) (hs : k.Untroubled Q s) :
    wp W (assess k) (fun _ t => t = { s with stop := k.criterion s }) E s := by
  obtain ⟨x, y, hat⟩ := hs.point
  have hmu : wp W (updateMu k) (fun _ t => t = s) E s := by
    unfold updateMu
    refine wp_bind (wp_getState ?_)
    rw [if_pos (.inl hk.poses.inequalities)]
    exact wp_pure rfl
  unfold assess
  refine wp_bind (wp_mono hmu ?_ fun _ _ h => h)
  rintro _ _ rfl
  refine wp_bind (wp_getState (wp_bind (wp_setStop (wp_bind (wp_stopped ?_)))))
  split
  · exact wp_pure rfl
  · refine wp_bind (wp_getState ?_)
    split
    case isTrue h => exact hk.diagnose_wp (hcheck (by simp [h.2])) hat.point
    case isFalse => exact wp_pure rfl

/-- Taking the part of the multipliers from a gradient leaves a real vector. -/
theorem pullback_yields {c : Constraint (Exact ε)} (hc : k.problem.equality = some c) (x : Euclidean n) (y : Euclidean m)
    (v : Euclidean n) : ((c.jacobian (vec x)).applyTransposed (-1) (vec y) 1 (vec v)).Yields fun z =>
      ∃ u : Euclidean n, z = vec u := by
  have hA := hk.poses.jacobian_acts hc x
  have hfills := (hk.poses.fills.equality c hc).jacobian (length_vec (v := x))
  have hy : (vec y : Vec (Exact ε)).length = k.problem.equalities := by rw [length_vec, hk.poses.equalities]
  exact ((hfills.applyTransposed _ _ _ _ hy length_vec).and (hA.applyTransposed (-1) 1 y v)).mono fun z hz => ⟨_, hz.2⟩

theorem saveOld_wp (hs : k.At Q x y s) :
    wp W (saveOld k) (fun _ t => ∃ v : Euclidean n, t = s.remember (vec v)) E s := by
  unfold saveOld
  refine wp_bind (wp_update ?_)
  split
  case h_1 c hc =>
    have hpull := hk.pullback_yields hc x y (Q.gradient x y)
    rw [← hs.grad, ← hs.point, ← hs.multipliers] at hpull
    refine wp_bind (wp_getState (wp_bind (wp_yields hpull ?_)))
    rintro _ - ⟨v, rfl⟩
    exact wp_update ⟨v, rfl⟩
  case h_2 => exact wp_pure ⟨Q.gradient x y, by rw [State.remember, hs.grad]⟩

theorem updateHistory_wp {z v : Euclidean n} (hs : k.At Q x y s) (hold : s.xOld = vec z) (hgradOld : s.gradOld = vec v) :
    wp W (updateHistory k) (fun _ t => ∃ u : Euclidean n, t = s.paired (vec u) k.par.storedHistory) E s := by
  have hadd : Checked.add (-1) s.gradOld s.grad = .ok (vec (Q.gradient x y + (-1 : ℝ) • v)) := by
    rw [hgradOld, hs.grad]
    exact checked_add_vec (a := -1)
  unfold updateHistory
  refine wp_bind (wp_getState (wp_bind (wp_ok hadd ?_)))
  cases hc : k.problem.equality with
  | none =>
    refine wp_bind (wp_yields (P := fun w => w = vec (Q.gradient x y + (-1 : ℝ) • v)) (yields_pure rfl) ?_)
    rintro _ - rfl
    exact wp_update ⟨_, rfl⟩
  | some c =>
    dsimp only
    rw [hold, hs.multipliers]
    refine wp_bind (wp_yields (hk.pullback_yields hc z y _) ?_)
    rintro _ - ⟨u, rfl⟩
    exact wp_update ⟨u, rfl⟩

/-- The step of an iteration. -/
theorem body_wp (hs : k.Untroubled Q s) :
    wp (Watch.faithful k) (body k) (fun _ t => ∃ v : Euclidean n, k.Arrived Q (s.beforeStep (vec v)) t) E s := by
  obtain ⟨x, y, hat⟩ := hs.point
  unfold body
  refine wp_bind (wp_quiet hk.hooks.stepOnly nofun ⟨nofun, nofun, nofun⟩ ?_)
  refine wp_bind (wp_mono (hk.saveOld_wp hat) ?_ fun _ _ h => h)
  rintro _ _ ⟨v, rfl⟩
  refine wp_bind (wp_quiet hk.hooks.stepOnly nofun ⟨nofun, nofun, nofun⟩ (wp_bind (wp_update ?_)))
  have hstart : k.At Q x y (s.beforeStep (vec v)) := ⟨hat.point, hat.objective, hat.values, hat.slack, hat.multipliers,
    hat.grad, hat.history, hat.sizes⟩
  have hroom : (s.beforeStep (vec v)).Roomy n := ⟨hs.room.normal, hs.room.cauchy, hs.room.tangential⟩
  have hfirst : (Watch.faithful k).visit .beforeGetStep (s.beforeStep (vec v)) :=
    ⟨nofun, fun _ => ⟨rfl, hk.succeeds hstart hroom hs.bounds hs.running⟩, nofun⟩
  refine wp_mono (hk.takeStep_wp hstart hroom hs.bounds hs.running hfirst (Watch.faithful_admits _)) ?_ fun _ _ h => h
  exact fun _ _ ht => ⟨v, ht⟩

/-- The end of an iteration whose step arrived. -/
theorem tail_wp {v : Euclidean n} (hs : k.Untroubled Q s) (ht : k.Arrived Q (s.beforeStep (vec v)) t) :
    wp (Watch.faithful k) (tail k) (fun _ u => k.Untroubled Q u ∧ u.iter = s.iter + 1) E t := by
  obtain ⟨x₀, y₀, hat₀⟩ := hs.point
  obtain ⟨x, y, hat⟩ := ht.point
  obtain ⟨d, hd⟩ := ht.dx
  have hold : t.xOld = vec x₀ := ht.xOld.trans hat₀.point
  unfold tail
  refine wp_bind (wp_quiet hk.hooks.stepOnly nofun ⟨nofun, nofun, nofun⟩ ?_)
  refine wp_bind (wp_mono (hk.updateHistory_wp hat hold ht.gradOld) ?_ fun _ _ h => h)
  rintro _ _ ⟨u, rfl⟩
  refine wp_bind (wp_quiet hk.hooks.stepOnly nofun ⟨nofun, nofun, nofun⟩ (wp_bind (countIteration_wp ?_)))
  refine wp_quiet hk.hooks.stepOnly nofun ⟨nofun, nofun, nofun⟩ ⟨?_, congrArg (· + 1) ht.iter⟩
  have hreal : (t.history.push t.dx (vec u) k.par.storedHistory).Real n := by
    rw [hd]
    exact hat.history.push _ _ _
  have hsizes : (t.history.push t.dx (vec u) k.par.storedHistory).Sized n :=
    hat.sizes.push (by rw [hd, length_vec]) length_vec _
  exact {
    point := ⟨x, y, hat.point, hat.objective, hat.values, hat.slack, hat.multipliers, hat.grad, hreal, hsizes⟩
    room := ⟨ht.room.normal, ht.room.cauchy, ht.room.tangential⟩
    bounds := ht.bounds
    running := ht.running
    rejectedTotal := ht.rejectedTotal.trans hs.rejectedTotal }

/-! ### Runs -/

/-- An iteration goes on without trouble, or stops for a reason that is no failure. -/
theorem iteration_wp (hcheck : k.Checkable n) (hs : k.Untroubled Q s) :
    wp (Watch.faithful k) (iteration k)
      (fun more t => if more then k.Untroubled Q t ∧ t.iter = s.iter + 1 ∧ s.iter < k.par.iterMax
        else t.stop ≠ .globalizationFailure ∧ t.rejectedTotal = 0) E s := by
  unfold iteration
  refine wp_bind (wp_quiet hk.hooks.stepOnly nofun ⟨nofun, nofun, nofun⟩ ?_)
  refine wp_bind (wp_mono (hk.assess_wp hcheck hs) ?_ fun _ _ h => h)
  rintro _ _ rfl
  refine wp_bind (wp_stopped ?_)
  split
  case isTrue => exact wp_pure ⟨Setup.criterion_of_running hs.running, hs.rejectedTotal⟩
  case isFalse hgoes =>
    have hgoes : k.criterion s = .notConverged := by simpa using hgoes
    have hs' : k.Untroubled Q { s with stop := k.criterion s } := by
      obtain ⟨x, y, hat⟩ := hs.point
      exact ⟨⟨x, y, hat.of_kept rfl⟩, ⟨hs.room.normal, hs.room.cauchy, hs.room.tangential⟩, hs.bounds, hgoes,
        hs.rejectedTotal⟩
    refine wp_bind (wp_mono (hk.body_wp hs') ?_ fun _ _ h => h)
    rintro _ t ⟨v, ht⟩
    refine wp_bind (wp_stopped ?_)
    rw [if_neg (by simp [ht.running])]
    refine wp_bind (wp_mono (hk.tail_wp hs' ht) ?_ fun _ _ h => h)
    rintro _ u ⟨hu, hiter⟩
    exact wp_pure ⟨hu, hiter, Setup.iter_lt_of_criterion hgoes⟩

/-- The iterations end by their bound at the latest. -/
theorem iterations_wp (hcheck : k.Checkable n) (fuel : ℕ) (hs : k.Untroubled Q s) (hle : s.iter ≤ k.par.iterMax)
    (hfuel : k.par.iterMax < s.iter + fuel) :
    wp (Watch.faithful k) (iterations k fuel)
      (fun _ t => t.stop ≠ .globalizationFailure ∧ t.rejectedTotal = 0) E s := by
  induction fuel generalizing s with
  | zero => omega
  | succ fuel ih =>
    refine wp_bind (wp_mono (hk.iteration_wp hcheck hs) ?_ fun _ _ h => h)
    rintro (_ | _) t ht
    · exact wp_pure ht
    · obtain ⟨ht, hiter, hlt⟩ := ht
      exact ih ht (by omega) (by omega)

/-! ### The opening -/

theorem initialDiagnostics_wp (hcheck : k.Checkable n) (hx : s.x = vec x) (hrunning : s.stop = .notConverged) :
    wp W (initialDiagnostics k) (fun _ t => t = s ∨ t = { s with stop := .userDefined }) E s := by
  unfold initialDiagnostics
  split
  case isTrue => exact wp_pure (.inl rfl)
  case isFalse h =>
    refine wp_bind (wp_mono (hk.diagnose_wp (hcheck h) hx) ?_ fun _ _ h => h)
    rintro _ _ rfl
    refine wp_bind (wp_stopped ?_)
    rw [if_neg (by simp [hrunning])]
    split
    · exact wp_setStop (.inr rfl)
    · exact wp_pure (.inl rfl)

theorem initialEvaluation_wp (hx : s.x = vec x) :
    wp (Watch.faithful k) (initialEvaluation k) (fun go t => go = true ∧ t = s.moveTo (Q.sample x)) E s := by
  have hvalue : k.problem.evaluate s.x = .ok (Q.sample x) := by
    rw [hx]
    exact hk.poses.evaluate x
  unfold initialEvaluation
  refine wp_bind (wp_quiet hk.hooks.stepOnly nofun ⟨nofun, nofun, nofun⟩ (wp_bind (wp_getState ?_)))
  refine wp_bind (wp_ok hvalue (wp_bind (wp_update (wp_bind (wp_getState ?_)))))
  have hfinite : Scalar.isFinite ((Q.sample x : Trial (Exact ε)).barrier s.mu) = true := rfl
  dsimp only
  rw [if_pos hfinite]
  refine wp_pure ⟨rfl, ?_⟩
  unfold State.moveTo
  rw [hx]
  rfl

theorem initialGradient_wp (hx : s.x = vec x) (hh : s.h = []) (hlen : s.grad.length = n)
    (hy : Vec.isFinite s.y = true) :
    wp W (initialGradient k) (fun go t => go = true ∧ ∃ (y y' : Euclidean m),
      t = ((s.withMultipliers (vec y)).graded (vec y') (vec (Q.gradient x y'))).typical) E s := by
  unfold initialGradient
  refine wp_bind (wp_getState ?_)
  dsimp only
  split
  case isTrue =>
    refine wp_bind (wp_update ?_)
    have hzero : (Vec.zeros k.equalities : Vec (Exact ε)) = vec (0 : Euclidean m) := by rw [hk.equalities, zeros_eq]
    rw [hzero]
    refine wp_bind (wp_mono (hk.updateGradient_wp (s := s.withMultipliers (vec 0)) _ hx hh rfl hlen) ?_ fun _ _ h => h)
    rintro _ _ ⟨rfl, y', rfl⟩
    exact wp_bind (wp_update (wp_pure ⟨rfl, 0, y', rfl⟩))
  case isFalse h =>
    have hlen' : s.y.length = m := by
      rw [← hk.equalities]
      simpa using h
    obtain ⟨y, hy⟩ := exists_vec hlen' hy
    refine wp_bind (wp_mono (hk.updateGradient_wp _ hx hh hy hlen) ?_ fun _ _ h => h)
    rintro _ _ ⟨rfl, y', rfl⟩
    refine wp_bind (wp_update (wp_pure ⟨rfl, y, y', ?_⟩))
    rw [← hy]
    rfl

/-- A run opens without trouble, or stops after its diagnostics as it was asked to. -/
theorem opening_wp (hcheck : k.Checkable n) (hfits : k.sizesFit s.y = true) (hx : s.x = vec x)
    (hy : Vec.isFinite s.y = true) :
    wp (Watch.faithful k) (opening k)
      (fun go t => if go then k.Untroubled Q t ∧ t.iter = 0 else t.stop = .userDefined ∧ t.rejectedTotal = 0) E s := by
  obtain ⟨δ, hδ⟩ := isFinite_iff.mp hk.delta
  obtain ⟨ρ, hρ⟩ := isFinite_iff.mp hk.rho
  have hzeros : (Vec.zeros k.n : Vec (Exact ε)).length = n := by rw [Vec.length_zeros, hk.dim]
  have hslack : (k.prepare s).h = [] := by
    change Vec.zeros k.inequalities = []
    rw [Setup.inequalities, hk.poses.inequalities]
    rfl
  unfold opening
  refine wp_bind (wp_log (wp_bind (wp_quiet hk.hooks.stepOnly nofun ⟨nofun, nofun, nofun⟩ ?_)))
  refine wp_bind (wp_mono (check_wp hk.valid hfits) ?_ fun _ _ h => h)
  rintro _ s rfl
  refine wp_bind (wp_update ?_)
  refine wp_bind (wp_mono (hk.initialDiagnostics_wp (s := k.prepare s) hcheck hx rfl) ?_ fun _ _ h => h)
  rintro _ _ (rfl | rfl)
  · refine wp_bind (wp_stopped ?_)
    rw [if_neg (by simp [Setup.prepare])]
    refine wp_bind (wp_mono (hk.initialEvaluation_wp (s := k.prepare s) hx) ?_ fun _ _ h => h)
    rintro _ _ ⟨rfl, rfl⟩
    refine wp_mono (hk.initialGradient_wp (s := (k.prepare s).moveTo (Q.sample x)) (x := x) rfl rfl hzeros hy) ?_
      fun _ _ h => h
    rintro _ _ ⟨rfl, y, y', rfl⟩
    refine ⟨?_, rfl⟩
    exact {
      point := ⟨x, y', rfl, rfl, rfl, rfl, rfl, rfl, nofun, nofun, nofun⟩
      room := ⟨hzeros, hzeros, hzeros⟩
      bounds := ⟨⟨δ, hδ, (Setup.radius_pos hk.valid hδ).1⟩, ρ, hρ, Setup.penalty_pos hk.valid hρ⟩
      running := rfl
      rejectedTotal := rfl }
  · refine wp_bind (wp_stopped ?_)
    rw [if_pos (by simp)]
    exact wp_pure ⟨rfl, rfl⟩

theorem optimize_wp (hcheck : k.Checkable n) (hs : k.Untroubled Q s) (hiter : s.iter = 0) :
    wp (Watch.faithful k) (optimize k)
      (fun stop t => stop ≠ .globalizationFailure ∧ t.rejectedTotal = 0) E s := by
  unfold optimize
  refine wp_bind (wp_quiet hk.hooks.stepOnly nofun ⟨nofun, nofun, nofun⟩ ?_)
  unfold loop
  refine wp_bind (printHeader_wp (wp_bind (printRow_wp ?_)))
  refine wp_bind (wp_quiet hk.hooks.stepOnly nofun ⟨nofun, nofun, nofun⟩ (wp_bind (wp_log ?_)))
  have hpatience : 0 < patience := by decide
  refine wp_bind (wp_mono (hk.iterations_wp hcheck _ hs (by omega) (by omega)) ?_ fun _ _ h => h)
  exact fun _ t ht => finish_wp hk.hooks.stepOnly ⟨nofun, nofun, nofun⟩ ht

/-- A whole run ends with a stop that is no failure, without a rejected step. -/
theorem whole_wp (hcheck : k.Checkable n) (hfits : k.sizesFit s.y = true) (hx : s.x = vec x)
    (hy : Vec.isFinite s.y = true) :
    wp (Watch.faithful k) (whole k) (fun stop t => stop ≠ .globalizationFailure ∧ t.rejectedTotal = 0) E s := by
  unfold whole
  refine wp_bind (wp_mono (hk.opening_wp hcheck hfits hx hy) ?_ fun _ _ h => h)
  rintro (_ | _) t ht
  · obtain ⟨hstop, htotal⟩ := ht
    exact finish_wp hk.hooks.stepOnly ⟨nofun, nofun, nofun⟩ ⟨by rw [hstop]; nofun, htotal⟩
  · exact hk.optimize_wp hcheck ht.1 ht.2

end Setup.Programmed
end ConstrainedOpt
