import ConstrainedOpt.Proofs.Run.Effects

/-! # The opening of a run

The first iterate is checked, evaluated and graded; a run that finds a fault there stops for a reason that
certifies nothing.
-/
namespace ConstrainedOpt
variable {F : Type} [Scalar F]

omit [Scalar F] in
theorem Problem.evaluate_eq_ok {p : Problem F} {x : Vec F} {t : Trial F} (h : p.evaluate x = .ok t) :
    t.x = x ∧ p.objective.value x = .ok t.f ∧
      (∀ c, p.equality = some c → c.value x c.rows = .ok t.g) ∧ (p.equality = none → t.g = []) ∧
      (∀ c, p.inequality = some c → c.value x c.rows = .ok t.h) ∧ (p.inequality = none → t.h = []) := by
  obtain ⟨g, hg, h⟩ := Checked.bind_eq_ok.mp h
  obtain ⟨v, hv, h⟩ := Checked.bind_eq_ok.mp h
  obtain ⟨f, hf, h⟩ := Checked.bind_eq_ok.mp h
  cases h
  refine ⟨rfl, hf, ?_, ?_, ?_, ?_⟩
  · rintro c hc
    rwa [hc] at hg
  · intro hc
    rw [hc] at hg
    exact (Except.ok.inj hg).symm
  · rintro c hc
    rwa [hc] at hv
  · intro hc
    rw [hc] at hv
    exact (Except.ok.inj hv).symm

theorem Problem.trial_eq_ok {p : Problem F} {x dx : Vec F} {a : F} {t : Trial F}
    (h : p.trial x dx a = .ok t) : Checked.add a dx x = .ok t.x ∧ p.evaluate t.x = .ok t := by
  obtain ⟨z, hz, h⟩ := Checked.bind_eq_ok.mp h
  rw [(evaluate_eq_ok h).1]
  exact ⟨hz, h⟩

/-- The multipliers a run starts from: zeros unless they were given. -/
def Setup.firstMultipliers (k : Setup F) (y : Vec F) : Vec F :=
  if y.length = k.equalities then y else Vec.zeros k.equalities

/-- The state in which the first gradient is due. -/
def Setup.firstPoint (k : Setup F) (s : State F) (t : Trial F) : State F :=
  ((k.prepare s).moveTo t).withMultipliers (k.firstMultipliers s.y)

omit [Scalar F] in
/-- The state whose norms relative tolerances refer to from now on. -/
def State.typical (s : State F) : State F := { s with normGradTyp := s.normGrad, normGTyp := s.normG }

/-- The first iterate was found sound, with values `t`, multipliers `y` and gradient `grad`. -/
structure Setup.Opened (k : Setup F) (s : State F) (t : Trial F) (y grad : Vec F) : Prop where
  valid : k.parameterError? = none
  fits : k.sizesFit s.y = true
  evaluated : k.problem.evaluate s.x = .ok t
  feasible : Scalar.isFinite (t.barrier (k.prepare s).mu) = true
  graded : k.Graded (decide (s.y.length ≠ k.equalities)) (k.firstPoint s t) y grad

/-- The state a sound opening leaves. -/
def Setup.openedState (k : Setup F) (s : State F) (t : Trial F) (y grad : Vec F) : State F :=
  ((k.firstPoint s t).graded y grad).typical

/-- Why a run ends with its opening, in the state `s`. -/
inductive Setup.Abandons (k : Setup F) (s : State F) : Prop
  | failed (h : s.stop = .globalizationFailure)
  | infeasible (h : s.stop = .interiorPointInstability) (hbounded : 0 < k.inequalities)
  | inspected (h : s.stop = .userDefined) (hschedule : k.par.checkSchedule = .diagnosticsOnly)

omit [Scalar F] in
/-- An unsound first iterate is blamed on the inequality constraints exactly if there are any. -/
theorem Setup.Abandons.of_unsound {k : Setup F} {s : State F}
    (h : s.stop = if 0 < k.inequalities then .interiorPointInstability else .globalizationFailure) :
    k.Abandons s := by
  split at h
  case isTrue hbounded => exact .infeasible h hbounded
  case isFalse => exact .failed h

namespace Running
variable {W : Watch F} {k : Setup F} {s : State F}

omit [Scalar F] in
theorem Abandoned.of_abandons (h : k.Abandons s) : Abandoned s := by
  cases h with
  | failed h => exact .inl h
  | infeasible h => exact .inr (.inl h)
  | inspected h => exact .inr (.inr h)

omit [Scalar F] in
theorem Abandoned.stopped (h : Abandoned s) : s.stop ≠ .notConverged := by
  rcases h with h | h | h <;> simp [h]

theorem check_spec :
    wp W (check k) (fun _ t => t = s ∧ k.parameterError? = none ∧ k.sizesFit s.y = true) (fun _ _ => True) s := by
  unfold check
  split
  · exact wp_bind (wp_log (wp_bind (wp_fail trivial)))
  case h_2 hnone =>
    have hvalid : k.parameterError? = none := by
      cases h : k.parameterError? with
      | none => rfl
      | some e => exact absurd h (hnone e)
    refine wp_bind (wp_getState ?_)
    split
    · exact wp_bind (wp_log (wp_fail trivial))
    case isFalse h => exact wp_pure ⟨rfl, hvalid, by simpa using h⟩

theorem check_wp {E : Halt → State F → Prop} (hvalid : k.parameterError? = none) (hfits : k.sizesFit s.y = true) :
    wp W (check k) (fun _ t => t = s) E s := by
  unfold check
  rw [hvalid]
  refine wp_bind (wp_getState ?_)
  rw [if_neg (by simp [hfits])]
  exact wp_pure rfl

theorem initialDiagnostics_spec (hs : s.stop = .notConverged) :
    wp W (initialDiagnostics k) (fun _ t => t = s ∨ k.Abandons t) (fun _ _ => True) s := by
  unfold initialDiagnostics
  split
  · exact wp_pure (.inl rfl)
  · refine wp_bind (wp_mono diagnose_spec ?_ fun _ _ _ => trivial)
    rintro _ t ht
    refine wp_bind (wp_stopped ?_)
    rcases ht with rfl | rfl
    · rw [if_neg (by simp [hs])]
      split
      case isTrue hschedule => exact wp_setStop (.inr (.inspected rfl hschedule))
      case isFalse => exact wp_pure (.inl rfl)
    · exact wp_pure (.inr (.failed rfl))

theorem initialEvaluation_spec (hk : k.hooks.StepOnly) (hW : W.visit .beforeInitialFuncAndGrad s) :
    wp W (initialEvaluation k)
      (fun go t => if go then ∃ v, k.problem.evaluate s.x = .ok v ∧
          Scalar.isFinite (v.barrier s.mu) = true ∧ t = s.moveTo v else k.Abandons t)
      (fun _ _ => True) s := by
  unfold initialEvaluation
  refine wp_bind (wp_quiet hk nofun hW (wp_bind (wp_getState ?_)))
  refine wp_bind (wp_lift (fun t ht => ?_) fun _ _ => trivial)
  have ht := Checked.lift_answer ht
  refine wp_bind (wp_update (wp_bind (wp_getState ?_)))
  split
  case isTrue h =>
    refine wp_pure ⟨t, ht, h, ?_⟩
    unfold State.moveTo
    rw [(Problem.evaluate_eq_ok ht).1]
  case isFalse =>
    exact wp_bind (wp_log (wp_bind (wp_setStop (wp_pure (.of_unsound rfl)))))

theorem initialGradient_spec :
    wp W (initialGradient k)
      (fun go t => if go then ∃ y grad,
          k.Graded (decide (s.y.length ≠ k.equalities)) (s.withMultipliers (k.firstMultipliers s.y)) y grad ∧
          t = ((s.withMultipliers (k.firstMultipliers s.y)).graded y grad).typical else k.Abandons t)
      (fun _ _ => True) s := by
  unfold initialGradient
  refine wp_bind (wp_getState ?_)
  extract_lets updateY grade
  have hgo : ∀ u : State F, u = s.withMultipliers (k.firstMultipliers s.y) → wp W (grade ())
      (fun go t => if go then ∃ y grad,
          k.Graded (decide (s.y.length ≠ k.equalities)) (s.withMultipliers (k.firstMultipliers s.y)) y grad ∧
          t = ((s.withMultipliers (k.firstMultipliers s.y)).graded y grad).typical else k.Abandons t)
      (fun _ _ => True) u := by
    rintro _ rfl
    refine wp_bind (wp_mono (updateGradient_spec _) ?_ fun _ _ _ => trivial)
    intro o t ht
    split
    · exact wp_bind (wp_stepFailure (wp_pure (.failed rfl)) fun _ => trivial)
    · obtain ⟨y, grad, hg, rfl⟩ := ht
      exact wp_bind (wp_update (wp_pure ⟨y, grad, hg, rfl⟩))
  split
  case isTrue h =>
    refine wp_bind (wp_update (hgo _ ?_))
    unfold Setup.firstMultipliers State.withMultipliers
    rw [if_neg (of_decide_eq_true h)]
  case isFalse h =>
    have h : s.y.length = k.equalities := by simpa [updateY] using h
    refine hgo s ?_
    unfold Setup.firstMultipliers State.withMultipliers
    rw [if_pos h]

theorem opening_spec (hk : k.hooks.StepOnly)
    (hW : ∀ loc u, loc = .beginningOfOptimization ∨ loc = .beforeInitialFuncAndGrad → W.visit loc u) :
    wp W (opening k)
      (fun go u => if go then ∃ t y grad, k.Opened s t y grad ∧ u = k.openedState s t y grad else k.Abandons u)
      (fun _ _ => True) s := by
  unfold opening
  refine wp_bind (wp_log (wp_bind (wp_quiet hk nofun (hW _ _ (.inl rfl)) ?_)))
  refine wp_bind (wp_mono check_spec ?_ fun _ _ _ => trivial)
  rintro _ _ ⟨rfl, hvalid, hfits⟩
  refine wp_bind (wp_update (wp_bind (wp_mono (initialDiagnostics_spec rfl) ?_ fun _ _ _ => trivial)))
  rintro _ u hu
  refine wp_bind (wp_stopped ?_)
  split
  case isTrue h =>
    rcases hu with rfl | hu
    · exact absurd rfl (of_decide_eq_true h)
    · exact wp_pure hu
  case isFalse h =>
    have hrunning : u.stop = .notConverged := by simpa using h
    obtain rfl := hu.resolve_right fun ha => (Abandoned.of_abandons ha).stopped hrunning
    refine wp_bind (wp_mono (initialEvaluation_spec hk (hW _ _ (.inr rfl))) ?_ fun _ _ _ => trivial)
    intro go u hu
    split
    case isTrue hgo =>
      rw [if_neg (by simpa using hgo)] at hu
      exact wp_pure hu
    case isFalse hgo =>
      rw [if_pos (by simpa using hgo)] at hu
      obtain ⟨t, ht, hfeasible, rfl⟩ := hu
      refine wp_mono initialGradient_spec ?_ fun _ _ _ => trivial
      intro go u hu
      split
      case isTrue hgo =>
        rw [if_pos hgo] at hu
        obtain ⟨y, grad, hg, rfl⟩ := hu
        exact ⟨t, y, grad, ⟨hvalid, hfits, ht, hfeasible, hg⟩, rfl⟩
      case isFalse hgo =>
        rw [if_neg hgo] at hu
        exact hu

omit [Scalar F] in
/-- The answer is the stop that the manipulator leaves. -/
theorem finish_manipulated_wp {Q : Stop → State F → Prop} {E : Halt → State F → Prop}
    (hW : W.visit .endOfOptimization s)
    (h : Q (k.hooks.manipulate .endOfOptimization s).stop (k.hooks.manipulate .endOfOptimization s)) :
    wp W (finish k) Q E s := by
  have hend : wp W (do
      visit k .endOfOptimization
      return (← getState).stop) Q E s :=
    wp_bind (wp_visit hW (wp_bind (wp_getState (wp_pure h))))
  have hline : wp W (do
      if 1 ≤ k.par.msgLevel then
        event (.note (.line ["Optimization stopped: ", .text (Registry.text s.stop)]))
      visit k .endOfOptimization
      return (← getState).stop) Q E s := by
    split
    · exact wp_bind (wp_event trivial hend)
    · exact hend
  unfold finish
  refine wp_bind (wp_getState ?_)
  dsimp only
  split <;> exact wp_bind (wp_log hline)

omit [Scalar F] in
theorem finish_wp {Q : Stop → State F → Prop} {E : Halt → State F → Prop} (hk : k.hooks.StepOnly)
    (hW : W.visit .endOfOptimization s) (h : Q s.stop s) : wp W (finish k) Q E s :=
  finish_manipulated_wp hW ((hk.elsewhere .endOfOptimization s nofun).symm ▸ h)

end Running
end ConstrainedOpt
