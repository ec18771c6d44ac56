import Mathlib.Data.List.Chain
import ConstrainedOpt.Proofs.Run.Loop

/-! # The course of a run

A run goes from hook point to hook point. `LoopCourse` is what a statement about all the visits of a run has
to bring along: invariants of a state and of the visits made before it, `I` at the beginning of an iteration, `J` once
the stopping criteria have let it go on, and `K` after its step. A run that leaves its loop does so in `D`; what its
visits show when it is halted is `E`.
-/
namespace ConstrainedOpt
variable {F : Type}

/-- Hook points visited, with the states found there. -/
abbrev Visits (F : Type) := List (Location × State F)

/-- The visits `vs` have come to `a`, and each of them is related to the next. -/
structure Trail (R : Location × State F → Location × State F → Prop) (vs : Visits F) (a : Location × State F) : Prop where
  chain : vs.IsChain R
  last : vs.getLast? = some a

theorem Trail.push {R : Location × State F → Location × State F → Prop} {vs : Visits F} {a b : Location × State F}
    (h : Trail R vs a) (hab : R a b) : Trail R (vs ++ [b]) b := by
  refine ⟨List.isChain_append.mpr ⟨h.chain, List.isChain_singleton b, ?_⟩, List.getLast?_concat⟩
  intro x hx y hy
  obtain rfl : a = x := by simpa [h.last] using hx
  obtain rfl : b = y := by simpa using hy
  exact hab

namespace Running
variable {α : Type} {k : Setup F} {Q : α → State F → List (Event F) → Prop} {E : Halt → State F → List (Event F) → Prop}
  {s : State F} {p : List (Event F)}

/-- A hook point, with the state the manipulator leaves there. -/
theorem leads_manipulated {loc : Location} {Q : Unit → State F → List (Event F) → Prop}
    (h : ∀ q, Event.visits q = Event.visits p ++ [(loc, s)] → Q () (k.hooks.manipulate loc s) q) :
    leads (visit k loc) Q E s p := by
  apply leads_visit
  exact h _ (by rw [Event.visits_append, Event.visits_append, Event.visits_note, List.append_nil, Event.visits_visit])

/-- A hook point that an observing manipulator sees. -/
theorem leads_observed (hk : k.hooks.Observing) {loc : Location} {Q : Unit → State F → List (Event F) → Prop}
    (h : ∀ q, Event.visits q = Event.visits p ++ [(loc, s)] → Q () s q) : leads (visit k loc) Q E s p :=
  leads_manipulated fun q hq => (hk loc s).symm ▸ h q hq

/-- A hook point where the manipulator writes nothing. -/
theorem leads_quiet (hk : k.hooks.StepOnly) {loc : Location} {Q : Unit → State F → List (Event F) → Prop}
    (h : ∀ q, Event.visits q = Event.visits p ++ [(loc, s)] → Q () s q) (hloc : loc ≠ .getStep := by nofun) :
    leads (visit k loc) Q E s p := leads_manipulated fun q hq => (hk.elsewhere loc s hloc).symm ▸ h q hq

theorem leads_noted {n : Note F} {Q : Unit → State F → List (Event F) → Prop}
    (h : ∀ q, Event.visits q = Event.visits p → Q () s q) : leads (event (.note n)) Q E s p :=
  leads_event (h _ (by rw [Event.visits_append, Event.visits_note, List.append_nil]))

end Running

variable [Scalar F]
open Running

structure LoopCourse (k : Setup F) (I J K D : State F → Visits F → Prop) (E : Visits F → Prop) : Prop where
  hooks : k.hooks.StepOnly
  assessed : ∀ s vs p, I s vs → Event.visits p = vs ++ [(.beginningOfOptimizationLoop, s)] →
    leads (assess k) (fun _ t q => StepEnds (fun t => J t (Event.visits q)) (fun t => D t (Event.visits q)) t)
      (fun _ _ q => E (Event.visits q)) s p
  stepped : ∀ s v vs p, J s vs → s.stop = .notConverged → WithoutMultipliers k s.x s.y s.grad v →
    Event.visits p = vs ++ [(.beforeSaveOld, s), (.beforeStep, s.remember v)] →
    leads (takeStep k) (fun _ t q => StepEnds (fun t => K t (Event.visits q)) (fun t => D t (Event.visits q)) t)
      (fun _ _ q => E (Event.visits q)) (s.beforeStep v) p
  paired : ∀ s v vs, K s vs → s.stop = .notConverged → Changed k s v →
    I (s.paired v k.par.storedHistory).counted (vs ++ [(.beforeQuasi, s), (.afterQuasi, s.paired v k.par.storedHistory),
      (.endOfOptimizationIteration, (s.paired v k.par.storedHistory).counted)])
  saveHalted : ∀ s vs, J s vs → E (vs ++ [(.beforeSaveOld, s)])
  pairHalted : ∀ s vs, K s vs → E (vs ++ [(.beforeQuasi, s)])
  outOfFuel : ∀ s vs, I s vs → E vs

/-- The first two hook points of a run, around the initialisation of its state. -/
def Setup.openingVisits (k : Setup F) (s : State F) : Visits F :=
  [(.beginningOfOptimization, s), (.beforeInitialFuncAndGrad, k.prepare s)]

/-- What the visits of the opening of a run may be that does not come to its first gradient. -/
inductive OpeningVisits (k : Setup F) (s : State F) : Visits F → Prop
  | refused : OpeningVisits k s [(.beginningOfOptimization, s)]
  | unsound : OpeningVisits k s (k.openingVisits s)

/-- The radius, the penalty and the barrier parameter. -/
structure Globalization (F : Type) where
  delta : F
  rho : F
  mu : F

omit [Scalar F] in
def State.globalization (s : State F) : Globalization F := ⟨s.delta, s.rho, s.mu⟩

variable {k : Setup F} {I J K D : State F → Visits F → Prop} {E : Visits F → Prop} {s : State F} {vs : Visits F}
  {p : List (Event F)}

omit [Scalar F] in
theorem State.SameButGradient.globalization {t : State F} (h : s.SameButGradient t) :
    t.globalization = s.globalization := by
  unfold State.SameButGradient at h
  rw [h]
  rfl

/-- The assessment of a state, if all that is needed of it is what it may end in. -/
theorem assess_leads (hp : Event.visits p = vs)
    (hassessed : ∀ t, Assessed k s t → StepEnds (fun t => J t vs) (fun t => D t vs) t) (hhalted : E vs) :
    leads (assess k) (fun _ t q => StepEnds (fun t => J t (Event.visits q)) (fun t => D t (Event.visits q)) t)
      (fun _ _ q => E (Event.visits q)) s p := by
  refine leads_still assess_spec ?_ ?_
  · intro _ t q ht hq
    rw [hq, hp]
    exact hassessed t ht
  · intro _ _ q _ hq
    rw [hq, hp]
    exact hhalted

namespace LoopCourse

theorem body_leads (fr : LoopCourse k I J K D E) (hs : J s vs) (hrunning : s.stop = .notConverged)
    (hp : Event.visits p = vs) :
    leads (body k) (fun _ t q => StepEnds (fun t => K t (Event.visits q)) (fun t => D t (Event.visits q)) t)
      (fun _ _ q => E (Event.visits q)) s p := by
  subst hp
  unfold body
  refine leads_bind (leads_quiet fr.hooks fun q hq => leads_bind (leads_still saveOld_spec ?_ ?_))
  · rintro _ _ q' ⟨v, rfl, hv⟩ hq'
    refine leads_bind (leads_quiet fr.hooks fun q'' hq'' => leads_bind (leads_update ?_))
    refine fr.stepped s v _ q'' hs hrunning hv ?_
    rw [hq'', hq', hq, List.append_assoc, List.singleton_append]
  · rintro _ _ q' - hq'
    rw [hq', hq]
    exact fr.saveHalted s _ hs

theorem tail_leads (fr : LoopCourse k I J K D E) (hs : K s vs) (hrunning : s.stop = .notConverged)
    (hp : Event.visits p = vs) :
    leads (tail k) (fun _ t q => I t (Event.visits q)) (fun _ _ q => E (Event.visits q)) s p := by
  subst hp
  unfold tail
  refine leads_bind (leads_quiet fr.hooks fun q hq => leads_bind (leads_still updateHistory_spec ?_ ?_))
  · rintro _ _ q' ⟨v, rfl, hv⟩ hq'
    refine leads_bind (leads_quiet fr.hooks fun q'' hq'' => leads_bind ?_)
    refine leads_still (countIteration_wp (Q := fun _ t => t = (s.paired v k.par.storedHistory).counted)
      (E := fun _ _ => False) rfl) ?_ fun _ _ _ h => h.elim
    rintro _ _ r rfl hr
    refine leads_quiet fr.hooks fun r' hr' => ?_
    have hI := fr.paired s v _ hs hrunning hv
    rw [hr', hr, hq'', hq', hq]
    simpa only [List.append_assoc, List.cons_append, List.nil_append] using hI
  · rintro _ _ q' - hq'
    rw [hq', hq]
    exact fr.pairHalted s _ hs

/-- One iteration keeps the invariant or ends the loop. -/
theorem iteration_leads (fr : LoopCourse k I J K D E) (hs : I s vs) (hp : Event.visits p = vs) :
    leads (iteration k) (fun more t q => if more then I t (Event.visits q) else D t (Event.visits q))
      (fun _ _ q => E (Event.visits q)) s p := by
  have hcontinue : ∀ {P : State F → Prop} (t : State F) (q : List (Event F)) (c : Running F Bool),
      StepEnds P (fun t => D t (Event.visits q)) t →
      (t.stop = .notConverged → P t → leads c (fun more t q => if more then I t (Event.visits q) else D t (Event.visits q))
        (fun _ _ q => E (Event.visits q)) t q) →
      leads (do if ← stopped then return false else c)
        (fun more t q => if more then I t (Event.visits q) else D t (Event.visits q)) (fun _ _ q => E (Event.visits q)) t q := by
    intro P t q c ht hc
    refine leads_bind (leads_stopped ?_)
    unfold StepEnds at ht
    split at ht
    case isTrue h =>
      rw [if_neg (by simpa using h)]
      exact hc h ht
    case isFalse h =>
      rw [if_pos (by simpa using h)]
      exact leads_pure ht
  subst hp
  unfold iteration
  refine leads_bind (leads_quiet fr.hooks fun q hq => leads_bind ?_)
  refine leads_mono (fr.assessed s _ q hs hq) ?_ fun _ _ _ h => h
  intro _ t q' hends
  refine hcontinue t q' _ hends fun hrunning hJ => leads_bind ?_
  refine leads_mono (fr.body_leads hJ hrunning rfl) ?_ fun _ _ _ h => h
  intro _ u r hu
  refine hcontinue u r _ hu fun hrunning hK => leads_bind ?_
  exact leads_mono (fr.tail_leads hK hrunning rfl) (fun _ _ _ h => leads_pure h) fun _ _ _ h => h

theorem iterations_leads (fr : LoopCourse k I J K D E) (fuel : Nat) (hs : I s vs) (hp : Event.visits p = vs) :
    leads (iterations k fuel) (fun _ t q => D t (Event.visits q)) (fun _ _ q => E (Event.visits q)) s p := by
  induction fuel generalizing s vs p with
  | zero =>
    subst hp
    exact leads_throw (fr.outOfFuel s _ hs)
  | succ fuel ih =>
    refine leads_bind (leads_mono (fr.iteration_leads hs hp) ?_ fun _ _ _ h => h)
    rintro (_ | _) t q ht
    · exact leads_pure ht
    · exact ih ht rfl

end LoopCourse

omit [Scalar F] in
/-- The last hook point of a run, which answers with its stop. -/
theorem finish_leads (hk : k.hooks.StepOnly) {E : Halt → State F → List (Event F) → Prop} :
    leads (finish k)
      (fun stop t q => t = s ∧ stop = s.stop ∧ Event.visits q = Event.visits p ++ [(.endOfOptimization, s)]) E s p := by
  have hend : ∀ q, Event.visits q = Event.visits p → leads (do
      visit k .endOfOptimization
      return (← getState).stop)
      (fun stop t q => t = s ∧ stop = s.stop ∧ Event.visits q = Event.visits p ++ [(.endOfOptimization, s)]) E s q := by
    intro q hq
    refine leads_bind (leads_quiet hk fun r hr => leads_bind (leads_getState (leads_pure ⟨rfl, rfl, ?_⟩)))
    rw [hr, hq]
  have hline : ∀ q, Event.visits q = Event.visits p → leads (do
      if 1 ≤ k.par.msgLevel then
        event (.note (.line ["Optimization stopped: ", .text (Registry.text s.stop)]))
      visit k .endOfOptimization
      return (← getState).stop)
      (fun stop t q => t = s ∧ stop = s.stop ∧ Event.visits q = Event.visits p ++ [(.endOfOptimization, s)]) E s q := by
    intro q hq
    split
    · exact leads_bind (leads_noted fun r hr => hend r (hr.trans hq))
    · exact hend q hq
  unfold finish
  refine leads_bind (leads_getState ?_)
  dsimp only
  split <;> exact leads_bind (leads_noted hline)

/-- A run that answers from the state `t` has left `D` by its last hook point. -/
def Ends (D : State F → Visits F → Prop) (stop : Stop) (t : State F) (vs : Visits F) : Prop :=
  stop = t.stop ∧ ∃ before, D t before ∧ vs = before ++ [(.endOfOptimization, t)]

theorem LoopCourse.loop_leads (fr : LoopCourse k I J K D E)
    (hs : I s (Event.visits p ++ [(.beforeOptimizationLoop, s)])) :
    leads (loop k) (fun stop t q => Ends D stop t (Event.visits q)) (fun _ _ q => E (Event.visits q)) s p := by
  unfold loop
  refine leads_bind (leads_still (printHeader_wp (Q := fun _ v => v = s) (E := fun _ _ => False) rfl) ?_
    fun _ _ _ h => h.elim)
  rintro _ s q rfl hq
  refine leads_bind (leads_still (printRow_wp (Q := fun _ v => v = s) (E := fun _ _ => False) rfl) ?_
    fun _ _ _ h => h.elim)
  rintro _ s q' rfl hq'
  refine leads_bind (leads_quiet fr.hooks fun r hr => leads_bind (leads_noted fun r' hr' => leads_bind ?_))
  rw [← hq, ← hq', ← hr, ← hr'] at hs
  refine leads_mono (fr.iterations_leads _ hs rfl) ?_ fun _ _ _ h => h
  intro _ t u ht
  refine leads_mono (finish_leads fr.hooks) ?_ fun _ _ _ h => h
  rintro stop _ q ⟨rfl, rfl, hq⟩
  exact ⟨rfl, _, ht, hq⟩

/-! ### Trails -/

omit [Scalar F] in
/-- The radius, the penalty and the barrier parameter of `s` are those of the last hook point of a trail. -/
def Along (R : Location × State F → Location × State F → Prop) (s : State F) (vs : Visits F) : Prop :=
  ∃ a, Trail R vs a ∧ s.globalization = a.2.globalization

theorem accept_leads (hk : k.hooks.Observing) {R : Location × State F → Location × State F → Prop} {a : Location × State F}
    {t : Trial F} (hp : Trail R (Event.visits p) a) (hmoved : R a (.afterStepBeforeGradient, s.moveTo t))
    (hgraded : ∀ y grad, R (.afterStepBeforeGradient, s.moveTo t) (.afterGradient, (s.moveTo t).graded y grad)) :
    leads (accept k t) (fun _ u q => Along R u (Event.visits q) ∧ Regraded k (s.moveTo t) u)
      (fun _ _ q => (Event.visits q).IsChain R) s p := by
  unfold accept
  refine leads_bind (leads_update (leads_bind (leads_observed hk fun q hq => leads_bind ?_)))
  have hq : Trail R (Event.visits q) (.afterStepBeforeGradient, s.moveTo t) := hq ▸ hp.push hmoved
  refine leads_still (updateGradient_spec true) ?_ fun _ _ r _ hr => hr ▸ hq.chain
  intro o u r hu hr
  rw [← hr] at hq
  split
  case h_1 e =>
    refine leads_still (wp_stepFailure (Q := fun _ v => v = { u with stop := .globalizationFailure })
      (E := fun _ _ => True) rfl fun _ => trivial) ?_ fun _ _ r' _ hr' => hr' ▸ hq.chain
    rintro _ _ r' rfl hr'
    have hglobal : u.globalization = (s.moveTo t).globalization := hu.globalization
    exact ⟨⟨(.afterStepBeforeGradient, s.moveTo t), hr' ▸ hq, hglobal⟩, .failed hu⟩
  case h_2 =>
    obtain ⟨y, grad, hg, rfl⟩ := hu
    refine leads_observed hk fun r' hr' => ?_
    have hr' : Event.visits r' = Event.visits r ++ [(.afterGradient, (s.moveTo t).graded y grad)] := hr'
    have hend := hq.push (hgraded y grad)
    rw [← hr'] at hend
    exact ⟨⟨_, hend, rfl⟩, .sound hg⟩

/-! ### The opening -/

theorem diagnose_globalization {W : Watch F} :
    wp W (initialDiagnostics k) (fun _ t => t.globalization = s.globalization) (fun _ _ => True) s := by
  unfold initialDiagnostics
  split
  · exact wp_pure rfl
  · refine wp_bind (wp_mono diagnose_spec ?_ fun _ _ _ => trivial)
    intro _ t ht
    have ht : t.globalization = s.globalization := by rcases ht with rfl | rfl <;> rfl
    refine wp_bind (wp_stopped ?_)
    split
    · exact wp_pure ht
    · split
      · exact wp_setStop ht
      · exact wp_pure ht

theorem initialGradient_globalization {W : Watch F} :
    wp W (initialGradient k) (fun _ t => t.globalization = s.globalization) (fun _ _ => True) s := by
  unfold initialGradient
  refine wp_bind (wp_getState ?_)
  extract_lets updateY grade
  have hgo : ∀ u : State F, u.globalization = s.globalization →
      wp W (grade ()) (fun _ t => t.globalization = s.globalization) (fun _ _ => True) u := by
    intro u hu
    refine wp_bind (wp_mono (updateGradient_spec updateY) ?_ fun _ _ _ => trivial)
    intro o t ht
    split
    · exact wp_bind (wp_stepFailure (wp_pure (ht.globalization.trans hu)) fun _ => trivial)
    · obtain ⟨y, grad, -, rfl⟩ := ht
      exact wp_bind (wp_update (wp_pure hu))
  split
  · exact wp_bind (wp_update (hgo _ rfl))
  · exact hgo s rfl

/-- The end of an opening, from the state `s` of the run. -/
def OpeningEnds (k : Setup F) (s : State F) (go : Bool) (t : State F) (vs : Visits F) : Prop :=
  if go then (∃ v y grad, k.Opened s v y grad ∧ t = k.openedState s v y grad) ∧
      vs = [(.beginningOfOptimization, s), (.beforeInitialFuncAndGrad, k.prepare s)]
  else k.Abandons t ∧ t.globalization = (k.prepare s).globalization ∧ OpeningVisits k s vs

theorem initialEvaluation_leads (hk : k.hooks.StepOnly) (hp : Event.visits p = vs) :
    leads (initialEvaluation k)
      (fun go t q => Event.visits q = vs ++ [(.beforeInitialFuncAndGrad, s)] ∧ t.globalization = s.globalization ∧
        if go then ∃ v, k.problem.evaluate s.x = .ok v ∧ Scalar.isFinite (v.barrier s.mu) = true ∧ t = s.moveTo v
        else k.Abandons t)
      (fun _ _ q => Event.visits q = vs ++ [(.beforeInitialFuncAndGrad, s)]) s p := by
  unfold initialEvaluation
  refine leads_bind (leads_quiet hk fun q hq => leads_bind (leads_getState (leads_bind ?_)))
  rw [hp] at hq
  refine leads_still (wp_lift (Q := fun v t => t = s ∧ k.problem.evaluate s.x = .ok v) (E := fun _ _ => True)
    (fun v hv => ⟨rfl, Checked.lift_answer hv⟩) fun _ _ => trivial) ?_ fun _ _ r _ hr => hr.trans hq
  rintro v _ q' ⟨rfl, hv⟩ hq'
  refine leads_bind (leads_update (leads_bind (leads_getState ?_)))
  split
  case isTrue h =>
    refine leads_pure ⟨hq'.trans hq, rfl, v, hv, h, ?_⟩
    unfold State.moveTo
    rw [(Problem.evaluate_eq_ok hv).1]
  case isFalse =>
    refine leads_bind (leads_noted fun r hr => leads_bind (leads_setStop (leads_pure ⟨?_, rfl, .of_unsound rfl⟩)))
    exact hr.trans (hq'.trans hq)

theorem opening_leads (hk : k.hooks.StepOnly) :
    leads (opening k) (fun go t q => OpeningEnds k s go t (Event.visits q))
      (fun _ _ q => OpeningVisits k s (Event.visits q)) s [] := by
  unfold opening
  refine leads_bind (leads_noted fun p hp => leads_bind (leads_quiet hk fun q hq => leads_bind ?_))
  rw [hp, Event.visits_nil, List.nil_append] at hq
  have hrefused : ∀ {r}, Event.visits r = Event.visits q → OpeningVisits k s (Event.visits r) := fun hr =>
    hr.trans hq ▸ .refused
  refine leads_still check_spec ?_ fun _ _ r _ hr => hrefused hr
  rintro _ t q₁ ⟨ht, hvalid, hfits⟩ hq₁
  subst ht
  refine leads_bind (leads_update (leads_bind ?_))
  refine leads_still (wp_and (initialDiagnostics_spec rfl) diagnose_globalization) ?_
    fun _ _ r _ hr => hrefused (hr.trans hq₁)
  rintro _ u q₂ ⟨hu, hglobal⟩ hq₂
  refine leads_bind (leads_stopped ?_)
  split
  case isTrue h =>
    have ha : k.Abandons u := hu.resolve_left fun heq => by simp [heq, Setup.prepare] at h
    exact leads_pure ⟨ha, hglobal, hrefused (hq₂.trans hq₁)⟩
  case isFalse h =>
    have hrunning : u.stop = .notConverged := by simpa using h
    obtain rfl := hu.resolve_right fun ha => (Abandoned.of_abandons ha).stopped hrunning
    refine leads_bind (leads_mono (initialEvaluation_leads hk (hq₂.trans (hq₁.trans hq))) ?_ ?_)
    · rintro go v q₃ ⟨hq₃, hglobal', hgo⟩
      have hunsound : ∀ {r}, Event.visits r = Event.visits q₃ → OpeningVisits k t (Event.visits r) := fun hr =>
        hr.trans hq₃ ▸ .unsound
      split
      case isTrue hstopped =>
        rw [if_neg (by simpa using hstopped)] at hgo
        exact leads_pure ⟨hgo, hglobal', hunsound rfl⟩
      case isFalse hcontinue =>
        rw [if_pos (by simpa using hcontinue)] at hgo
        obtain ⟨point, hpoint, hfeasible, rfl⟩ := hgo
        refine leads_still (wp_and initialGradient_spec initialGradient_globalization) ?_ fun _ _ r _ hr => hunsound hr
        rintro go w q₄ ⟨hw, hglobal''⟩ hq₄
        cases go with
        | false => exact ⟨hw, hglobal''.trans hglobal', hunsound hq₄⟩
        | true =>
          rw [if_pos rfl] at hw
          obtain ⟨y, grad, hg, rfl⟩ := hw
          exact ⟨⟨point, y, grad, ⟨hvalid, hfits, hpoint, hfeasible, hg⟩, rfl⟩, hq₄.trans hq₃⟩
    · intro _ _ r hr
      exact hr ▸ .unsound

/-! ### Whole runs -/

/-- How a run that answers leaves its opening or its loop, and what the visits of a run show that is halted, from what its
loop keeps from every sound opening. -/
theorem Problem.solve_leaves {p : Problem F} {par : Parameters F} {hooks : Hooks F}
    (hhooks : hooks.StepOnly) (hk : (⟨par, p, hooks, s.x.length⟩ : Setup F) = k)
    (hloop : k.parameterError? = none → LoopCourse k I J K D E)
    (hopened : ∀ t y grad, k.Opened s t y grad →
      I (k.openedState s t y grad) [(.beginningOfOptimization, s), (.beforeInitialFuncAndGrad, k.prepare s),
        (.afterInitialFuncAndGrad, k.openedState s t y grad), (.beforeOptimizationLoop, k.openedState s t y grad)]) :
    (∀ stop, (p.solve par hooks s).result = .ok stop →
      Ends (fun t vs => D t vs ∨ OpeningEnds k s false t vs) stop (p.solve par hooks s).state (p.solve par hooks s).visits) ∧
    ∀ e, (p.solve par hooks s).result = .error e →
      E (p.solve par hooks s).visits ∨ OpeningVisits k s (p.solve par hooks s).visits := by
  subst hk
  refine solve_leads (Q := fun stop t q => Ends (fun t vs => D t vs ∨ OpeningEnds _ s false t vs) stop t (Event.visits q))
    (E := fun _ _ q => E (Event.visits q) ∨ OpeningVisits _ s (Event.visits q)) ?_
  unfold whole
  refine leads_bind (leads_mono (opening_leads hhooks) ?_ fun _ _ q hq => .inr hq)
  rintro (_ | _) t q ht
  · refine leads_mono (finish_leads hhooks) ?_ fun _ _ _ h => h
    rintro stop _ r ⟨rfl, rfl, hr⟩
    exact ⟨rfl, _, .inr ht, hr⟩
  · obtain ⟨⟨v, y, grad, hv, rfl⟩, hq⟩ := ht
    refine leads_bind (leads_quiet hhooks fun r hr => leads_mono ((hloop hv.valid).loop_leads ?_) ?_ ?_)
    · rw [hr, hq]
      exact hopened v y grad hv
    · rintro stop t u ⟨hstop, before, hbefore, hu⟩
      exact ⟨hstop, before, .inl hbefore, hu⟩
    · exact fun _ _ _ h => .inl h

/-- What the visits of a run show, from what its loop keeps from every sound opening. -/
theorem Problem.solve_course {p : Problem F} {par : Parameters F} {hooks : Hooks F} {P : Visits F → Prop}
    (hhooks : hooks.StepOnly) (hk : (⟨par, p, hooks, s.x.length⟩ : Setup F) = k)
    (hloop : k.parameterError? = none → LoopCourse k I J K D E)
    (hopened : ∀ t y grad, k.Opened s t y grad →
      I (k.openedState s t y grad) [(.beginningOfOptimization, s), (.beforeInitialFuncAndGrad, k.prepare s),
        (.afterInitialFuncAndGrad, k.openedState s t y grad), (.beforeOptimizationLoop, k.openedState s t y grad)])
    (hshort : ∀ vs, OpeningVisits k s vs →
      P vs ∧ ∀ t : State F, t.globalization = (k.prepare s).globalization → P (vs ++ [(.endOfOptimization, t)]))
    (hend : ∀ t vs, D t vs → P (vs ++ [(.endOfOptimization, t)])) (hhalted : ∀ vs, E vs → P vs) :
    P (p.solve par hooks s).visits := by
  obtain ⟨hok, herror⟩ := Problem.solve_leaves hhooks hk hloop hopened
  cases hr : (p.solve par hooks s).result with
  | ok stop =>
    obtain ⟨-, before, hbefore | ⟨-, hglobal, hbefore⟩, hvisits⟩ := hok stop hr
    · exact hvisits ▸ hend _ _ hbefore
    · exact hvisits ▸ (hshort _ hbefore).2 _ hglobal
  | error e => exact (herror e hr).elim (hhalted _) fun hvs => (hshort _ hvs).1

end ConstrainedOpt
