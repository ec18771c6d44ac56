import ConstrainedOpt.Problem.Polynomial
import ConstrainedOpt.Proofs.History.Steps
import ConstrainedOpt.Proofs.Multipliers.Solves
import ConstrainedOpt.Proofs.Run.Course
import ConstrainedOpt.Scalar.Binary64

/-! # Lost multipliers

New multipliers are due at each accepted point and after each reduction of the barrier parameter. Should their solve fail
for a value that is not finite, the run ends at once as a failure of the globalization, at the new point. The multipliers it
held are then lost: its state keeps what the failed solve has left in their place.
-/
namespace ConstrainedOpt
variable {F : Type} [Scalar F]
open Running

/-- The multiplier solve due in `u` fails for a value that is not finite. The gradient of the barrier objective is `φ`, and
`w` is left in the place of the multipliers. -/
def Setup.LosesMultipliers (k : Setup F) (u : State F) (φ w : Vec F) : Prop :=
  (Barrier.lagrangianGradient k.problem k.par.normalEq true u.x u.h u.y u.mu u.grad.length).answer =
    .ok (w, φ, .error .numericalInstability)

omit [Scalar F] in
/-- The state of a run whose multipliers are lost. -/
def State.forsaken (u : State F) (φ w : Vec F) : State F := { u with y := w, grad := φ, stop := .globalizationFailure }

/-- After the visits `vs` new multipliers were due in the state `u`. -/
inductive Setup.Renews (k : Setup F) (vs : Visits F) (u : State F) : Prop
  | accepted (h : (.afterStepBeforeGradient, u) ∈ vs)
  | lowered {s : State F} (h : (.beginningOfOptimizationLoop, s) ∈ vs) (hdue : LowerDue k s) (hu : u = s.lowered k.par)

variable {k : Setup F} {W : Watch F} {E : Halt → State F → Prop} {s t u : State F} {φ φ' w w' : Vec F} {vs : Visits F}

theorem Setup.LosesMultipliers.unique (h : k.LosesMultipliers u φ w) (h' : k.LosesMultipliers u φ' w') :
    φ = φ' ∧ w = w' := by
  have heq := Except.ok.inj (h.symm.trans h')
  exact ⟨congrArg (·.2.1) heq, congrArg Prod.fst heq⟩

/-- What is lost does not depend on the multipliers that were held. -/
theorem Setup.LosesMultipliers.of_length (h : k.LosesMultipliers u φ w) {y : Vec F} (hy : y.length = u.y.length) :
    k.LosesMultipliers { u with y } φ w := by
  unfold Setup.LosesMultipliers Journaled.answer at h ⊢
  exact congrArg Prod.fst (Barrier.lagrangianGradient_forgets hy (Prod.ext h rfl))

theorem Setup.LosesMultipliers.breaks (h : k.LosesMultipliers u φ w) :
    Barrier.Breaks k.problem k.par.normalEq u.x φ w :=
  (Barrier.lagrangianGradient_breaks true).answer h rfl

/-! ### The end of a run -/

namespace Running

theorem updateGradient_loses (h : k.LosesMultipliers s φ w) :
    wp W (updateGradient k true) (fun o t => o = .error .numericalInstability ∧ t = { s with y := w, grad := φ }) E s := by
  unfold updateGradient
  refine wp_bind (wp_getState (wp_bind (wp_lift (fun q hq => ?_) fun q hq => ?_)))
  · obtain rfl : (w, φ, .error .numericalInstability) = q := Except.ok.inj (h.symm.trans hq)
    exact wp_bind (wp_update (wp_pure ⟨rfl, rfl⟩))
  · cases h.symm.trans hq

omit [Scalar F] in
theorem stepFailure_numerical {context : String} {Q : Unit → State F → Prop}
    (h : Q () { s with stop := .globalizationFailure }) :
    wp W (stepFailure k .numericalInstability context) Q E s := by
  unfold stepFailure
  exact wp_bind (wp_log (wp_setStop h))

/-- An assessment that reduces the barrier parameter and loses the multipliers stops the run. -/
theorem assess_loses (hdue : LowerDue k s) (h : k.LosesMultipliers (s.lowered k.par) φ w) :
    wp W (assess k) (fun _ t => t = (s.lowered k.par).forsaken φ w) E s := by
  have hmu : wp W (updateMu k) (fun _ t => t = (s.lowered k.par).forsaken φ w) E s := by
    unfold updateMu
    refine wp_bind (wp_getState ?_)
    rw [if_neg (not_or.mpr ⟨hdue.1, hdue.2.1⟩), if_pos hdue.2.2]
    refine wp_bind (wp_update (wp_bind (wp_log (wp_bind (wp_mono (updateGradient_loses h) ?_ fun _ _ h => h)))))
    rintro _ _ ⟨rfl, rfl⟩
    exact stepFailure_numerical rfl
  unfold assess
  refine wp_bind (wp_mono hmu ?_ fun _ _ h => h)
  rintro _ _ rfl
  refine wp_bind (wp_getState (wp_bind (wp_setStop (wp_bind (wp_stopped ?_)))))
  rw [Setup.criterion_of_stopped (by nofun), if_pos (by simp [State.forsaken])]
  exact wp_pure rfl

end Running

/-! ### Along a run -/

/-- No multipliers were lost. -/
def Setup.Intact (k : Setup F) (vs : Visits F) : Prop := ∀ u φ w, k.Renews vs u → ¬ k.LosesMultipliers u φ w

/-- Multipliers were lost last, if at all. -/
def Setup.Lost (k : Setup F) (t : State F) (vs : Visits F) : Prop :=
  ∀ u φ w, k.Renews vs u → k.LosesMultipliers u φ w → t = u.forsaken φ w

theorem Setup.Intact.lost (h : k.Intact vs) (t : State F) : k.Lost t vs :=
  fun u φ w hu hlost => absurd hlost (h u φ w hu)

/-- A run that goes on has lost no multipliers. -/
theorem Setup.Lost.ends (h : k.Lost t vs) : StepEnds (fun _ => k.Intact vs) (fun t => k.Lost t vs) t := by
  unfold StepEnds
  split
  case isFalse => exact h
  case isTrue hrunning =>
    intro u φ w hu hlost
    rw [h u φ w hu hlost] at hrunning
    cases hrunning

theorem Setup.Renews.of_push {loc : Location} (h : k.Renews (vs ++ [(loc, s)]) u) :
    k.Renews vs u ∨ loc = .afterStepBeforeGradient ∧ u = s ∨
      loc = .beginningOfOptimizationLoop ∧ LowerDue k s ∧ u = s.lowered k.par := by
  cases h with
  | accepted h =>
    rcases List.mem_append.mp h with h | h
    · exact .inl (.accepted h)
    · obtain ⟨rfl, rfl⟩ := Prod.mk.inj (List.mem_singleton.mp h)
      exact .inr (.inl ⟨rfl, rfl⟩)
  | lowered h hdue hu =>
    rcases List.mem_append.mp h with h | h
    · exact .inl (.lowered h hdue hu)
    · obtain ⟨rfl, rfl⟩ := Prod.mk.inj (List.mem_singleton.mp h)
      exact .inr (.inr ⟨rfl, hdue, hu⟩)

theorem Setup.Renews.of_accepted (h : k.Renews (vs ++ [(.afterStepBeforeGradient, s)]) u) : k.Renews vs u ∨ u = s := by
  rcases h.of_push with h | ⟨-, h⟩ | ⟨hloc, -⟩
  · exact .inl h
  · exact .inr h
  · cases hloc

theorem Setup.Renews.of_head (h : k.Renews (vs ++ [(.beginningOfOptimizationLoop, s)]) u) :
    k.Renews vs u ∨ LowerDue k s ∧ u = s.lowered k.par := by
  rcases h.of_push with h | ⟨hloc, -⟩ | ⟨-, h⟩
  · exact .inl h
  · cases hloc
  · exact .inr h

/-- Elsewhere no multipliers are due. -/
theorem Setup.Renews.of_quiet {loc : Location} (h : k.Renews (vs ++ [(loc, s)]) u)
    (haccepted : loc ≠ .afterStepBeforeGradient) (hhead : loc ≠ .beginningOfOptimizationLoop) : k.Renews vs u := by
  rcases h.of_push with h | ⟨hloc, -⟩ | ⟨hloc, -⟩
  · exact h
  · exact absurd hloc haccepted
  · exact absurd hloc hhead

theorem Setup.intact_nil (k : Setup F) : k.Intact [] := by
  rintro u φ w (h | h) <;> cases h

theorem Setup.Intact.push (h : k.Intact vs) (loc : Location) (s : State F)
    (haccepted : loc ≠ .afterStepBeforeGradient := by nofun) (hhead : loc ≠ .beginningOfOptimizationLoop := by nofun) :
    k.Intact (vs ++ [(loc, s)]) := fun u φ w hu => h u φ w (hu.of_quiet haccepted hhead)

theorem Setup.Lost.push (h : k.Lost t vs) (loc : Location) (s : State F)
    (haccepted : loc ≠ .afterStepBeforeGradient := by nofun) (hhead : loc ≠ .beginningOfOptimizationLoop := by nofun) :
    k.Lost t (vs ++ [(loc, s)]) := fun u φ w hu => h u φ w (hu.of_quiet haccepted hhead)

/-- The only multipliers due at a hook point are lost. -/
theorem Setup.Intact.lost_push (h : k.Intact vs) {loc : Location} (hlost : k.LosesMultipliers u φ w)
    (hdue : ∀ v, k.Renews (vs ++ [(loc, s)]) v → k.Renews vs v ∨ v = u) : k.Lost (u.forsaken φ w) (vs ++ [(loc, s)]) := by
  intro v φ' w' hv hlost'
  rcases hdue v hv with hv | rfl
  · exact absurd hlost' (h v φ' w' hv)
  · obtain ⟨rfl, rfl⟩ := hlost.unique hlost'
    rfl

theorem Setup.intact_enduring (k : Setup F) : Enduring fun _ p => k.Intact (Event.visits p) where
  noted _ _ _ h := by simpa using h
  faulted _ _ _ _ _ _ _ h := by simpa using h

theorem Setup.intact_stepCourse (hk : k.hooks.StepOnly) :
    StepCourse k (fun _ p => k.Intact (Event.visits p)) (fun t p => k.Lost t (Event.visits p))
      fun _ p => k.Intact (Event.visits p) where
  toEnduring := k.intact_enduring
  rejected loc s := by
    obtain ⟨dx, hdx⟩ := hk.writes loc s
    rw [hdx]
  tried _ _ _ _ h := by simpa using h
  visited loc s p hloc h := by
    rw [Event.visits_append, Event.visits_visit]
    exact h.push loc s (by rintro rfl; exact hloc) (by rintro rfl; exact hloc)
  worked _ _ _ _ _ h := h
  accepted v s p h := by
    unfold accept
    refine leads_bind (leads_update (leads_bind (leads_quiet hk fun q hq => leads_bind ?_)))
    by_cases hlost : ∃ φ w, k.LosesMultipliers (s.moveTo v) φ w
    · obtain ⟨φ, w, hlost⟩ := hlost
      refine leads_still (updateGradient_loses hlost (E := fun _ _ => False)) ?_ fun _ _ _ h => h.elim
      rintro _ _ r ⟨rfl, rfl⟩ hr
      refine leads_still (stepFailure_numerical (Q := fun _ t => t = (s.moveTo v).forsaken φ w)
        (E := fun _ _ => False) rfl) ?_ fun _ _ _ h => h.elim
      rintro _ _ r' rfl hr'
      rw [hr', hr, hq]
      exact h.lost_push hlost fun u hu => hu.of_accepted
    · have hintact : k.Intact (Event.visits q) := by
        rw [hq]
        intro u φ w hu hlost'
        rcases hu.of_accepted with hu | rfl
        · exact h u φ w hu hlost'
        · exact hlost ⟨φ, w, hlost'⟩
      refine leads_mono (k.intact_enduring.keeps_updateGradient k true (fun _ _ _ _ h => h) _ q hintact) ?_
        fun _ _ _ h => h
      intro o t r hr
      split
      case h_1 e =>
        refine leads_mono (k.intact_enduring.keeps_stepFailure k (.gradientUpdate e) t r hr) ?_ fun _ _ _ h => h
        exact fun _ t r hr => hr.lost t
      case h_2 => exact leads_quiet hk fun r' hr' => hr' ▸ (hr.push .afterGradient t).lost t
  done s p h := h.lost s
  halted _ _ h := h

theorem Setup.intact_loopCourse (hk : k.hooks.StepOnly) :
    LoopCourse k (fun _ => k.Intact) (fun _ => k.Intact) (fun _ => k.Intact) k.Lost k.Intact where
  hooks := hk
  assessed s vs p hs hp := by
    by_cases hlost : LowerDue k s ∧ ∃ φ w, k.LosesMultipliers (s.lowered k.par) φ w
    · obtain ⟨hlower, φ, w, hlost⟩ := hlost
      refine leads_still (assess_loses hlower hlost (E := fun _ _ => False)) ?_ fun _ _ _ h => h.elim
      rintro _ _ q rfl hq
      rw [hq, hp]
      exact (hs.lost_push hlost fun u hu => hu.of_head.imp id And.right).ends
    · have hintact : k.Intact (vs ++ [(.beginningOfOptimizationLoop, s)]) := by
        intro u φ w hu hlost'
        rcases hu.of_head with hu | ⟨hlower, rfl⟩
        · exact hs u φ w hu hlost'
        · exact hlost ⟨hlower, φ, w, hlost'⟩
      exact assess_leads (J := fun _ => k.Intact) (D := k.Lost) hp (fun t _ => (hintact.lost t).ends) hintact
  stepped s v vs p hs _ _ hp := by
    have hstart : k.Intact (Event.visits p) := by
      rw [hp]
      have h := (hs.push .beforeSaveOld s).push .beforeStep (s.remember v)
      rwa [List.append_assoc] at h
    exact leads_mono ((Setup.intact_stepCourse hk).takeStep_leads hstart) (fun _ _ _ ht => ht.ends) fun _ _ _ h => h.1
  paired s v vs hs _ _ := by
    have h := ((hs.push .beforeQuasi s).push .afterQuasi (s.paired v k.par.storedHistory)).push .endOfOptimizationIteration
      (s.paired v k.par.storedHistory).counted
    rwa [List.append_assoc, List.append_assoc] at h
  saveHalted s _ hs := hs.push _ s
  pairHalted s _ hs := hs.push _ s
  outOfFuel _ _ hs := hs

theorem Setup.intact_opening (k : Setup F) (h : OpeningVisits k s vs) : k.Intact vs := by
  cases h with
  | refused => exact k.intact_nil.push _ s
  | unsound => exact (k.intact_nil.push _ s).push .beforeInitialFuncAndGrad _

/-- A run whose multiplier solve fails at a new point, or after a reduction of the barrier parameter, for a value that is
not finite, ends there as a failure of the globalization. Its multipliers are not those it held but what the solve has left,
which they have no part in. -/
theorem Problem.solve_loses_multipliers {p : Problem F} {par : Parameters F} {hooks : Hooks F} (hk : hooks.StepOnly)
    (hu : (⟨par, p, hooks, s.x.length⟩ : Setup F).Renews (p.solve par hooks s).visits u)
    (hlost : (⟨par, p, hooks, s.x.length⟩ : Setup F).LosesMultipliers u φ w) :
    (p.solve par hooks s).result = .ok .globalizationFailure ∧ (p.solve par hooks s).state = u.forsaken φ w ∧
      Barrier.Breaks p par.normalEq u.x φ w ∧
      ∀ y : Vec F, y.length = u.y.length →
        (⟨par, p, hooks, s.x.length⟩ : Setup F).LosesMultipliers { u with y } φ w := by
  let k : Setup F := ⟨par, p, hooks, s.x.length⟩
  obtain ⟨hok, herror⟩ := Problem.solve_leaves hk (k := k) rfl (fun _ => Setup.intact_loopCourse hk) fun t y grad _ =>
    (((k.intact_nil.push _ s).push .beforeInitialFuncAndGrad _).push .afterInitialFuncAndGrad _).push .beforeOptimizationLoop _
  have hintact : ∀ {vs}, k.Intact vs → ¬ k.Renews vs u := fun h hu => h u φ w hu hlost
  have hends : ∀ stop, (p.solve par hooks s).result = .ok stop →
      stop = .globalizationFailure ∧ (p.solve par hooks s).state = u.forsaken φ w := by
    intro stop hstop
    obtain ⟨rfl, before, hbefore, hvisits⟩ := hok stop hstop
    rw [hvisits] at hu
    rcases hbefore with hbefore | ⟨-, -, hbefore⟩
    · have hstate := (hbefore.push .endOfOptimization _) u φ w hu hlost
      exact ⟨by rw [hstate]; rfl, hstate⟩
    · exact absurd hu (hintact ((k.intact_opening hbefore).push .endOfOptimization _))
  cases hresult : (p.solve par hooks s).result with
  | ok stop =>
    obtain ⟨rfl, hstate⟩ := hends stop hresult
    exact ⟨rfl, hstate, hlost.breaks, fun y hy => hlost.of_length hy⟩
  | error e => exact absurd hu ((herror e hresult).elim hintact fun h => hintact (k.intact_opening h))

/-! ### A slope that overflows -/

/-- The least `-2 v` with `u = 0`. A term that vanishes there makes the slope across the line overflow at `v = 2`. -/
def Problem.overflowingSlope : Problem Float where
  objective := .polynomial [⟨-2, [0, 1]⟩, ⟨1, [1]⟩, ⟨1e308, [1, 1]⟩]
  equality := some (.polynomial [[⟨1, [1]⟩]] 2)
  inequality := none
  preconditioner := none

/-- The solve for the multipliers fails at `u`, where all of them are negative. -/
def Setup.losesNegative (k : Setup Float) (u : State Float) : Bool :=
  match (Barrier.lagrangianGradient k.problem k.par.normalEq true u.x u.h u.y u.mu u.grad.length).answer with
  | .ok (_, _, .error .numericalInstability) => u.y.all (· < 0)
  | _ => false

/-- The first step comes to where the slope overflows, with a negative multiplier. -/
theorem Problem.overflowingSlope_loses :
    let k : Setup Float := ⟨.default, overflowingSlope, .passive, 2⟩
    ∃ u φ w, k.Renews (overflowingSlope.solve .default .passive (.new [0, 0])).visits u ∧ k.LosesMultipliers u φ w ∧
      u.y.all (· < 0) := by
  intro k
  have hfound : ((overflowingSlope.solve .default .passive (.new [0, 0])).visits.find? fun v =>
      v.1 == .afterStepBeforeGradient && k.losesNegative v.2).isSome := by decide +kernel
  obtain ⟨⟨loc, u⟩, hfound⟩ := Option.isSome_iff_exists.mp hfound
  have hu := List.mem_of_find?_eq_some hfound
  have hsat := List.find?_some hfound
  obtain ⟨hloc, hloses⟩ := Bool.and_eq_true_iff.mp hsat
  obtain rfl : loc = .afterStepBeforeGradient := beq_iff_eq.mp hloc
  unfold Setup.losesNegative at hloses
  split at hloses
  case h_1 w φ hanswer => exact ⟨u, φ, w, .accepted hu, hanswer, hloses⟩
  case h_2 => cases hloses

theorem Problem.solve_loses_multipliers_overflowingSlope :
    let k : Setup Float := ⟨.default, overflowingSlope, .passive, 2⟩
    let r := overflowingSlope.solve .default .passive (.new [0, 0])
    Hooks.passive.StepOnly (F := Float) ∧ ∃ u φ w, k.Renews r.visits u ∧ k.LosesMultipliers u φ w ∧
      r.result = .ok .globalizationFailure ∧ r.state = u.forsaken φ w ∧
      Barrier.Breaks overflowingSlope k.par.normalEq u.x φ w := by
  intro k r
  have hk : Hooks.passive.StepOnly (F := Float) := Hooks.Observing.stepOnly fun _ _ => rfl
  obtain ⟨u, φ, w, hu, hlost, -⟩ := overflowingSlope_loses
  obtain ⟨hresult, hstate, hbreaks, -⟩ := overflowingSlope.solve_loses_multipliers (s := .new [0, 0]) hk hu hlost
  exact ⟨hk, u, φ, w, hu, hlost, hresult, hstate, hbreaks⟩

/-- A failed solve does not leave the multipliers as they were. -/
theorem Problem.solve_forgets_multipliers :
    ¬ ∀ (p : Problem Float) (par : Parameters Float) (hooks : Hooks Float) (s u : State Float) (φ w : Vec Float),
      p.equality.isSome → hooks.Observing →
      (⟨par, p, hooks, s.x.length⟩ : Setup Float).Renews (p.solve par hooks s).visits u →
      (⟨par, p, hooks, s.x.length⟩ : Setup Float).LosesMultipliers u φ w →
      (p.solve par hooks s).result = .ok .globalizationFailure ∧ (p.solve par hooks s).state.y = u.y := by
  intro h
  obtain ⟨u, φ, w, hu, hlost, hnegative⟩ := overflowingSlope_loses
  have hkept := (h overflowingSlope .default .passive (.new [0, 0]) u φ w rfl (fun _ _ => rfl) hu hlost).2
  have hzero : (overflowingSlope.solve .default .passive (.new [0, 0])).state.y.all (· < 0) = false := by decide +kernel
  rw [hkept, hnegative] at hzero
  cases hzero

end ConstrainedOpt
