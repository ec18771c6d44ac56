import ConstrainedOpt.Proofs.Assertion.Completion
import ConstrainedOpt.Proofs.Run.Effects

/-! # Steps that complete

On functions that fill their sizes a step of any driver completes from a state whose vectors have theirs, whatever the
values are. It leaves such a state again, so that the next one can begin there.
-/
namespace ConstrainedOpt
open Journaled Checked
variable {F : Type} [Scalar F]

omit [Scalar F] in
/-- All vectors of the state have their sizes. -/
structure Setup.Fit (k : Setup F) (s : State F) : Prop extends k.Sized s where
  dx : s.dx.length = k.n
  direction : s.direction.length = k.n
  xOld : s.xOld.length = k.n
  gradOld : s.gradOld.length = k.n
  gradChange : s.gradChange.length = k.n

omit [Scalar F] in
/-- The vectors of a trial point have their sizes. -/
structure Setup.Fitting (k : Setup F) (t : Trial F) : Prop where
  x : t.x.length = k.n
  g : t.g.length = k.equalities
  h : t.h.length = k.inequalities

variable {k : Setup F} {s : State F}

namespace Running
variable (hp : k.problem.Fills k.n)
include hp

/-! ### Moving to a point -/

theorem tryStep_completes (hs : k.Fit s) {dx : Vec F} (hdx : dx.length = k.n) (α : F) :
    completes k (tryStep k dx α) (fun t u => u = s ∧ k.Fitting t) s := by
  unfold tryStep
  refine completes_bind (completes_getState (completes_bind (completes_checked (hp.trial hs.x hdx α) ?_)))
  rintro t ⟨hx, hg, hh⟩
  exact completes_bind (completes_event (e := .trial s t) trivial (completes_pure ⟨rfl, hx, hg, hh⟩))

theorem updateGradient_completes (updateY : Bool) (hs : k.Fit s) :
    completes k (updateGradient k updateY) (fun o t => OnlyUnstable o ∧ k.Fit t) s := by
  unfold updateGradient
  refine completes_bind (completes_getState (completes_bind ?_))
  rw [hs.grad]
  refine completes_lift (Barrier.lagrangianGradient_sized hp k.par.normalEq updateY hs.x hs.h hs.y s.mu)
    (fun _ => Barrier.lagrangianGradient_quiet hp k.par.normalEq updateY hs.x hs.h hs.y s.mu) ?_
  rintro ⟨y, grad, outcome⟩ ⟨hy, hgrad, houtcome⟩
  have ht : k.Fit { s with y, grad } := { hs with y := hy, grad := hgrad }
  refine completes_bind (completes_update ?_)
  cases outcome with
  | error e =>
    refine completes_pure ⟨?_, ht⟩
    rintro _ ⟨⟩
    exact houtcome e rfl
  | ok =>
    refine completes_bind (completes_update (completes_pure ⟨?_, { ht with }⟩))
    split
    · exact nofun
    · rintro _ ⟨⟩
      rfl

theorem accept_completes (hk : k.hooks.Observing) (hs : k.Fit s) {t : Trial F} (ht : k.Fitting t) :
    completes k (accept k t) (fun _ => k.Fit) s := by
  have hmoved : k.Fit (s.moveTo t) := { hs with x := ht.x, g := ht.g, h := ht.h }
  unfold accept
  refine completes_bind (completes_update (completes_bind (completes_visit hk ?_)))
  refine completes_bind (completes_mono (updateGradient_completes hp true hmoved) ?_)
  rintro (e | ⟨⟨⟩⟩) u ⟨ho, hu⟩
  · exact completes_stepFailure (ho e rfl) { hu with }
  · exact completes_visit hk hu

end Running

/-! ### Trust-region steps -/

namespace TrustRegion
open Running
variable (hp : k.problem.Fills k.n)
include hp

theorem quasinormalStep_completes (hs : k.Fit s) :
    completes k (quasinormalStep k) (fun o t => OnlyUnstable o ∧ k.Fit t) s := by
  unfold quasinormalStep
  refine completes_bind (completes_getState ?_)
  split
  · refine completes_bind (completes_update (completes_pure ⟨nofun, ?_⟩))
    have hn : (Vec.zerosLike s.dxNormal).length = k.n := (Vec.length_zerosLike _).trans hs.dxNormal
    have hc : (Vec.zerosLike s.dxCauchy).length = k.n := (Vec.length_zerosLike _).trans hs.dxCauchy
    exact { hs with dxNormal := hn, dxCauchy := hc }
  case h_2 c hc =>
    have hsg := hs.safeguard_settles hp (k.par.quasinormal.zeta * k.par.gamma)
    refine completes_bind (completes_lift hsg.yields (fun _ => hsg.quiet) ?_)
    rintro _ ⟨sg, rfl, hfills, hsilent⟩
    refine completes_bind (completes_lift (hs.quasinormal_sized hp hc hfills)
      (fun _ => hs.quasinormal_quiet hp hc hsilent) fun r hr => ?_)
    refine completes_bind (completes_update (completes_pure ⟨hr.outcome.map _, ?_⟩))
    exact { hs with dxNormal := hr.step, dxCauchy := hr.cauchy }

theorem tangentialStep_completes (hs : k.Fit s) :
    completes k (tangentialStep k) (fun o t => OnlyUnstable o ∧ k.Fit t) s := by
  unfold tangentialStep
  refine completes_bind (completes_getState (completes_bind ?_))
  refine completes_lift (hs.tangentialSolve_sized hp) (hs.tangentialSolve_quiet hp) ?_
  rintro _ ⟨r, rfl, hstep⟩
  exact completes_bind (completes_update (completes_pure ⟨nofun, { hs with dxTangential := hstep }⟩))

theorem predictedReduction_completes (hs : k.Fit s) :
    completes k (predictedReduction k) (fun _ => k.Fit) s := by
  unfold predictedReduction
  refine completes_bind (completes_getState (completes_bind ?_))
  refine completes_lift (hs.modelAndViolation_answers hp hs.dx)
    (fun _ => Setup.Sized.modelAndViolation_quiet k s) ?_
  rintro ⟨model, v⟩ -
  dsimp only
  split
  · refine completes_bind (completes_update (completes_bind (completes_log (by decide) (completes_bind ?_))))
    exact completes_getState (completes_pure { hs with })
  · exact completes_bind (completes_getState (completes_pure hs))

theorem compositeStep_completes (hs : k.Fit s) : completes k (compositeStep k) (fun _ => k.Fit) s := by
  unfold compositeStep
  refine completes_bind (completes_mono (quasinormalStep_completes hp hs) ?_)
  rintro (e | stop) t ⟨ho, ht⟩
  · exact completes_bind (completes_stepFailure (ho e rfl) (completes_pure { ht with }))
  refine completes_bind (completes_update (completes_bind (completes_mono
    (tangentialStep_completes hp (s := { t with quasinormalStop := stop }) { ht with }) ?_)))
  rintro (e | stop) u ⟨ho, hu⟩
  · exact completes_bind (completes_stepFailure (ho e rfl) (completes_pure { hu with }))
  dsimp only
  split
  · refine completes_bind (completes_getState (completes_bind (completes_log (by decide) (completes_bind ?_))))
    exact completes_setStop (completes_pure { hu with })
  · refine completes_bind (completes_getState (completes_bind ?_))
    refine completes_checked (answers_add 1 hu.dxTangential hu.dxNormal) fun dx hdx => ?_
    exact completes_bind (completes_update (completes_pure { hu with dx := hdx }))

omit hp in
theorem reject_completes (hk : k.hooks.Observing) (hs : k.Fit s) (ratio : F) :
    completes k (reject k ratio) (fun _ => k.Fit) s := by
  unfold reject
  refine completes_bind (completes_update (completes_bind (completes_getState (completes_bind ?_))))
  refine completes_log (by decide) ?_
  generalize hu : ({ s with
    delta := if 0 < s.normDx then Scalar.half * s.normDx else Scalar.half * s.delta
    rejected := s.rejected + 1
    rejectedTotal := s.rejectedTotal + 1 } : State F) = u
  have hu : k.Fit u := hu ▸ { hs with }
  have hrest : completes k (do
      visit k .afterRejectedTrustRegion
      let s ← getState
      if k.par.rejectedMax ≤ s.rejected then
        log .warn [s.iter, ": ", s.rejected, " steps rejected in a row"]
        setStop .globalizationFailure
        return Attempt.finished
      return if s.stop = .notConverged then .rejected else .finished) (fun _ => k.Fit) u := by
    refine completes_bind (completes_visit hk (completes_bind (completes_getState ?_)))
    split
    · exact completes_bind (completes_log (by decide) (completes_bind (completes_setStop (completes_pure { hu with }))))
    · exact completes_pure hu
  split
  · exact completes_bind (completes_event (e := .note (.line _)) (.inl trivial) hrest)
  · exact hrest

theorem judge_completes (hk : k.hooks.Observing) (hs : k.Fit s) (stop : TruncatedStop) :
    completes k (judge k stop) (fun _ => k.Fit) s := by
  unfold judge
  refine completes_bind (completes_mono (predictedReduction_completes hp hs) fun pred t ht => ?_)
  refine completes_bind (completes_getState (completes_bind (completes_mono (tryStep_completes hp ht ht.dx 1) ?_)))
  rintro r t ⟨rfl, hr⟩
  have hhere := Barrier.merit_answers (f := t.f) (h := t.h) (ht.y.trans ht.g.symm) t.mu t.rho
  have hthere := Barrier.merit_answers (f := r.f) (h := r.h) (ht.y.trans hr.g.symm) t.mu t.rho
  refine completes_bind (completes_checked hhere fun here _ => completes_bind (completes_checked hthere fun there _ => ?_))
  have haccept : ∀ u, k.Fit u → completes k (do accept k r; return Attempt.finished) (fun _ => k.Fit) u := fun u hu =>
    completes_bind (completes_mono (accept_completes hp hk hu hr) fun _ v hv => completes_pure hv)
  refine completes_bind (completes_update_of (P := k.Fit) { ht with } fun u hu => ?_)
  dsimp only
  split
  · split
    · exact completes_bind (completes_update_of (P := k.Fit) { hu with } haccept)
    · exact haccept u hu
  · exact reject_completes hk hu _

theorem attempt_completes (hk : k.hooks.Observing) (hs : k.Fit s) : completes k (attempt k) (fun _ => k.Fit) s := by
  unfold attempt
  refine completes_bind (completes_visit hk (completes_bind (completes_mono (compositeStep_completes hp hs) ?_)))
  rintro (_ | stop) t ht
  · exact completes_pure ht
  refine completes_bind (completes_visit hk (completes_bind (completes_update_of (P := k.Fit) { ht with } fun u hu => ?_)))
  refine completes_bind (completes_getState ?_)
  split
  · exact completes_bind (completes_log (by decide) (completes_bind (completes_setStop (completes_pure { hu with }))))
  · exact completes_bind (completes_visit hk (judge_completes hp hk hu stop))

theorem attempts_completes (hk : k.hooks.Observing) (fuel : Nat) (hs : k.Fit s) :
    completes k (attempts k fuel) (fun _ => k.Fit) s := by
  induction fuel generalizing s with
  | zero => exact completes_outOfFuel
  | succ fuel ih =>
    refine completes_bind (completes_mono (attempt_completes hp hk hs) ?_)
    rintro (_ | _) t ht
    · exact completes_pure ht
    · exact ih ht

end TrustRegion

/-! ### Line-search steps -/

namespace LineSearch
open Running

theorem length_lastDirection (k : Setup F) (s : State F) : (lastDirection k s).length = k.n := by
  unfold lastDirection
  rw [List.length_append, List.length_take, Vec.length_zeros]
  omega

theorem conjugateWeight_answers (hs : k.Fit s) {last : Vec F} (hlast : last.length = k.n) :
    (conjugateWeight k s last).Answers fun _ => True := by
  unfold conjugateWeight
  split
  · exact ⟨_, rfl, trivial⟩
  refine answers_bind (answers_add (-1) hs.gradChange hs.grad) fun before _ => ?_
  refine answers_bind (P := fun _ => True) ?_ fun β _ => ⟨_, rfl, trivial⟩
  split
  · exact ⟨_, rfl, trivial⟩
  · exact answers_bind (answers_inner hs.grad hs.gradChange) fun _ _ => ⟨_, rfl, trivial⟩
  · refine answers_bind (answers_inner hs.grad hs.gradChange) fun up _ => ?_
    exact answers_bind (answers_inner hlast hs.gradChange) fun _ _ => ⟨_, rfl, trivial⟩

theorem twoPointLength_answers (hs : k.Fit s) : (twoPointLength? k s).Answers fun _ => True := by
  unfold twoPointLength?
  split
  · exact ⟨_, rfl, trivial⟩
  dsimp only
  split
  · exact answers_bind (answers_inner hs.dx hs.gradChange) fun _ _ => ⟨_, rfl, trivial⟩
  · exact answers_bind (answers_inner hs.dx hs.gradChange) fun _ _ => ⟨_, rfl, trivial⟩
  · exact ⟨_, rfl, trivial⟩

/-- The slope is computed, and the direction keeps its size. -/
theorem descend_completes (hs : k.Fit s) : completes k descend (fun _ => k.Fit) s := by
  unfold descend
  refine completes_bind (completes_getState (completes_bind ?_))
  refine completes_checked (answers_inner hs.grad hs.direction) fun slope _ => ?_
  split
  · exact completes_pure hs
  · refine completes_bind (completes_log (by decide) (completes_bind (completes_update (completes_pure ?_))))
    exact { hs with direction := (Vec.length_scale _ _).trans hs.grad }

variable (hp : k.problem.Fills k.n)
include hp

theorem newtonDirection_completes (hs : k.Fit s) {last : Vec F} (hlast : last.length = k.n) :
    completes k (newtonDirection k last) (fun o t => (∃ d, o = .ok d ∧ d.length = k.n) ∧ k.Fit t) s := by
  unfold newtonDirection
  refine completes_bind (completes_getState (completes_bind ?_))
  refine completes_lift (hs.newtonSolve_sized hp hlast) (fun hk => hs.newtonSolve_quiet hp hk hlast) ?_
  rintro _ ⟨r, rfl, hstep⟩
  refine completes_bind (completes_update ?_)
  dsimp only
  split
  · refine completes_bind (completes_getState (completes_bind (completes_log (by decide) (completes_bind ?_))))
    exact completes_setStop (completes_pure ⟨⟨_, rfl, hstep⟩, { hs with }⟩)
  · exact completes_pure ⟨⟨_, rfl, hstep⟩, { hs with }⟩

theorem direction_completes (hs : k.Fit s) {last : Vec F} (hlast : last.length = k.n) :
    completes k (direction k last) (fun o t => (∃ d, o = .ok d ∧ d.length = k.n) ∧ k.Fit t) s := by
  have hconjugate : completes k (do
      let β ← conjugateWeight k s last
      return .ok (← Checked.add (-1) s.grad (Vec.scale β last)) : Running F (Except StepError (Vec F)))
      (fun o t => (∃ d, o = .ok d ∧ d.length = k.n) ∧ k.Fit t) s := by
    refine completes_bind (completes_checked (conjugateWeight_answers hs hlast) fun β _ => completes_bind ?_)
    refine completes_checked (answers_add (-1) hs.grad ((Vec.length_scale β last).trans hlast)) fun d hd => ?_
    exact completes_pure ⟨⟨d, rfl, hd⟩, hs⟩
  unfold direction
  refine completes_bind (completes_getState ?_)
  split
  · refine completes_bind (completes_checked (answers_copy hs.grad hlast) ?_)
    rintro _ rfl
    exact completes_pure ⟨⟨_, rfl, (Vec.length_scale _ _).trans hs.grad⟩, hs⟩
  · exact hconjugate
  · exact hconjugate
  · exact hconjugate
  · refine completes_bind (completes_lift ((QuasiNewton.operator_fills _ _ hs.history).apply _ _ _ _ hs.grad hlast)
      (fun _ => (QuasiNewton.operator_silent _ _ _ _).apply _ _ _ _) fun d hd => ?_)
    exact completes_pure ⟨⟨d, rfl, hd⟩, hs⟩
  · exact newtonDirection_completes hp hs hlast

theorem updateDirection_completes (hs : k.Fit s) :
    completes k (updateDirection k) (fun o t => o = .ok () ∧ k.Fit t) s := by
  unfold updateDirection
  refine completes_bind (completes_getState (completes_bind ?_))
  refine completes_mono (direction_completes hp hs (length_lastDirection k s)) ?_
  rintro _ t ⟨⟨d, rfl, hd⟩, ht⟩
  exact completes_bind (completes_update (completes_pure ⟨rfl, { ht with direction := hd }⟩))

theorem safeLength_completes (hs : k.Fit s) (α : F) : completes k (safeLength k α) (fun _ => k.Fit) s := by
  unfold safeLength
  split
  · exact completes_pure hs
  have hsg := hs.safeguard_settles hp k.par.gamma
  refine completes_bind (completes_getState (completes_bind (completes_lift hsg.yields (fun _ => hsg.quiet) ?_)))
  rintro _ ⟨sg, rfl, hfills, hsilent⟩
  have hd : (Vec.scale α s.direction).length = k.n := (Vec.length_scale _ _).trans hs.direction
  refine completes_bind (completes_lift (hfills 0 _ _ (Vec.length_zeros _) hd) (fun _ => hsilent 0 _ _) fun θ _ => ?_)
  exact completes_pure hs

/-- The trial point of a probe has its sizes. -/
theorem probe_completes (hs : k.Fit s) (α : F) :
    completes k (probe k α) (fun p t => k.Fitting p.trial ∧ t = s) s := by
  unfold probe
  refine completes_bind (completes_getState (completes_bind (completes_mono (tryStep_completes hp hs hs.direction α) ?_)))
  rintro t _ ⟨rfl, ht⟩
  exact completes_pure ⟨ht, rfl⟩

omit [Scalar F] hp in
/-- The trial points of a bracket have their sizes. -/
structure Bracket.Fitting (k : Setup F) (br : Bracket F) : Prop where
  left : k.Fitting br.left.trial
  right : k.Fitting br.right.trial

theorem Bracket.narrowTimes_completes (hs : k.Fit s) (m : Nat) {br : Bracket F} (hbr : br.Fitting k) :
    completes k (br.narrowTimes k m) (fun br t => br.Fitting k ∧ t = s) s := by
  induction m generalizing br with
  | zero => exact completes_pure ⟨hbr, rfl⟩
  | succ m ih =>
    refine completes_bind ?_
    unfold Bracket.narrow
    split
    · refine completes_bind (completes_mono (probe_completes hp hs _) ?_)
      rintro left _ ⟨hleft, rfl⟩
      exact completes_pure (ih ⟨hleft, hbr.left⟩)
    · refine completes_bind (completes_mono (probe_completes hp hs _) ?_)
      rintro right _ ⟨hright, rfl⟩
      exact completes_pure (ih ⟨hbr.right, hright⟩)

theorem goldenSection_completes (hs : k.Fit s) (iterMax : Nat) (αMax : F) :
    completes k (goldenSection k iterMax αMax) (fun r t => k.Fitting r.1.trial ∧ t = s) s := by
  unfold goldenSection
  refine completes_bind (completes_mono (probe_completes hp hs _) ?_)
  rintro left _ ⟨hleft, rfl⟩
  split
  · exact completes_pure ⟨hleft, rfl⟩
  refine completes_bind (completes_mono (probe_completes hp hs _) ?_)
  rintro right _ ⟨hright, rfl⟩
  refine completes_bind (completes_mono (Bracket.narrowTimes_completes hp hs _ ⟨hleft, hright⟩) ?_)
  rintro br _ ⟨hbr, rfl⟩
  refine completes_pure ⟨?_, rfl⟩
  dsimp only
  split
  · exact hbr.left
  · exact hbr.right

theorem backTrack_completes (hs : k.Fit s) (limit slope : F) (budget evals : Nat) (α : F) :
    completes k (backTrack k limit slope budget evals α) (fun r t => k.Fitting r.1.trial ∧ t = s) s := by
  induction budget generalizing evals α with
  | zero =>
    refine completes_bind (completes_mono (probe_completes hp hs _) ?_)
    rintro t _ ⟨ht, rfl⟩
    exact completes_pure ⟨ht, rfl⟩
  | succ budget ih =>
    refine completes_bind (completes_mono (probe_completes hp hs _) ?_)
    rintro t _ ⟨ht, rfl⟩
    split
    · exact completes_pure ⟨ht, rfl⟩
    · exact ih _ _

theorem search_completes (hs : k.Fit s) (αMax limit slope : F) :
    completes k (search k αMax limit slope) (fun r t => k.Fitting r.1.trial ∧ t = s) s := by
  have hone : completes k (do return (← probe k αMax, 1)) (fun r t => k.Fitting r.1.trial ∧ t = s) s := by
    refine completes_bind (completes_mono (probe_completes hp hs _) ?_)
    rintro t _ ⟨ht, rfl⟩
    exact completes_pure ⟨ht, rfl⟩
  unfold search
  split
  · exact goldenSection_completes hp hs _ _
  · exact backTrack_completes hp hs _ _ _ _ _
  · exact hone
  · exact hone

theorem acceptProbe_completes (hk : k.hooks.Observing) (hs : k.Fit s) (r : Reference F) {t : Probe F}
    (ht : k.Fitting t.trial) : completes k (acceptProbe k r t) (fun _ => k.Fit) s := by
  have hdx : (Vec.scale t.alpha s.direction).length = k.n := (Vec.length_scale _ _).trans hs.direction
  unfold acceptProbe
  refine completes_bind (completes_update_of (P := k.Fit) { hs with dx := hdx } fun u hu => ?_)
  exact accept_completes hp hk hu ht

omit hp in
theorem reject_completes (hk : k.hooks.Observing) (hs : k.Fit s) (r : Reference F) (αMax : F) (t : Probe F) :
    completes k (reject k r αMax t) (fun _ => k.Fit) s := by
  unfold reject
  refine completes_bind (completes_update (completes_bind (completes_getState (completes_bind ?_))))
  refine completes_log (by decide) (completes_bind (completes_visit hk (completes_bind (completes_getState ?_))))
  split
  · exact completes_bind (completes_log (by decide) (completes_bind (completes_setStop (completes_pure { hs with }))))
  · exact completes_pure { hs with }

theorem attempt_completes (hk : k.hooks.Observing) (hs : k.Fit s) (r : Reference F) :
    completes k (attempt k r) (fun _ => k.Fit) s := by
  unfold attempt
  refine completes_bind (completes_getState (completes_bind (completes_mono (safeLength_completes hp hs _) ?_)))
  intro αMax t ht
  split
  · refine completes_bind (completes_getState (completes_bind (completes_log (by decide) (completes_bind ?_))))
    exact completes_setStop (completes_pure { ht with })
  refine completes_bind (completes_mono (search_completes hp ht _ _ _) ?_)
  rintro ⟨p, evals⟩ _ ⟨hprobe, rfl⟩
  refine completes_bind (completes_update_of (P := k.Fit) { ht with } fun u hu => ?_)
  dsimp only
  split
  · exact completes_bind (completes_mono (acceptProbe_completes hp hk hu r hprobe) fun _ v hv => completes_pure hv)
  · exact reject_completes hk hu r _ _

theorem attempts_completes (hk : k.hooks.Observing) (r : Reference F) (fuel : Nat) (hs : k.Fit s) :
    completes k (attempts k r fuel) (fun _ => k.Fit) s := by
  induction fuel generalizing s with
  | zero => exact completes_outOfFuel
  | succ fuel ih =>
    refine completes_bind (completes_mono (attempt_completes hp hk hs r) fun more t ht => ?_)
    split
    · exact ih ht
    · exact completes_pure ht

theorem step_completes (hk : k.hooks.Observing) (hs : k.Fit s) : completes k (step k) (fun _ => k.Fit) s := by
  have hsearch : ∀ (slope : F) (t : State F), k.Fit t → completes k (do
      visit k .beforeLineSearch
      attempts k (reference (← getState) slope) (k.par.rejectedMax + patience)) (fun _ => k.Fit) t := fun slope t ht =>
    completes_bind (completes_visit hk (completes_bind (completes_getState (attempts_completes hp hk _ _ ht))))
  unfold step
  refine completes_bind (completes_visit hk (completes_bind (completes_mono (updateDirection_completes hp hs) ?_)))
  rintro _ t ⟨rfl, ht⟩
  refine completes_bind (completes_stopped ?_)
  split
  · exact completes_pure ht
  refine completes_bind (completes_visit hk (completes_bind (completes_mono (descend_completes ht) fun slope u hu => ?_)))
  refine completes_bind (completes_getState (completes_bind (completes_checked (twoPointLength_answers hu) fun α _ => ?_)))
  split
  · exact completes_bind (completes_update_of (P := k.Fit) { hu with } (hsearch slope))
  · exact hsearch slope u hu

end LineSearch

/-! ### Steps of any driver -/

open Running
variable (hp : k.problem.Fills k.n)
include hp

theorem UserStep.step_completes (hk : k.hooks.Observing) (hs : k.Fit s) :
    completes k (UserStep.step k) (fun _ => k.Fit) s := by
  have hdx : (Vec.zerosLike s.dx).length = k.n := (Vec.length_zerosLike _).trans hs.dx
  unfold UserStep.step
  refine completes_bind (completes_visit hk (completes_bind (completes_update (completes_bind (completes_visit hk ?_)))))
  refine completes_bind (completes_getState ?_)
  rw [if_neg (not_not_intro hdx)]
  refine completes_bind (completes_update (completes_bind ?_))
  have ht : k.Fit { s with dx := Vec.zerosLike s.dx, normDx := Vec.norm (Vec.zerosLike s.dx) } := { hs with dx := hdx }
  refine completes_mono (tryStep_completes hp ht hdx 1) ?_
  rintro r _ ⟨rfl, hr⟩
  split
  · exact completes_bind (completes_log (by decide) (completes_setStop { ht with }))
  · exact accept_completes hp hk ht hr

theorem takeStep_completes (hk : k.hooks.Observing) (hs : k.Fit s) : completes k (takeStep k) (fun _ => k.Fit) s := by
  unfold takeStep
  split
  · exact TrustRegion.attempts_completes hp hk _ hs
  · exact LineSearch.step_completes hp hk hs
  · exact UserStep.step_completes hp hk hs

end ConstrainedOpt
