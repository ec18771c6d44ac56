import ConstrainedOpt.Run.TrustRegion
import ConstrainedOpt.Run.LineSearch
import ConstrainedOpt.Run.UserStep
import ConstrainedOpt.Proofs.Assertion.Running

/-! # What a step leaves alone

A step driver works on its own fields of the state; the iterate, the function values, the multipliers and
the gradients stay as they are until a trial point is accepted. `State.kept` is that part of the state, and
`step_wp` in each driver's namespace reduces a statement about a step to one about accepting a trial point.
-/
namespace ConstrainedOpt
variable {F : Type}

/-- The part of a state a step keeps until it accepts a trial point. -/
structure Kept (F : Type) where
  x : Vec F
  f : F
  g : Vec F
  h : Vec F
  y : Vec F
  mu : F
  grad : Vec F
  normGrad : F
  normG : F
  xOld : Vec F
  gradOld : Vec F
  gradChange : Vec F
  history : History F
  iter : Nat
  normGradTyp : F
  normGTyp : F
  normDxTyp : F

def State.kept (s : State F) : Kept F where
  x := s.x
  f := s.f
  g := s.g
  h := s.h
  y := s.y
  mu := s.mu
  grad := s.grad
  normGrad := s.normGrad
  normG := s.normG
  xOld := s.xOld
  gradOld := s.gradOld
  gradChange := s.gradChange
  history := s.history
  iter := s.iter
  normGradTyp := s.normGradTyp
  normGTyp := s.normGTyp
  normDxTyp := s.normDxTyp

variable [Scalar F]

/-- What a quasinormal step from `s` may be. -/
def Setup.NormalStep (k : Setup F) (s : State F) (step : Vec F) (stop : QuasinormalStop) : Prop :=
  match k.problem.equality with
  | none => step = Vec.zerosLike s.dxNormal ∧ stop = .skipped
  | some c => ∃ safeguard r report,
      (k.safeguard s (k.par.quasinormal.zeta * k.par.gamma)).answer = .ok (.ok safeguard) ∧
      (Quasinormal.solve k.par.quasinormal (c.jacobian s.x) s.g s.delta safeguard s.dxNormal
        s.dxCauchy (Quasinormal.workLength k.equalities k.n)).answer = .ok r ∧
      r.outcome = .ok report ∧ r.step = step ∧ report.stop = stop

/-- The merit a probe of a line search assigns to a trial point. -/
def Trial.probeMerit (t : Trial F) (mu : F) : F :=
  if Scalar.isNaN (t.barrier mu) then Scalar.infinity else t.barrier mu

/-- A trial point passes when a driver finds its merit finite. -/
inductive Trial.Passes (t : Trial F) (s : State F) : Prop
  | barrier (h : Scalar.isFinite (t.barrier s.mu) = true)
  | merit {m : F} (h : Barrier.merit t.f t.g t.h s.y s.mu s.rho = .ok m) (hm : Scalar.isFinite m = true)
  | probe (h : Scalar.isFinite (t.probeMerit s.mu) = true)

omit [Scalar F] in
/-- The manipulator only looks. -/
def Hooks.Observing (hooks : Hooks F) : Prop := ∀ loc s, hooks.manipulate loc s = s

omit [Scalar F] in
/-- The manipulator writes nothing except a step, when it is asked for one. -/
structure Hooks.StepOnly (hooks : Hooks F) : Prop where
  atGetStep : ∀ s, ∃ dx, hooks.manipulate .getStep s = { s with dx }
  elsewhere : ∀ loc s, loc ≠ .getStep → hooks.manipulate loc s = s

omit [Scalar F] in
theorem Hooks.Observing.stepOnly {hooks : Hooks F} (h : hooks.Observing) : hooks.StepOnly where
  atGetStep s := ⟨s.dx, h _ _⟩
  elsewhere loc s _ := h loc s

omit [Scalar F] in
theorem Hooks.StepOnly.writes {hooks : Hooks F} (h : hooks.StepOnly) (loc : Location) (s : State F) :
    ∃ dx, hooks.manipulate loc s = { s with dx } := by
  by_cases hloc : loc = .getStep
  · exact hloc ▸ h.atGetStep s
  · exact ⟨s.dx, h.elsewhere loc s hloc⟩

omit [Scalar F] in
/-- A visit where the manipulator writes nothing. -/
theorem Running.wp_quiet {k : Setup F} {W : Watch F} {Q : Unit → State F → Prop} {E : Halt → State F → Prop}
    {s : State F} (hk : k.hooks.StepOnly) {loc : Location} (hloc : loc ≠ .getStep) (hW : W.visit loc s)
    (h : Q () s) : Running.wp W (Running.visit k loc) Q E s :=
  Running.wp_visit hW ((hk.elsewhere loc s hloc).symm ▸ h)

omit [Scalar F] in
/-- The states of a step that goes on: the kept part is `c`, and no stop is met. -/
structure Active (c : Kept F) (s : State F) : Prop where
  kept : s.kept = c
  running : s.stop = .notConverged

omit [Scalar F] in
/-- The states a step that finds no point ends in. -/
structure Stuck (c : Kept F) (s : State F) : Prop where
  kept : s.kept = c
  failed : s.stop = .globalizationFailure ∨ s.stop = .interiorPointInstability

omit [Scalar F] in
/-- The hook points of a step before a trial point is accepted. -/
def Location.OnStep : Location → Prop
  | .beforeGetStep | .getStep | .beforeActualVersusPredicted | .afterRejectedTrustRegion
  | .beforeLineSearch | .afterRejectedLineSearch => True
  | _ => False

/-- The trial point is where the step of the state leads, which is taken as a whole or is a length along a direction. -/
inductive Setup.Arrives (k : Setup F) (s : State F) (t : Trial F) : Prop
  | whole (h : k.problem.trial s.x s.dx 1 = .ok t)
  | along {d : Vec F} {a : F} (h : k.problem.trial s.x d a = .ok t) (hdx : s.dx = Vec.scale a d)

theorem Setup.Arrives.exists_trial {k : Setup F} {s : State F} {t : Trial F} (h : k.Arrives s t) :
    ∃ d a, k.problem.trial s.x d a = .ok t := by
  cases h with
  | whole h => exact ⟨_, _, h⟩
  | along h _ => exact ⟨_, _, h⟩

/-- What a statement about a step has to bring along that is not blamed on the inequality constraints: hooks that write
at most the step, what the watch sees while the kept part of the state is `c`, and what becomes of each end of the step. -/
structure MoveFrame (k : Setup F) (W : Watch F) (Q : Unit → State F → Prop) (E : Halt → State F → Prop)
    (c : Kept F) : Prop where
  hooks : k.hooks.StepOnly
  visit : ∀ loc s, loc.OnStep → s.kept = c → W.visit loc s
  trial : ∀ s t, s.kept = c → W.trial s t
  accepted : ∀ s t, Active c s → k.Arrives s t → t.Passes s → Running.wp W (Running.accept k t) Q E s
  failed : ∀ s, s.kept = c → s.stop = .globalizationFailure → Q () s
  halted : ∀ e s, s.kept = c → E e s

/-- The same for a statement about any step, which need not tell apart why a step finds no point. -/
structure StepFrame (k : Setup F) (W : Watch F) (Q : Unit → State F → Prop) (E : Halt → State F → Prop)
    (c : Kept F) : Prop extends MoveFrame k W Q E c where
  stuck : ∀ s, Stuck c s → Q () s
  failed := fun s hs hstop => stuck s ⟨hs, .inl hstop⟩

namespace TrustRegion
open Running
variable {W : Watch F} (k : Setup F) (s : State F)

theorem quasinormalStep_spec :
    wp W (quasinormalStep k)
      (fun q t => ∃ step cauchy, t = { s with dxNormal := step, dxCauchy := cauchy } ∧
        ∀ stop, q = .ok stop → k.NormalStep s step stop)
      (fun _ t => t = s) s := by
  unfold quasinormalStep
  refine wp_bind (wp_getState ?_)
  split
  case h_1 h =>
    refine wp_bind (wp_update (wp_pure ⟨_, _, rfl, ?_⟩))
    rintro stop ⟨⟩
    simp [Setup.NormalStep, h]
  case h_2 c h =>
    refine wp_bind (wp_lift (fun q hq => ?_) fun _ _ => rfl)
    split
    · exact wp_pure ⟨s.dxNormal, s.dxCauchy, rfl, nofun⟩
    · refine wp_bind (wp_lift (fun r hr => ?_) fun _ _ => rfl)
      refine wp_bind (wp_update (wp_pure ⟨_, _, rfl, fun stop hs => ?_⟩))
      rcases ho : r.outcome with e | report <;> rw [ho] at hs <;> cases hs
      simp only [Setup.NormalStep, h]
      exact ⟨_, r, report, hq, hr, ho, rfl, rfl⟩

theorem tangentialStep_spec :
    wp W (tangentialStep k)
      (fun q t => match q with
        | .error _ => t = s
        | .ok stop => ∃ r, (tangentialSolve k s).answer = .ok (.ok r) ∧ r.stop = stop ∧
            t = { s with
              dxTangential := r.step
              truncatedStop := r.stop
              krylovIter := r.iter
              krylovIterTotal := s.krylovIterTotal + r.iter })
      (fun _ t => t = s) s := by
  unfold tangentialStep
  refine wp_bind (wp_getState (wp_bind (wp_lift (fun r hr => ?_) fun _ _ => rfl)))
  split
  · exact wp_pure rfl
  · exact wp_bind (wp_update (wp_pure ⟨_, hr, rfl, rfl⟩))

/-- The state a composite step leaves, from the answers of its two solvers. -/
def afterComposite (step cauchy : Vec F) (normal : QuasinormalStop) (r : TruncatedResult F) (dx : Vec F) :
    State F :=
  { s with
    dxNormal := step
    dxCauchy := cauchy
    quasinormalStop := normal
    dxTangential := r.step
    truncatedStop := r.stop
    krylovIter := r.iter
    krylovIterTotal := s.krylovIterTotal + r.iter
    dx }

/-- What a composite step from `s` may be. -/
def CompositeStep (stop : TruncatedStop) (t : State F) : Prop :=
  ∃ step cauchy normal r dx, k.NormalStep s step normal ∧
    (tangentialSolve k { s with dxNormal := step, dxCauchy := cauchy, quasinormalStop := normal }).answer =
      .ok (.ok r) ∧
    r.stop = stop ∧ stop.isNumericalFailure = false ∧ stop ≠ .offsetViolatesTrustRegion ∧
    Checked.add 1 r.step step = .ok dx ∧ t = afterComposite s step cauchy normal r dx

theorem compositeStep_spec :
    wp W (compositeStep k)
      (fun o t => match o with
        | none => t.kept = s.kept ∧ t.stop = .globalizationFailure
        | some stop => CompositeStep k s stop t)
      (fun _ t => t.kept = s.kept) s := by
  unfold compositeStep
  refine wp_bind (wp_mono (quasinormalStep_spec k s) ?_ fun _ _ h => h ▸ rfl)
  rintro q t ⟨step, cauchy, rfl, hq⟩
  split
  · exact wp_bind (wp_stepFailure (wp_pure ⟨rfl, rfl⟩) fun _ => rfl)
  case h_2 normal =>
    refine wp_bind (wp_update (wp_bind (wp_mono (tangentialStep_spec k _) ?_ fun _ _ h => h ▸ rfl)))
    intro q t ht
    split
    · exact wp_bind (wp_stepFailure (wp_pure ⟨ht ▸ rfl, rfl⟩) fun _ => ht ▸ rfl)
    case h_2 stop =>
      obtain ⟨r, hr, hs, rfl⟩ := ht
      split
      · exact wp_bind (wp_getState (wp_bind (wp_log (wp_bind (wp_setStop (wp_pure ⟨rfl, rfl⟩))))))
      case isFalse h =>
        refine wp_bind (wp_getState (wp_bind (wp_lift (fun dx hdx => ?_) fun _ _ => rfl)))
        refine wp_bind (wp_update (wp_pure ?_))
        simp only [not_or, Bool.not_eq_true] at h
        exact ⟨step, cauchy, normal, r, dx, hq normal rfl, hr, hs, h.1, h.2, hdx, rfl⟩

/-- The penalty that makes a model value `m` promise a reduction against a reduction `v` of the violation. -/
def raisedPenalty (rho m v : F) : F :=
  if 0 < v ∧ Scalar.half * rho * v < m then Scalar.maxNum (Scalar.two * rho) (Scalar.two * m / v) else rho

theorem predictedReduction_spec :
    wp W (predictedReduction k)
      (fun pred t => ∃ m v, (modelAndViolation k s).answer = .ok (m, v) ∧
        t = { s with rho := raisedPenalty s.rho m v } ∧ pred = -m + raisedPenalty s.rho m v * v)
      (fun _ t => t = s) s := by
  unfold predictedReduction
  refine wp_bind (wp_getState (wp_bind (wp_lift (fun q hq => ?_) fun _ _ => rfl)))
  obtain ⟨m, v⟩ := q
  dsimp only
  split
  case isTrue h =>
    refine wp_bind (wp_update (wp_bind (wp_log (wp_bind (wp_getState (wp_pure ⟨m, v, hq, ?_⟩))))))
    simp [raisedPenalty, h]
  case isFalse h =>
    refine wp_bind (wp_getState (wp_pure ⟨m, v, hq, ?_⟩))
    simp [raisedPenalty, h]

variable {k s} {Q : Unit → State F → Prop} {E : Halt → State F → Prop} {c : Kept F}

theorem CompositeStep.active {stop : TruncatedStop} {t : State F} (h : CompositeStep k s stop t)
    (hs : Active c s) : Active c t := by
  obtain ⟨step, cauchy, normal, r, dx, -, -, -, -, -, -, rfl⟩ := h
  exact ⟨hs.kept, hs.running⟩

/-- The quasinormal part of a composite step, which leaves the radius and the penalty alone. -/
theorem CompositeStep.normalStep {stop : TruncatedStop} {t : State F} (h : CompositeStep k s stop t) :
    (∃ normal, k.NormalStep s t.dxNormal normal) ∧ t.delta = s.delta ∧ t.rho = s.rho := by
  obtain ⟨step, cauchy, normal, r, dx, hstep, -, -, -, -, -, rfl⟩ := h
  exact ⟨⟨normal, hstep⟩, rfl, rfl⟩

theorem CompositeStep.rejected {stop : TruncatedStop} {t : State F} (h : CompositeStep k s stop t) :
    t.rejected = s.rejected ∧ t.rejectedTotal = s.rejectedTotal := by
  obtain ⟨step, cauchy, normal, r, dx, -, -, -, -, -, -, rfl⟩ := h
  exact ⟨rfl, rfl⟩

/-- The radius after a rejected step. -/
def shrunk (s : State F) : F := if 0 < s.normDx then Scalar.half * s.normDx else Scalar.half * s.delta

/-- What the penalty may be after the reduction of the step of `s` was predicted. -/
def Raised (k : Setup F) (s : State F) (rho : F) : Prop :=
  ∃ m v, (modelAndViolation k s).answer = .ok (m, v) ∧ rho = raisedPenalty s.rho m v

/-- The trial point `v` is taken from `t`: both merits are those with the multipliers, the barrier parameter and the
penalty of `t`, and their difference is enough of what was predicted. -/
structure Approves (k : Setup F) (t : State F) (v : Trial F) : Prop where
  merits : ∃ here there, Barrier.merit t.f t.g t.h t.y t.mu t.rho = .ok here ∧
    Barrier.merit v.f v.g v.h t.y t.mu t.rho = .ok there ∧ Scalar.isFinite there = true ∧
    t.ared = here - there ∧ k.par.eta1 ≤ reductionRatio here t.ared t.pred

theorem Approves.passes {k : Setup F} {t : State F} {v : Trial F} (h : Approves k t v) : v.Passes t := by
  obtain ⟨here, there, -, hthere, hfinite, -⟩ := h.merits
  exact .merit hthere hfinite

/-- What a statement about trust-region steps has to bring along: a set `R` of radii and penalties the attempts
keep to, and what is known of a composite step once the manipulator has seen it. -/
structure AttemptFrame (k : Setup F) (W : Watch F) (Q : Unit → State F → Prop) (E : Halt → State F → Prop)
    (c : Kept F) (R : F → F → Prop) (C : State F → Prop) : Prop where
  hooks : k.hooks.StepOnly
  visit : ∀ loc s, loc.OnStep → loc ≠ .beforeActualVersusPredicted → s.kept = c → W.visit loc s
  failed : ∀ s, s.kept = c → s.stop = .globalizationFailure → Q () s
  vanished : ∀ s, Active c s → C s → s.truncatedStop.isSafeguard ∨ s.quasinormalStop.isSafeguard →
    Q () { s with stop := .interiorPointInstability }
  halted : ∀ e s, s.kept = c → E e s
  composed : ∀ s stop t dx, Active c s → R s.delta s.rho → CompositeStep k s stop t →
    k.hooks.manipulate .getStep t = { t with dx } → C { t with dx, normDx := Vec.norm dx }
  seen : ∀ s, Active c s → C s → W.visit .beforeActualVersusPredicted s
  trial : ∀ s rho v, Active c s → C s → k.problem.trial s.x s.dx 1 = .ok v → W.trial { s with rho } v
  shrunk : ∀ s rho, Active c s → C s → Raised k s rho → R (shrunk s) rho
  grown : ∀ s rho, Active c s → C s → Raised k s rho →
    R s.delta rho ∧ R (Scalar.minNum (Scalar.two * s.delta) k.par.deltaMax) rho
  accepted : ∀ s t v, Active c s → C s → k.problem.trial s.x s.dx 1 = .ok v → Approves k t v → Active c t →
    t.dx = s.dx → R t.delta t.rho → Running.wp W (Running.accept k v) Q E t

variable {R : F → F → Prop} {C : State F → Prop}

/-- The states an attempt starts from. -/
structure Trying (c : Kept F) (R : F → F → Prop) (s : State F) : Prop extends Active c s where
  bounds : R s.delta s.rho

/-- What an attempt ends in under a frame: an end of the step, or the start of another attempt. -/
def AttemptEnds (Q : Unit → State F → Prop) (c : Kept F) (R : F → F → Prop) (a : Attempt) (t : State F) : Prop :=
  match a with
  | .finished => Q () t
  | .rejected => Trying c R t

theorem reject_wp (fr : AttemptFrame k W Q E c R C) (hs : Active c s) (hR : R (shrunk s) s.rho) (ratio : F) :
    wp W (reject k ratio) (AttemptEnds Q c R) E s := by
  unfold reject
  refine wp_bind (wp_update_of (P := Trying c R) ⟨⟨hs.kept, hs.running⟩, hR⟩ fun t ht => ?_)
  refine wp_bind (wp_getState (wp_bind (wp_log ?_)))
  have hvisit : wp W (do
      visit k .afterRejectedTrustRegion
      let s ← getState
      if k.par.rejectedMax ≤ s.rejected then
        log .warn [s.iter, ": ", s.rejected, " steps rejected in a row"]
        setStop .globalizationFailure
        return .finished
      return if s.stop = .notConverged then .rejected else .finished) (AttemptEnds Q c R) E t := by
    refine wp_bind (wp_quiet fr.hooks nofun (fr.visit _ _ trivial nofun ht.kept) (wp_bind (wp_getState ?_)))
    split
    · exact wp_bind (wp_log (wp_bind (wp_setStop (wp_pure (fr.failed _ ht.kept rfl)))))
    · exact wp_pure (if_pos ht.running ▸ ht)
  split
  · exact wp_bind (wp_event trivial hvisit)
  · exact hvisit

theorem judge_wp (fr : AttemptFrame k W Q E c R C) (hs : Active c s) (hC : C s) (stop : TruncatedStop) :
    wp W (judge k stop) (AttemptEnds Q c R) E s := by
  unfold judge
  refine wp_bind (wp_mono (predictedReduction_spec k s) ?_ fun e t h => fr.halted e t (h ▸ hs.kept))
  rintro pred u ⟨m, v, hmv, hu, -⟩
  have hraised : Raised k s u.rho := ⟨m, v, hmv, by rw [hu]⟩
  have hpanic : ∀ p, E (.panic p) u := fun p => fr.halted _ u (hu ▸ hs.kept)
  refine wp_bind (wp_getState (wp_bind (wp_tryStep (fun v hv => ?_) hpanic)))
  have hv' : k.problem.trial s.x s.dx 1 = .ok v := by
    rw [hu] at hv
    exact hv
  refine ⟨hu ▸ fr.trial s _ v hs hC hv', ?_⟩
  refine wp_bind (wp_lift (fun here hhere => ?_) fun p _ => hpanic p)
  refine wp_bind (wp_lift (fun there hthere => ?_) fun p _ => hpanic p)
  -- from here on the state has the step, the radius and the penalty of `u`, and the reductions that are compared
  let Like (w : State F) : Prop :=
    Active c w ∧ w.dx = s.dx ∧ w.rho = u.rho ∧ w.ared = here - there ∧ w.pred = pred
  have hactive : Active c u := hu ▸ ⟨hs.kept, hs.running⟩
  have hfields : u.dx = s.dx ∧ u.delta = s.delta ∧ u.normDx = s.normDx := by
    rw [hu]
    exact ⟨rfl, rfl, rfl⟩
  clear hu
  refine wp_bind (wp_update_of (P := fun w => Like w ∧ w.delta = s.delta ∧ w.normDx = s.normDx)
    ⟨⟨⟨hactive.kept, hactive.running⟩, hfields.1, rfl, rfl, rfl⟩, hfields.2⟩ fun w hw => ?_)
  obtain ⟨hw, hdelta, hnorm⟩ := hw
  have hrho : w.rho = u.rho := hw.2.2.1
  split
  case isFalse =>
    have hshrunk : shrunk w = shrunk s := by
      unfold shrunk
      rw [hdelta, hnorm]
    refine reject_wp fr hw.1 ?_ _
    rw [hshrunk, hrho]
    exact fr.shrunk s _ hs hC hraised
  case isTrue h =>
    have haccept : ∀ w : State F, Like w → R w.delta w.rho →
        wp W (do accept k v; return Attempt.finished) (AttemptEnds Q c R) E w := by
      rintro w ⟨hw, hdx, hrho, hared, hpred⟩ hR
      refine wp_bind (wp_mono (fr.accepted s w v hs hC hv' ?_ hw hdx hR) (fun _ _ h => wp_pure h) fun _ _ h => h)
      have heq := hw.kept.trans hactive.kept.symm
      have hf : w.f = u.f := congrArg Kept.f heq
      have hg : w.g = u.g := congrArg Kept.g heq
      have hh : w.h = u.h := congrArg Kept.h heq
      have hy : w.y = u.y := congrArg Kept.y heq
      have hmu : w.mu = u.mu := congrArg Kept.mu heq
      refine ⟨here, there, ?_, ?_, h.1, hared, ?_⟩
      · rw [hf, hg, hh, hy, hmu, hrho]
        exact Checked.lift_answer hhere
      · rw [hy, hmu, hrho]
        exact Checked.lift_answer hthere
      · rw [hared, hpred]
        exact h.2
    obtain ⟨hstay, hgrow⟩ := fr.grown s u.rho hs hC hraised
    rw [← hrho, ← hdelta] at hstay hgrow
    split
    · exact wp_bind (wp_update_of (P := fun w => Like w ∧ R w.delta w.rho)
        ⟨⟨⟨hw.1.kept, hw.1.running⟩, hw.2⟩, hgrow⟩ fun w hw => haccept w hw.1 hw.2)
    · exact haccept w hw hstay

theorem attempt_wp (fr : AttemptFrame k W Q E c R C) (hs : Trying c R s) :
    wp W (attempt k) (AttemptEnds Q c R) E s := by
  unfold attempt
  refine wp_bind (wp_quiet fr.hooks nofun (fr.visit _ _ trivial nofun hs.kept) ?_)
  refine wp_bind (wp_mono (compositeStep_spec k s) ?_ fun e t h => fr.halted e t (h.trans hs.kept))
  rintro o t ht
  split
  · exact wp_pure (fr.failed t (ht.1.trans hs.kept) ht.2)
  case h_2 stop =>
    have hactive := CompositeStep.active ht hs.toActive
    refine wp_bind (wp_visit (fr.visit _ _ trivial nofun hactive.kept) ?_)
    obtain ⟨dx, hdx⟩ := fr.hooks.atGetStep t
    have hC := fr.composed s stop t dx hs.toActive hs.bounds ht hdx
    rw [hdx]
    refine wp_bind (wp_update_of (P := fun u => Active c u ∧ C u) ⟨⟨hactive.kept, hactive.running⟩, hC⟩
      fun u hu => wp_bind (wp_getState ?_))
    obtain ⟨hu, hC⟩ := hu
    split
    case isTrue h => exact wp_bind (wp_log (wp_bind (wp_setStop (wp_pure (fr.vanished u hu hC h.2)))))
    case isFalse => exact wp_bind (wp_quiet fr.hooks nofun (fr.seen u hu hC) (judge_wp fr hu hC stop))

theorem attempts_wp (fr : AttemptFrame k W Q E c R C) (fuel : Nat) (hs : Trying c R s) :
    wp W (attempts k fuel) Q E s := by
  induction fuel generalizing s with
  | zero => exact wp_throw (fr.halted _ _ hs.kept)
  | succ fuel ih =>
    refine wp_bind (wp_mono (attempt_wp fr hs) ?_ fun _ _ h => h)
    rintro (_ | _) t ht
    · exact wp_pure ht
    · exact ih ht

/-- A frame bounds trust-region attempts in no other way than it bounds any step, apart from those that vanish. -/
theorem attemptFrame (fr : MoveFrame k W Q E c)
    (hcomposed : ∀ s stop t dx, CompositeStep k s stop t → C { t with dx, normDx := Vec.norm dx })
    (hvanished : ∀ s, Active c s → C s → s.truncatedStop.isSafeguard ∨ s.quasinormalStop.isSafeguard →
      Q () { s with stop := .interiorPointInstability }) :
    AttemptFrame k W Q E c (fun _ _ => True) C where
  hooks := fr.hooks
  visit loc s hloc _ := fr.visit loc s hloc
  failed := fr.failed
  vanished := hvanished
  halted := fr.halted
  composed s stop t dx _ _ ht _ := hcomposed s stop t dx ht
  seen s hs _ := fr.visit _ s trivial hs.kept
  trial s _ v hs _ _ := fr.trial _ v hs.kept
  shrunk _ _ _ _ _ := trivial
  grown _ _ _ _ _ := ⟨trivial, trivial⟩
  accepted s t v hs _ hv hpass ht hdx _ := by
    have hx : t.x = s.x := congrArg Kept.x (ht.kept.trans hs.kept.symm)
    rw [← hx, ← hdx] at hv
    exact fr.accepted t v ht (.whole hv) hpass.passes

theorem step_wp (fr : StepFrame k W Q E c) (hs : Active c s) : wp W (step k) Q E s :=
  attempts_wp (attemptFrame (C := fun _ => True) fr.toMoveFrame (fun _ _ _ _ _ => trivial)
    fun _ ht _ _ => fr.stuck _ ⟨ht.kept, .inr rfl⟩) _ ⟨hs, trivial⟩

end TrustRegion
end ConstrainedOpt
