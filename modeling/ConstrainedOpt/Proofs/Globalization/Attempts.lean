import ConstrainedOpt.Proofs.Containment.Runs
import ConstrainedOpt.Proofs.History.Steps
import ConstrainedOpt.Proofs.Run.Course

/-! # What trust-region attempts do to the radius and the penalty

From a state over the reals a trust-region step goes from hook point to hook point by hops: a rejected attempt has
shrunk the radius to half its step, an accepted one may have doubled it, and on the way to either the penalty may have
been raised. Nothing else changes them. The radius is doubled only after a step whose reduction ratio is large, and that
ends on the boundary, or stopped at a direction without positive curvature.
-/
namespace ConstrainedOpt
open Exact Journaled Running
variable {ε : Set.Ioi (0 : ℝ)} {n m : ℕ} {k : Setup (Exact ε)} {s t u : State (Exact ε)}
  {J : Euclidean n →ₗ[ℝ] Euclidean m} {h : Euclidean m} {γ ζ δ : ℝ}

namespace TrustRegion

/-- The step `w` from `s` was cut short of the radius `δ`, along a direction `p` without positive curvature: the direction
vanishes, or it meets the boundary where the inequality constraint is not safe. -/
def CutShort (k : Setup (Exact ε)) (s : State (Exact ε)) (J : Euclidean n →ₗ[ℝ] Euclidean m) (h : Euclidean m) (γ δ : ℝ)
    (w : Euclidean n) : Prop :=
  ∃ (b p : Euclidean n) (σ θ : ℝ), w = b + θ • σ • p ∧
    (∀ H : Euclidean n →ₗ[ℝ] Euclidean n, (k.hessian s).Acts H → inner ℝ p (H p) ≤ 0) ∧
    (p = 0 ∨ ‖b + σ • p‖ = δ ∧ b + σ • p ∉ k.problem.safe J h γ ∧ 0 ≤ θ ∧ θ < 1)

/-- A step that is ready to be judged: real and within the radius, and on its boundary if its tangential part stopped
there, or cut short. -/
structure Ready (k : Setup (Exact ε)) (J : Euclidean n →ₗ[ℝ] Euclidean m) (h : Euclidean m) (γ : ℝ)
    (s : State (Exact ε)) : Prop where
  step : ∀ δ, s.delta = real δ → 0 < δ → ∃ w : Euclidean n, s.dx = vec w ∧ s.normDx = real ‖w‖ ∧ ‖w‖ ≤ δ ∧
    (s.truncatedStop.isBoundary = true →
      ‖w‖ = δ ∨ s.truncatedStop = .negativeCurvature ∧ CutShort k s J h γ δ w)

/-- The reduction of the merit function on the way from `s` to the accepted `t` is more than enough for a larger radius. -/
def Excels (k : Setup (Exact ε)) (s t : State (Exact ε)) : Prop :=
  ∃ here there, Barrier.merit s.f s.g s.h s.y s.mu t.rho = .ok here ∧
    Barrier.merit t.f t.g t.h s.y s.mu t.rho = .ok there ∧ t.ared = here - there ∧
    k.par.eta2 < reductionRatio here t.ared t.pred

/-- What a trust-region step may do between two hook points. -/
structure Hop (k : Setup (Exact ε)) (J : Euclidean n →ₗ[ℝ] Euclidean m) (h : Euclidean m) (γ : ℝ)
    (a b : Location × State (Exact ε)) : Prop where
  begun : b.1 ≠ .beginningOfOptimization
  mu : b.2.mu = a.2.mu
  elsewhere : b.1 ≠ .afterRejectedTrustRegion → b.1 ≠ .afterStepBeforeGradient →
    b.2.globalization = a.2.globalization
  judged : b.1 = .afterRejectedTrustRegion ∨ b.1 = .afterStepBeforeGradient →
    a.1 = .beforeActualVersusPredicted ∧ Ready k J h γ a.2 ∧ Raised k a.2 b.2.rho
  rejected : b.1 = .afterRejectedTrustRegion → b.2.delta = shrunk a.2
  accepted : b.1 = .afterStepBeforeGradient → b.2.dx = a.2.dx ∧ (b.2.delta = a.2.delta ∨
    b.2.delta = Scalar.minNum (Scalar.two * a.2.delta) k.par.deltaMax ∧ a.2.truncatedStop.isBoundary = true ∧
      Excels k a.2 b.2)

/-- A hop that changes nothing. -/
theorem Hop.of_eq {a b : Location × State (Exact ε)} (hbegun : b.1 ≠ .beginningOfOptimization)
    (hrejected : b.1 ≠ .afterRejectedTrustRegion) (haccepted : b.1 ≠ .afterStepBeforeGradient)
    (h' : b.2.globalization = a.2.globalization) : Hop k J h γ a b where
  begun := hbegun
  mu := congrArg Globalization.mu h'
  elsewhere _ _ := h'
  judged hb := (hb.elim hrejected haccepted).elim
  rejected hb := absurd hb hrejected
  accepted hb := absurd hb haccepted

/-- What a statement about the hops of a step has to bring along: a state over the reals that the step keeps, what its
hops are to be related by, and a set `D` of radii that rejections do not leave. -/
structure Hopping (k : Setup (Exact ε)) (R : Location × State (Exact ε) → Location × State (Exact ε) → Prop)
    (c : Kept (Exact ε)) (D : Exact ε → Prop) (J : Euclidean n →ₗ[ℝ] Euclidean m) (h : Euclidean m) (γ ζ : ℝ) :
    Prop where
  hooks : k.hooks.Observing
  fractions : k.par.Fractions γ ζ
  realAt : ∀ s, s.kept = c → k.RealAt s J h
  hop : ∀ a b, Hop k J h γ a b → R a b
  shrinks : ∀ s, D s.delta → Ready k J h γ s → D (shrunk s)

variable {R : Location × State (Exact ε) → Location × State (Exact ε) → Prop} {c : Kept (Exact ε)} {D : Exact ε → Prop}
  {p : List (Event (Exact ε))} {a : Location × State (Exact ε)}

/-! ### Composite steps -/

/-- A composite step leaves the radius and the penalty alone, even if it finds no step. -/
theorem compositeStep_globalization {W : Watch (Exact ε)} :
    wp W (compositeStep k) (fun _ t => t.globalization = s.globalization) (fun _ _ => True) s := by
  unfold compositeStep
  refine wp_bind (wp_mono (quasinormalStep_spec k s) ?_ fun _ _ _ => trivial)
  rintro q t ⟨step, cauchy, rfl, -⟩
  split
  · exact wp_bind (wp_stepFailure (wp_pure rfl) fun _ => trivial)
  · refine wp_bind (wp_update (wp_bind (wp_mono (tangentialStep_spec k _) ?_ fun _ _ _ => trivial)))
    intro q t ht
    split
    · exact wp_bind (wp_stepFailure (wp_pure (ht ▸ rfl)) fun _ => trivial)
    · obtain ⟨r, -, -, rfl⟩ := ht
      split
      · exact wp_bind (wp_getState (wp_bind (wp_log (wp_bind (wp_setStop (wp_pure rfl))))))
      · exact wp_bind (wp_getState (wp_bind (wp_lift (fun _ _ => wp_bind (wp_update (wp_pure rfl))) fun _ _ => trivial)))

theorem CompositeStep.ready (hk : k.RealAt s J h) (hpar : k.par.Fractions γ ζ) {stop : TruncatedStop}
    (ht : CompositeStep k s stop t) : Ready k J h γ { t with normDx := Vec.norm t.dx } where
  step δ hδ hδ0 := by
    obtain ⟨-, hdelta, -⟩ := ht.normalStep
    have hδ : s.delta = real δ := hdelta.symm.trans hδ
    obtain ⟨d, e, hcomp⟩ := CompositeStep.composed hk hpar hδ hδ0 (fun u _ => projector_into k u) ht
    refine ⟨d + e, hcomp.dx, ?_, real_le.mp hcomp.within.norm, fun hboundary => ?_⟩
    · change Vec.norm t.dx = _
      rw [hcomp.dx, norm_vec]
    · have hstop : t.truncatedStop = stop := by
        obtain ⟨_, _, _, _, _, -, -, hstop, -, -, -, rfl⟩ := ht
        exact hstop
      have hkept : t.kept = s.kept := by
        obtain ⟨_, _, _, _, _, -, -, -, -, -, -, rfl⟩ := ht
        rfl
      obtain ⟨e', he, hends⟩ := ht.bounded hk hpar hδ hδ0 hcomp (hstop ▸ hboundary)
      obtain rfl : e = e' := vec_inj.mp he
      refine hends.imp_right ?_
      rintro ⟨hnegative, b, p, σ, θ, rfl, hcurved, hcut⟩
      refine ⟨hstop.trans hnegative, d + b, p, σ, θ, (add_assoc _ _ _).symm, fun H hacts => hcurved H ?_, ?_⟩
      · have hH : k.hessian { t with normDx := Vec.norm t.dx } = k.hessian s := Setup.hessian_of_kept hkept
        rwa [hH] at hacts
      · rwa [add_assoc]

/-! ### Attempts -/

/-- A point was accepted at the end of a step that was ready, and `t` is what its gradient made of it. -/
def Accepts (k : Setup (Exact ε)) (c : Kept (Exact ε)) (D : Exact ε → Prop) (J : Euclidean n →ₗ[ℝ] Euclidean m)
    (h : Euclidean m) (γ : ℝ) (t : State (Exact ε)) : Prop :=
  ∃ u w v, u.kept = c ∧ w.kept = c ∧ D u.delta ∧ Ready k J h γ u ∧ k.problem.trial u.x u.dx 1 = .ok v ∧ v.Passes w ∧
    w.dx = u.dx ∧ Regraded k (w.moveTo v) t

/-- Where an attempt ends: before the next one, stuck, or with an accepted point. -/
def AttemptHops (k : Setup (Exact ε)) (R : Location × State (Exact ε) → Location × State (Exact ε) → Prop)
    (c : Kept (Exact ε)) (D : Exact ε → Prop) (J : Euclidean n →ₗ[ℝ] Euclidean m) (h : Euclidean m) (γ : ℝ) (o : Attempt)
    (t : State (Exact ε)) (vs : Visits (Exact ε)) : Prop :=
  Along R t vs ∧ match o with
    | .rejected => t.kept = c ∧ D t.delta
    | .finished => t.kept = c ∨ Accepts k c D J h γ t

theorem reject_hops (fr : Hopping k R c D J h γ ζ) (hp : Trail R (Event.visits p) (.beforeActualVersusPredicted, u))
    (hready : Ready k J h γ u) (hD : D u.delta) (hs : s.kept = c) (hdelta : s.delta = u.delta)
    (hnorm : s.normDx = u.normDx) (hrho : Raised k u s.rho) (hmu : s.mu = u.mu) (ratio : Exact ε) :
    leads (reject k ratio) (fun o t q => AttemptHops k R c D J h γ o t (Event.visits q))
      (fun _ _ q => (Event.visits q).IsChain R) s p := by
  have hshrunk : shrunk s = shrunk u := by
    unfold shrunk
    rw [hdelta, hnorm]
  have hvisit : ∀ (t : State (Exact ε)) q, t.kept = c → t.delta = shrunk u → t.rho = s.rho → t.mu = s.mu →
      Event.visits q = Event.visits p → leads (do
        visit k .afterRejectedTrustRegion
        let s ← getState
        if k.par.rejectedMax ≤ s.rejected then
          log .warn [s.iter, ": ", s.rejected, " steps rejected in a row"]
          setStop .globalizationFailure
          return .finished
        return if s.stop = .notConverged then .rejected else .finished)
        (fun o t q => AttemptHops k R c D J h γ o t (Event.visits q)) (fun _ _ q => (Event.visits q).IsChain R) t q := by
    intro t q ht hdelta' hrho' hmu' hq
    have hhop : Hop k J h γ (.beforeActualVersusPredicted, u) (.afterRejectedTrustRegion, t) := {
      begun := nofun
      mu := hmu'.trans hmu
      elsewhere := fun hne _ => absurd rfl hne
      judged := fun _ => ⟨rfl, hready, hrho' ▸ hrho⟩
      rejected := fun _ => hdelta'
      accepted := nofun }
    refine leads_bind (leads_observed fr.hooks fun r hr => leads_bind (leads_getState ?_))
    have hr : Trail R (Event.visits r) (.afterRejectedTrustRegion, t) := by
      rw [hr, hq]
      exact hp.push (fr.hop _ _ hhop)
    split
    · refine leads_bind (leads_noted fun r' hr' => leads_bind (leads_setStop (leads_pure ?_)))
      exact ⟨⟨_, hr' ▸ hr, rfl⟩, .inl ht⟩
    · refine leads_pure ⟨⟨_, hr, rfl⟩, ?_⟩
      split
      case h_1 => exact ⟨ht, hdelta' ▸ fr.shrinks u hD hready⟩
      case h_2 => exact .inl ht
  unfold reject
  refine leads_bind (leads_update (leads_bind (leads_getState (leads_bind (leads_noted fun q hq => ?_)))))
  have hnext := hvisit { s with
      delta := if 0 < s.normDx then Scalar.half * s.normDx else Scalar.half * s.delta
      rejected := s.rejected + 1
      rejectedTotal := s.rejectedTotal + 1 }
  split
  · exact leads_bind (leads_noted fun r hr => hnext r hs hshrunk rfl rfl (hr.trans hq))
  · exact hnext q hs hshrunk rfl rfl hq

theorem judge_hops (fr : Hopping k R c D J h γ ζ) (hp : Trail R (Event.visits p) (.beforeActualVersusPredicted, u))
    (hready : Ready k J h γ u) (hD : D u.delta) (hu : u.kept = c) :
    leads (judge k u.truncatedStop) (fun o t q => AttemptHops k R c D J h γ o t (Event.visits q))
      (fun _ _ q => (Event.visits q).IsChain R) u p := by
  have hchain : ∀ {q}, Event.visits q = Event.visits p → (Event.visits q).IsChain R := fun hq => hq ▸ hp.chain
  unfold judge
  refine leads_bind (leads_still (predictedReduction_spec k u) ?_ fun _ _ _ _ hq => hchain hq)
  rintro pred s q ⟨model, violation, hmodel, rfl, -⟩ hq
  have hraised : Raised k u (raisedPenalty u.rho model violation) := ⟨_, _, hmodel, rfl⟩
  generalize raisedPenalty u.rho model violation = rho at hraised
  refine leads_bind (leads_getState (leads_bind ?_))
  refine leads_still (wp_tryStep (Q := fun v t => t = { u with rho } ∧ k.problem.trial u.x u.dx 1 = .ok v)
    (E := fun _ _ => True) (fun v hv => ⟨trivial, rfl, hv⟩) fun _ => trivial) ?_ fun _ _ _ _ hr => hchain (hr.trans hq)
  rintro v _ q₁ ⟨rfl, hv⟩ hq₁
  refine leads_bind (leads_still (wp_lift (Q := fun here t => t = { u with rho } ∧
    Barrier.merit u.f u.g u.h u.y u.mu rho = .ok here) (E := fun _ _ => True) (fun here hhere => ⟨rfl, Checked.lift_answer hhere⟩)
      fun _ _ => trivial) ?_ fun _ _ _ _ hr => hchain (hr.trans (hq₁.trans hq)))
  rintro here _ q₂ ⟨rfl, hhere⟩ hq₂
  refine leads_bind (leads_still (wp_lift (Q := fun there t => t = { u with rho } ∧
    Barrier.merit v.f v.g v.h u.y u.mu rho = .ok there) (E := fun _ _ => True)
      (fun there hthere => ⟨rfl, Checked.lift_answer hthere⟩) fun _ _ => trivial) ?_
      fun _ _ _ _ hr => hchain (hr.trans (hq₂.trans (hq₁.trans hq))))
  rintro there _ q₃ ⟨rfl, hthere⟩ hq₃
  have hq₃ : Event.visits q₃ = Event.visits p := hq₃.trans (hq₂.trans (hq₁.trans hq))
  have hp₃ := hq₃ ▸ hp
  dsimp only
  refine leads_bind (leads_update ?_)
  have haccept : ∀ w : State (Exact ε), w.kept = c → w.dx = u.dx → w.rho = rho → w.mu = u.mu → v.Passes w →
      (w.delta = u.delta ∨ w.delta = Scalar.minNum (Scalar.two * u.delta) k.par.deltaMax ∧
        u.truncatedStop.isBoundary = true ∧ Excels k u (w.moveTo v)) →
      leads (do accept k v; return Attempt.finished) (fun o t q => AttemptHops k R c D J h γ o t (Event.visits q))
        (fun _ _ q => (Event.visits q).IsChain R) w q₃ := by
    intro w hw hdx hrho hmu hpasses hdelta
    have hhop : Hop k J h γ (.beforeActualVersusPredicted, u) (.afterStepBeforeGradient, w.moveTo v) := {
      begun := nofun
      mu := hmu
      elsewhere := fun _ hne => absurd rfl hne
      judged := fun _ => ⟨rfl, hready, (hrho ▸ hraised : Raised k u w.rho)⟩
      rejected := nofun
      accepted := fun _ => ⟨hdx, hdelta⟩ }
    refine leads_bind (leads_mono (accept_leads fr.hooks hp₃ (fr.hop _ _ hhop)
      fun y grad => fr.hop _ _ (.of_eq nofun nofun nofun rfl)) ?_ fun _ _ _ h => h)
    rintro _ t r ⟨halong, ht⟩
    exact leads_pure ⟨halong, .inr ⟨u, w, v, hu, hw, hD, hready, hv, hpasses, hdx, ht⟩⟩
  split
  case isFalse =>
    exact reject_hops (s := { u with rho, ared := here - there, pred }) fr hp₃ hready hD hu rfl rfl hraised rfl _
  case isTrue hfinite =>
    have hpasses : ∀ w : State (Exact ε), w.y = u.y → w.mu = u.mu → w.rho = rho → v.Passes w := by
      intro w hy hmu hrho
      refine .merit ?_ hfinite.1
      rw [hy, hmu, hrho]
      exact hthere
    split
    case isTrue hgrow =>
      refine leads_bind (leads_update (haccept _ hu rfl rfl rfl (hpasses _ rfl rfl rfl) (.inr ⟨rfl, hgrow.2, ?_⟩)))
      exact ⟨here, there, hhere, hthere, rfl, hgrow.1⟩
    case isFalse => exact haccept _ hu rfl rfl rfl (hpasses _ rfl rfl rfl) (.inl rfl)

theorem attempt_hops (fr : Hopping k R c D J h γ ζ) (hp : Trail R (Event.visits p) a)
    (hglobal : s.globalization = a.2.globalization) (hs : s.kept = c) (hD : D s.delta) :
    leads (attempt k) (fun o t q => AttemptHops k R c D J h γ o t (Event.visits q))
      (fun _ _ q => (Event.visits q).IsChain R) s p := by
  unfold attempt
  refine leads_bind (leads_observed fr.hooks fun q hq => leads_bind ?_)
  have hq : Trail R (Event.visits q) (.beforeGetStep, s) := hq ▸ hp.push (fr.hop _ _ (.of_eq nofun nofun nofun hglobal))
  refine leads_still (wp_and (compositeStep_spec k s) compositeStep_globalization) ?_ fun _ _ _ _ hr => hr ▸ hq.chain
  rintro o t r ⟨ht, hsame⟩ hr
  rw [← hr] at hq
  split
  · exact leads_pure ⟨⟨_, hq, hsame⟩, .inl (ht.1.trans hs)⟩
  case h_2 stop =>
    have hready := CompositeStep.ready (fr.realAt s hs) fr.fractions ht
    obtain ⟨hstop, hkept⟩ : t.truncatedStop = stop ∧ t.kept = s.kept := by
      obtain ⟨_, _, _, _, _, -, -, hstop, -, -, -, rfl⟩ := ht
      exact ⟨hstop, rfl⟩
    have hdelta : t.delta = s.delta := congrArg Globalization.delta hsame
    refine leads_bind (leads_observed fr.hooks fun q₁ hq₁ => ?_)
    have hq₁ := hq₁ ▸ hq.push (fr.hop (.beforeGetStep, s) (.getStep, t) (.of_eq nofun nofun nofun hsame))
    refine leads_bind (leads_update (leads_bind (leads_getState ?_)))
    split
    · refine leads_bind (leads_noted fun q₂ hq₂ => leads_bind (leads_setStop (leads_pure ?_)))
      exact ⟨⟨(.getStep, t), hq₂ ▸ hq₁, rfl⟩, .inl (hkept.trans hs)⟩
    · refine leads_bind (leads_observed fr.hooks fun q₂ hq₂ => ?_)
      have hq₂ := hq₂ ▸ hq₁.push (fr.hop (.getStep, t) (.beforeActualVersusPredicted, { t with normDx := Vec.norm t.dx })
        (.of_eq nofun nofun nofun rfl))
      rw [← hstop]
      exact judge_hops (u := { t with normDx := Vec.norm t.dx }) fr hq₂ hready (hdelta ▸ hD) (hkept.trans hs)

/-- Where a step ends: stuck, or with an accepted point. -/
def StepHops (k : Setup (Exact ε)) (R : Location × State (Exact ε) → Location × State (Exact ε) → Prop)
    (c : Kept (Exact ε)) (D : Exact ε → Prop) (J : Euclidean n →ₗ[ℝ] Euclidean m) (h : Euclidean m) (γ : ℝ)
    (t : State (Exact ε)) (vs : Visits (Exact ε)) : Prop :=
  Along R t vs ∧ (t.kept = c ∨ Accepts k c D J h γ t)

theorem attempts_hop (fr : Hopping k R c D J h γ ζ) (fuel : ℕ) (hp : Trail R (Event.visits p) a)
    (hglobal : s.globalization = a.2.globalization) (hs : s.kept = c) (hD : D s.delta) :
    leads (attempts k fuel) (fun _ t q => StepHops k R c D J h γ t (Event.visits q))
      (fun _ _ q => (Event.visits q).IsChain R) s p := by
  induction fuel generalizing s p a with
  | zero => exact leads_throw hp.chain
  | succ fuel ih =>
    refine leads_bind (leads_mono (attempt_hops fr hp hglobal hs hD) ?_ fun _ _ _ h => h)
    rintro o t q ⟨⟨b, hq, hglobal⟩, ht⟩
    cases o with
    | finished => exact leads_pure ⟨⟨b, hq, hglobal⟩, ht⟩
    | rejected => exact ih hq hglobal ht.1 ht.2

/-! ### Growth -/

/-- An accepted step has been judged at `a`. If it has enlarged the radius, its reduction ratio exceeds `eta2`, and it ends
on the boundary of the trust region, or was cut short of it along a direction without positive curvature. -/
structure GrowsOnBoundary (k : Setup (Exact ε)) (J : Euclidean n →ₗ[ℝ] Euclidean m) (h : Euclidean m) (γ : ℝ)
    (a b : Location × State (Exact ε)) : Prop where
  judged : b.1 = .afterStepBeforeGradient → a.1 = .beforeActualVersusPredicted
  ratio : b.1 = .afterStepBeforeGradient → a.2.delta < b.2.delta → Excels k a.2 b.2
  boundary : b.1 = .afterStepBeforeGradient → a.2.delta < b.2.delta → ∃ (δ : ℝ) (w : Euclidean n),
    a.2.delta = real δ ∧ b.2.dx = vec w ∧
      (‖w‖ = δ ∨ a.2.truncatedStop = .negativeCurvature ∧ CutShort k a.2 J h γ δ w)

theorem Hop.grows {a b : Location × State (Exact ε)} (hop : Hop k J h γ a b) : GrowsOnBoundary k J h γ a b := by
  have hgrown : b.1 = .afterStepBeforeGradient → a.2.delta < b.2.delta →
      b.2.delta = Scalar.minNum (Scalar.two * a.2.delta) k.par.deltaMax ∧ a.2.truncatedStop.isBoundary = true ∧
        Excels k a.2 b.2 := by
    intro hb hlt
    refine (hop.accepted hb).2.resolve_left fun heq => ?_
    exact not_lt_self (heq ▸ hlt)
  refine ⟨fun hb => (hop.judged (.inr hb)).1, fun hb hlt => (hgrown hb hlt).2.2, fun hb hlt => ?_⟩
  obtain ⟨hdelta, hstop, -⟩ := hgrown hb hlt
  obtain ⟨δ, hδ, hδ0⟩ := pos_of_lt_minNum (hdelta ▸ hlt)
  obtain ⟨w, hw, -, -, hboundary⟩ := (hop.judged (.inr hb)).2.1.step δ hδ hδ0
  exact ⟨δ, w, hδ, (hop.accepted hb).1.trans hw, hboundary hstop⟩

/-- In exact arithmetic the radius grows from steps on the boundary of the trust region only, or from steps that the
tangential part has cut short along a direction without positive curvature, and with a large reduction ratio only. This
holds for each accepted point of a step from any state of a problem over the reals, however many were rejected before. -/
theorem step_grows (hhooks : k.hooks.Observing) (hvalid : k.parameterError? = none) (hγ : k.par.gamma = real γ)
    (hζ : k.par.quasinormal.zeta = real ζ) (hk : k.RealAt s J h) :
    (Event.visits ((step k).run ⟨s, #[]⟩).2.events.toList).IsChain (GrowsOnBoundary k J h γ) := by
  have fr : Hopping k (GrowsOnBoundary k J h γ) s.kept (fun _ => True) J h γ ζ := {
    hooks := hhooks
    fractions := Setup.fractions hvalid hγ hζ
    realAt := fun t ht => hk.of_kept ht
    hop := fun _ _ hop => hop.grows
    shrinks := fun _ _ _ => trivial }
  have hstart : Trail (GrowsOnBoundary k J h γ) (Event.visits [.visit .beforeStep s]) (.beforeStep, s) :=
    ⟨List.isChain_singleton _, rfl⟩
  have hsteps : leads (step k) (fun _ _ q => (Event.visits q).IsChain (GrowsOnBoundary k J h γ))
      (fun _ _ q => (Event.visits q).IsChain (GrowsOnBoundary k J h γ)) s [.visit .beforeStep s] := by
    unfold step
    refine leads_mono (attempts_hop fr _ hstart rfl rfl trivial) ?_ fun _ _ _ h => h
    rintro _ t q ⟨⟨b, hq, -⟩, -⟩
    exact hq.chain
  exact (List.isChain_append.mp (visits_run hsteps)).2.1

theorem step_grows_leastHalfSquare :
    let k : Setup (Exact ⟨1, Set.mem_Ioi.mpr one_pos⟩) := ⟨.default, .leastHalfSquare, .passive, 1⟩
    let x : Euclidean 1 := WithLp.toLp 2 fun _ => 1
    let s : State (Exact ⟨1, Set.mem_Ioi.mpr one_pos⟩) := { State.new (vec x) with h := vec x }
    k.hooks.Observing ∧ k.parameterError? = none ∧ k.RealAt s LinearMap.id x ∧
      (Event.visits ((step k).run ⟨s, #[]⟩).2.events.toList).IsChain (GrowsOnBoundary k LinearMap.id x 0.95) := by
  intro k x s
  have hhooks : k.hooks.Observing := fun _ _ => rfl
  have hvalid : k.parameterError? = none := by
    unfold Setup.parameterError?
    rw [Parameters.default_valid]
    rfl
  have hreal : k.RealAt s LinearMap.id x := Setup.leastHalfSquare_realAt .default .passive fun _ => one_pos
  exact ⟨hhooks, hvalid, hreal, step_grows hhooks hvalid rfl (show k.par.quasinormal.zeta = real 0.8 from rfl) hreal⟩

end TrustRegion
end ConstrainedOpt
