import ConstrainedOpt.Proofs.Step.Effort
import ConstrainedOpt.Step.Quasinormal

/-! # Solvers without a safeguard

Where every step is safe, no solver stops for its safeguard. The scalars have to obey one law only: one is not below
itself, so that the fraction one of a step does not count as a cut.
-/
namespace ConstrainedOpt
variable {F : Type} [Scalar F]
open Journaled

omit [Scalar F] in
/-- Faulty operators are no matter of a safeguard. -/
theorem TruncatedStop.isSafeguard_of_failure {stop : TruncatedStop} (h : stop.isNumericalFailure = true) :
    stop.isSafeguard = false := by
  cases stop <;> first | rfl | exact absurd h (by decide)

theorem Safeguard.unlimited_fraction (call : Nat) (base direction : Vec F) :
    ((unlimited : Safeguard F).fraction call base direction).Ensures fun θ => θ = 1 := ensures_pure rfl

namespace TruncatedCG
variable {k : Model F} {it : Iterate F}

/-- A pass that stops does not blame the safeguard. -/
def Progress.Unblamed : Progress F → Prop
  | .next _ => True
  | .stop reason _ => reason.isSafeguard = false

theorem followNegative_unblamed (p : Vec F) (rp κ : F) : (followNegative k it p rp κ).Ensures Progress.Unblamed := by
  unfold followNegative
  exact ensures_bind (ensures_true _) fun _ _ => ensures_bind (ensures_true _) fun _ _ =>
    ensures_bind (ensures_true _) fun _ _ => ensures_pure rfl

variable (hone : ¬ (1 : F) < 1) (hsafe : k.safeguard = .unlimited)
include hone hsafe

theorem followPositive_unblamed (z p hp : Vec F) (rz rp κ : F) :
    (followPositive k it z p hp rz rp κ).Ensures Progress.Unblamed := by
  unfold followPositive
  refine ensures_bind (ensures_true _) fun _ _ => ?_
  dsimp only
  refine ensures_bind (ensures_true _) fun _ _ => ?_
  split
  · exact ensures_pure rfl
  · rw [hsafe]
    refine ensures_bind (Safeguard.unlimited_fraction _ _ _) ?_
    rintro _ rfl
    rw [if_neg hone]
    refine ensures_bind (ensures_true _) fun _ _ => ensures_bind (ensures_true _) fun _ _ => ?_
    split
    · exact ensures_pure rfl
    · exact ensures_bind (ensures_true _) fun _ _ => ensures_pure trivial

theorem pass_unblamed : (pass k it).Ensures Progress.Unblamed := by
  unfold pass
  refine ensures_bind (precondition_fault it.r) fun out hout => ?_
  split
  · exact ensures_pure (TruncatedStop.isSafeguard_of_failure (hout _ rfl))
  case h_2 z =>
    dsimp only
    generalize (if it.iter = 0 then { it with normZ0 := Vec.norm z } else it) = it
    split
    · exact ensures_pure rfl
    · refine ensures_bind (ensures_true _) fun rz _ => ?_
      refine ensures_bind (ensures_lift fun _ h => residualFault_fails z rz h) fun fault hfault => ?_
      split
      · exact ensures_pure (TruncatedStop.isSafeguard_of_failure (hfault _ rfl))
      · refine ensures_bind (ensures_true _) fun p _ => ensures_bind (ensures_true _) fun hp _ => ?_
        split
        · exact ensures_pure rfl
        · refine ensures_bind (ensures_lift fun _ h => directionFault_fails p hp h) fun fault hfault => ?_
          split
          · exact ensures_pure (TruncatedStop.isSafeguard_of_failure (hfault _ rfl))
          · unfold follow
            refine ensures_bind (ensures_true _) fun κ _ => ensures_bind (ensures_true _) fun rp _ =>
              ensures_bind (ensures_true _) fun _ _ => ?_
            split
            · exact followNegative_unblamed _ _ _
            · exact followPositive_unblamed hone hsafe _ _ _ _ _ _

theorem iterate_unblamed (budget : Nat) : (iterate k budget it).Ensures fun r => r.1.isSafeguard = false := by
  induction budget generalizing it with
  | zero => exact ensures_pure rfl
  | succ budget ih =>
    refine ensures_bind (pass_unblamed hone hsafe) ?_
    rintro (it | ⟨reason, it⟩) hreason
    · exact ih
    · exact ensures_pure hreason

/-- A truncated solve without a safeguard does not stop for it. -/
theorem solve_unblamed (offset s : Vec F) (work : Nat) :
    (solve k offset s work).Ensures fun out => ∀ r, out = .ok r → r.stop.isSafeguard = false := by
  have hoffset : (offsetFault? offset k.δ k.safeguard).Ensures fun out =>
      ∀ fault, out = some fault → fault.isSafeguard = false := by
    unfold offsetFault?
    dsimp only
    split
    · refine ensures_bind (ensures_true _) fun _ _ => ensures_pure ?_
      rintro _ ⟨⟩
      rfl
    · rw [hsafe]
      refine ensures_bind (Safeguard.unlimited_fraction _ _ _) ?_
      rintro _ rfl
      rw [if_neg hone]
      exact ensures_pure nofun
  refine (ensures_solve (P := fun reason _ => reason.isSafeguard = false)
    (fun _ fault hfault => hfault.ensured hoffset _ rfl) fun _ _ => iterate_unblamed hone hsafe _).mono fun out hout r hr => ?_
  obtain ⟨reason, it, rfl, hreason⟩ := hout r hr
  exact hreason

end TruncatedCG

namespace Quasinormal

/-- From a Cauchy point a step is finished, unless no Newton point is found. -/
theorem ensures_fromCauchy {par : QuasinormalParam F} {A : Operator F} {g : Vec F} {δ normG : F} {safeguard : Safeguard F}
    {cauchy : Vec F} {P : QuasinormalStep F → Prop}
    (hnewton : (NormalEquations.leastNorm par.normalEq A g (Vec.zeros A.cols)
      (NormalEquations.workLength A.rows A.cols)).Ensures fun newton => ∀ e, newton.outcome = .error e →
        P ⟨Vec.zerosLike cauchy, cauchy, .error e⟩)
    (hfinish : ∀ step stop iter, (finish A g normG step cauchy stop iter).Ensures P) :
    (fromCauchy par A g δ safeguard normG cauchy).Ensures P := by
  unfold fromCauchy
  refine ensures_bind (ensures_true _) fun res _ => ensures_bind (ensures_true _) fun safe _ => ?_
  dsimp only
  split
  · exact hfinish _ _ _
  · split
    · exact hfinish _ _ _
    · split
      · exact hfinish _ _ _
      · refine ensures_bind hnewton fun newton hfails => ?_
        split
        case h_1 e he => exact ensures_pure (hfails e he)
        · exact ensures_bind (ensures_true _) fun _ _ => hfinish _ _ _

/-- A solve rejects what it is given, stays where it is, or leaves from a Cauchy point. -/
theorem ensures_solve {par : QuasinormalParam F} {A : Operator F} {g : Vec F} {δ : F} {safeguard : Safeguard F}
    {step cauchy : Vec F} {work : Nat} {P : QuasinormalStep F → Prop}
    (hrejects : ∀ step cauchy e, (e = .numericalInstability → Scalar.isFinite (Vec.norm g) = false) →
      P ⟨step, cauchy, .error e⟩)
    (hstays : ∀ stop res, stop = .skipped ∨ stop = .cauchySolved →
      P ⟨Vec.zeros A.cols, Vec.zeros A.cols, .ok ⟨stop, res, 0⟩⟩)
    (hleaves : A.rows ≠ 0 → ∀ cauchy, (fromCauchy par A g δ safeguard (Vec.norm g) cauchy).Ensures P) :
    (solve par A g δ safeguard step cauchy work).Ensures P := by
  unfold solve
  split
  · exact ensures_bind (ensures_true _) fun _ _ => ensures_pure (hrejects _ _ _ nofun)
  · split
    · exact ensures_bind (ensures_true _) fun _ _ => ensures_pure (hrejects _ _ _ nofun)
    · dsimp only
      split
      · exact ensures_pure (hstays _ _ (.inl rfl))
      case isFalse hrows =>
        split
        case isTrue hfinite => exact ensures_pure (hrejects _ _ _ fun _ => by simpa using hfinite)
        · refine ensures_bind (ensures_true _) fun d _ => ensures_bind (ensures_true _) fun Ad _ => ?_
          split
          · exact ensures_pure (hstays _ _ (.inr rfl))
          · exact hleaves hrows _

variable (hone : ¬ (1 : F) < 1)
include hone

theorem cut_unblamed (trust : F) {atTrust : QuasinormalStop} (h : atTrust.isSafeguard = false)
    (atSafe : QuasinormalStop) : (cut trust 1 atTrust atSafe).2.isSafeguard = false := by
  unfold cut
  rw [if_neg fun h => hone h.1]
  split
  · exact h
  · rfl

theorem choose_unblamed {k : Context F} (hsafe : k.safeguard = .unlimited) (newton : Vec F) (call : Nat) :
    (choose k newton call).Ensures fun out => out.2.isSafeguard = false := by
  have hdogleg : ∀ call, (dogleg k newton call).Ensures fun out => out.2.isSafeguard = false := by
    intro call
    unfold dogleg
    refine ensures_bind (ensures_true _) fun leg _ => ensures_bind (ensures_true _) fun trust _ => ?_
    rw [hsafe]
    refine ensures_bind (Safeguard.unlimited_fraction _ _ _) ?_
    rintro _ rfl
    exact ensures_bind (ensures_true _) fun _ _ => ensures_pure (cut_unblamed hone trust rfl _)
  have hpart : ∀ call, (newtonPart k newton call).Ensures fun out => out.2.isSafeguard = false := by
    intro call
    unfold newtonPart
    rw [hsafe]
    refine ensures_bind (Safeguard.unlimited_fraction _ _ _) ?_
    rintro _ rfl
    exact ensures_pure (cut_unblamed hone _ rfl _)
  unfold choose
  refine ensures_bind (ensures_true _) ?_
  rintro ⟨inside, call⟩ -
  dsimp only
  split
  · exact ensures_pure rfl
  · refine ensures_bind (hdogleg call) fun leg hleg => ensures_bind (ensures_true _) fun res _ => ?_
    split
    · exact ensures_pure hleg
    · refine ensures_bind (hpart (call + 1)) fun part hpart => ensures_bind (ensures_true _) fun res _ => ?_
      split
      · exact ensures_pure hpart
      · exact ensures_pure rfl

omit hone in
theorem finish_unblamed (A : Operator F) (g : Vec F) (normG : F) (step cauchy : Vec F) {stop : QuasinormalStop}
    (hstop : stop.isSafeguard = false) (iter : Nat) :
    (finish A g normG step cauchy stop iter).Ensures fun r => ∀ report, r.outcome = .ok report →
      report.stop.isSafeguard = false := by
  refine ensures_bind (ensures_true _) fun res _ => ensures_bind (ensures_true _) fun _ _ => ensures_pure ?_
  rintro _ ⟨⟩
  exact hstop

/-- A quasinormal step without a safeguard is not cut by it. -/
theorem solve_unblamed (par : QuasinormalParam F) (A : Operator F) (g : Vec F) (δ : F) (step cauchy : Vec F)
    (work : Nat) : (solve par A g δ .unlimited step cauchy work).Ensures fun r =>
      ∀ report, r.outcome = .ok report → report.stop.isSafeguard = false := by
  have hfrom : ∀ normG cauchy, (fromCauchy par A g δ .unlimited normG cauchy).Ensures fun r =>
      ∀ report, r.outcome = .ok report → report.stop.isSafeguard = false := by
    intro normG cauchy
    unfold fromCauchy
    refine ensures_bind (ensures_true _) fun res _ => ensures_bind (Safeguard.unlimited_fraction _ _ _) ?_
    rintro _ rfl
    rw [if_neg fun h => hone h.1]
    split
    · exact finish_unblamed _ _ _ _ _ rfl _
    · split
      · exact finish_unblamed _ _ _ _ _ rfl _
      · refine ensures_bind (ensures_true _) fun newton _ => ?_
        split
        · exact ensures_pure nofun
        · refine ensures_bind (choose_unblamed hone rfl _ _) ?_
          rintro ⟨step, stop⟩ hstop
          exact finish_unblamed _ _ _ _ _ hstop _
  refine ensures_solve (fun _ _ _ _ => nofun) (fun stop res hstop => ?_) fun _ _ => hfrom _ _
  rintro _ ⟨⟩
  rcases hstop with rfl | rfl <;> rfl

end Quasinormal
end ConstrainedOpt
