import ConstrainedOpt.Proofs.Assertion.Journaled
import ConstrainedOpt.Step.TruncatedCG

/-! # The effort of truncated solves

Whatever its operators answer, a truncated solve keeps within the bounds on its iterations and on the steps its
safeguard cuts, and it gives up for the latter exactly when it passes their bound.
-/
namespace ConstrainedOpt.TruncatedCG
variable {F : Type} [Scalar F] {k : Model F} {it : Iterate F}
open Journaled

/-- What a solve has spent when it stops for `reason` after `iter` iterations and `cuts` cut steps. -/
structure Spent (par : TruncatedParam F) (reason : TruncatedStop) (iter cuts : Nat) : Prop where
  bound : cuts ≤ min iter (par.failedSafeguardMax + 1)
  exact : reason = .tooManyFailedSafeguard ↔ cuts = par.failedSafeguardMax + 1

/-- A solve that goes on has room for one more cut. -/
structure Iterate.Thrifty (par : TruncatedParam F) (it : Iterate F) : Prop where
  iter : it.failedSafeguard ≤ it.iter
  max : it.failedSafeguard ≤ par.failedSafeguardMax

omit [Scalar F] in
theorem Iterate.Thrifty.spent (h : it.Thrifty k.par) (reason : TruncatedStop) (hreason : reason ≠ .tooManyFailedSafeguard) :
    Spent k.par reason it.iter it.failedSafeguard where
  bound := by
    have hcuts := h.iter
    have hmax := h.max
    omega
  exact := by
    have hmax := h.max
    exact ⟨fun hr => absurd hr hreason, fun hr => by omega⟩

/-- What a pass may leave of a solve with `n` iterations: one more, or a stop. -/
def Progress.Spends (par : TruncatedParam F) (n : Nat) : Progress F → Prop
  | .next it => it.iter = n + 1 ∧ it.Thrifty par
  | .stop reason it => it.iter ≤ n + 1 ∧ Spent par reason it.iter it.failedSafeguard

/-- Only faulty operators make a pass stop without a step. -/
theorem precondition_fault (r : Vec F) :
    (precondition k r).Ensures fun out => ∀ fault, out = .error fault → fault.isNumericalFailure = true := by
  unfold precondition
  refine ensures_bind (ensures_true _) fun _ _ => ensures_bind (ensures_true _) fun _ _ =>
    ensures_bind (ensures_true _) fun _ _ => ?_
  dsimp only
  split
  · exact ensures_pure (by rintro _ ⟨⟩; rfl)
  · split
    · exact ensures_pure (by rintro _ ⟨⟩; rfl)
    · refine ensures_bind (ensures_true _) fun _ _ => ensures_bind (ensures_true _) fun _ _ => ?_
      split
      · exact ensures_pure (by rintro _ ⟨⟩; rfl)
      · exact ensures_pure nofun

theorem residualFault_fails (z : Vec F) (rz : F) {out : Option TruncatedStop} (h : residualFault? k.par it z rz = .ok out) :
    ∀ fault, out = some fault → fault.isNumericalFailure = true := by
  rintro fault rfl
  unfold residualFault? at h
  split at h
  · cases h
  · obtain ⟨b, -, h⟩ := Checked.bind_eq_ok.mp h
    split at h
    · cases h
      rfl
    · obtain ⟨lost, -, h⟩ := Checked.bind_eq_ok.mp h
      split at h <;> cases h
      rfl

theorem directionFault_fails (p hp : Vec F) {out : Option TruncatedStop} (h : directionFault? k.par it p hp = .ok out) :
    ∀ fault, out = some fault → fault.isNumericalFailure = true := by
  rintro fault rfl
  unfold directionFault? at h
  split at h
  · cases h
  · obtain ⟨b, -, h⟩ := Checked.bind_eq_ok.mp h
    split at h <;> cases h
    rfl

theorem followNegative_spends (h : it.Thrifty k.par) (p : Vec F) (rp κ : F) {n : Nat} (hn : it.iter ≤ n + 1) :
    (followNegative k it p rp κ).Ensures (Progress.Spends k.par n) := by
  unfold followNegative
  refine ensures_bind (ensures_true _) fun _ _ => ensures_bind (ensures_true _) fun _ _ =>
    ensures_bind (ensures_true _) fun _ _ => ensures_pure ⟨hn, h.spent .negativeCurvature nofun⟩

/-- A cut step is counted, and one too many is the reason to stop. -/
theorem restart_spends {n : Nat} (hiter : it.iter = n + 1) (hcuts : it.failedSafeguard ≤ n)
    (hmax : it.failedSafeguard ≤ k.par.failedSafeguardMax) (p : Vec F) (α fraction rp κ : F) :
    (restart k it p α fraction rp κ).Ensures (Progress.Spends k.par n) := by
  unfold restart
  refine ensures_bind (ensures_true _) fun _ _ => ensures_bind (ensures_true _) fun _ _ => ?_
  dsimp only
  split
  case isTrue hmany =>
    have hcount : it.failedSafeguard = k.par.failedSafeguardMax := by omega
    refine ensures_pure ⟨Nat.le_of_eq hiter, ?_, fun _ => congrArg (· + 1) hcount, fun _ => rfl⟩
    dsimp only
    omega
  case isFalse hfew =>
    refine ensures_bind (ensures_true _) fun _ _ => ensures_bind (ensures_true _) fun _ _ =>
      ensures_bind (ensures_true _) fun _ _ => ensures_pure ⟨hiter, ?_, Nat.le_of_not_lt hfew⟩
    dsimp only
    omega

theorem followPositive_spends {n : Nat} (hiter : it.iter = n + 1) (hcuts : it.failedSafeguard ≤ n)
    (hmax : it.failedSafeguard ≤ k.par.failedSafeguardMax) (z p hp : Vec F) (rz rp κ : F) :
    (followPositive k it z p hp rz rp κ).Ensures (Progress.Spends k.par n) := by
  have hthrifty : it.Thrifty k.par := ⟨by omega, hmax⟩
  unfold followPositive
  refine ensures_bind (ensures_true _) fun _ _ => ?_
  dsimp only
  refine ensures_bind (ensures_true _) fun _ _ => ?_
  split
  · exact ensures_pure ⟨Nat.le_of_eq hiter, hthrifty.spent .objectiveIncrease nofun⟩
  · refine ensures_bind (ensures_true _) fun _ _ => ?_
    split
    · refine restart_spends ?_ ?_ ?_ _ _ _ _ _
      · exact hiter
      · exact hcuts
      · exact hmax
    · refine ensures_bind (ensures_true _) fun _ _ => ensures_bind (ensures_true _) fun _ _ => ?_
      split
      · exact ensures_pure ⟨Nat.le_of_eq hiter, hthrifty.spent .trustRegionViolated nofun⟩
      · exact ensures_bind (ensures_true _) fun _ _ => ensures_pure ⟨hiter, ⟨hthrifty.iter, hmax⟩⟩

theorem follow_spends {n : Nat} (hiter : it.iter = n) (hcuts : it.failedSafeguard ≤ n)
    (hmax : it.failedSafeguard ≤ k.par.failedSafeguardMax) (z p hp : Vec F) (rz normZ : F) :
    (follow k it z p hp rz normZ).Ensures (Progress.Spends k.par n) := by
  have hcounted : ({ it with iter := it.iter + 1 } : Iterate F).iter = n + 1 := congrArg (· + 1) hiter
  have hroom : ({ it with iter := it.iter + 1 } : Iterate F).failedSafeguard ≤ n := hcuts
  have hmax : ({ it with iter := it.iter + 1 } : Iterate F).failedSafeguard ≤ k.par.failedSafeguardMax := hmax
  unfold follow
  dsimp only
  generalize ({ it with iter := it.iter + 1 } : Iterate F) = it at hcounted hroom hmax
  refine ensures_bind (ensures_true _) fun κ _ => ensures_bind (ensures_true _) fun rp _ =>
    ensures_bind (ensures_true _) fun _ _ => ?_
  split
  · exact followNegative_spends ⟨by omega, hmax⟩ _ _ _ (Nat.le_of_eq hcounted)
  · exact followPositive_spends hcounted hroom hmax _ _ _ _ _ _

theorem pass_spends (h : it.Thrifty k.par) : (pass k it).Ensures (Progress.Spends k.par it.iter) := by
  have hstop : ∀ (it' : Iterate F) (reason : TruncatedStop), it'.iter = it.iter →
      it'.failedSafeguard = it.failedSafeguard → reason ≠ .tooManyFailedSafeguard →
      (pure (.stop reason it') : Journaled F (Progress F)).Ensures (Progress.Spends k.par it.iter) := by
    intro it' reason hiter hcuts hreason
    refine ensures_pure ⟨by omega, ?_⟩
    rw [hiter, hcuts]
    exact h.spent reason hreason
  have hfailed : ∀ reason : TruncatedStop, reason.isNumericalFailure = true → reason ≠ .tooManyFailedSafeguard := by
    rintro _ hfailure rfl
    cases hfailure
  unfold pass
  refine ensures_bind (precondition_fault it.r) fun out hout => ?_
  split
  · exact hstop _ _ rfl rfl (hfailed _ (hout _ rfl))
  case h_2 z =>
    dsimp only
    have hsame : (if it.iter = 0 then { it with normZ0 := Vec.norm z } else it).iter = it.iter ∧
        (if it.iter = 0 then { it with normZ0 := Vec.norm z } else it).failedSafeguard = it.failedSafeguard := by
      split <;> exact ⟨rfl, rfl⟩
    generalize (if it.iter = 0 then { it with normZ0 := Vec.norm z } else it) = it' at hsame
    obtain ⟨hiter, hcuts⟩ := hsame
    split
    · exact hstop _ _ hiter hcuts nofun
    · refine ensures_bind (ensures_true _) fun rz _ => ?_
      refine ensures_bind (ensures_lift fun _ h => residualFault_fails z rz h) fun fault hfault => ?_
      split
      · exact hstop _ _ hiter hcuts (hfailed _ (hfault _ rfl))
      · refine ensures_bind (ensures_true _) fun p _ => ensures_bind (ensures_true _) fun hp _ => ?_
        split
        · exact hstop _ _ hiter hcuts nofun
        · refine ensures_bind (ensures_lift fun _ h => directionFault_fails p hp h) fun fault hfault => ?_
          split
          · exact hstop _ _ hiter hcuts (hfailed _ (hfault _ rfl))
          · refine follow_spends ?_ ?_ ?_ _ _ _ _ _
            · exact hiter
            · exact hcuts ▸ h.iter
            · exact hcuts ▸ h.max

theorem iterate_spends (budget : Nat) (h : it.Thrifty k.par) :
    (iterate k budget it).Ensures fun r =>
      r.2.iter ≤ it.iter + budget ∧ Spent k.par r.1 r.2.iter r.2.failedSafeguard := by
  induction budget generalizing it with
  | zero => exact ensures_pure ⟨Nat.le_refl _, h.spent .maxItersExceeded nofun⟩
  | succ budget ih =>
    refine ensures_bind (pass_spends h) ?_
    rintro (it' | ⟨reason, it'⟩) hit
    · obtain ⟨hiter, hthrifty⟩ := hit
      refine (ih hthrifty).mono ?_
      rintro r ⟨hr, hspent⟩
      exact ⟨by omega, hspent⟩
    · exact ensures_pure ⟨by have := hit.1; dsimp only; omega, hit.2⟩

theorem offsetFault_ne (offset : Vec F) (δ : F) (safeguard : Safeguard F) :
    (offsetFault? offset δ safeguard).Ensures fun out => ∀ fault, out = some fault → fault ≠ .tooManyFailedSafeguard := by
  unfold offsetFault?
  dsimp only
  split
  · exact ensures_bind (ensures_true _) fun _ _ => ensures_pure (by rintro _ ⟨⟩; nofun)
  · refine ensures_bind (ensures_true _) fun _ _ => ?_
    split
    · exact ensures_bind (ensures_true _) fun _ _ => ensures_pure (by rintro _ ⟨⟩; nofun)
    · exact ensures_pure nofun

/-- What a solve tests before it looks at its offset. -/
structure Model.Admits (k : Model F) (offset s : Vec F) (work : Nat) : Prop where
  hessian : k.H.size = (k.g.length, k.g.length)
  preconditioner : k.B.size = (k.g.length, k.g.length)
  projector : k.C.size = (k.g.length, k.g.length)
  offset : offset.length = k.g.length
  step : s.length = k.g.length
  work : workLength k.g.length k.par.orthogMax ≤ work

/-- A solve that answers has passed its tests, and answers with the fault of its offset or with what its passes end in. -/
theorem ensures_solve {offset s : Vec F} {work : Nat} {P : TruncatedStop → Iterate F → Prop}
    (hfault : k.Admits offset s work → ∀ fault, (offsetFault? offset k.δ k.safeguard).Returns (some fault) →
      P fault (start k.g offset))
    (hpasses : k.Admits offset s work → (offsetFault? offset k.δ k.safeguard).Returns none →
      (iterate k k.par.iterMax (start k.g offset)).Ensures fun out => P out.1 out.2) :
    (solve k offset s work).Ensures fun out => ∀ r, out = .ok r → ∃ reason it, r = result reason it ∧ P reason it := by
  unfold solve
  dsimp only
  split
  · exact ensures_bind (ensures_true _) fun _ _ => ensures_pure nofun
  case isFalse hsizes =>
    split
    · exact ensures_bind (ensures_true _) fun _ _ => ensures_pure nofun
    case isFalse hlengths =>
      split
      · exact ensures_bind (ensures_true _) fun _ _ => ensures_pure nofun
      case isFalse hwork =>
        simp only [not_or, Classical.not_not] at hsizes hlengths
        have hadmits : k.Admits offset s work :=
          ⟨hsizes.1, hsizes.2.1, hsizes.2.2, hlengths.1, hlengths.2, Nat.not_lt.mp hwork⟩
        refine ensures_bind (ensures_returns _) fun out hout => ?_
        split
        case h_1 fault =>
          refine ensures_pure ?_
          rintro _ ⟨⟩
          exact ⟨fault, _, rfl, hfault hadmits fault hout⟩
        case h_2 =>
          refine ensures_bind (hpasses hadmits hout) ?_
          rintro ⟨reason, it⟩ hit
          refine ensures_bind (ensures_true _) fun _ _ => ensures_pure ?_
          rintro _ ⟨⟩
          exact ⟨reason, it, rfl, hit⟩

/-- Every answer of a solve is within its bounds. -/
theorem solve_spends (k : Model F) (offset s : Vec F) (work : Nat) :
    (solve k offset s work).Ensures fun out => ∀ r, out = .ok r →
      r.iter ≤ k.par.iterMax ∧ Spent k.par r.stop r.iter r.failedSafeguard := by
  have hstart : (start k.g offset).Thrifty k.par := ⟨Nat.le_refl 0, Nat.zero_le _⟩
  refine (ensures_solve (P := fun reason it => it.iter ≤ k.par.iterMax ∧
    Spent k.par reason it.iter it.failedSafeguard) (fun _ fault hfault => ?_) fun _ _ => ?_).mono fun out hout r hr => ?_
  · exact ⟨Nat.zero_le _, hstart.spent _ (hfault.ensured (offsetFault_ne offset k.δ k.safeguard) _ rfl)⟩
  · refine (iterate_spends _ hstart).mono ?_
    rintro ⟨reason, it⟩ ⟨hiter, hspent⟩
    exact ⟨Nat.le_trans hiter (Nat.le_of_eq (Nat.zero_add _)), hspent⟩
  · obtain ⟨reason, it, rfl, hit⟩ := hout r hr
    exact hit

end ConstrainedOpt.TruncatedCG
