import ConstrainedOpt.Proofs.Step.Krylov
import ConstrainedOpt.Proofs.Step.Unguarded

/-! # Stability of the normal equations and of quasinormal steps

Over the reals no solve of normal equations with a tolerance that is not negative ends in an instability, so neither
does a quasinormal step; and where nothing is guarded the safeguard cuts none.
-/
namespace ConstrainedOpt
open Exact Journaled
variable {ε : Set.Ioi (0 : ℝ)} {n m : ℕ} {L : Euclidean n →ₗ[ℝ] Euclidean m} {A : Operator (Exact ε)} {g : Euclidean m}

namespace NormalEquations
variable {par : NormalParam (Exact ε)} {w r p : Euclidean m}

/-- A solution that did not become undefined. -/
def Stable (s : Solved (Exact ε)) : Prop := s.outcome ≠ .error .numericalInstability

theorem finish_stable (i : ℕ) (w : Euclidean m) : Stable (finish i (vec w) : Solved (Exact ε)) := by
  unfold Stable finish
  rw [if_pos isFinite_vec]
  nofun

theorem pass_stable (hA : A.Acts L) (heps : Nonneg par.epsRel) {normB : ℝ} (hnorm : 0 ≤ normB) (j : ℕ) (hr : r ≠ 0) :
    (pass par A (real normB) j (realIterate w r p)).Ensures fun
      | .next s => ∃ w r p : Euclidean m, s = realIterate w r p ∧ r ≠ 0
      | .done x => ∃ w : Euclidean m, x = vec w
      | .failed _ => False := by
  obtain ⟨e, he, he0⟩ := heps
  refine (pass_eq_realPass hA normB j fun h => absurd h hr).mono ?_
  rintro _ rfl
  unfold realPass
  by_cases hflat : LinearMap.adjoint L p = 0
  · rw [if_pos hflat]
    exact ⟨w, rfl⟩
  · rw [if_neg hflat]
    by_cases hsmall : (real ‖nextResidual L r p‖ : Exact ε) ≤ par.epsRel * real normB
    · rw [if_pos hsmall]
      exact ⟨_, rfl⟩
    · rw [if_neg hsmall]
      refine ⟨_, _, _, rfl, fun h0 => hsmall ?_⟩
      rw [h0, norm_zero, he]
      exact real_le.mpr (mul_nonneg he0 hnorm)

theorem iterate_stable (hA : A.Acts L) (heps : Nonneg par.epsRel) {normB : ℝ} (hnorm : 0 ≤ normB) (budget j : ℕ)
    (hr : r ≠ 0) : (iterate par A (real normB) budget j (realIterate w r p)).Ensures Stable := by
  induction budget generalizing j w r p with
  | zero => exact ensures_pure (finish_stable j w)
  | succ budget ih =>
    refine ensures_bind (pass_stable hA heps hnorm _ hr) ?_
    rintro (s | x | x) hx
    · obtain ⟨w, r, p, rfl, hr⟩ := hx
      exact ih _ hr
    · obtain ⟨w, rfl⟩ := hx
      exact ensures_pure (finish_stable _ w)
    · exact hx.elim

theorem solve_stable (hA : A.Acts L) (heps : Nonneg par.epsRel) (b : Euclidean m) (w : Vec (Exact ε)) (work : ℕ) :
    (solve par A (vec b) w work).Ensures Stable := by
  unfold solve
  split
  · exact ensures_bind (ensures_true _) fun _ _ => ensures_pure nofun
  case isFalse hlen =>
    split
    · exact ensures_bind (ensures_true _) fun _ _ => ensures_pure nofun
    · simp only [not_or, not_not] at hlen
      dsimp only
      rw [zerosLike_of_length (hlen.2.trans hA.rows), sqrt_inner_vec, inner_vec, if_neg (by simp), zero_eq]
      split
      · exact ensures_pure nofun
      case isFalse hne =>
        refine iterate_stable hA heps (norm_nonneg b) _ _ ?_
        rintro rfl
        exact hne (real_beq.mpr norm_zero)

theorem leastNorm_stable (hA : A.Acts L) (heps : Nonneg par.epsRel) (g : Euclidean m) (u : Vec (Exact ε)) (work : ℕ) :
    (leastNorm par A (vec g) u work).Ensures Stable := by
  unfold leastNorm
  split
  · exact ensures_bind (ensures_true _) fun _ _ => ensures_pure nofun
  · refine ensures_bind (ensures_true _) fun shortage _ => ?_
    split
    · exact ensures_pure nofun
    · refine ensures_bind (P := fun b => b = vec g) (ensures_lift fun b h => (Checked.copy_eq_ok.mp h).2) ?_
      rintro _ rfl
      rw [one_eq, real_neg, scale_vec]
      refine ensures_bind (solve_stable hA heps _ _ _) fun s hs => ?_
      split
      case h_1 e he =>
        rw [Stable, he] at hs
        exact ensures_pure hs
      · exact ensures_bind (ensures_true _) fun _ _ => ensures_pure nofun

end NormalEquations

namespace Quasinormal
variable {par : QuasinormalParam (Exact ε)}

/-- A step that did not become undefined, and that no safeguard cut. -/
structure Uncut (r : QuasinormalStep (Exact ε)) : Prop where
  outcome : r.outcome ≠ .error .numericalInstability
  stop : ∀ report, r.outcome = .ok report → report.stop.isSafeguard = false

theorem finish_outcome (A : Operator (Exact ε)) (g : Vec (Exact ε)) (normG : Exact ε) (step cauchy : Vec (Exact ε))
    (stop : QuasinormalStop) (iter : ℕ) :
    (finish A g normG step cauchy stop iter).Ensures fun r => r.outcome ≠ .error .numericalInstability :=
  ensures_bind (ensures_true _) fun _ _ => ensures_bind (ensures_true _) fun _ _ => ensures_pure nofun

theorem fromCauchy_outcome (hA : A.Acts L) (heps : Nonneg par.normalEq.epsRel) (g : Euclidean m)
    (safeguard : Safeguard (Exact ε)) (δ normG : Exact ε) (cauchy : Vec (Exact ε)) :
    (fromCauchy par A (vec g) δ safeguard normG cauchy).Ensures fun r => r.outcome ≠ .error .numericalInstability := by
  refine ensures_fromCauchy ((NormalEquations.leastNorm_stable hA heps g _ _).mono ?_) fun _ _ _ => finish_outcome _ _ _ _ _ _ _
  rintro newton hnewton e he ⟨⟩
  exact hnewton he

/-- A quasinormal step over the reals is found. -/
theorem solve_outcome (hA : A.Acts L) (heps : Nonneg par.normalEq.epsRel) (g : Euclidean m)
    (safeguard : Safeguard (Exact ε)) (δ : Exact ε) (step cauchy : Vec (Exact ε)) (work : ℕ) :
    (solve par A (vec g) δ safeguard step cauchy work).Ensures fun r => r.outcome ≠ .error .numericalInstability := by
  refine ensures_solve ?_ (fun _ _ _ => nofun) fun _ _ => fromCauchy_outcome hA heps _ _ _ _ _
  rintro _ _ _ hfault ⟨⟩
  rw [norm_vec] at hfault
  exact absurd (hfault rfl) (by simp)

/-- A quasinormal step over the reals is found, and no safeguard cuts it where there is none. -/
theorem solve_uncut (hA : A.Acts L) (heps : Nonneg par.normalEq.epsRel) (g : Euclidean m) (δ : Exact ε)
    (step cauchy : Vec (Exact ε)) (work : ℕ) : (solve par A (vec g) δ .unlimited step cauchy work).Ensures Uncut := by
  have hone : ¬ (1 : Exact ε) < 1 := mt real_lt.mp (lt_irrefl 1)
  exact ((solve_outcome hA heps g .unlimited δ step cauchy work).and
    (solve_unblamed hone par A (vec g) δ step cauchy work)).mono fun _ h => ⟨h.1, h.2⟩

end Quasinormal
end ConstrainedOpt
