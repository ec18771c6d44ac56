import ConstrainedOpt.Proofs.Sizes.Solvers
import ConstrainedOpt.Proofs.Step.Sphere

/-! # Rays that meet a sphere

From a point of a ball a ray that does not vanish leaves it at the length of `exit`, on the sphere and for good; what
`boundary` answers is the part of the first unit before that. From a point outside the ball both lengths end where the
ray is no further away than it started. No quotient of theirs has zero for a divisor, so they do not depend on what such
a quotient is.
-/
namespace ConstrainedOpt
open Exact
variable {ε : Set.Ioi (0 : ℝ)} {n : ℕ} {x p : Euclidean n} {radius σ θ : ℝ}

open scoped Classical in
/-- The exact scalars with another answer to quotients by zero. -/
@[reducible] noncomputable def Exact.withQuotient (byZero : Exact ε → Exact ε) : Scalar (Exact ε) :=
  { (inferInstance : Scalar (Exact ε)) with div := fun a b => if b = 0 then byZero a else a / b }

namespace Sphere

/-! ### Divisors -/

section Divisors
variable (byZero : Exact ε → Exact ε) {a b : Exact ε}

theorem withQuotient_of_ne (hb : b ≠ 0) : (withQuotient byZero).div a b = a / b := if_neg hb

theorem ne_zero_of_pos (ha : 0 < a) : a ≠ 0 := by
  rintro rfl
  exact not_lt_self ha

theorem two_mul_ne_zero (ha : ¬ a ≤ 0) : Scalar.two * a ≠ 0 := by
  intro h
  rw [two_eq, zero_eq] at h
  cases a with
  | nan => cases h
  | infinite s =>
    rw [mul_infinite_of_pos two_pos] at h
    cases h
  | real x =>
    have hx : 2 * x = 0 := real_inj.mp h
    exact ha (real_le.mpr (by linarith))

/-- The divisor of one formula is tested before, that of the other is twice a positive coefficient. -/
theorem root_withQuotient (ha : ¬ a ≤ 0) (b c : Exact ε) : @root _ (withQuotient byZero) a b c = root a b c := by
  unfold root
  dsimp only
  by_cases hb : 0 ≤ b
  · rw [if_pos hb, if_pos hb]
    exact ite_congr rfl (fun hpos => withQuotient_of_ne byZero (ne_zero_of_pos hpos)) fun _ => rfl
  · rw [if_neg hb, if_neg hb]
    exact withQuotient_of_ne byZero (two_mul_ne_zero ha)

theorem exit_withQuotient (still : Exact ε) (x p : Vec (Exact ε)) (radius : Exact ε) :
    @exit _ (withQuotient byZero) still x p radius = exit still x p radius := by
  by_cases hp : Vec.inner p p ≤ 0
  · exact (if_pos hp).trans (if_pos hp).symm
  · refine (if_neg hp).trans (Eq.trans ?_ (if_neg hp).symm)
    exact congrArg (Checked.inner x p >>= ·) (funext fun i => congrArg Except.ok (root_withQuotient byZero hp _ _))

theorem boundary_withQuotient (x p : Vec (Exact ε)) (radius : Exact ε) :
    @Quasinormal.boundary _ (withQuotient byZero) x p radius = Quasinormal.boundary x p radius :=
  congrArg (· >>= fun σ => pure (Scalar.minNum σ 1)) (exit_withQuotient byZero 1 x p radius)

end Divisors

/-! ### Answers -/

/-- A ray that vanishes has no length. -/
theorem exit_of_eq_zero (hp : p = 0) (still : Exact ε) (radius : Exact ε) :
    exit still (vec x) (vec p) radius = .ok still := by
  unfold exit
  rw [inner_vec, hp, inner_zero_left, zero_eq, if_pos (real_le.mpr le_rfl)]
  rfl

/-- The answer for a ray that vanishes is not asked for along another one. -/
theorem exit_still (hp : p ≠ 0) (still still' : Exact ε) (radius : Exact ε) :
    exit still (vec x) (vec p) radius = exit still' (vec x) (vec p) radius := by
  have hpos : ¬ (real (inner ℝ p p) : Exact ε) ≤ real 0 := mt real_le.mp (not_le.mpr (real_inner_self_pos.mpr hp))
  unfold exit
  rw [inner_vec, zero_eq, if_neg hpos, if_neg hpos]

theorem boundary_of_eq_zero (hp : p = 0) (radius : Exact ε) :
    Quasinormal.boundary (vec x) (vec p) radius = .ok (real 1) := by
  unfold Quasinormal.boundary
  rw [exit_of_eq_zero hp, one_eq]
  exact congrArg Except.ok (minNum_real.trans (by rw [min_self]))

theorem boundary_of_exit (hp : p ≠ 0) (h : exit (real 0) (vec x) (vec p) (real radius) = .ok (real σ : Exact ε)) :
    Quasinormal.boundary (vec x) (vec p) (real radius) = .ok (real (min σ 1) : Exact ε) := by
  unfold Quasinormal.boundary
  rw [exit_still hp 1 (real 0), h]
  exact congrArg Except.ok minNum_real

/-- A part of a stretch that ends in a ball it starts in stays in it. -/
theorem norm_add_smul_le_of_le (hx : ‖x‖ ≤ radius) (hσ : ‖x + σ • p‖ ≤ radius) (h0 : 0 ≤ θ) (hθ : θ ≤ σ) :
    ‖x + θ • p‖ ≤ radius := by
  rcases h0.eq_or_lt with rfl | hpos
  · rwa [zero_smul, add_zero]
  · have hσ0 : 0 < σ := hpos.trans_le hθ
    have hpart := norm_add_smul_le hx hσ (div_nonneg h0 hσ0.le) ((div_le_one hσ0).mpr hθ)
    rwa [smul_smul, div_mul_cancel₀ _ hσ0.ne'] at hpart

/-- The length at which a ray leaves a ball and the fraction of its first unit within the ball are real, and the same
whatever a quotient by zero is taken for. From a point of the ball a ray that does not vanish leaves it for good at that
length, on the sphere, and the fraction is the length as far as it is below one. From a point outside the ball no point
of the ray up to either is further away than the first one. -/
theorem ray_meets_sphere (x p : Euclidean n) {δ : ℝ} (hδ : 0 ≤ δ) :
    ∃ σ τ : ℝ, exit (real 0) (vec x) (vec p) (real δ) = .ok (real σ : Exact ε) ∧
      Quasinormal.boundary (vec x) (vec p) (real δ) = .ok (real τ : Exact ε) ∧
      (∀ byZero : Exact ε → Exact ε, @exit _ (withQuotient byZero) (real 0) (vec x) (vec p) (real δ) = .ok (real σ) ∧
        @Quasinormal.boundary _ (withQuotient byZero) (vec x) (vec p) (real δ) = .ok (real τ)) ∧
      (‖x‖ ≤ δ → p ≠ 0 → IsGreatest {t : ℝ | ‖x + t • p‖ ≤ δ} σ ∧ 0 ≤ σ ∧ ‖x + σ • p‖ = δ ∧ τ = min σ 1) ∧
      (δ < ‖x‖ → ∀ θ : ℝ, 0 ≤ θ → θ ≤ σ ∨ θ ≤ τ → ‖x + θ • p‖ ≤ ‖x‖) := by
  simp only [exit_withQuotient, boundary_withQuotient, forall_const]
  by_cases hp : p = 0
  · have hexit := exit_of_eq_zero (x := x) hp (real 0 : Exact ε) (real δ)
    have hboundary := boundary_of_eq_zero (x := x) hp (real δ : Exact ε)
    refine ⟨0, 1, hexit, hboundary, ⟨hexit, hboundary⟩, fun _ hne => absurd hp hne, fun _ θ _ _ => ?_⟩
    rw [hp, smul_zero, add_zero]
  obtain ⟨c, hexit, -⟩ := exit_answers (real 0 : Exact ε) (length_vec (v := x)) (length_vec (v := p)) (real δ)
  rcases le_or_gt ‖x‖ δ with hx | hx
  · obtain ⟨σ, rfl, hσ, hin, hlast⟩ := exit_spec hx le_rfl hexit
    obtain ⟨hsphere, hlast⟩ := hlast hp
    have hboundary := boundary_of_exit hp hexit
    refine ⟨σ, min σ 1, hexit, hboundary, ⟨hexit, hboundary⟩, fun _ _ => ?_, fun hout => absurd hx hout.not_ge⟩
    exact ⟨⟨hin, hlast⟩, hσ, hsphere, rfl⟩
  · obtain ⟨σ, rfl, -, hsphere⟩ := exit_outside hδ hx.le le_rfl hexit
    have hboundary := boundary_of_exit hp hexit
    refine ⟨σ, min σ 1, hexit, hboundary, ⟨hexit, hboundary⟩, fun hin => absurd hin hx.not_ge, fun _ θ h0 hθ => ?_⟩
    exact norm_add_smul_le_of_le le_rfl hsphere.le h0 (hθ.elim id fun h => h.trans (min_le_left _ _))

/-- Across an axis of the ball a ray meets the sphere at twice its direction, so its first unit is within. -/
theorem ray_meets_sphere_across :
    let x : Euclidean 2 := EuclideanSpace.single 0 3
    let p : Euclidean 2 := EuclideanSpace.single 1 2
    (0 ≤ (5 : ℝ) ∧ ‖x‖ ≤ 5 ∧ p ≠ 0) ∧
      exit (real 0) (vec x) (vec p) (real 5) = .ok (real 2 : Exact ⟨1, Set.mem_Ioi.mpr one_pos⟩) ∧
      Quasinormal.boundary (vec x) (vec p) (real 5) = .ok (real 1 : Exact ⟨1, Set.mem_Ioi.mpr one_pos⟩) := by
  intro x p
  have hnorm : ‖x‖ = 3 := by simp [x]
  have hin : ‖x‖ ≤ 5 := by rw [hnorm]; norm_num
  have hp : p ≠ 0 := by simp [p]
  obtain ⟨σ, τ, hexit, hboundary, -, hmeets, -⟩ := ray_meets_sphere x p (show 0 ≤ (5 : ℝ) by norm_num)
  obtain ⟨-, hσ, hsphere, hτ⟩ := hmeets hin hp
  have hsq : ‖x + σ • p‖ ^ 2 = 4 * σ ^ 2 + 9 := by
    have hacross : inner ℝ x p = 0 := by simp [x, p, EuclideanSpace.inner_single_left]
    have hlength : inner ℝ p p = 4 := by simp [p]; norm_num
    rw [norm_add_smul_sq, hnorm, hacross, hlength]
    norm_num
  rw [hsphere] at hsq
  obtain rfl : σ = 2 := by nlinarith
  obtain rfl : τ = 1 := hτ.trans (by norm_num)
  exact ⟨⟨by norm_num, hin, hp⟩, hexit, hboundary⟩

end Sphere
end ConstrainedOpt
