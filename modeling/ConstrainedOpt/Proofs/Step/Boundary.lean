import ConstrainedOpt.Proofs.Step.Reach

/-! # Where truncated conjugate gradients end

A recurrence that stops because it crosses the boundary of the trust region ends on it. One that stops because a
direction has no positive curvature follows it to the boundary too, but the safeguard may cut it short of that, and a
direction that vanishes leads nowhere.
-/
namespace ConstrainedOpt
open Exact Journaled

namespace TruncatedCG
variable {ε : Set.Ioi (0 : ℝ)} {n : ℕ} {k : Model (Exact ε)} {V : Submodule ℝ (Euclidean n)}
  {safe : Set (Euclidean n)} {o s p : Euclidean n} {it : Iterate (Exact ε)} {δ : ℝ}

/-- From the offset `o` the step `s` ends short of the radius `δ`, along a direction `p` in which `A` has no positive
curvature: the direction vanishes, or the point where it meets the boundary is not safe, and the safeguard cuts it. -/
def EndsShort (A : Operator (Exact ε)) (safe : Set (Euclidean n)) (δ : ℝ) (o s : Euclidean n) : Prop :=
  ∃ (b p : Euclidean n) (σ θ : ℝ), s = b + θ • σ • p ∧
    (∀ H : Euclidean n →ₗ[ℝ] Euclidean n, A.Acts H → inner ℝ p (H p) ≤ 0) ∧
    (p = 0 ∨ ‖o + (b + σ • p)‖ = δ ∧ o + (b + σ • p) ∉ safe ∧ 0 ≤ θ ∧ θ < 1)

/-- A stop that the trust region takes for its boundary is on it, or the step ends short of it. -/
def Bounded (A : Operator (Exact ε)) (safe : Set (Euclidean n)) (δ : ℝ) (o : Euclidean n) (stop : TruncatedStop)
    (step : Vec (Exact ε)) : Prop :=
  stop.isBoundary = true → ∃ s, step = vec s ∧ (‖o + s‖ = δ ∨ stop = .negativeCurvature ∧ EndsShort A safe δ o s)

/-- What a pass leaves of the boundary. -/
def Progress.Bounded (A : Operator (Exact ε)) (safe : Set (Euclidean n)) (δ : ℝ) (o : Euclidean n) :
    Progress (Exact ε) → Prop
  | .next _ => True
  | .stop reason it => TruncatedCG.Bounded A safe δ o reason it.s

/-- A move that stops for the boundary is a whole one, or it follows a direction without positive curvature. -/
theorem Move.bounded (hsafe : k.safeguard.Guards safe) (hδ : k.δ = real δ) (hit : Follows k V safe o s it)
    {out : Progress (Exact ε)} (hmove : Move k it out) (hkeeps : out.Keeps k V safe o) : out.Bounded k.H safe δ o := by
  have hx : ‖o + s‖ ≤ δ := by
    have hnorm := hit.within.norm
    rw [hδ] at hnorm
    exact real_le.mp hnorm
  cases hmove with
  | stay hreason =>
    intro hboundary
    rw [hreason] at hboundary
    cases hboundary
  | flat hheads hσ hθ hs hmodel hflat =>
    obtain ⟨-, s', hreached⟩ := hkeeps
    refine fun _ => ⟨s', hreached.step, ?_⟩
    rw [hreached.step] at hs
    obtain ⟨p, -, rfl, -⟩ := Checked.exists_vec_of_add hs
    obtain ⟨call, hθ⟩ := hθ
    rw [hδ, if_pos isFinite_real, hit.point] at hσ
    obtain ⟨σ, rfl, -, -, hbound⟩ := Sphere.exit_spec hx le_rfl hσ
    rw [hit.point, scale_vec] at hθ
    obtain ⟨θ, rfl, hθ0, hθ1, -, hsafe⟩ := hθ.ensured (hsafe.fraction call _ (σ • p) hit.within.safe)
    rw [real_mul, hit.step] at hs
    obtain rfl := vec_inj.mp (checked_add_eq_ok hs)
    have hcurvature : ∀ H : Euclidean n →ₗ[ℝ] Euclidean n, k.H.Acts H → inner ℝ p (H p) ≤ 0 := by
      intro H hacts
      have himage := hheads.image
      rw [zerosLike_vec] at himage
      have hκ := hheads.curvature
      rw [himage.ensured (hacts.image p)] at hκ
      rw [checked_inner_eq_ok hκ] at hflat
      exact real_le.mp hflat
    have hshort : s + (σ * θ) • p = s + θ • σ • p := by rw [smul_smul, mul_comm]
    by_cases hp : p = 0
    · exact .inr ⟨rfl, s, p, σ, θ, hshort, hcurvature, .inl hp⟩
    obtain ⟨hbound, -⟩ := hbound hp
    rcases hθ1.eq_or_lt with rfl | hθ
    · left
      rw [mul_one, ← add_assoc, hbound]
    · refine .inr ⟨rfl, s, p, σ, θ, hshort, hcurvature, .inr ⟨?_, fun hmem => ?_, hθ0, hθ⟩⟩
      · rw [← add_assoc, hbound]
      · rw [← add_assoc] at hmem
        exact hθ.ne (hsafe hmem)
  | stuck => exact nofun
  | cut => trivial
  | cross hheads hstride hout hθ hfull hs =>
    obtain ⟨-, s', hreached⟩ := hkeeps
    refine fun _ => ⟨s', hreached.step, .inl ?_⟩
    rw [hreached.step] at hs
    obtain ⟨p, -, rfl, -⟩ := Checked.exists_vec_of_add hs
    obtain ⟨hp, -⟩ := hheads.curved hstride.curved
    rw [hit.step] at hs
    obtain ⟨a, rfl⟩ := exists_real_of_scale hp (Checked.scale_of_add hs)
    rw [vec_inj.mp (checked_add_eq_ok hs), ← add_assoc]
    exact hstride.norm_eq hit.point hδ hx hp hout
  | full => trivial

theorem iterate_bounded (hk : Parts k V safe) (hfit : Fits k n) (hδ : k.δ = real δ) (budget : ℕ)
    (hit : Follows k V safe o s it) : (iterate k budget it).Ensures fun r => Bounded k.H safe δ o r.1 r.2.s := by
  induction budget generalizing s it with
  | zero => exact ensures_pure nofun
  | succ budget ih =>
    refine ensures_bind ((pass_ensures hk hfit hit).and (pass_moves it)) fun out hpass => ?_
    obtain ⟨hkeeps, hmove⟩ := hpass
    have hbounded := hmove.bounded hk.guards hδ hit hkeeps
    cases out with
    | next it' =>
      obtain ⟨s', hit'⟩ := hkeeps
      exact ih hit'
    | stop reason it' => exact ensures_pure hbounded

/-- From an offset within the bounds a solve that stops at the boundary of the trust region has come to it, unless its
last direction ends short of it. -/
theorem solve_bounded (hk : Parts k V safe) (ho : Within safe k.δ o) (hδ : k.δ = real δ) (s : Vec (Exact ε)) (work : ℕ) :
    (solve k (vec o) s work).Ensures fun out => ∀ r, out = .ok r → Bounded k.H safe δ o r.stop r.step := by
  refine (solve_iterates hk ho s work fun hfit => iterate_bounded hk hfit hδ _ (start_follows hfit ho)).mono ?_
  rintro out hout r hr
  obtain ⟨reason, it, rfl, hit⟩ := hout r hr
  exact hit

end TruncatedCG
end ConstrainedOpt
