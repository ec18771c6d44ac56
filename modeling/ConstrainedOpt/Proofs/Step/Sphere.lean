import ConstrainedOpt.Step.Sphere
import ConstrainedOpt.Proofs.Exact.Vector

/-! # Leaving a ball, exactly

In exact arithmetic both formulas give the nonnegative root, and the ray leaves the ball on its boundary.
-/
namespace ConstrainedOpt.Sphere
open Exact
variable {ε : Set.Ioi (0 : ℝ)} {n : ℕ}

/-- The root is the larger one of the two: from there on the square rises. -/
theorem root_spec {a b c : ℝ} (ha : 0 < a) (hc : c ≤ 0) :
    ∃ σ : ℝ, root (real a : Exact ε) (real b) (real c) = real σ ∧ 0 ≤ σ ∧ 0 ≤ 2 * a * σ + b ∧
      a * σ ^ 2 + b * σ + c = 0 := by
  have hac : a * c ≤ 0 := mul_nonpos_of_nonneg_of_nonpos ha.le hc
  have hdisc : 0 ≤ b * b - 2 * 2 * a * c := by nlinarith [mul_self_nonneg b]
  obtain ⟨d, hd, hd0, hdd⟩ : ∃ d, d = Real.sqrt (b * b - 2 * 2 * a * c) ∧ 0 ≤ d ∧ d * d = b * b - 2 * 2 * a * c :=
    ⟨_, rfl, Real.sqrt_nonneg _, Real.mul_self_sqrt hdisc⟩
  have hroot : Scalar.sqrt (Scalar.maxNum (real b * real b - Scalar.two * Scalar.two * real a * real c) 0 : Exact ε) =
      real d := by
    simp only [two_eq, real_mul, real_sub, zero_eq, maxNum_real, max_eq_left hdisc]
    rw [sqrt_real hdisc, hd]
  unfold root
  rw [hroot]
  simp only [zero_eq, real_le, real_add, real_lt, real_neg, two_eq, real_mul, real_sub]
  by_cases hb : 0 ≤ b
  · rw [if_pos hb]
    by_cases hbd : 0 < b + d
    · -- the root without cancellation for a ray that points outwards
      have hσ : 0 ≤ 2 * -c / (b + d) := div_nonneg (by linarith) hbd.le
      rw [if_pos hbd, real_div hbd.ne']
      refine ⟨_, rfl, hσ, by positivity, ?_⟩
      field_simp
      nlinarith
    · rw [if_neg hbd]
      have hb0 : b = 0 := by linarith
      have hd0 : d = 0 := by linarith
      refine ⟨0, rfl, le_rfl, by rw [hb0, mul_zero, add_zero], ?_⟩
      rw [hb0, hd0] at hdd
      have hac : a * c = 0 := by linarith
      simpa [ha.ne'] using hac
  · rw [if_neg hb, real_div (by positivity)]
    refine ⟨_, rfl, div_nonneg (by linarith) (by positivity), ?_, ?_⟩
    · rw [mul_div_cancel₀ _ (by positivity)]
      linarith
    · field_simp
      nlinarith

theorem norm_add_smul_sq (x p : Euclidean n) (σ : ℝ) :
    ‖x + σ • p‖ ^ 2 = inner ℝ p p * σ ^ 2 + 2 * inner ℝ x p * σ + ‖x‖ ^ 2 := by
  rw [norm_add_sq_real, inner_smul_right, norm_smul, mul_pow, Real.norm_eq_abs, sq_abs,
    real_inner_self_eq_norm_sq]
  ring

/-- Beyond the larger root of a square that rises from there on there is no other one. -/
theorem le_of_root {a b c σ t : ℝ} (ha : 0 < a) (hslope : 0 ≤ 2 * a * σ + b) (hroot : a * σ ^ 2 + b * σ + c = 0)
    (ht : a * t ^ 2 + b * t + c ≤ 0) : t ≤ σ := by
  by_contra hlt
  have hgap : 0 < t - σ := sub_pos.mpr (not_le.mp hlt)
  have hsplit : a * t ^ 2 + b * t + c = (t - σ) * (a * (t - σ) + (2 * a * σ + b)) := by linear_combination hroot
  have hpos : 0 < (t - σ) * (a * (t - σ) + (2 * a * σ + b)) := by positivity
  linarith

/-- From within the ball a ray leaves it at a nonnegative length, on the boundary and for good unless its direction
vanishes. -/
theorem exit_spec {x p : Euclidean n} {radius still : ℝ} {c : Exact ε} (hx : ‖x‖ ≤ radius) (hstill : 0 ≤ still)
    (h : exit (real still) (vec x) (vec p) (real radius) = .ok c) :
    ∃ σ, c = real σ ∧ 0 ≤ σ ∧ ‖x + σ • p‖ ≤ radius ∧
      (p ≠ 0 → ‖x + σ • p‖ = radius ∧ ∀ t, ‖x + t • p‖ ≤ radius → t ≤ σ) := by
  have hradius : 0 ≤ radius := (norm_nonneg x).trans hx
  unfold exit at h
  simp only [inner_vec, zero_eq, real_le] at h
  split at h
  case isTrue hp =>
    have hp0 : p = 0 := inner_self_eq_zero.mp (le_antisymm hp real_inner_self_nonneg)
    cases h
    exact ⟨still, rfl, hstill, by simpa [hp0] using hx, fun hne => absurd hp0 hne⟩
  case isFalse hp =>
    have ha : 0 < inner ℝ p p := not_le.mp hp
    have hc : ‖x‖ ^ 2 - radius ^ 2 ≤ 0 := by nlinarith [norm_nonneg x]
    obtain ⟨i, hi, h⟩ := Checked.bind_eq_ok.mp h
    rw [checked_inner_eq_ok hi] at h
    obtain ⟨σ, hσ, hσ0, hslope, hroot⟩ := root_spec (ε := ε) (b := 2 * inner ℝ x p) ha hc
    have hmin : Scalar.minNum (Vec.inner (vec x) (vec x) - real radius * real radius) (real 0 : Exact ε) =
        real (‖x‖ ^ 2 - radius ^ 2) := by
      rw [inner_vec, real_mul, real_sub, minNum_real, real_inner_self_eq_norm_sq, ← sq, min_eq_left hc]
    simp only [two_eq, real_mul, real_sub, inner_vec, minNum_real] at h hmin
    rw [hmin, hσ] at h
    cases h
    have hnorm : ‖x + σ • p‖ = radius := by
      rw [← sq_eq_sq₀ (norm_nonneg _) hradius, norm_add_smul_sq]
      linarith
    refine ⟨σ, rfl, hσ0, hnorm.le, fun _ => ⟨hnorm, fun t ht => le_of_root ha hslope hroot ?_⟩⟩
    have hsq : ‖x + t • p‖ ^ 2 ≤ radius ^ 2 := pow_le_pow_left₀ (norm_nonneg _) ht 2
    rw [norm_add_smul_sq] at hsq
    linarith

/-- A start outside the ball counts as one on the boundary of a larger ball, which the ray does not leave. -/
theorem exit_outside {x p : Euclidean n} {radius still : ℝ} {c : Exact ε} (hradius : 0 ≤ radius) (hx : radius ≤ ‖x‖)
    (hstill : 0 ≤ still) (h : exit (real still) (vec x) (vec p) (real radius) = .ok c) :
    ∃ σ, c = real σ ∧ 0 ≤ σ ∧ ‖x + σ • p‖ = ‖x‖ := by
  unfold exit at h
  simp only [inner_vec, zero_eq, real_le] at h
  split at h
  case isTrue hp =>
    have hp0 : p = 0 := inner_self_eq_zero.mp (le_antisymm hp real_inner_self_nonneg)
    cases h
    exact ⟨still, rfl, hstill, by rw [hp0, smul_zero, add_zero]⟩
  case isFalse hp =>
    obtain ⟨i, hi, h⟩ := Checked.bind_eq_ok.mp h
    rw [checked_inner_eq_ok hi] at h
    obtain ⟨σ, hσ, hσ0, -, hroot⟩ := root_spec (ε := ε) (b := 2 * inner ℝ x p) (not_le.mp hp) le_rfl
    have hmin : min (inner ℝ x x - radius * radius) 0 = 0 := by
      rw [min_eq_right]
      rw [real_inner_self_eq_norm_sq]
      nlinarith
    simp only [two_eq, real_mul, real_sub, minNum_real, hmin] at h
    rw [hσ] at h
    cases h
    refine ⟨σ, rfl, hσ0, ?_⟩
    rw [← sq_eq_sq₀ (norm_nonneg _) (norm_nonneg _), norm_add_smul_sq]
    linarith

/-- Along a ray up to where it leaves the ball the norm does not exceed the radius and that of the start. -/
theorem exit_le {x p : Euclidean n} {radius still : ℝ} {c : Exact ε} (hradius : 0 ≤ radius) (hstill : 0 ≤ still)
    (h : exit (real still) (vec x) (vec p) (real radius) = .ok c) :
    ∃ σ, c = real σ ∧ ‖x + σ • p‖ ≤ max radius ‖x‖ := by
  rcases le_total ‖x‖ radius with hx | hx
  · obtain ⟨σ, hσ, -, hin, -⟩ := exit_spec hx hstill h
    exact ⟨σ, hσ, hin.trans (le_max_left _ _)⟩
  · obtain ⟨σ, hσ, -, hnorm⟩ := exit_outside hradius hx hstill h
    exact ⟨σ, hσ, hnorm.le.trans (le_max_right _ _)⟩

/-- A ray that has left the ball does not come back into it. -/
theorem le_of_left {x p : Euclidean n} {radius σ t : ℝ} (hx : ‖x‖ ≤ radius) (hσ : ‖x + σ • p‖ ≤ radius) (ht : 0 < t)
    (hleft : radius ≤ ‖x + t • p‖) (hp : p ≠ 0) : σ ≤ t := by
  by_contra hlt
  have hlt : t < σ := not_le.mp hlt
  have hp : 0 < inner ℝ p p := real_inner_self_pos.mpr hp
  have hradius : 0 ≤ radius := (norm_nonneg x).trans hx
  have hstart : ‖x‖ ^ 2 ≤ radius ^ 2 := pow_le_pow_left₀ (norm_nonneg x) hx 2
  have hend : ‖x + σ • p‖ ^ 2 ≤ radius ^ 2 := pow_le_pow_left₀ (norm_nonneg _) hσ 2
  have hmid : radius ^ 2 ≤ ‖x + t • p‖ ^ 2 := pow_le_pow_left₀ hradius hleft 2
  rw [norm_add_smul_sq] at hend hmid
  -- between two points of the ball the square of the norm is strictly below the interpolated one
  have hconvex : 0 < inner ℝ p p * t * σ * (σ - t) :=
    mul_pos (mul_pos (mul_pos hp ht) (ht.trans hlt)) (sub_pos.mpr hlt)
  nlinarith [mul_le_mul_of_nonneg_left hend ht.le, mul_le_mul_of_nonneg_left hstart (sub_pos.mpr hlt).le,
    mul_le_mul_of_nonneg_left hmid (ht.trans hlt).le]

/-- A part of a step that stays in a ball stays in it. -/
theorem norm_add_smul_le {x p : Euclidean n} {radius θ : ℝ} (hx : ‖x‖ ≤ radius) (hxp : ‖x + p‖ ≤ radius)
    (h0 : 0 ≤ θ) (h1 : θ ≤ 1) : ‖x + θ • p‖ ≤ radius := by
  have hsplit : x + θ • p = (1 - θ) • x + θ • (x + p) := by
    rw [sub_smul, one_smul, smul_add]
    abel
  calc ‖x + θ • p‖ ≤ ‖(1 - θ) • x‖ + ‖θ • (x + p)‖ := hsplit ▸ norm_add_le _ _
    _ = (1 - θ) * ‖x‖ + θ * ‖x + p‖ := by
      rw [norm_smul, norm_smul, Real.norm_of_nonneg h0, Real.norm_of_nonneg (sub_nonneg.mpr h1)]
    _ ≤ (1 - θ) * radius + θ * radius :=
      add_le_add (mul_le_mul_of_nonneg_left hx (sub_nonneg.mpr h1)) (mul_le_mul_of_nonneg_left hxp h0)
    _ = radius := by ring

end ConstrainedOpt.Sphere
