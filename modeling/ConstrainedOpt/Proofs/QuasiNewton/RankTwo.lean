import Mathlib.LinearAlgebra.FiniteDimensional.Basic
import ConstrainedOpt.Proofs.QuasiNewton.RankOne

/-! # Updates of rank two

The update of a symmetric positive definite operator by a pair of a step `s` and a change `y` with `0 < ⟪y, s⟫`: it takes the
image of the step out and puts the change in, so that the new operator takes `s` to `y` and is positive definite again. Its
inverse is the one of the old operator between two slides along the pair. A history applies the updates of its pairs of
positive curvature in turn, to the identity.
-/
namespace ConstrainedOpt.QuasiNewton
open InnerProductSpace
variable {E : Type*} [NormedAddCommGroup E] [InnerProductSpace ℝ E] {B H : E →ₗ[ℝ] E} {s y : E}

structure PositiveDefinite (B : E →ₗ[ℝ] E) : Prop where
  symmetric : B.IsSymmetric
  pos : ∀ v, v ≠ 0 → 0 < inner ℝ v (B v)

theorem positiveDefinite_id : PositiveDefinite (LinearMap.id : E →ₗ[ℝ] E) where
  symmetric := LinearMap.IsSymmetric.id
  pos _ hv := real_inner_self_pos.mpr hv

/-- The inverse of a symmetric positive definite operator is one. -/
theorem PositiveDefinite.inverse (hB : PositiveDefinite B) (hBH : ∀ v, B (H v) = v) : PositiveDefinite H where
  symmetric u v := by
    calc inner ℝ (H u) v = inner ℝ (H u) (B (H v)) := by rw [hBH]
      _ = inner ℝ (B (H u)) (H v) := (hB.symmetric _ _).symm
      _ = inner ℝ u (H v) := by rw [hBH]
  pos v hv := by
    have hHv : H v ≠ 0 := by
      intro h
      rw [← hBH v, h, map_zero] at hv
      exact hv rfl
    have hpos := hB.pos (H v) hHv
    rwa [hBH, real_inner_comm] at hpos

/-- A pair of positive curvature has a step. -/
theorem step_ne_zero (hys : 0 < inner ℝ y s) : s ≠ 0 := by
  rintro rfl
  rw [inner_zero_right] at hys
  exact lt_irrefl 0 hys

/-! ### One update -/

/-- The operator `B` with the image of `s` taken out and `y` put in. -/
noncomputable def rankTwo (B : E →ₗ[ℝ] E) (s y : E) : E →ₗ[ℝ] E :=
  B - along (inner ℝ s (B s)) (B s) (B s) + along (inner ℝ y s) y y

theorem rankTwo_apply (v : E) : rankTwo B s y v =
    B v + (-inner ℝ (B s) v / inner ℝ s (B s)) • B s + (inner ℝ y v / inner ℝ y s) • y := by
  rw [rankTwo, LinearMap.add_apply, LinearMap.sub_apply, along_apply, along_apply, neg_div, neg_smul, sub_eq_add_neg]

theorem rankTwo_step (hB : PositiveDefinite B) (hys : 0 < inner ℝ y s) : rankTwo B s y s = y := by
  have hsbs := (hB.pos s (step_ne_zero hys)).ne'
  rw [rankTwo_apply, real_inner_comm, neg_div, div_self hsbs, div_self hys.ne', neg_one_smul, one_smul, add_neg_cancel,
    zero_add]

theorem PositiveDefinite.rankTwo (hB : PositiveDefinite B) (hys : 0 < inner ℝ y s) :
    PositiveDefinite (rankTwo B s y) where
  symmetric := (hB.symmetric.sub (along_isSymmetric _ _)).add (along_isSymmetric _ _)
  pos v hv := by
    have hsbs := hB.pos s (step_ne_zero hys)
    -- the part of `v` that the step leaves
    obtain ⟨c, hc⟩ : ∃ c, c = inner ℝ (B s) v / inner ℝ s (B s) := ⟨_, rfl⟩
    have hsplit : inner ℝ v (QuasiNewton.rankTwo B s y v) =
        inner ℝ (v - c • s) (B (v - c • s)) + inner ℝ y v ^ 2 / inner ℝ y s := by
      have hcs : c * inner ℝ s (B s) = inner ℝ (B s) v := by rw [hc, div_mul_cancel₀ _ hsbs.ne']
      have hsv : inner ℝ s (B v) = inner ℝ (B s) v := (hB.symmetric s v).symm
      have hvs : inner ℝ v (B s) = inner ℝ (B s) v := real_inner_comm _ _
      have hvy : inner ℝ v y = inner ℝ y v := real_inner_comm _ _
      rw [rankTwo_apply, neg_div, ← hc]
      simp only [map_sub, map_smul, inner_add_right, inner_sub_left, inner_sub_right, inner_smul_left, inner_smul_right,
        neg_smul, inner_neg_right, hsv, hvs, hvy, conj_trivial]
      linear_combination (-c) * hcs
    rw [hsplit]
    by_cases hleft : v - c • s = 0
    · have hvs : v = c • s := sub_eq_zero.mp hleft
      have hc0 : c ≠ 0 := by
        rintro rfl
        rw [zero_smul] at hvs
        exact hv hvs
      rw [hleft, map_zero, inner_zero_right, zero_add, hvs, inner_smul_right]
      positivity
    · exact add_pos_of_pos_of_nonneg (hB.pos _ hleft) (by positivity)

/-! ### Its inverse -/

/-- Slides along `p` as far as the part along `q` tells, where `c` stands for `⟪p, q⟫`. -/
noncomputable def slide (c : ℝ) (p q : E) : E →ₗ[ℝ] E := LinearMap.id - along c p q

theorem slide_apply (c : ℝ) (p q v : E) : slide c p q v = v - (inner ℝ q v / c) • p := by
  rw [slide, LinearMap.sub_apply, LinearMap.id_apply, along_apply]

/-- The inverse `H` between the slides along the pair. -/
noncomputable def inverseRankTwo (H : E →ₗ[ℝ] E) (s y : E) : E →ₗ[ℝ] E :=
  slide (inner ℝ y s) s y * H * slide (inner ℝ y s) y s + along (inner ℝ y s) s s

theorem inverseRankTwo_apply (v : E) : inverseRankTwo H s y v =
    H (v + (-(inner ℝ s v / inner ℝ y s)) • y) +
      (inner ℝ s v / inner ℝ y s - inner ℝ y (H (v + (-(inner ℝ s v / inner ℝ y s)) • y)) / inner ℝ y s) • s := by
  rw [inverseRankTwo, LinearMap.add_apply, Module.End.mul_apply, Module.End.mul_apply, slide_apply, slide_apply, along_apply,
    neg_smul, ← sub_eq_add_neg, sub_smul]
  abel

theorem rankTwo_inverseRankTwo (hB : PositiveDefinite B) (hBH : ∀ v, B (H v) = v) (hys : 0 < inner ℝ y s) (v : E) :
    rankTwo B s y (inverseRankTwo H s y v) = v := by
  have hsbs := (hB.pos s (step_ne_zero hys)).ne'
  rw [inverseRankTwo_apply]
  obtain ⟨a, ha⟩ : ∃ a, a = inner ℝ s v / inner ℝ y s := ⟨_, rfl⟩
  obtain ⟨u, hu⟩ : ∃ u, u = v + (-a) • y := ⟨_, rfl⟩
  obtain ⟨b, hb⟩ : ∃ b, b = inner ℝ y (H u) / inner ℝ y s := ⟨_, rfl⟩
  rw [← ha, ← hu, ← hb]
  -- nothing of the slid vector is left along the step
  have hsu : inner ℝ s u = 0 := by
    rw [hu, inner_add_right, inner_smul_right, real_inner_comm y s, ha]
    field_simp
    ring
  have hout : inner ℝ (B s) (H u + (a - b) • s) = (a - b) * inner ℝ s (B s) := by
    rw [hB.symmetric, map_add, map_smul, hBH, inner_add_right, hsu, zero_add, inner_smul_right]
  have hin : inner ℝ y (H u + (a - b) • s) = a * inner ℝ y s := by
    have hby : b * inner ℝ y s = inner ℝ y (H u) := by rw [hb, div_mul_cancel₀ _ hys.ne']
    rw [inner_add_right, inner_smul_right, ← hby]
    ring
  rw [rankTwo_apply, hout, hin, neg_div, mul_div_cancel_right₀ _ hsbs, mul_div_cancel_right₀ _ hys.ne', map_add, map_smul,
    hBH, hu]
  module

/-! ### Histories -/

/-- The operator of some pairs, newest first. -/
noncomputable def curvatureMap : List (E × E) → E →ₗ[ℝ] E
  | [] => LinearMap.id
  | (s, y) :: older => if 0 < inner ℝ y s then rankTwo (curvatureMap older) s y else curvatureMap older

/-- The inverse of the operator of some pairs, newest first. -/
noncomputable def inverseCurvatureMap : List (E × E) → E →ₗ[ℝ] E
  | [] => LinearMap.id
  | (s, y) :: older => if 0 < inner ℝ y s then inverseRankTwo (inverseCurvatureMap older) s y else inverseCurvatureMap older

theorem curvatureMap_positiveDefinite (pairs : List (E × E)) : PositiveDefinite (curvatureMap pairs) := by
  induction pairs with
  | nil => exact positiveDefinite_id
  | cons pair older ih =>
    obtain ⟨s, y⟩ := pair
    unfold curvatureMap
    split
    case isTrue hys => exact ih.rankTwo hys
    case isFalse => exact ih

theorem curvatureMap_inverse (pairs : List (E × E)) (v : E) : curvatureMap pairs (inverseCurvatureMap pairs v) = v := by
  induction pairs generalizing v with
  | nil => rfl
  | cons pair older ih =>
    obtain ⟨s, y⟩ := pair
    unfold curvatureMap inverseCurvatureMap
    split
    case isTrue hys => exact rankTwo_inverseRankTwo (curvatureMap_positiveDefinite older) ih hys v
    case isFalse => exact ih v

/-- In finite dimensions a right inverse is a left one. -/
theorem inverseCurvatureMap_curvatureMap [FiniteDimensional ℝ E] (pairs : List (E × E)) (v : E) :
    inverseCurvatureMap pairs (curvatureMap pairs v) = v := by
  have hright : curvatureMap pairs ∘ₗ inverseCurvatureMap pairs = LinearMap.id :=
    LinearMap.ext (curvatureMap_inverse pairs)
  exact LinearMap.congr_fun ((LinearMap.comp_eq_id_comm ℝ E).mp hright) v

end ConstrainedOpt.QuasiNewton
