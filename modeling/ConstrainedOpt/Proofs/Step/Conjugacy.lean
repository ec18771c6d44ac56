import ConstrainedOpt.Proofs.Sizes.Solvers
import ConstrainedOpt.Proofs.Step.TruncatedCG

/-! # Conjugate directions

Without rounding the recurrence of truncated conjugate gradients is what its checks expect of it: each direction is
conjugate to all earlier ones, each residual is orthogonal to all earlier preconditioned ones, and symmetric operators
show symmetry.
-/
namespace ConstrainedOpt
open Exact Journaled
variable {ε : Set.Ioi (0 : ℝ)} {n : ℕ}

namespace TruncatedCG
variable {H M : Euclidean n →ₗ[ℝ] Euclidean n} {K : Submodule ℝ (Euclidean n)} {r r' p : Euclidean n}

/-- The residual `r` after a step along `p` from the residual `r'`, with the earlier directions in `K`: the
directions are conjugate, `r` is orthogonal to them, and preconditioning `r'` and the images of the earlier directions
leads to no other directions. -/
structure Conjugacy (H M : Euclidean n →ₗ[ℝ] Euclidean n) (K : Submodule ℝ (Euclidean n)) (r' p r : Euclidean n) :
    Prop where
  slope : 0 < inner ℝ r' (M r')
  curvature : 0 < inner ℝ p (H p)
  residual : r = r' - (inner ℝ r' (M r') / inner ℝ p (H p)) • H p
  seen : M r' ∈ K ⊔ Submodule.span ℝ {p}
  conjugate : ∀ v ∈ K, inner ℝ p (H v) = 0
  grows : ∀ v ∈ K, M (H v) ∈ K ⊔ Submodule.span ℝ {p}
  orthogonal : ∀ v ∈ K ⊔ Submodule.span ℝ {p}, inner ℝ r v = 0

theorem mem_sup_span_self (K : Submodule ℝ (Euclidean n)) (p : Euclidean n) : p ∈ K ⊔ Submodule.span ℝ {p} :=
  Submodule.mem_sup_right (Submodule.mem_span_singleton_self p)

/-- What is orthogonal to `K` and to `p` is orthogonal to both together. -/
theorem inner_sup_span {q : Euclidean n} (hK : ∀ v ∈ K, inner ℝ q v = 0) (hp : inner ℝ q p = 0) :
    ∀ v ∈ K ⊔ Submodule.span ℝ {p}, inner ℝ q v = 0 := by
  intro v hv
  obtain ⟨u, hu, w, hw, rfl⟩ := Submodule.mem_sup.mp hv
  obtain ⟨c, rfl⟩ := Submodule.mem_span_singleton.mp hw
  rw [inner_add_right, inner_smul_right, hK u hu, hp, mul_zero, add_zero]

/-- A step to the minimum along a direction that is conjugate to `K` leaves a residual that is orthogonal to both. -/
theorem orthogonal_next (hH : H.IsSymmetric) (hκ : inner ℝ p (H p) ≠ 0) (hK : ∀ v ∈ K, inner ℝ r' v = 0)
    (hconj : ∀ v ∈ K, inner ℝ p (H v) = 0) (hslope : inner ℝ r' p = inner ℝ r' (M r')) :
    ∀ v ∈ K ⊔ Submodule.span ℝ {p},
      inner ℝ (r' - (inner ℝ r' (M r') / inner ℝ p (H p)) • H p) v = 0 := by
  refine inner_sup_span (fun v hv => ?_) ?_
  · rw [inner_sub_left, real_inner_smul_left, hH p v, hconj v hv, hK v hv, mul_zero, sub_zero]
  · rw [inner_sub_left, real_inner_smul_left, real_inner_comm p (H p), div_mul_cancel₀ _ hκ, hslope, sub_self]

theorem Conjugacy.start (hH : H.IsSymmetric) (hslope : 0 < inner ℝ r' (M r'))
    (hcurved : 0 < inner ℝ (M r') (H (M r'))) :
    Conjugacy H M ⊥ r' (M r') (r' - (inner ℝ r' (M r') / inner ℝ (M r') (H (M r'))) • H (M r')) where
  slope := hslope
  curvature := hcurved
  residual := rfl
  seen := mem_sup_span_self _ _
  conjugate := by simp
  grows := by simp
  orthogonal := orthogonal_next hH hcurved.ne' (by simp) (by simp) rfl

namespace Conjugacy
variable (hc : Conjugacy H M K r' p r)
include hc

/-- The image of the last direction is a part of the last change of the residual. -/
theorem image_eq : H p = (inner ℝ p (H p) / inner ℝ r' (M r')) • (r' - r) := by
  rw [hc.residual, sub_sub_cancel, smul_smul, div_mul_div_cancel₀ hc.slope.ne', div_self hc.curvature.ne', one_smul]

/-- The direction that comes next. -/
theorem slope_next (t : ℝ) : inner ℝ r (t • p + M r) = inner ℝ r (M r) := by
  rw [inner_add_right, inner_smul_right, hc.orthogonal p (mem_sup_span_self K p), mul_zero, zero_add]

theorem conjugate_next (hM : M.IsSymmetric) :
    ∀ v ∈ K ⊔ Submodule.span ℝ {p}, inner ℝ ((inner ℝ r (M r) / inner ℝ r' (M r')) • p + M r) (H v) = 0 := by
  -- against the earlier directions by the growth of their space, against the last one by the choice of the factor
  have hold : ∀ v ∈ K, inner ℝ (M r) (H v) = 0 := by
    intro v hv
    rw [hM r (H v)]
    exact hc.orthogonal _ (hc.grows v hv)
  have hlast : inner ℝ (M r) (H p) = -(inner ℝ p (H p) / inner ℝ r' (M r')) * inner ℝ r (M r) := by
    have himage := congrArg (inner ℝ (M r)) hc.image_eq
    rw [himage, inner_smul_right, inner_sub_right, hM r r', hc.orthogonal _ hc.seen, hM r r]
    ring
  intro v hv
  obtain ⟨u, hu, w, hw, rfl⟩ := Submodule.mem_sup.mp hv
  obtain ⟨c, rfl⟩ := Submodule.mem_span_singleton.mp hw
  have hrr := hc.slope.ne'
  have hκ := hc.curvature.ne'
  simp only [map_add, map_smul, inner_add_left, inner_add_right, real_inner_smul_left, inner_smul_right,
    hc.conjugate u hu, hold u hu, hlast]
  field_simp
  ring

theorem advance (hH : H.IsSymmetric) (hM : M.IsSymmetric) (hslope : 0 < inner ℝ r (M r)) {q : Euclidean n}
    (hq : q = (inner ℝ r (M r) / inner ℝ r' (M r')) • p + M r) (hcurved : 0 < inner ℝ q (H q)) :
    Conjugacy H M (K ⊔ Submodule.span ℝ {p}) r q (r - (inner ℝ r (M r) / inner ℝ q (H q)) • H q) := by
  have hconj := hc.conjugate_next hM
  rw [← hq] at hconj
  have hseen : M r ∈ K ⊔ Submodule.span ℝ {p} ⊔ Submodule.span ℝ {q} := by
    have hsub := Submodule.sub_mem _ (mem_sup_span_self (K ⊔ Submodule.span ℝ {p}) q)
      (Submodule.mem_sup_left (Submodule.smul_mem _ (inner ℝ r (M r) / inner ℝ r' (M r')) (mem_sup_span_self K p)))
    rwa [hq, add_sub_cancel_left, ← hq] at hsub
  refine ⟨hslope, hcurved, rfl, hseen, hconj, fun v hv => ?_, ?_⟩
  · obtain ⟨u, hu, w, hw, rfl⟩ := Submodule.mem_sup.mp hv
    obtain ⟨c, rfl⟩ := Submodule.mem_span_singleton.mp hw
    rw [map_add, map_add, map_smul, map_smul, hc.image_eq, map_smul, map_sub]
    refine Submodule.add_mem _ (Submodule.mem_sup_left (hc.grows u hu)) (Submodule.smul_mem _ _ (Submodule.smul_mem _ _ ?_))
    exact Submodule.sub_mem _ (Submodule.mem_sup_left hc.seen) hseen
  · refine orthogonal_next hH hcurved.ne' hc.orthogonal hconj ?_
    rw [hq]
    exact hc.slope_next _

end Conjugacy

/-- Where a symmetric positive semidefinite map has no slope it vanishes. -/
theorem eq_zero_of_slope (hM : M.IsSymmetric) (hpos : ∀ v, 0 ≤ inner ℝ v (M v)) (h : inner ℝ r (M r) ≤ 0) : M r = 0 := by
  have hzero : inner ℝ r (M r) = 0 := le_antisymm h (hpos r)
  have hline : ∀ t : ℝ, 0 ≤ inner ℝ (M r) (M (M r)) * (t * t) + 2 * inner ℝ (M r) (M r) * t + 0 := by
    intro t
    have hsum := hpos (r + t • M r)
    rw [map_add, map_smul] at hsum
    simp only [inner_add_left, inner_add_right, real_inner_smul_left, inner_smul_right, hzero, ← hM r (M r)] at hsum
    linarith
  have hdiscrim := discrim_le_zero hline
  unfold discrim at hdiscrim
  have hsq : inner ℝ (M r) (M r) ^ 2 ≤ 0 := by linarith
  exact inner_self_eq_zero.mp (pow_eq_zero_iff two_ne_zero |>.mp (le_antisymm hsq (sq_nonneg _)))

/-! ### Models and their checks -/

variable {B C : Euclidean n →ₗ[ℝ] Euclidean n} {k : Model (Exact ε)}

/-- A model over the reals: a symmetric Hessian, a symmetric positive semidefinite preconditioner, an orthogonal
projector, no safeguard, and tolerances that are not negative. -/
structure Linear (k : Model (Exact ε)) (H B C : Euclidean n →ₗ[ℝ] Euclidean n) : Prop where
  hessian : k.H.Acts H
  symmetric : H.IsSymmetric
  preconditioner : k.B.Acts B
  preconditioner_symmetric : B.IsSymmetric
  preconditioner_nonneg : ∀ v, 0 ≤ inner ℝ v (B v)
  projector : k.C.Acts C
  projector_symmetric : C.IsSymmetric
  idempotent : ∀ v, C (C v) = C v
  safeguard : k.safeguard = .unlimited
  eps : Nonneg k.par.eps
  epsSym : Nonneg k.par.epsSym
  epsProj : Nonneg k.par.epsProj
  epsOrth : Nonneg k.par.epsOrth

/-- The preconditioner between two projections. -/
abbrev projected (B C : Euclidean n →ₗ[ℝ] Euclidean n) : Euclidean n →ₗ[ℝ] Euclidean n := C ∘ₗ B ∘ₗ C

namespace Linear
variable (hk : Linear k H B C)
include hk

theorem projected_symmetric : (projected B C).IsSymmetric := by
  intro u v
  change inner ℝ (C (B (C u))) v = inner ℝ u (C (B (C v)))
  rw [hk.projector_symmetric, hk.preconditioner_symmetric, hk.projector_symmetric]

theorem projected_nonneg (v : Euclidean n) : 0 ≤ inner ℝ v (projected B C v) := by
  change 0 ≤ inner ℝ v (C (B (C v)))
  rw [← hk.projector_symmetric]
  exact hk.preconditioner_nonneg _

end Linear

/-- Vectors that are paired symmetrically are not found asymmetric. -/
theorem asymmetric_eq_false {eps : Exact ε} (heps : Nonneg eps) {a b a' b' : Euclidean n}
    (h : inner ℝ a b' = inner ℝ b a') {found : Bool}
    (hfound : asymmetric eps (vec a) (vec b) (vec a') (vec b') = .ok found) : found = false := by
  obtain ⟨t, rfl, ht⟩ := heps
  unfold asymmetric at hfound
  obtain ⟨u, hu, hfound⟩ := Checked.bind_eq_ok.mp hfound
  obtain ⟨v, hv, hfound⟩ := Checked.bind_eq_ok.mp hfound
  obtain rfl := checked_inner_eq_ok hu
  obtain rfl := checked_inner_eq_ok hv
  cases hfound
  have habs : Scalar.abs (real (inner ℝ a b') - real (inner ℝ b a') : Exact ε) = real 0 := by
    rw [h, real_sub, sub_self]
    exact congrArg real abs_zero
  rw [habs, norm_vec, norm_vec, norm_vec, norm_vec, real_mul, real_mul, real_add, real_mul]
  exact decide_eq_false (mt real_lt.mp (not_lt.mpr (by positivity)))

/-- A slot with an orthogonal vector is found orthogonal. -/
theorem notOrthogonal_eq_false {eps : Exact ε} (heps : Nonneg eps) {z : Euclidean n} (h : inner ℝ r z = 0) {a b : ℝ}
    {found : Bool} (hfound : notOrthogonal eps (vec r) (real a) ⟨vec z, real b⟩ = .ok found) : found = false := by
  obtain ⟨t, rfl, ht⟩ := heps
  unfold notOrthogonal at hfound
  obtain ⟨u, hu, hfound⟩ := Checked.bind_eq_ok.mp hfound
  obtain rfl := checked_inner_eq_ok hu
  cases hfound
  have hroot : Scalar.sqrt (Scalar.abs (real a) * Scalar.abs (real b) : Exact ε) = real (Real.sqrt (|a| * |b|)) :=
    sqrt_real (by positivity)
  have habs : Scalar.abs (real 0 : Exact ε) = real 0 := congrArg real abs_zero
  dsimp only
  rw [h, hroot, habs, real_mul]
  exact decide_eq_false (mt real_lt.mp (not_lt.mpr (by positivity)))

/-- The slots hold preconditioned residuals of a space. -/
def Remembers (V : Submodule ℝ (Euclidean n)) (slots : List (Slot (Exact ε))) : Prop :=
  ∀ e ∈ slots, ∃ z ∈ V, ∃ c, e = ⟨vec z, real c⟩

end TruncatedCG
end ConstrainedOpt
