import ConstrainedOpt.Step.TruncatedCG
import ConstrainedOpt.Proofs.Exact.Strict

/-! # Descent of the quadratic model

Where its operators are linear, the recurrence knows the model it works on: the residual is the negative
gradient, the value it carries is that of the model, and no step along one of its directions raises it.
-/
namespace ConstrainedOpt.TruncatedCG
open Exact Journaled
variable {ε : Set.Ioi (0 : ℝ)} {n : ℕ} {k : Model (Exact ε)} {H : Euclidean n →ₗ[ℝ] Euclidean n}
  {g s p : Euclidean n} {it : Iterate (Exact ε)}

/-- Value of the model at `s`. -/
noncomputable def quadratic (H : Euclidean n →ₗ[ℝ] Euclidean n) (g s : Euclidean n) : ℝ :=
  inner ℝ g s + 1 / 2 * inner ℝ s (H s)

theorem quadratic_zero : quadratic H g 0 = 0 := by simp [quadratic]

/-- A model over the reals with Hessian `H` and gradient `g`, all operators of which are linear. -/
structure Reads (k : Model (Exact ε)) (H : Euclidean n →ₗ[ℝ] Euclidean n) (g : Euclidean n) : Prop where
  hessian : k.H.Acts H
  symmetric : H.IsSymmetric
  gradient : k.g = vec g
  preconditioner : ∃ B : Euclidean n →ₗ[ℝ] Euclidean n, k.B.Acts B ∧ ∀ v, 0 ≤ inner ℝ v (B v)
  projector : ∃ C : Euclidean n →ₗ[ℝ] Euclidean n, k.C.Acts C ∧ C.IsSymmetric

/-- What an iterate at `s` knows of the model. -/
structure Descends (H : Euclidean n →ₗ[ℝ] Euclidean n) (g s : Euclidean n) (it : Iterate (Exact ε)) : Prop where
  residual : it.r = vec (-(g + H s))
  model : it.model = real (quadratic H g s)
  nonpos : quadratic H g s ≤ 0
  conjugate : ∀ prev p, it.previous = some prev → prev.p = vec p → inner ℝ (-(g + H s)) p = 0

/-- What a pass knows of its direction `p` from `s`: its image under the Hessian, its slope and its curvature. -/
structure Along (H : Euclidean n →ₗ[ℝ] Euclidean n) (g s p : Euclidean n) (d : Vec (Exact ε)) (rz : ℝ)
    (rp κ : Exact ε) : Prop where
  image : d = vec (H p)
  inner_eq : inner ℝ (-(g + H s)) p = rz
  nonneg : 0 ≤ rz
  slope : rp = real rz
  curvature : κ = real (inner ℝ p (H p))

section Along
variable {d : Vec (Exact ε)} {rz : ℝ} {rp κ : Exact ε}

theorem quadratic_add (hH : H.IsSymmetric) (σ : ℝ) :
    quadratic H g (s + σ • p) =
      quadratic H g s - σ * inner ℝ (-(g + H s)) p + 1 / 2 * σ * σ * inner ℝ p (H p) := by
  have hsym : inner ℝ s (H p) = inner ℝ (H s) p := (hH s p).symm
  have hcomm : inner ℝ p (H s) = inner ℝ (H s) p := real_inner_comm _ _
  unfold quadratic
  rw [inner_neg_left, inner_add_left, map_add, map_smul]
  simp only [inner_add_left, inner_add_right, real_inner_smul_left, real_inner_smul_right, hsym, hcomm]
  ring

/-- The model at a sum is the model at one part, and from there the model with the shifted gradient at the other. -/
theorem quadratic_split (hH : H.IsSymmetric) : quadratic H g (s + p) = quadratic H g s + quadratic H (g + H s) p := by
  have hsplit := quadratic_add (g := g) (s := s) (p := p) hH 1
  rw [one_smul] at hsplit
  rw [hsplit, inner_neg_left]
  unfold quadratic
  ring

/-- A step that does not raise the model does not raise it where it is cut either. -/
theorem quadratic_cut_le (hH : H.IsSymmetric) (hκ : 0 ≤ inner ℝ p (H p)) {a u : ℝ} (hu0 : 0 ≤ u) (hu1 : u ≤ 1)
    (hle : quadratic H g (s + a • p) ≤ quadratic H g s) : quadratic H g (s + (a * u) • p) ≤ quadratic H g s := by
  rw [quadratic_add hH] at hle ⊢
  have hcut : u * u * (a * a * inner ℝ p (H p)) ≤ u * (a * a * inner ℝ p (H p)) :=
    mul_le_mul_of_nonneg_right (mul_le_of_le_one_left hu0 hu1) (mul_nonneg (mul_self_nonneg a) hκ)
  have hend : 0 ≤ u * (a * inner ℝ (-(g + H s)) p - 1 / 2 * a * a * inner ℝ p (H p)) := mul_nonneg hu0 (by linarith)
  linarith

/-- Without curvature only a direction that points uphill raises the model. -/
theorem quadratic_flat_le (hH : H.IsSymmetric) (hκ : inner ℝ p (H p) ≤ 0) (hslope : inner ℝ (g + H s) p ≤ 0) {σ : ℝ}
    (hσ : 0 ≤ σ) : quadratic H g (s + σ • p) ≤ quadratic H g s := by
  rw [quadratic_add hH, inner_neg_left]
  have hrise : σ * inner ℝ (g + H s) p ≤ 0 := mul_nonpos_of_nonneg_of_nonpos hσ hslope
  have hcurve : σ * σ * inner ℝ p (H p) ≤ 0 := mul_nonpos_of_nonneg_of_nonpos (mul_self_nonneg σ) hκ
  linarith

variable (ha : Along H g s p d rz rp κ)
include ha

theorem Along.quadratic_eq (hH : H.IsSymmetric) (σ : ℝ) :
    quadratic H g (s + σ • p) = quadratic H g s - σ * rz + 1 / 2 * σ * σ * inner ℝ p (H p) := by
  rw [quadratic_add hH, ha.inner_eq]

/-- The value carried along is that of the model. -/
theorem Along.modelAfter_eq (hH : H.IsSymmetric) (σ : ℝ) :
    modelAfter (real (quadratic H g s)) (real σ) rp κ = real (quadratic H g (s + σ • p)) := by
  unfold modelAfter
  rw [ha.slope, ha.curvature, half_eq, real_mul, real_mul, real_mul, real_mul, real_sub, real_add,
    ha.quadratic_eq hH]

/-- Without curvature the model falls all the way. -/
theorem Along.quadratic_le_of_curvature (hH : H.IsSymmetric) (hκ : κ ≤ 0) {σ : ℝ} (hσ : 0 ≤ σ) :
    quadratic H g (s + σ • p) ≤ quadratic H g s := by
  rw [ha.curvature] at hκ
  have hslope : inner ℝ (g + H s) p ≤ 0 := by
    have hrz := ha.nonneg
    rwa [← ha.inner_eq, inner_neg_left, neg_nonneg] at hrz
  exact quadratic_flat_le hH (real_le.mp hκ) hslope hσ

/-- After a step to the minimum along `p` the residual has no component along it. -/
theorem Along.conjugate_minimum (hκ : inner ℝ p (H p) ≠ 0) :
    inner ℝ (-(g + H (s + (rz / inner ℝ p (H p)) • p))) p = 0 := by
  have hsplit : -(g + H (s + (rz / inner ℝ p (H p)) • p)) = -(g + H s) - (rz / inner ℝ p (H p)) • H p := by
    rw [map_add, map_smul]
    abel
  rw [hsplit, inner_sub_left, ha.inner_eq, real_inner_smul_left, real_inner_comm p (H p),
    div_mul_cancel₀ _ hκ, sub_self]

end Along

/-! ### Directions of descent -/

/-- The preconditioned residual is a direction of descent. -/
theorem precondition_slope (hread : Reads k H g) (w : Euclidean n) :
    (precondition k (vec w)).Ensures fun out => ∀ v, out = .ok (vec v) → 0 ≤ inner ℝ w v := by
  obtain ⟨B, hB, hpos⟩ := hread.preconditioner
  obtain ⟨C, hC, hsym⟩ := hread.projector
  unfold precondition
  dsimp only
  rw [zerosLike_vec]
  refine ensures_bind (hC.apply 1 0 w 0) ?_
  rintro _ rfl
  refine ensures_bind (ensures_true _) fun twice _ => ensures_bind (ensures_true _) fun change _ => ?_
  split
  · exact ensures_pure nofun
  · split
    · exact ensures_pure nofun
    · refine ensures_bind (hB.apply 1 0 _ 0) ?_
      rintro _ rfl
      refine ensures_bind (hC.apply 1 0 _ 0) ?_
      rintro _ rfl
      split
      · exact ensures_pure nofun
      · refine ensures_pure fun v hv => ?_
        rw [← vec_inj.mp (Except.ok.inj hv)]
        simp only [one_smul, smul_zero, add_zero]
        rw [← hsym]
        exact hpos _

/-- A direction has the slope of the preconditioned residual it comes from. -/
theorem direction_slope {w z : Euclidean n} (hprev : ∀ prev, it.previous = some prev → ∃ p : Euclidean n, prev.p = vec p)
    (hconj : ∀ prev p, it.previous = some prev → prev.p = vec p → inner ℝ w p = 0) (rz : Exact ε) :
    Ensures (liftM (direction it (vec z) rz) : Journaled (Exact ε) (Vec (Exact ε))) fun p =>
      ∀ v, p = vec v → inner ℝ w v = inner ℝ w z := by
  refine ensures_lift fun p hp v hv => ?_
  unfold direction at hp
  split at hp
  · cases hp
    rw [vec_inj.mp hv]
  case h_2 prev hprev' =>
    obtain ⟨d, hd⟩ := hprev prev hprev'
    rw [hd] at hp
    obtain ⟨t, ht⟩ := exists_scale (Checked.isFinite_of_add hp (hv ▸ isFinite_vec)).2
    rw [ht] at hp
    rw [← vec_inj.mp ((checked_add_eq_ok (a := 1) hp).symm.trans hv), inner_add_right, inner_smul_right,
      hconj prev d hprev' hd, mul_zero, zero_add, one_smul]

end ConstrainedOpt.TruncatedCG
