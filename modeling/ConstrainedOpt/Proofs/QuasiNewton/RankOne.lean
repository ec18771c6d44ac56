import Mathlib.Analysis.InnerProductSpace.Symmetric

/-! # Updates of rank one

The update of a symmetric operator `M` by a pair `(u, w)` along its residual `r = w - M u`, for which the new operator takes
`u` to `w`. It is made if `⟪r, u⟫` is not too small against the residual and the vector, and `σ` says how small that is. Where
the pairs belong to one symmetric operator, an update leaves the images of the earlier vectors as they are. An update of an
inverse by the reversed pair is the inverse of the update.
-/
namespace ConstrainedOpt.QuasiNewton
open InnerProductSpace
variable {E : Type*} [NormedAddCommGroup E] [InnerProductSpace ℝ E] {M G H : E →ₗ[ℝ] E} {u w v : E} {σ : ℝ}

/-! ### Maps of rank one -/

/-- Takes a vector to the multiple of `p` that its part along `q` tells, where `c` counts as one. -/
noncomputable def along (c : ℝ) (p q : E) : E →ₗ[ℝ] E := (1 / c) • (rankOne ℝ p q).toLinearMap

theorem along_apply (c : ℝ) (p q v : E) : along c p q v = (inner ℝ q v / c) • p := by
  simp only [along, LinearMap.smul_apply, ContinuousLinearMap.coe_coe, rankOne_apply, smul_smul, one_div_mul_eq_div]

theorem along_isSymmetric (c : ℝ) (p : E) : (along c p p).IsSymmetric :=
  (isSymmetric_rankOne_self (𝕜 := ℝ) p).smul rfl

/-! ### One update -/

/-- The denominator of the update of `M` by the pair is far from zero. -/
def Admits (σ : ℝ) (M : E →ₗ[ℝ] E) (u w : E) : Prop := σ * ‖w - M u‖ * ‖u‖ < |inner ℝ (w - M u) u|

theorem Admits.ne_zero (h : Admits σ M u w) (hσ : 0 ≤ σ) : inner ℝ (w - M u) u ≠ 0 := by
  have hnonneg : 0 ≤ σ * ‖w - M u‖ * ‖u‖ := by positivity
  exact abs_pos.mp (hnonneg.trans_lt h)

/-- A pair without a residual is not admitted. -/
theorem not_admits (h : w - M u = 0) : ¬ Admits σ M u w := by
  unfold Admits
  rw [h, norm_zero, inner_zero_left, mul_zero, zero_mul, abs_zero]
  exact lt_irrefl 0

noncomputable def rankOneUpdate (M : E →ₗ[ℝ] E) (u w : E) : E →ₗ[ℝ] E :=
  M + along (inner ℝ (w - M u) u) (w - M u) (w - M u)

theorem rankOneUpdate_apply (v : E) :
    rankOneUpdate M u w v = M v + (inner ℝ (w - M u) v / inner ℝ (w - M u) u) • (w - M u) := by
  rw [rankOneUpdate, LinearMap.add_apply, along_apply]

theorem rankOneUpdate_isSymmetric (hM : M.IsSymmetric) (u w : E) : (rankOneUpdate M u w).IsSymmetric :=
  hM.add (along_isSymmetric _ _)

theorem rankOneUpdate_self (h : inner ℝ (w - M u) u ≠ 0) : rankOneUpdate M u w u = w := by
  rw [rankOneUpdate_apply, div_self h, one_smul, add_sub_cancel]

/-- The residual of a pair is orthogonal to a vector whose image agrees with the pair. -/
theorem inner_residual (hM : M.IsSymmetric) {u' w' : E} (hu' : M u' = w') (hagree : inner ℝ w u' = inner ℝ u w') :
    inner ℝ (w - M u) u' = 0 := by
  rw [inner_sub_left, hM, hu', hagree, sub_self]

theorem rankOneUpdate_keeps (hM : M.IsSymmetric) {u' w' : E} (hu' : M u' = w') (hagree : inner ℝ w u' = inner ℝ u w') :
    rankOneUpdate M u w u' = w' := by
  rw [rankOneUpdate_apply, inner_residual hM hu' hagree, zero_div, zero_smul, add_zero, hu']

/-- The residual of the reversed pair in an inverse `H` of `M`, seen through `M`. -/
theorem map_reversed_residual (hMH : ∀ v, M (H v) = v) : M (u - H w) = -(w - M u) := by
  rw [map_sub, hMH, neg_sub]

/-- The update of an inverse by the reversed pair is the inverse of the update. -/
theorem rankOneUpdate_reversed (hM : M.IsSymmetric) (hMH : ∀ v, M (H v) = v) (h : inner ℝ (w - M u) u ≠ 0)
    (h' : inner ℝ (u - H w) w ≠ 0) (v : E) : rankOneUpdate M u w (rankOneUpdate H w u v) = v := by
  have hMq := map_reversed_residual (u := u) (w := w) hMH
  obtain ⟨r, hr⟩ : ∃ r, r = w - M u := ⟨_, rfl⟩
  obtain ⟨q, hq⟩ : ∃ q, q = u - H w := ⟨_, rfl⟩
  obtain ⟨c, hc⟩ : ∃ c, c = inner ℝ q v / inner ℝ q w := ⟨_, rfl⟩
  rw [rankOneUpdate_apply, rankOneUpdate_apply]
  rw [← hr, ← hq] at hMq
  rw [← hr] at h ⊢
  rw [← hq] at h' ⊢
  rw [← hc]
  -- both parts of the image are taken along the residual
  have hrH : inner ℝ r (H v) = -inner ℝ q v := by rw [← neg_neg r, ← hMq, inner_neg_left, hM, hMH]
  have hrq : inner ℝ r q = inner ℝ q w + inner ℝ r u := by
    have hMuq : inner ℝ (M u) q = -inner ℝ r u := by rw [hM, hMq, inner_neg_right, real_inner_comm]
    rw [hr, inner_sub_left, ← hr, hMuq, sub_neg_eq_add, real_inner_comm q w]
  have hcw : c * inner ℝ q w = inner ℝ q v := by rw [hc, div_mul_cancel₀ _ h']
  have hpart : inner ℝ r (H v + c • q) = c * inner ℝ r u := by
    rw [inner_add_right, inner_smul_right, hrH, hrq, mul_add, hcw, neg_add_cancel_left]
  rw [hpart, mul_div_cancel_right₀ _ h, map_add, map_smul, hMH, hMq]
  module

/-! ### Histories -/

open scoped Classical in
/-- The operator of some pairs, newest first. -/
noncomputable def rankOneMap (σ : ℝ) : List (E × E) → E →ₗ[ℝ] E
  | [] => LinearMap.id
  | q :: older =>
    if Admits σ (rankOneMap σ older) q.1 q.2 then rankOneUpdate (rankOneMap σ older) q.1 q.2 else rankOneMap σ older

theorem rankOneMap_isSymmetric (σ : ℝ) (pairs : List (E × E)) : (rankOneMap σ pairs).IsSymmetric := by
  induction pairs with
  | nil => exact LinearMap.IsSymmetric.id
  | cons q older ih =>
    unfold rankOneMap
    split
    case isTrue => exact rankOneUpdate_isSymmetric ih q.1 q.2
    case isFalse => exact ih

/-- An admitted newest pair is taken over. -/
theorem rankOneMap_newest (hσ : 0 ≤ σ) {q : E × E} {older : List (E × E)} (h : Admits σ (rankOneMap σ older) q.1 q.2) :
    rankOneMap σ (q :: older) q.1 = q.2 := by
  unfold rankOneMap
  rw [if_pos h]
  exact rankOneUpdate_self (h.ne_zero hσ)

/-- When a pair is considered, it is admitted or leaves no residual. -/
def Regular (σ : ℝ) (pairs : List (E × E)) : Prop :=
  ∀ q older, q :: older <:+ pairs → Admits σ (rankOneMap σ older) q.1 q.2 ∨ q.2 - rankOneMap σ older q.1 = 0

/-- Any two of the pairs may belong to one symmetric operator. -/
def Agree (pairs : List (E × E)) : Prop := ∀ p ∈ pairs, ∀ q ∈ pairs, inner ℝ p.2 q.1 = inner ℝ p.1 q.2

/-- All pairs are taken over if they agree, since no update moves the image of an earlier one. -/
theorem rankOneMap_reproduces (hσ : 0 ≤ σ) {pairs : List (E × E)} (hregular : Regular σ pairs) (hagree : Agree pairs) :
    ∀ q ∈ pairs, rankOneMap σ pairs q.1 = q.2 := by
  induction pairs with
  | nil => nofun
  | cons newest older ih =>
    have holder : ∀ q ∈ older, rankOneMap σ older q.1 = q.2 := by
      refine ih (fun q rest hrest => hregular q rest (hrest.trans (List.suffix_cons _ _))) fun p hp q hq => ?_
      exact hagree p (List.mem_cons_of_mem _ hp) q (List.mem_cons_of_mem _ hq)
    intro q hq
    rcases hregular newest older List.suffix_rfl with hadmits | hfits
    · rcases List.mem_cons.mp hq with rfl | hq
      · exact rankOneMap_newest hσ hadmits
      · unfold rankOneMap
        rw [if_pos hadmits]
        exact rankOneUpdate_keeps (rankOneMap_isSymmetric σ older) (holder q hq)
          (hagree newest List.mem_cons_self q (List.mem_cons_of_mem _ hq))
    · unfold rankOneMap
      rw [if_neg (not_admits hfits)]
      rcases List.mem_cons.mp hq with rfl | hq
      · exact (sub_eq_zero.mp hfits).symm
      · exact holder q hq

/-- When a pair is considered, it is admitted exactly if its reverse is. -/
def Concordant (σ : ℝ) (pairs : List (E × E)) : Prop :=
  ∀ q older, q :: older <:+ pairs →
    (Admits σ (rankOneMap σ older) q.1 q.2 ↔ Admits σ (rankOneMap σ (older.map Prod.swap)) q.2 q.1)

/-- The operator of the reversed pairs is inverted by the one of the pairs, whichever of them are admitted. -/
theorem rankOneMap_swap (hσ : 0 ≤ σ) {pairs : List (E × E)} (h : Concordant σ pairs) (v : E) :
    rankOneMap σ pairs (rankOneMap σ (pairs.map Prod.swap) v) = v := by
  induction pairs generalizing v with
  | nil => rfl
  | cons q older ih =>
    have holder := ih fun p rest hrest => h p rest (hrest.trans (List.suffix_cons _ _))
    obtain ⟨u, w⟩ := q
    have hiff := h (u, w) older List.suffix_rfl
    rw [List.map_cons, Prod.swap_prod_mk]
    unfold rankOneMap
    by_cases hadmits : Admits σ (rankOneMap σ older) u w
    · rw [if_pos hadmits, if_pos (hiff.mp hadmits)]
      exact rankOneUpdate_reversed (rankOneMap_isSymmetric σ older) holder (hadmits.ne_zero hσ)
        ((hiff.mp hadmits).ne_zero hσ) v
    · rw [if_neg hadmits, if_neg (mt hiff.mpr hadmits)]
      exact holder v

end ConstrainedOpt.QuasiNewton
