import ConstrainedOpt.Proofs.QuasiNewton.Reproduction

/-! # Duality of the rank-one updates

The operator of a history by rank-one updates and the one of its reversed pairs are inverse to each other, as long as no pair
is taken over by one of them and skipped by the other. Both may be indefinite.
-/
namespace ConstrainedOpt
open Exact
variable {ε : Set.Ioi (0 : ℝ)} {n : ℕ}

namespace QuasiNewton

/-- A pair that comes up is skipped by both operators of the history or by none. -/
def Concur (ε : Set.Ioi (0 : ℝ)) (pairs : List (Euclidean n × Euclidean n)) : Prop :=
  ∀ q older, q :: older <:+ pairs → (SkipsRankOne false (.ofPairs older : History (Exact ε)) (storedPair q) ↔
    SkipsRankOne true (.ofPairs older : History (Exact ε)) (storedPair q))

variable {pairs : List (Euclidean n × Euclidean n)}

theorem secantMap_false : secantMap ε false pairs = rankOneMap √ε pairs := congrArg (rankOneMap √ε) (List.map_id pairs)

theorem secantMap_true : secantMap ε true pairs = rankOneMap √ε (pairs.map Prod.swap) := rfl

theorem Concur.concordant (h : Concur ε pairs) : Concordant √ε pairs := by
  intro q older hsuffix
  have hskips := h q older hsuffix
  rw [skipsRankOne_iff, skipsRankOne_iff, not_iff_not, passes_iff, passes_iff, secantMap_false, secantMap_true] at hskips
  exact hskips

theorem secantMap_dual (h : Concur ε pairs) (v : Euclidean n) : secantMap ε false pairs (secantMap ε true pairs v) = v := by
  rw [secantMap_false, secantMap_true]
  exact rankOneMap_swap (Real.sqrt_nonneg _) h.concordant v

theorem secantMap_dual' (h : Concur ε pairs) (v : Euclidean n) : secantMap ε true pairs (secantMap ε false pairs v) = v := by
  have hright : secantMap ε false pairs ∘ₗ secantMap ε true pairs = LinearMap.id := LinearMap.ext (secantMap_dual h)
  exact LinearMap.congr_fun ((LinearMap.comp_eq_id_comm ℝ (Euclidean n)).mp hright) v

/-- The inverse operator of a history by rank-one updates undoes the direct one, and is undone by it, if they skip the same
pairs. -/
theorem invSr1_undoes_sr1 (scale : Exact ε) (pairs : List (Euclidean n × Euclidean n)) (h : Concur ε pairs) :
    (operator .invSr1 n scale (.ofPairs pairs)).Undoes (operator .sr1 n scale (.ofPairs pairs)) n ∧
    (operator .sr1 n scale (.ofPairs pairs)).Undoes (operator .invSr1 n scale (.ofPairs pairs)) n := by
  constructor
  · exact operator_undoes (sr1_vec false pairs) (sr1_vec true pairs) (secantMap_dual' h)
  · exact operator_undoes (sr1_vec true pairs) (sr1_vec false pairs) (secantMap_dual h)

/-! ### A turn along an axis -/

section Turn
variable {σ a b : ℝ}

/-- The first axis at `a` and at `b`. -/
noncomputable abbrev axisPair (a b : ℝ) : Euclidean 2 × Euclidean 2 := (a • axis 0, b • axis 0)

theorem admits_axisPair (hσ : σ < 1) (ha : a ≠ 0) (hab : b ≠ a) : Admits σ LinearMap.id (axisPair a b).1 (axisPair a b).2 := by
  have hresidual : b • axis 0 - (LinearMap.id : Euclidean 2 →ₗ[ℝ] Euclidean 2) (a • axis 0) = (b - a) • axis 0 := by
    rw [LinearMap.id_apply, sub_smul]
  have hpos : 0 < |b - a| * |a| := mul_pos (abs_pos.mpr (sub_ne_zero.mpr hab)) (abs_pos.mpr ha)
  unfold Admits
  rw [hresidual, norm_smul, norm_smul, norm_axis, inner_smul_left, inner_smul_right, inner_axis, if_pos rfl, conj_trivial,
    mul_one, mul_one, mul_one, abs_mul, Real.norm_eq_abs, Real.norm_eq_abs, mul_assoc]
  exact mul_lt_of_lt_one_left hpos hσ

theorem rankOneMap_axisPair (hσ : σ < 1) (ha : a ≠ 0) (hab : b ≠ a) :
    rankOneMap σ [axisPair a b] = rankOneUpdate LinearMap.id (a • axis 0) (b • axis 0) := if_pos (admits_axisPair hσ ha hab)

/-- After a pair along the first axis the second axis is not moved. -/
theorem not_admits_across (hσ : σ < 1) (ha : a ≠ 0) (hab : b ≠ a) :
    ¬ Admits σ (rankOneMap σ [axisPair a b]) (axis 1) (axis 1) := by
  refine not_admits ?_
  rw [rankOneMap_axisPair hσ ha hab, rankOneUpdate_apply]
  simp [inner_sub_left, inner_smul_left, inner_axis]

/-- A step along the first axis that is doubled and turned round, and after it one along the second that stays as it is. -/
noncomputable def turnPairs : List (Euclidean 2 × Euclidean 2) := [(axis 1, axis 1), axisPair 1 (-2)]

/-- The first pair is taken over by both operators, and the second one is skipped. -/
theorem concur_turnPairs (hε : √(ε : ℝ) < 1) : Concur ε turnPairs := by
  intro q older hsuffix
  rw [skipsRankOne_iff, skipsRankOne_iff, not_iff_not, passes_iff, passes_iff, secantMap_false, secantMap_true]
  rcases List.suffix_cons_iff.mp hsuffix with hall | hrest
  · cases hall
    exact iff_of_false (not_admits_across hε one_ne_zero (by norm_num))
      (not_admits_across (a := -2) (b := 1) hε (by norm_num) (by norm_num))
  · rcases List.suffix_cons_iff.mp hrest with hone | hnone
    · cases hone
      exact iff_of_true (admits_axisPair hε one_ne_zero (by norm_num))
        (admits_axisPair (a := -2) (b := 1) hε (by norm_num) (by norm_num))
    · exact absurd (List.suffix_nil.mp hnone) (List.cons_ne_nil q older)

theorem invSr1_undoes_sr1_turn :
    let ε : Set.Ioi (0 : ℝ) := ⟨(1 / 10) ^ 2, Set.mem_Ioi.mpr (by norm_num)⟩
    Concur ε turnPairs ∧
      sr1 false (.ofPairs turnPairs : History (Exact ε)) (vec (axis 0)) = .ok (vec ((-2 : ℝ) • axis 0)) ∧
      (operator .invSr1 2 1 (.ofPairs turnPairs : History (Exact ε))).Undoes (operator .sr1 2 1 (.ofPairs turnPairs)) 2 ∧
      (operator .sr1 2 1 (.ofPairs turnPairs : History (Exact ε))).Undoes (operator .invSr1 2 1 (.ofPairs turnPairs)) 2 := by
  intro ε
  have hε : √(ε : ℝ) < 1 := by
    rw [Real.sqrt_sq (by norm_num)]
    norm_num
  have hconcur : Concur ε turnPairs := concur_turnPairs hε
  refine ⟨hconcur, ?_, invSr1_undoes_sr1 1 turnPairs hconcur⟩
  have hmap : secantMap ε false turnPairs = rankOneMap √ε [axisPair 1 (-2)] := by
    rw [secantMap_false]
    exact if_neg (not_admits_across hε one_ne_zero (by norm_num))
  have himage : rankOneMap √ε [axisPair 1 (-2)] ((1 : ℝ) • axis 0) = (-2 : ℝ) • axis 0 :=
    rankOneMap_newest (Real.sqrt_nonneg _) (admits_axisPair hε one_ne_zero (by norm_num))
  rw [one_smul] at himage
  rw [sr1_vec, hmap, himage]

end Turn

end QuasiNewton
end ConstrainedOpt
