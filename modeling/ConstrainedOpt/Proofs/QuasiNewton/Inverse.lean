import ConstrainedOpt.Proofs.QuasiNewton.Curvature
import ConstrainedOpt.Proofs.Run.Newton

/-! # Inverses of the curvature

The two loops through the pairs of positive curvature invert the operator that rank-two updates make of the same history. So
the direction of a step that follows them descends.
-/
namespace ConstrainedOpt
open Exact Journaled Running
variable {ε : Set.Ioi (0 : ℝ)} {n : ℕ}

namespace QuasiNewton

/-! ### Two loops -/

/-- A pair as it is stored, with its curvature. -/
noncomputable def curvedPair (q : Euclidean n × Euclidean n) : Vec (Exact ε) × Vec (Exact ε) × Exact ε :=
  (vec q.1, vec q.2, real (inner ℝ q.2 q.1))

/-- What the loops go through. -/
noncomputable def curved (pairs : List (Euclidean n × Euclidean n)) : List (Vec (Exact ε) × Vec (Exact ε) × Exact ε) :=
  (pairs.map curvedPair).filter fun (_, _, ys) => decide (0 < ys)

theorem curvedPairs_ofPairs (pairs : List (Euclidean n × Euclidean n)) :
    curvedPairs (.ofPairs pairs : History (Exact ε)) = .ok (curved pairs) := by
  have hall : (pairs.map storedPair).mapM (fun (s, y) => do return (s, y, ← Checked.inner y s)) =
      (.ok (pairs.map curvedPair) : Checked (List (Vec (Exact ε) × Vec (Exact ε) × Exact ε))) := by
    induction pairs with
    | nil => rfl
    | cons q older ih =>
      rw [List.map_cons, List.mapM_cons]
      refine Checked.bind_eq_ok.mpr ⟨curvedPair q, ?_, Checked.bind_eq_ok.mpr ⟨_, ih, rfl⟩⟩
      exact Checked.bind_eq_ok.mpr ⟨_, checked_inner_vec, rfl⟩
  unfold curvedPairs
  rw [History.newestFirst_ofPairs]
  exact Checked.bind_eq_ok.mpr ⟨_, hall, rfl⟩

theorem curved_cons (s y : Euclidean n) (older : List (Euclidean n × Euclidean n)) :
    (curved ((s, y) :: older) : List (Vec (Exact ε) × Vec (Exact ε) × Exact ε)) =
      if 0 < inner ℝ y s then curvedPair (s, y) :: curved older else curved older := by
  unfold curved
  rw [List.map_cons, List.filter_cons]
  by_cases hys : 0 < inner ℝ y s
  · rw [if_pos hys]
    exact if_pos (decide_eq_true (real_lt.mpr hys))
  · rw [if_neg hys]
    exact if_neg (mt (fun h => real_lt.mp (of_decide_eq_true h)) hys)

/-- The loops through the pairs of positive curvature take real vectors as the inverse of the operator of all pairs does. -/
theorem inverseLoops_vec (pairs : List (Euclidean n × Euclidean n)) (v : Euclidean n) :
    inverseLoops (curved pairs) (vec v : Vec (Exact ε)) = .ok (vec (inverseCurvatureMap pairs v)) := by
  induction pairs generalizing v with
  | nil => rfl
  | cons q older ih =>
    obtain ⟨s, y⟩ := q
    rw [curved_cons]
    unfold inverseCurvatureMap
    split
    case isTrue hys =>
      rw [inverseRankTwo_apply]
      refine Checked.bind_eq_ok.mpr ⟨_, checked_inner_vec, ?_⟩
      dsimp only
      rw [real_div hys.ne', real_neg]
      refine Checked.bind_eq_ok.mpr ⟨_, checked_add_vec, Checked.bind_eq_ok.mpr ⟨_, ih _, ?_⟩⟩
      refine Checked.bind_eq_ok.mpr ⟨_, checked_inner_vec, ?_⟩
      rw [real_div hys.ne', real_sub]
      exact checked_add_vec
    case isFalse => exact ih v

theorem inverseBfgs_vec (pairs : List (Euclidean n × Euclidean n)) (v : Euclidean n) :
    inverseBfgs (.ofPairs pairs : History (Exact ε)) (vec v) = .ok (vec (inverseCurvatureMap pairs v)) :=
  Checked.bind_eq_ok.mpr ⟨_, curvedPairs_ofPairs pairs, inverseLoops_vec pairs v⟩

end QuasiNewton

/-! ### The direction -/

/-- A step that follows the inverse of its history takes the negative image of the gradient, whatever its last direction is. -/
theorem LineSearch.updateDirection_inverse {W : Watch (Exact ε)} {k : Setup (Exact ε)} {s : State (Exact ε)}
    {H : Euclidean k.n →ₗ[ℝ] Euclidean k.n} {g : Euclidean k.n} (hdirection : k.par.direction = .bfgs)
    (hH : ∀ v, QuasiNewton.inverseBfgs s.history (vec v) = .ok (vec (H v))) (hgrad : s.grad = vec g) :
    wp W (updateDirection k) (fun o t => o = .ok () ∧ t = { s with direction := vec (-H g) }) (fun _ _ => False) s := by
  have happly : ∀ v, QuasiNewton.applyTo .invBfgs 1 s.history (vec v) = .ok (vec (H v)) := hH
  have himage := QuasiNewton.operator_image happly (-1) g (length_lastDirection k s)
  rw [neg_one_smul, ← hgrad] at himage
  obtain ⟨d, hanswer, rfl⟩ := himage.answer
  unfold updateDirection direction
  refine wp_bind (wp_getState (wp_bind (wp_bind (wp_getState ?_))))
  rw [hdirection]
  refine wp_bind (wp_lift (fun d hd => ?_) fun p hp => nomatch hanswer.symm.trans hp)
  cases hanswer.symm.trans hd
  exact wp_pure (wp_bind (wp_update (wp_pure ⟨rfl, rfl⟩)))

namespace QuasiNewton

/-- The inverse operator of a history undoes the one by rank-two updates, and is undone by it, whatever the pairs are. So it is
symmetric positive definite, and the direction it turns a gradient into descends. -/
theorem inverseBfgs_undoes_bfgs (scale : Exact ε) (pairs : List (Euclidean n × Euclidean n)) :
    (operator .invBfgs n scale (.ofPairs pairs)).Undoes (operator .bfgs n scale (.ofPairs pairs)) n ∧
    (operator .bfgs n scale (.ofPairs pairs)).Undoes (operator .invBfgs n scale (.ofPairs pairs)) n ∧
    ∃ H : Euclidean n →ₗ[ℝ] Euclidean n,
      (∀ v, inverseBfgs (.ofPairs pairs : History (Exact ε)) (vec v) = .ok (vec (H v))) ∧
      (operator .invBfgs n scale (.ofPairs pairs)).Acts H ∧ H.IsSymmetric ∧ (∀ v, v ≠ 0 → 0 < inner ℝ v (H v)) ∧
      ∀ (k : Setup (Exact ε)) (s : State (Exact ε)) (g : Euclidean n), k.n = n → k.par.direction = .bfgs →
        s.history = .ofPairs pairs → s.grad = vec g →
          wp .any (LineSearch.updateDirection k) (fun o t => o = .ok () ∧ t = { s with direction := vec (-H g) })
            (fun _ _ => False) s ∧
          (g ≠ 0 → inner ℝ g (-H g) < 0) := by
  have hH := (curvatureMap_positiveDefinite pairs).inverse (curvatureMap_inverse pairs)
  refine ⟨?_, ?_, inverseCurvatureMap pairs, inverseBfgs_vec pairs, ?_, hH.symmetric, hH.pos, ?_⟩
  · exact operator_undoes (bfgs_vec pairs) (inverseBfgs_vec pairs) (inverseCurvatureMap_curvatureMap pairs)
  · exact operator_undoes (inverseBfgs_vec pairs) (bfgs_vec pairs) (curvatureMap_inverse pairs)
  · exact operator_acts (inverseBfgs_vec pairs) hH.symmetric
  · rintro k s g rfl hdirection hhistory hgrad
    refine ⟨LineSearch.updateDirection_inverse hdirection (fun v => ?_) hgrad, fun hg => ?_⟩
    · rw [hhistory]
      exact inverseBfgs_vec pairs v
    · rw [inner_neg_right]
      exact neg_neg_of_pos (hH.pos g hg)

/-- Where the gradient doubles along a step, the direction from a gradient along it is half of the negative gradient. -/
theorem inverseBfgs_undoes_bfgs_halves :
    let e : Euclidean 2 := EuclideanSpace.single 0 1
    let par : Parameters (Exact ⟨1, Set.mem_Ioi.mpr one_pos⟩) :=
      { Parameters.default with algorithm := .lineSearch, direction := .bfgs }
    let k : Setup (Exact ⟨1, Set.mem_Ioi.mpr one_pos⟩) := ⟨par, .fallingHalfSquare, .passive, 2⟩
    let s : State (Exact ⟨1, Set.mem_Ioi.mpr one_pos⟩) :=
      { State.new (vec e) with grad := vec e, history := .ofPairs [(e, (2 : ℝ) • e)] }
    wp .any (LineSearch.updateDirection k) (fun o t => o = .ok () ∧ t = { s with direction := vec (-(1 / 2 : ℝ) • e) })
      (fun _ _ => False) s ∧ e ≠ 0 ∧ inner ℝ e (-(1 / 2 : ℝ) • e) < 0 := by
  intro e par k s
  obtain ⟨-, -, H, happly, -, -, -, hdescends⟩ :=
    inverseBfgs_undoes_bfgs (ε := ⟨1, Set.mem_Ioi.mpr one_pos⟩) 1 [(e, (2 : ℝ) • e)]
  have hee : inner ℝ e e = 1 := by simp [e]
  have hys : inner ℝ ((2 : ℝ) • e) e = 2 := by rw [inner_smul_left, hee, conj_trivial, mul_one]
  have he : e ≠ 0 := fun h => by simp [h] at hee
  have hHe : H e = (1 / 2 : ℝ) • e := by
    have hmap : H e = inverseCurvatureMap [(e, (2 : ℝ) • e)] e :=
      vec_inj.mp (Except.ok.inj ((happly e).symm.trans (inverseBfgs_vec _ e)))
    rw [hmap]
    unfold inverseCurvatureMap
    rw [if_pos (hys.symm ▸ two_pos), inverseRankTwo_apply, hee, hys]
    simp [inverseCurvatureMap]
  obtain ⟨hrun, hneg⟩ := hdescends k s e rfl rfl rfl rfl
  rw [hHe] at hrun hneg
  rw [neg_smul]
  exact ⟨hrun, he, hneg he⟩

end QuasiNewton
end ConstrainedOpt
