import ConstrainedOpt.Step.NormalEquations
import ConstrainedOpt.Proofs.Exact.Operator

/-! # Normal equations, exactly

A solution the solver hands out is finite, whatever its operator did on the way.
-/
namespace ConstrainedOpt.NormalEquations
open Exact Journaled
variable {ε : Set.Ioi (0 : ℝ)} {n m : ℕ} {par : NormalParam (Exact ε)} {A : Operator (Exact ε)}

/-- What is handed out as a solution is a finite vector of length `m`. -/
def Sound (m : ℕ) (s : Solved (Exact ε)) : Prop := ∀ i, s.outcome = .ok i → ∃ w : Euclidean m, s.vector = vec w

theorem finish_sound (i : ℕ) {w : Vec (Exact ε)} (hw : w.length = m) : Sound m (finish i w) := by
  intro j hj
  unfold finish at hj
  split at hj
  case isTrue h => exact exists_vec hw h
  case isFalse => cases hj

theorem iterate_sound (normB : Exact ε) (budget i : ℕ) {s : Iterate (Exact ε)} (hs : s.w.length = m) :
    (iterate par A normB budget i s).Ensures (Sound m) := by
  induction budget generalizing i s with
  | zero => exact ensures_pure (finish_sound i hs)
  | succ budget ih =>
    refine ensures_bind (P := fun
      | .next s => s.w.length = m
      | .done w => w.length = m
      | .failed _ => True) ?_ ?_
    · unfold pass
      refine ensures_bind (ensures_true _) fun t _ => ensures_bind (ensures_true _) fun q _ => ?_
      dsimp only
      split
      · exact ensures_pure trivial
      · split
        · exact ensures_bind (ensures_true _) fun _ _ => ensures_pure hs
        · refine ensures_bind (P := fun w => w.length = m) (ensures_lift fun w hw => ?_) fun w hw => ?_
          · exact (Checked.add_length hw).trans hs
          · refine ensures_bind (ensures_true _) fun r _ => ensures_bind (ensures_true _) fun _ _ => ?_
            split
            · exact ensures_pure hw
            · exact ensures_bind (ensures_true _) fun p _ => ensures_pure hw
    · rintro (s | w | w) hw
      · exact ih _ hw
      · exact ensures_pure (finish_sound _ hw)
      · exact ensures_pure nofun

theorem solve_sound (hm : A.rows = m) (b w : Vec (Exact ε)) (work : ℕ) :
    (solve par A b w work).Ensures (Sound m) := by
  unfold solve
  split
  · exact ensures_bind (ensures_true _) fun _ _ => ensures_pure nofun
  case isFalse hlen =>
    have hw : (Vec.zerosLike w).length = m := by
      simp only [not_or, not_not] at hlen
      rw [Vec.length_zerosLike, hlen.2, hm]
    split
    · exact ensures_bind (ensures_true _) fun _ _ => ensures_pure nofun
    · dsimp only
      split
      · exact ensures_pure nofun
      · split
        · refine ensures_pure fun _ _ => ⟨0, ?_⟩
          rw [← zeros_eq, Vec.zerosLike, ← hw, Vec.length_zerosLike]
        · exact iterate_sound _ _ _ hw

/-- A least-norm solution is a real vector. -/
theorem leastNorm_sound (hA : A.Pulls n m) (g : Vec (Exact ε)) (work : ℕ) :
    (leastNorm par A g (Vec.zeros A.cols) work).Ensures (Sound n) := by
  have hfault : ∀ u e, Sound (ε := ε) n ⟨u, .error e⟩ := by
    rintro u e i ⟨⟩
  unfold leastNorm
  split
  · exact ensures_bind (ensures_true _) fun _ _ => ensures_pure (hfault _ _)
  · refine ensures_bind (ensures_true _) fun shortage _ => ?_
    split
    · exact ensures_pure (hfault _ _)
    · refine ensures_bind (ensures_true _) fun b _ => ensures_bind (solve_sound hA.rows _ _ _) fun s hs => ?_
      cases ho : s.outcome with
      | error e => exact ensures_pure (hfault _ _)
      | ok i =>
        obtain ⟨w, hw⟩ := hs i ho
        rw [hw, hA.cols, zeros_eq]
        refine ensures_bind (hA.real 1 0 w 0) ?_
        rintro _ ⟨u, rfl⟩
        exact ensures_pure fun _ _ => ⟨u, rfl⟩

end ConstrainedOpt.NormalEquations
