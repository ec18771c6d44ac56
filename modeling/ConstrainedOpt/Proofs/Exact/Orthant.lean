import ConstrainedOpt.Vec.Orthant
import ConstrainedOpt.Proofs.Exact.Vector

/-! # The algebra of the orthant, exactly

On real vectors the componentwise operations are those of the reals, and the barrier of a vector in the interior of
the cone is the sum of the logarithms of its entries.
-/
namespace ConstrainedOpt.Exact
variable {ε : Set.Ioi (0 : ℝ)} {n : ℕ}

theorem ones_eq : (Vec.ones n : Vec (Exact ε)) = vec (WithLp.toLp 2 fun _ => 1 : Euclidean n) := by
  unfold Vec.ones vec
  rw [← List.ofFn_const]
  rfl

theorem checked_prod_vec (u v : Euclidean n) :
    Checked.prod (vec u) (vec v : Vec (Exact ε)) = .ok (vec (WithLp.toLp 2 fun i => u i * v i)) := by
  refine Checked.guarded_eq_ok.mpr ⟨by simp, ?_⟩
  unfold Vec.prod vec
  rw [zipWith_ofFn]
  rfl

theorem checked_quotient_vec {u : Euclidean n} (hu : ∀ i, u i ≠ 0) (v : Euclidean n) :
    Checked.quotient (vec u) (vec v : Vec (Exact ε)) = .ok (vec (WithLp.toLp 2 fun i => v i / u i)) := by
  refine Checked.guarded_eq_ok.mpr ⟨by simp, ?_⟩
  unfold Vec.quotient vec
  rw [zipWith_ofFn]
  simp only [real_div (hu _)]

theorem sqrt_vec {u : Euclidean n} (hu : ∀ i, 0 ≤ u i) :
    Vec.sqrt (vec u : Vec (Exact ε)) = vec (WithLp.toLp 2 fun i => √(u i)) := by
  unfold Vec.sqrt vec
  rw [List.map_ofFn]
  congr 1
  funext i
  exact sqrt_real (hu i)

theorem logBarrier_vec {u : Euclidean n} (hu : ∀ i, 0 < u i) :
    Vec.logBarrier (vec u : Vec (Exact ε)) = real (∑ i, Real.log (u i)) := by
  have hall : (vec u : Vec (Exact ε)).all (fun v => decide (0 < v)) = true := by simpa [vec] using hu
  have hln : (vec u : Vec (Exact ε)).map Scalar.ln = List.ofFn fun i => real (Real.log (u i)) := by
    unfold vec
    rw [List.map_ofFn]
    congr 1
    funext i
    exact ln_real (hu i)
  rw [Vec.logBarrier, if_pos hall, hln, sum_ofFn]

end ConstrainedOpt.Exact
