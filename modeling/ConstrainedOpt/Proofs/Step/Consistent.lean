import ConstrainedOpt.Proofs.Quadratic.Matrix
import ConstrainedOpt.Proofs.Sizes.Solvers
import ConstrainedOpt.Proofs.Step.Krylov

/-! # Consistent normal equations

A right-hand side in the range of the operator is met to the tolerance, whatever the rank. With no tolerance everything that
is made of such solutions is exact: projections onto the null space, solutions of least norm, and multipliers that take the
gradient to the null space.
-/
namespace ConstrainedOpt
open Exact Journaled
variable {ε : Set.Ioi (0 : ℝ)} {n m : ℕ} {L : Euclidean n →ₗ[ℝ] Euclidean m} {par : NormalParam (Exact ε)}
  {A : Operator (Exact ε)} {e : ℝ}

namespace NormalEquations

/-- A solution in the range of the transpose is shorter than any other. -/
theorem norm_adjoint_lt {w : Euclidean m} {z : Euclidean n} (hz : L z = L (LinearMap.adjoint L w))
    (hne : z ≠ LinearMap.adjoint L w) : ‖LinearMap.adjoint L w‖ < ‖z‖ := by
  have horth : inner ℝ (LinearMap.adjoint L w) (z - LinearMap.adjoint L w) = 0 := by
    rw [LinearMap.adjoint_inner_left, map_sub, hz, sub_self, inner_zero_right]
  have hpyth := norm_add_sq_eq_norm_sq_add_norm_sq_real horth
  rw [add_sub_cancel] at hpyth
  have hpos : 0 < ‖z - LinearMap.adjoint L w‖ := norm_pos_iff.mpr (sub_ne_zero.mpr hne)
  refine lt_of_pow_lt_pow_left₀ 2 (norm_nonneg z) ?_
  nlinarith

/-- A least-norm solution is what the transpose makes of a solution of the normal equations. -/
theorem leastNorm_pulls (hA : A.Acts L) {g : Euclidean m} (u : Euclidean n) {work : ℕ} (hwork : workLength m n ≤ work)
    {Q : Euclidean m → ℕ → Prop}
    (hsolve : (solve par A (vec (-g)) (vec (0 : Euclidean m)) (solveWorkLength m n)).Ensures fun s =>
      ∃ w i, s = ⟨vec w, .ok i⟩ ∧ Q w i) :
    (leastNorm par A (vec g) (vec u) work).Ensures fun s => ∃ w i, s = ⟨vec (LinearMap.adjoint L w), .ok i⟩ ∧ Q w i := by
  unfold leastNorm workShortage?
  rw [if_neg (by simp [hA.cols]), if_neg (by rw [hA.rows, hA.cols]; exact hwork.not_gt)]
  refine ensures_bind (P := fun shortage => shortage = false) (ensures_pure rfl) ?_
  rintro _ rfl
  rw [if_neg Bool.false_ne_true, hA.rows, hA.cols, zeros_eq]
  refine ensures_bind (P := fun b => b = vec g) (ensures_lift fun _ h => (Checked.copy_eq_ok.mp h).2) ?_
  rintro _ rfl
  rw [one_eq, real_neg, scale_vec, neg_one_smul]
  refine ensures_bind hsolve ?_
  rintro _ ⟨w, i, rfl, hw⟩
  refine ensures_bind (hA.applyTransposed 1 0 w u) ?_
  rintro _ rfl
  rw [one_smul, zero_smul, add_zero]
  exact ensures_pure ⟨w, i, rfl, hw⟩

theorem leastNorm_solves (hA : A.Acts L) (he : par.epsRel = real e) (he0 : 0 ≤ e)
    (hiter : Module.finrank ℝ (LinearMap.range L) ≤ par.maxIter) {g : Euclidean m} (hg : -g ∈ LinearMap.range L)
    (u : Euclidean n) {work : ℕ} (hwork : workLength m n ≤ work) :
    (leastNorm par A (vec g) (vec u) work).Ensures fun s =>
      ∃ w i, s = ⟨vec (LinearMap.adjoint L w), .ok i⟩ ∧ ‖-g - L (LinearMap.adjoint L w)‖ ≤ e * ‖g‖ := by
  refine leastNorm_pulls hA u hwork ((solve_solves hA he he0 hiter hg length_vec le_rfl).mono ?_)
  rintro _ ⟨w, i, rfl, -, hw⟩
  rw [norm_neg] at hw
  exact ⟨w, i, rfl, hw⟩

end NormalEquations

namespace Barrier
open NormalEquations
variable {p : Problem (Exact ε)} {c : Constraint (Exact ε)} {x y : Vec (Exact ε)}

/-- The multipliers take the gradient to the null space, to the tolerance. -/
theorem multipliers_solves (hc : p.equality = some c) (hA : (c.jacobian x).Acts L) (he : par.epsRel = real e) (he0 : 0 ≤ e)
    (hiter : Module.finrank ℝ (LinearMap.range L) ≤ par.maxIter) (φ : Euclidean n) (hy : y.length = m) :
    (multipliers p par x (vec φ) y).Ensures fun out =>
      ∃ z, out = (vec z, .ok ()) ∧ ‖L (φ + LinearMap.adjoint L z)‖ ≤ e * ‖L φ‖ := by
  have hrows : c.rows = m := hA.rows
  have hcols : c.cols = n := hA.cols
  unfold multipliers
  rw [hc]
  dsimp only
  rw [hrows, hcols, zeros_eq]
  refine ensures_bind (hA.apply (-1) 0 φ 0) ?_
  rintro _ rfl
  rw [neg_one_smul, zero_smul, add_zero]
  have hrange : -L φ ∈ LinearMap.range L := neg_mem ⟨φ, rfl⟩
  refine ensures_bind (solve_solves hA he he0 hiter hrange hy (solveWorkLength_le m n)) ?_
  rintro _ ⟨z, i, rfl, -, hz⟩
  refine ensures_pure ⟨z, rfl, ?_⟩
  rwa [← neg_add', norm_neg, norm_neg, ← map_add] at hz

end Barrier

namespace NormalEquations

theorem kernelProjection_isSymmetricProjection : (kernelProjection L).IsSymmetricProjection :=
  Submodule.isSymmetricProjection_starProjection _

theorem range_kernelProjection : LinearMap.range (kernelProjection L) = LinearMap.ker L :=
  Submodule.range_starProjection _

/-- On an operator of any rank, with at least as many iterations as that: a system with a right-hand side in the range is
solved to the tolerance within the rank, and a projection changes its vector by one in the range of the transpose and takes
it to the null space to the tolerance. With no tolerance the null space projector is the orthogonal one, a least-norm
solution is shorter than any other, and the multipliers take the gradient to the null space. -/
theorem solves_consistent (hA : A.Acts L) (hfills : A.Fills m n) (he : par.epsRel = real e) (he0 : 0 ≤ e)
    (hiter : Module.finrank ℝ (LinearMap.range L) ≤ par.maxIter) :
    (∀ b ∈ LinearMap.range L, ∀ (w : Vec (Exact ε)) (work : ℕ), w.length = m → solveWorkLength m n ≤ work →
      (solve par A (vec b) w work).Yields fun s => ∃ w i, s = ⟨vec w, .ok i⟩ ∧
        i ≤ Module.finrank ℝ (LinearMap.range L) ∧ ‖b - L (LinearMap.adjoint L w)‖ ≤ e * ‖b‖) ∧
    (∀ (v : Euclidean n) (u : Vec (Exact ε)) (work : ℕ), u.length = n → workLength m n ≤ work →
      (project par A (vec v) u work).Yields fun s => ∃ u i, s = ⟨vec u, .ok i⟩ ∧ ‖L u‖ ≤ e * ‖L v‖ ∧
        v - u ∈ LinearMap.range (LinearMap.adjoint L)) ∧
    (e = 0 →
      ((Barrier.nullProjector A par).Acts (kernelProjection L) ∧ (Barrier.nullProjector A par).Fills n n ∧
        (kernelProjection L).IsSymmetricProjection ∧ LinearMap.range (kernelProjection L) = LinearMap.ker L) ∧
      (∀ (g : Euclidean m) (u : Euclidean n) (work : ℕ), -g ∈ LinearMap.range L → workLength m n ≤ work →
        (leastNorm par A (vec g) (vec u) work).Yields fun s => ∃ u i, s = ⟨vec u, .ok i⟩ ∧ L u = -g ∧
          ∀ z, L z = -g → z ≠ u → ‖u‖ < ‖z‖) ∧
      ∀ (p : Problem (Exact ε)) (c : Constraint (Exact ε)) (x y : Vec (Exact ε)) (φ : Euclidean n),
        p.equality = some c → c.jacobian x = A → y.length = m →
        (Barrier.multipliers p par x (vec φ) y).Yields fun out => ∃ z : Euclidean m, out = (vec z, .ok ()) ∧
          L (φ + LinearMap.adjoint L z) = 0) := by
  refine ⟨fun b hb w work hw hwork => ?_, fun v u work hu hwork => ?_, ?_⟩
  · exact ((solve_sized hfills length_vec hw hwork).and (solve_solves hA he he0 hiter hb hw hwork)).mono fun _ h => h.2
  · refine ((project_sized hfills length_vec hu hwork).and (project_solves hA he he0 hiter v hu hwork)).mono ?_
    rintro _ ⟨-, w, i, rfl, hw⟩
    rw [← map_sub] at hw
    exact ⟨_, i, rfl, hw, w, (sub_sub_cancel v _).symm⟩
  · rintro rfl
    refine ⟨⟨Barrier.nullProjector_acts hA he hiter, Barrier.nullProjector_fills hfills par,
      kernelProjection_isSymmetricProjection, range_kernelProjection⟩, fun g u work hg hwork => ?_,
      fun p c x y φ hc hJ hy => ?_⟩
    · refine ((leastNorm_sized hfills length_vec length_vec hwork).and
        (leastNorm_solves hA he he0 hiter hg u hwork)).mono ?_
      rintro _ ⟨-, w, i, rfl, hw⟩
      rw [zero_mul, norm_le_zero_iff, sub_eq_zero] at hw
      exact ⟨_, i, rfl, hw.symm, fun z hz => norm_adjoint_lt (hz.trans hw)⟩
    · subst hJ
      refine ((Barrier.multipliers_fills hc hfills par length_vec hy).and
        (Barrier.multipliers_solves hc hA he he0 hiter φ hy)).mono ?_
      rintro _ ⟨-, z, rfl, hz⟩
      rw [zero_mul, norm_le_zero_iff] at hz
      exact ⟨z, rfl, hz⟩

/-- A matrix that keeps the first coordinate and drops the second. -/
def firstOnly : Matrix (Exact ε) := ⟨.diagonal 2, #[real 1, real 0], rfl⟩

theorem firstOnly_acts : (firstOnly : Matrix (Exact ε)).operator.Acts ((firstOnly : Matrix (Exact ε)).linear 2 2) :=
  Matrix.operator_acts (by simp [Matrix.Finite, firstOnly])

theorem firstOnly_linear (x : Euclidean 2) :
    (firstOnly : Matrix (Exact ε)).linear 2 2 x = EuclideanSpace.single 0 (x 0) := by
  have hget : ∀ i j : Fin 2, ((firstOnly : Matrix (Exact ε)).get i j).toReal = if i = 0 ∧ j = 0 then 1 else 0 := by
    intro i j
    fin_cases i <;> fin_cases j <;> rfl
  unfold Matrix.linear
  ext i
  simp only [rowMap_apply, hget, Fin.sum_univ_two]
  fin_cases i <;> simp

theorem adjoint_firstOnly_linear :
    LinearMap.adjoint ((firstOnly : Matrix (Exact ε)).linear 2 2) = (firstOnly : Matrix (Exact ε)).linear 2 2 :=
  (Matrix.linear_symmetric rfl 2).adjoint_eq

/-- A system of rank one is solved exactly. -/
theorem solves_consistent_firstOnly :
    let A : Operator (Exact ⟨1, Set.mem_Ioi.mpr one_pos⟩) := firstOnly.operator
    let L := (firstOnly : Matrix (Exact ⟨1, Set.mem_Ioi.mpr one_pos⟩)).linear 2 2
    let par : NormalParam (Exact ⟨1, Set.mem_Ioi.mpr one_pos⟩) := ⟨200, real 0⟩
    let b : Euclidean 2 := EuclideanSpace.single 0 3
    (A.Acts L ∧ A.Fills 2 2 ∧ par.epsRel = real 0 ∧ (0 : ℝ) ≤ 0 ∧
      Module.finrank ℝ (LinearMap.range L) ≤ par.maxIter) ∧
    b ∈ LinearMap.range L ∧
    (solve par A (vec b) (Vec.zeros 2) 8).Yields fun s => ∃ w i, s = ⟨vec w, .ok i⟩ ∧
      i ≤ Module.finrank ℝ (LinearMap.range L) ∧ ‖b - L (LinearMap.adjoint L w)‖ ≤ 0 * ‖b‖ := by
  intro A L par b
  have hA : A.Acts L := firstOnly_acts
  have hfills : A.Fills 2 2 := Matrix.operator_fills _
  have hiter : Module.finrank ℝ (LinearMap.range L) ≤ par.maxIter := (rank_le_rows L).trans (by decide)
  have hb : b ∈ LinearMap.range L := ⟨b, by rw [firstOnly_linear]; simp [b]⟩
  exact ⟨⟨hA, hfills, rfl, le_rfl, hiter⟩, hb,
    (solves_consistent hA hfills rfl le_rfl hiter).1 b hb _ 8 (Vec.length_zeros 2) (by decide)⟩

end NormalEquations
end ConstrainedOpt
