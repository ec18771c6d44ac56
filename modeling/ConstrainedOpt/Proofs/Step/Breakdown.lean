import ConstrainedOpt.Proofs.Multipliers.Solves
import ConstrainedOpt.Proofs.Step.Consistent
import ConstrainedOpt.Proofs.Step.Stability

/-! # Breakdowns of the normal equations

A solve ends where its direction is lost on the transpose. In the first pass the direction is the right-hand side, and the
zero it has come to is a least-squares solution. In any later pass the direction is the residual with a multiple of one
that was not lost: then the residual is not lost either, and the solution is one of least squares only if nothing of the
residual is left.
-/
namespace ConstrainedOpt
open Exact Journaled

namespace NormalEquations

/-- A solve for `b` breaks down after `i` passes with the solution `w`: what the transpose makes of its direction is finite
and has no length. -/
structure BreaksDown {F : Type} [Scalar F] (par : NormalParam F) (A : Operator F) (b : Vec F) (i : ℕ) (w : Vec F) :
    Prop where
  finite : Scalar.isFinite (Scalar.sqrt (Vec.inner b b)) = true
  nonzero : (Scalar.sqrt (Vec.inner b b) == 0) = false
  passes : i < par.maxIter
  breaks : ∃ s t, Reaches par A b i s ∧ s.w = w ∧ (A.applyTransposed 1 s.p 0 (Vec.zeros A.cols)).Returns t ∧
    Scalar.isFinite (Vec.inner t t) = true ∧ Vec.inner t t ≤ 0

variable {ε : Set.Ioi (0 : ℝ)} {n m : ℕ} {L : Euclidean n →ₗ[ℝ] Euclidean m} {par : NormalParam (Exact ε)}
  {A : Operator (Exact ε)} {b w r p : Euclidean m} {i : ℕ}

/-! ### Passes -/

/-- The solution, the residual and the direction that `i` passes come to. -/
inductive Passes (L : Euclidean n →ₗ[ℝ] Euclidean m) (b : Euclidean m) :
    ℕ → Euclidean m → Euclidean m → Euclidean m → Prop
  | start : Passes L b 0 0 b b
  | next {i : ℕ} {w r p : Euclidean m} (h : Passes L b i w r p) (hp : LinearMap.adjoint L p ≠ 0) :
      Passes L b (i + 1) (w + stepLength L r p • p) (nextResidual L r p) (nextDirection L r p)

namespace Passes

theorem residual (h : Passes L b i w r p) : L (LinearMap.adjoint L w) + r = b := by
  induction h with
  | start => rw [map_zero, map_zero, zero_add]
  | next _ _ ih => exact residual_next ih

/-- Without a residual the direction is lost. -/
theorem adjoint_direction (h : Passes L b i w r p) (hr : r = 0) : LinearMap.adjoint L p = 0 := by
  cases h with
  | start => rw [hr, map_zero]
  | next => rw [nextDirection, hr, inner_zero_left, zero_div, zero_smul, zero_add, map_zero]

/-- A lost direction has a lost residual in the first pass, and later on only without a residual. -/
theorem adjoint_residual_iff (h : Passes L b i w r p) (hp : LinearMap.adjoint L p = 0) :
    LinearMap.adjoint L r = 0 ↔ i = 0 ∨ r = 0 := by
  cases h with
  | start => simp [hp]
  | @next i w r q h hq =>
    have hr : r ≠ 0 := fun h0 => hq (h.adjoint_direction h0)
    rw [nextDirection, map_add, map_smul] at hp
    constructor
    · intro hlost
      rw [hlost, add_zero] at hp
      have hfactor := (smul_eq_zero.mp hp).resolve_right hq
      have hnext := (div_eq_zero_iff.mp hfactor).resolve_right (inner_self_ne_zero.mpr hr)
      exact .inr (inner_self_eq_zero.mp hnext)
    · rintro (h0 | h0)
      · cases h0
      · rw [h0, map_zero]

end Passes

theorem realPass_eq_next {normB : ℝ} {t : Iterate (Exact ε)} (h : .next t = realPass par L normB w r p) :
    LinearMap.adjoint L p ≠ 0 ∧
      t = realIterate (w + stepLength L r p • p) (nextResidual L r p) (nextDirection L r p) := by
  unfold realPass at h
  split at h
  · cases h
  case isFalse hp =>
    split at h
    · cases h
    · exact ⟨hp, Progress.next.inj h⟩

/-- A solve starts from zero. -/
theorem start_eq_realIterate (hA : A.Acts L) (b : Euclidean m) :
    (⟨Vec.zeros A.rows, vec b, vec b, Vec.inner (vec b) (vec b)⟩ : Iterate (Exact ε)) = realIterate 0 b b := by
  rw [hA.rows, zeros_eq, inner_vec]
  rfl

theorem pass_yields_realPass (hA : A.Acts L) (hfills : A.Fills m n) (normB : ℝ) (j : ℕ)
    (hr : r = 0 → LinearMap.adjoint L p = 0) :
    (pass par A (real normB) j (realIterate w r p)).Yields fun out => out = realPass par L normB w r p :=
  ((pass_sized hfills _ _ ⟨length_vec, length_vec, length_vec⟩).and (pass_eq_realPass hA normB j hr)).mono fun _ h => h.2

variable {s : Iterate (Exact ε)}

theorem Reaches.passes (hA : A.Acts L) (hs : Reaches par A (vec b) i s) :
    ∃ w r p, s = realIterate w r p ∧ Passes L b i w r p := by
  induction hs with
  | start => exact ⟨0, b, b, start_eq_realIterate hA b, .start⟩
  | next _ hpass ih =>
    obtain ⟨w, r, p, rfl, h⟩ := ih
    rw [sqrt_inner_vec] at hpass
    obtain ⟨hp, rfl⟩ := realPass_eq_next (hpass.ensured (pass_eq_realPass hA ‖b‖ _ h.adjoint_direction))
    exact ⟨_, _, _, rfl, h.next hp⟩

/-- With a tolerance that is not negative the passes come to iterates with a residual only. -/
theorem Reaches.residual_ne_zero (hA : A.Acts L) (heps : Nonneg par.epsRel) (hb : b ≠ 0)
    (hs : Reaches par A (vec b) i s) : ∃ w r p : Euclidean m, s = realIterate w r p ∧ r ≠ 0 := by
  induction hs with
  | start => exact ⟨0, b, b, start_eq_realIterate hA b, hb⟩
  | next _ hpass ih =>
    obtain ⟨w, r, p, rfl, hr⟩ := ih
    rw [sqrt_inner_vec] at hpass
    exact hpass.ensured (pass_stable hA heps (norm_nonneg b) _ hr)

/-- A solve goes on from whatever its passes come to. -/
theorem Reaches.iterate_yields (hA : A.Acts L) (hfills : A.Fills m n) (hs : Reaches par A (vec b) i s) (budget : ℕ)
    {Q : Solved (Exact ε) → Prop} (h : (iterate par A (real ‖b‖) budget i s).Yields Q) :
    (iterate par A (real ‖b‖) (budget + i) 0 (realIterate 0 b b)).Yields Q := by
  induction hs generalizing budget with
  | start => exact start_eq_realIterate hA b ▸ h
  | @next i s t hs hpass ih =>
    obtain ⟨w, r, p, rfl, hpasses⟩ := hs.passes hA
    rw [sqrt_inner_vec] at hpass
    have hyields : (pass par A (real ‖b‖) (i + 1) (realIterate w r p)).Yields fun out => out = realPass par L ‖b‖ w r p :=
      pass_yields_realPass hA hfills ‖b‖ (i + 1) hpasses.adjoint_direction
    have hnext := hpass.ensured hyields.ensures
    rw [Nat.add_comm i 1, ← Nat.add_assoc]
    refine ih (budget + 1) ?_
    refine yields_bind hyields ?_
    rintro _ rfl
    rw [← hnext]
    exact h

/-! ### Least squares -/

/-- A point minimises the residual where the residual is lost on the transpose. -/
theorem leastSquares_iff (g : Euclidean m) (u : Euclidean n) :
    (∀ z, ‖g + L u‖ ≤ ‖g + L z‖) ↔ LinearMap.adjoint L (g + L u) = 0 := by
  have hswap : ∀ z, ‖-g - L z‖ = ‖g + L z‖ := fun z => by rw [← neg_add', norm_neg]
  have hbelow : BddBelow (Set.range fun v : (LinearMap.range L : Set (Euclidean m)) => ‖-g - v‖) :=
    ⟨0, by rintro _ ⟨v, rfl⟩; exact norm_nonneg _⟩
  have horth := Submodule.norm_eq_iInf_iff_real_inner_eq_zero (LinearMap.range L) (u := -g) (v := L u) ⟨u, rfl⟩
  constructor
  · intro hmin
    have hle : ‖-g - L u‖ ≤ ⨅ v : (LinearMap.range L : Set (Euclidean m)), ‖-g - v‖ := by
      refine le_ciInf ?_
      rintro ⟨_, z, rfl⟩
      rw [hswap, hswap]
      exact hmin z
    have hzero := horth.mp (le_antisymm hle (ciInf_le hbelow ⟨L u, u, rfl⟩))
    refine ext_inner_right ℝ fun z => ?_
    have hz := hzero (L z) ⟨z, rfl⟩
    rw [← neg_add', inner_neg_left, neg_eq_zero] at hz
    rw [LinearMap.adjoint_inner_left, hz, inner_zero_left]
  · intro hlost z
    have hmin := horth.mpr ?_
    · rw [← hswap, ← hswap, hmin]
      exact ciInf_le hbelow ⟨L z, z, rfl⟩
    · rintro _ ⟨z, rfl⟩
      rw [← neg_add', inner_neg_left, ← LinearMap.adjoint_inner_left, hlost, inner_zero_left, neg_zero]

/-! ### Breakdowns -/

/-- What a solve that breaks down hands out. -/
theorem BreaksDown.solve_yields (hA : A.Acts L) (hfills : A.Fills m n) {x : Vec (Exact ε)}
    (h : BreaksDown par A (vec b) i x) : ∃ w r p, x = vec w ∧ Passes L b i w r p ∧ LinearMap.adjoint L p = 0 ∧
      (Nonneg par.epsRel → r ≠ 0) ∧ ∀ (y : Vec (Exact ε)) (work : ℕ), y.length = m → solveWorkLength m n ≤ work →
        (solve par A (vec b) y work).Yields fun s => s = ⟨vec w, .ok (i + 1)⟩ := by
  obtain ⟨s, t, hs, rfl, ht, -, hflat⟩ := h.breaks
  obtain ⟨w, r, p, rfl, hpasses⟩ := hs.passes hA
  have hb : b ≠ 0 := by
    rintro rfl
    have hne := h.nonzero
    rw [sqrt_inner_vec, norm_zero] at hne
    exact Bool.false_ne_true (hne.symm.trans (real_beq.mpr rfl))
  have hp : LinearMap.adjoint L p = 0 := by
    rw [hA.cols, zeros_eq] at ht
    have ht := ht.ensured (hA.applyTransposed 1 0 p 0)
    rw [one_smul, zero_smul, add_zero] at ht
    rw [ht, inner_vec] at hflat
    exact curvature_nonpos_iff.mp hflat
  refine ⟨w, r, p, rfl, hpasses, hp, fun heps => ?_, fun y work hy hwork => ?_⟩
  · obtain ⟨w', r', p', he, hr⟩ := hs.residual_ne_zero hA heps hb
    rwa [vec_inj.mp (congrArg Iterate.r he)]
  · obtain ⟨k, hk⟩ := Nat.exists_eq_add_of_lt h.passes
    rw [solve_eq_iterate hA b hy hwork, if_neg hb, hk, Nat.add_assoc, Nat.add_comm i]
    refine hs.iterate_yields hA hfills (k + 1) ?_
    refine yields_bind (pass_yields_realPass hA hfills ‖b‖ (i + 1) hpasses.adjoint_direction) ?_
    rintro _ rfl
    rw [realPass, if_pos hp]
    exact yields_pure (finish_vec _ w)

/-- A solve that breaks down in its first pass hands out zero, which is a least-squares solution. One that breaks down later
hands out a solution that is not one of least squares, unless it solves the system, which it does with a negative or
undefined tolerance only. The same goes for the least-norm solution made of it. -/
theorem breakdown_leastSquares_iff (hA : A.Acts L) (hfills : A.Fills m n) {x : Vec (Exact ε)}
    (h : BreaksDown par A (vec b) i x) : ∃ w, x = vec w ∧
      (∀ (y : Vec (Exact ε)) (work : ℕ), y.length = m → solveWorkLength m n ≤ work →
        (solve par A (vec b) y work).Yields fun s => s = ⟨vec w, .ok (i + 1)⟩) ∧
      (LinearMap.adjoint L (b - L (LinearMap.adjoint L w)) = 0 ↔ i = 0 ∨ L (LinearMap.adjoint L w) = b) ∧
      (i = 0 → w = 0 ∧ LinearMap.adjoint L b = 0) ∧ (Nonneg par.epsRel → L (LinearMap.adjoint L w) ≠ b) ∧
      ∀ g, b = -g →
        (∀ (u : Euclidean n) (work : ℕ), workLength m n ≤ work → (leastNorm par A (vec g) (vec u) work).Yields fun s =>
          s = ⟨vec (LinearMap.adjoint L w), .ok (i + 1)⟩) ∧
        ((∀ z, ‖g + L (LinearMap.adjoint L w)‖ ≤ ‖g + L z‖) ↔ i = 0 ∨ L (LinearMap.adjoint L w) = -g) := by
  obtain ⟨w, r, p, rfl, hpasses, hp, hresidual, hsolve⟩ := h.solve_yields hA hfills
  have hr : b - L (LinearMap.adjoint L w) = r := sub_eq_of_eq_add' hpasses.residual.symm
  have hzero : r = 0 ↔ L (LinearMap.adjoint L w) = b := by rw [← hr, sub_eq_zero, eq_comm]
  have hiff := hpasses.adjoint_residual_iff hp
  rw [hzero, ← hr] at hiff
  refine ⟨w, rfl, hsolve, hiff, ?_, fun heps => mt hzero.mpr (hresidual heps), ?_⟩
  · rintro rfl
    cases hpasses
    exact ⟨rfl, hp⟩
  · rintro g rfl
    refine ⟨fun u work hwork => ?_, ?_⟩
    · have hpulled := leastNorm_pulls hA u hwork (Q := fun w' j => w' = w ∧ j = i + 1)
        ((hsolve _ _ length_vec le_rfl).ensures.mono fun s hs => ⟨w, i + 1, hs, rfl, rfl⟩)
      refine ((leastNorm_sized hfills length_vec length_vec hwork).and hpulled).mono ?_
      rintro _ ⟨-, _, _, rfl, rfl, rfl⟩
      rfl
    · rw [leastSquares_iff, ← hiff, ← neg_add', map_neg, neg_eq_zero]

/-! ### A breakdown in the second pass -/

/-- The iterate after a pass. -/
theorem Reaches.next_real (hA : A.Acts L) (hfills : A.Fills m n) (hs : Reaches par A (vec b) i (realIterate w r p))
    (hr : r = 0 → LinearMap.adjoint L p = 0) (h : realPass par L ‖b‖ w r p = .next s) :
    Reaches par A (vec b) (i + 1) s := by
  refine hs.next ?_
  rw [sqrt_inner_vec]
  obtain ⟨_, rest, hrun, rfl⟩ := pass_yields_realPass hA hfills ‖b‖ (i + 1) hr #[]
  exact ⟨#[], rest, h ▸ hrun⟩

/-- A solve breaks down where the direction is lost. -/
theorem BreaksDown.of_lost (hA : A.Acts L) (hfills : A.Fills m n) (hb : b ≠ 0) (hi : i < par.maxIter)
    (hs : Reaches par A (vec b) i (realIterate w r p)) (hp : LinearMap.adjoint L p = 0) :
    BreaksDown par A (vec b) i (vec w) := by
  have hyields := (hfills.applyTransposed 1 (vec p) 0 (vec (0 : Euclidean n)) length_vec length_vec).and
    (hA.applyTransposed 1 0 p 0)
  obtain ⟨t, rest, hrun, -, ht⟩ := hyields #[]
  rw [hp, smul_zero, smul_zero, add_zero] at ht
  subst ht
  refine ⟨?_, ?_, hi, _, vec (0 : Euclidean n), hs, rfl, ?_, ?_, ?_⟩
  · rw [sqrt_inner_vec, isFinite_real]
  · rw [sqrt_inner_vec]
    exact Bool.eq_false_iff.mpr fun h => hb (norm_eq_zero.mp (real_beq.mp h))
  · rw [hA.cols, zeros_eq]
    exact ⟨#[], rest, hrun⟩
  · rw [inner_vec, isFinite_real]
  · rw [inner_vec]
    exact curvature_nonpos_iff.mpr rfl

theorem inner_two (x y : Euclidean 2) : inner ℝ x y = x 0 * y 0 + x 1 * y 1 := by
  rw [PiLp.inner_apply, Fin.sum_univ_two]
  simp [mul_comm]

noncomputable def diagonalPoint (t : ℝ) : Euclidean 2 := WithLp.toLp 2 fun _ => t

theorem firstOnly_realPass : realPass (⟨200, real 0⟩ : NormalParam (Exact ε))
    ((firstOnly : Matrix (Exact ε)).linear 2 2) ‖diagonalPoint 1‖ 0 (diagonalPoint 1) (diagonalPoint 1) =
      .next (realIterate (diagonalPoint 2) (WithLp.toLp 2 ![-1, 1]) (EuclideanSpace.single 1 2)) := by
  have hstep : stepLength ((firstOnly : Matrix (Exact ε)).linear 2 2) (diagonalPoint 1) (diagonalPoint 1) = 2 := by
    unfold stepLength transpose
    rw [adjoint_firstOnly_linear, firstOnly_linear, inner_two, inner_two]
    norm_num [diagonalPoint]
  have hresidual : nextResidual ((firstOnly : Matrix (Exact ε)).linear 2 2) (diagonalPoint 1) (diagonalPoint 1) =
      WithLp.toLp 2 ![-1, 1] := by
    unfold nextResidual transpose
    rw [hstep, adjoint_firstOnly_linear, firstOnly_linear, firstOnly_linear]
    ext i
    fin_cases i <;> norm_num [diagonalPoint]
  have hdirection : nextDirection ((firstOnly : Matrix (Exact ε)).linear 2 2) (diagonalPoint 1) (diagonalPoint 1) =
      EuclideanSpace.single 1 2 := by
    unfold nextDirection
    rw [hresidual, inner_two, inner_two]
    ext i
    fin_cases i <;> norm_num [diagonalPoint]
  have hw : 0 + (2 : ℝ) • diagonalPoint 1 = diagonalPoint 2 := by
    ext i
    simp [diagonalPoint]
  unfold realPass
  rw [hstep, hresidual, hdirection, hw, if_neg, if_neg]
  · rw [real_mul, zero_mul, real_le, norm_le_zero_iff]
    intro h
    have hone := congrFun (congrArg WithLp.ofLp h) 1
    norm_num at hone
  · rw [transpose, adjoint_firstOnly_linear, firstOnly_linear]
    simp [diagonalPoint]

theorem firstOnly_breaksDown : BreaksDown (⟨200, real 0⟩ : NormalParam (Exact ε)) firstOnly.operator
    (vec (diagonalPoint 1)) 1 (vec (diagonalPoint 2)) := by
  have hA := firstOnly_acts (ε := ε)
  have hfills : (firstOnly : Matrix (Exact ε)).operator.Fills 2 2 := Matrix.operator_fills _
  have hne : diagonalPoint 1 ≠ 0 := fun h => one_ne_zero (congrFun (congrArg WithLp.ofLp h) 0)
  have hstart : Reaches (⟨200, real 0⟩ : NormalParam (Exact ε)) firstOnly.operator (vec (diagonalPoint 1)) 0
      (realIterate 0 (diagonalPoint 1) (diagonalPoint 1)) := start_eq_realIterate hA (diagonalPoint 1) ▸ .start
  refine .of_lost hA hfills hne (by simp) (hstart.next_real hA hfills (fun h => absurd h hne) firstOnly_realPass) ?_
  rw [adjoint_firstOnly_linear, firstOnly_linear]
  simp

/-- The solution `(2, 2)` that a breakdown in the second pass leaves is not one of least squares. -/
theorem breakdown_not_leastSquares :
    let A : Operator (Exact ⟨1, Set.mem_Ioi.mpr one_pos⟩) := firstOnly.operator
    let L := (firstOnly : Matrix (Exact ⟨1, Set.mem_Ioi.mpr one_pos⟩)).linear 2 2
    let par : NormalParam (Exact ⟨1, Set.mem_Ioi.mpr one_pos⟩) := ⟨200, real 0⟩
    A.Acts L ∧ BreaksDown par A (vec (diagonalPoint 1)) 1 (vec (diagonalPoint 2)) ∧
    (solve par A (vec (diagonalPoint 1)) (Vec.zeros 2) 8).Yields (fun s => s = ⟨vec (diagonalPoint 2), .ok 2⟩) ∧
    LinearMap.adjoint L (diagonalPoint 1 - L (LinearMap.adjoint L (diagonalPoint 2))) ≠ 0 := by
  intro A L par
  obtain ⟨w, _, _, hw, -, -, -, hsolve⟩ := firstOnly_breaksDown.solve_yields firstOnly_acts (Matrix.operator_fills _)
  refine ⟨firstOnly_acts, firstOnly_breaksDown, hw ▸ hsolve _ 8 (Vec.length_zeros 2) (by decide), fun h => ?_⟩
  rw [adjoint_firstOnly_linear, firstOnly_linear, firstOnly_linear, firstOnly_linear] at h
  have hfirst := congrFun (congrArg WithLp.ofLp h) 0
  norm_num [diagonalPoint] at hfirst

theorem breakdown_leastSquares_iff_firstOnly :
    let A : Operator (Exact ⟨1, Set.mem_Ioi.mpr one_pos⟩) := firstOnly.operator
    let L := (firstOnly : Matrix (Exact ⟨1, Set.mem_Ioi.mpr one_pos⟩)).linear 2 2
    let par : NormalParam (Exact ⟨1, Set.mem_Ioi.mpr one_pos⟩) := ⟨200, real 0⟩
    (A.Acts L ∧ A.Fills 2 2 ∧ BreaksDown par A (vec (diagonalPoint 1)) 1 (vec (diagonalPoint 2)) ∧ Nonneg par.epsRel) ∧
    ∃ w : Euclidean 2, (solve par A (vec (diagonalPoint 1)) (Vec.zeros 2) 8).Yields (fun s => s = ⟨vec w, .ok 2⟩) ∧
      LinearMap.adjoint L (diagonalPoint 1 - L (LinearMap.adjoint L w)) ≠ 0 ∧
      ¬ ∀ z, ‖-diagonalPoint 1 + L (LinearMap.adjoint L w)‖ ≤ ‖-diagonalPoint 1 + L z‖ := by
  intro A L par
  have hA : A.Acts L := firstOnly_acts
  have hfills : A.Fills 2 2 := Matrix.operator_fills _
  have heps : Nonneg par.epsRel := ⟨0, rfl, le_rfl⟩
  obtain ⟨w, -, hsolve, hlost, -, hopen, hnorm⟩ := breakdown_leastSquares_iff hA hfills firstOnly_breaksDown
  have hnever : ¬ (1 = 0 ∨ L (LinearMap.adjoint L w) = diagonalPoint 1) := by
    rintro (h | h)
    · exact one_ne_zero h
    · exact hopen heps h
  refine ⟨⟨hA, hfills, firstOnly_breaksDown, heps⟩, w, hsolve _ 8 (Vec.length_zeros 2) (by decide), mt hlost.mp hnever, ?_⟩
  have hiff := (hnorm (-diagonalPoint 1) (neg_neg _).symm).2
  rw [neg_neg] at hiff
  exact mt hiff.mp hnever

end NormalEquations
end ConstrainedOpt
