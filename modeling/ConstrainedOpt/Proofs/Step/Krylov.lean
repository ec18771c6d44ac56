import ConstrainedOpt.Proofs.Exact.Strict
import ConstrainedOpt.Proofs.Step.NormalEquations

/-! # Conjugate gradients end exactly

Each iteration on the normal equations adds a dimension to the space its residual is orthogonal to, and that space stays in
the range of the operator. So as many iterations as its rank leave a residual within the tolerance, and none with no
tolerance.
-/
namespace ConstrainedOpt
open Exact Journaled
variable {ε : Set.Ioi (0 : ℝ)} {n m : ℕ} {L : Euclidean n →ₗ[ℝ] Euclidean m} {b w r p : Euclidean m} {i : ℕ}
  {K : Submodule ℝ (Euclidean m)} {par : NormalParam (Exact ε)} {A : Operator (Exact ε)} {e normB : ℝ}

namespace NormalEquations

/-- After `i` iterations: a residual orthogonal to the space `K` of the directions so far, and a direction
conjugate to them. -/
structure Krylov (L : Euclidean n →ₗ[ℝ] Euclidean m) (b : Euclidean m) (i : ℕ) (w r p : Euclidean m)
    (K : Submodule ℝ (Euclidean m)) : Prop where
  residual : L (LinearMap.adjoint L w) + r = b
  range : b ∈ LinearMap.range L
  direction : p ∈ LinearMap.range L
  space : K ≤ LinearMap.range L
  ne_zero : r ≠ 0
  count : i ≤ Module.finrank ℝ K
  orthogonal : ∀ v ∈ K, inner ℝ v r = 0
  conjugate : ∀ v ∈ K, inner ℝ (LinearMap.adjoint L v) (LinearMap.adjoint L p) = 0
  tied : p - r ∈ K
  grows : ∀ v ∈ K, L (LinearMap.adjoint L v) ∈ K ⊔ Submodule.span ℝ {r}

theorem Krylov.start (hb : b ∈ LinearMap.range L) (hne : b ≠ 0) : Krylov L b 0 0 b b ⊥ where
  residual := by simp
  range := hb
  direction := hb
  space := bot_le
  ne_zero := hne
  count := Nat.zero_le _
  orthogonal := by simp
  conjugate := by simp
  tied := by simp
  grows := by simp

namespace Krylov
variable (hk : Krylov L b i w r p K)
include hk

theorem inner_residual_pos : 0 < inner ℝ r r := real_inner_self_pos.mpr hk.ne_zero

theorem inner_direction : inner ℝ p r = inner ℝ r r := by
  have h := hk.orthogonal _ hk.tied
  rwa [inner_sub_left, sub_eq_zero] at h

/-- The residual is not in the space it is orthogonal to. -/
theorem residual_notMem : r ∉ K := fun h => hk.inner_residual_pos.ne' (hk.orthogonal r h)

theorem direction_notMem : p ∉ K := by
  intro h
  have hr := K.sub_mem h hk.tied
  rw [sub_sub_cancel] at hr
  exact hk.residual_notMem hr

/-- There are fewer iterations than the rank as long as there is a residual. -/
theorem lt_rank : i < Module.finrank ℝ (LinearMap.range L) := by
  have hlt : K < LinearMap.range L := lt_of_le_of_ne hk.space fun h => hk.direction_notMem (h ▸ hk.direction)
  exact hk.count.trans_lt (Submodule.finrank_lt_finrank_of_lt hlt)

/-- A direction in the range is not lost on the transpose. -/
theorem adjoint_direction_ne_zero : LinearMap.adjoint L p ≠ 0 := by
  intro h
  obtain ⟨u, hu⟩ := hk.direction
  have hzero : inner ℝ p p = 0 := by
    nth_rewrite 1 [← hu]
    rw [← LinearMap.adjoint_inner_right, h, inner_zero_right]
  exact hk.direction_notMem (inner_self_eq_zero.mp hzero ▸ K.zero_mem)

theorem curvature_pos : 0 < inner ℝ (LinearMap.adjoint L p) (LinearMap.adjoint L p) :=
  real_inner_self_pos.mpr hk.adjoint_direction_ne_zero

end Krylov

/-- The length of the step along `p`. -/
noncomputable def stepLength (L : Euclidean n →ₗ[ℝ] Euclidean m) (r p : Euclidean m) : ℝ :=
  inner ℝ r r / inner ℝ (transpose L p) (transpose L p)

/-- The residual after the step. -/
noncomputable def nextResidual (L : Euclidean n →ₗ[ℝ] Euclidean m) (r p : Euclidean m) : Euclidean m :=
  r + -stepLength L r p • L (transpose L p)

/-- The direction from there. -/
noncomputable def nextDirection (L : Euclidean n →ₗ[ℝ] Euclidean m) (r p : Euclidean m) : Euclidean m :=
  (inner ℝ (nextResidual L r p) (nextResidual L r p) / inner ℝ r r) • p + nextResidual L r p

theorem residual_next (h : L (LinearMap.adjoint L w) + r = b) :
    L (LinearMap.adjoint L (w + stepLength L r p • p)) + nextResidual L r p = b := by
  rw [← h]
  unfold nextResidual
  simp only [map_add, map_smul, neg_smul]
  abel

namespace Krylov
variable (hk : Krylov L b i w r p K)
include hk

theorem stepLength_pos : 0 < stepLength L r p := div_pos hk.inner_residual_pos hk.curvature_pos

/-- What the operator makes of the direction is the change of the residual. -/
theorem image_direction : L (LinearMap.adjoint L p) = (stepLength L r p)⁻¹ • (r - nextResidual L r p) := by
  have hα := hk.stepLength_pos.ne'
  unfold nextResidual
  rw [neg_smul, ← sub_eq_add_neg, sub_sub_cancel, inv_smul_smul₀ hα]

theorem residual_mem : r ∈ K ⊔ Submodule.span ℝ {p} := by
  have h := Submodule.sub_mem (K ⊔ Submodule.span ℝ {p}) (Submodule.mem_sup_right (Submodule.mem_span_singleton_self p))
    (Submodule.mem_sup_left hk.tied)
  rwa [sub_sub_cancel] at h

theorem next_orthogonal : ∀ v ∈ K ⊔ Submodule.span ℝ {p}, inner ℝ v (nextResidual L r p) = 0 := by
  have hold : ∀ v ∈ K, inner ℝ v (nextResidual L r p) = 0 := by
    intro v hv
    unfold nextResidual
    rw [inner_add_right, inner_smul_right, ← LinearMap.adjoint_inner_left, hk.orthogonal v hv,
      hk.conjugate v hv, mul_zero, add_zero]
  have hnew : inner ℝ p (nextResidual L r p) = 0 := by
    unfold nextResidual
    rw [inner_add_right, inner_smul_right, ← LinearMap.adjoint_inner_left, hk.inner_direction]
    unfold stepLength
    rw [neg_mul, div_mul_cancel₀ _ hk.curvature_pos.ne', add_neg_cancel]
  intro v hv
  obtain ⟨u, hu, z, hz, rfl⟩ := Submodule.mem_sup.mp hv
  obtain ⟨c, rfl⟩ := Submodule.mem_span_singleton.mp hz
  rw [inner_add_left, real_inner_smul_left, hold u hu, hnew, mul_zero, add_zero]

/-- One iteration, when it leaves a residual. -/
theorem advance (hne : nextResidual L r p ≠ 0) :
    Krylov L b (i + 1) (w + stepLength L r p • p) (nextResidual L r p) (nextDirection L r p)
      (K ⊔ Submodule.span ℝ {p}) := by
  have hp : p ∈ K ⊔ Submodule.span ℝ {p} := Submodule.mem_sup_right (Submodule.mem_span_singleton_self p)
  have horth := hk.next_orthogonal
  have hsum := residual_next hk.residual (p := p)
  have hrange : nextResidual L r p ∈ LinearMap.range L := by
    rw [← sub_eq_of_eq_add' hsum.symm]
    exact Submodule.sub_mem _ hk.range ⟨_, rfl⟩
  have hmem := hk.residual_mem
  have hle : K ⊔ Submodule.span ℝ {r} ≤ K ⊔ Submodule.span ℝ {p} :=
    sup_le le_sup_left ((Submodule.span_singleton_le_iff_mem _ _).mpr hmem)
  refine ⟨hsum, hk.range, ?_, ?_, hne, ?_, horth, fun v hv => ?_, ?_, fun v hv => ?_⟩
  · exact Submodule.add_mem _ (Submodule.smul_mem _ _ hk.direction) hrange
  · exact sup_le hk.space ((Submodule.span_singleton_le_iff_mem _ _).mpr hk.direction)
  · have hlt : K < K ⊔ Submodule.span ℝ {p} := lt_of_le_of_ne le_sup_left fun h => hk.direction_notMem (h ▸ hp)
    exact hk.count.trans_lt (Submodule.finrank_lt_finrank_of_lt hlt)
  · -- old directions by the growth of the space, the last one by the choice of the factor
    obtain ⟨u, hu, z, hz, rfl⟩ := Submodule.mem_sup.mp hv
    obtain ⟨c, rfl⟩ := Submodule.mem_span_singleton.mp hz
    have hold : inner ℝ (LinearMap.adjoint L u) (LinearMap.adjoint L (nextResidual L r p)) = 0 := by
      rw [LinearMap.adjoint_inner_right]
      exact horth _ (hle (hk.grows u hu))
    have hlast : inner ℝ (LinearMap.adjoint L p) (LinearMap.adjoint L (nextResidual L r p)) =
        -((stepLength L r p)⁻¹ * inner ℝ (nextResidual L r p) (nextResidual L r p)) := by
      rw [LinearMap.adjoint_inner_right, hk.image_direction, real_inner_smul_left, inner_sub_left, horth r hmem]
      ring
    have hrr := hk.inner_residual_pos.ne'
    have hκ := hk.curvature_pos.ne'
    unfold nextDirection
    simp only [map_add, map_smul, inner_add_left, inner_add_right, real_inner_smul_left, real_inner_smul_right,
      hk.conjugate u hu, hold, hlast]
    unfold stepLength
    field_simp
    ring
  · unfold nextDirection
    rw [add_sub_cancel_right]
    exact Submodule.smul_mem _ _ hp
  · obtain ⟨u, hu, z, hz, rfl⟩ := Submodule.mem_sup.mp hv
    obtain ⟨c, rfl⟩ := Submodule.mem_span_singleton.mp hz
    rw [map_add, map_add, map_smul, map_smul, hk.image_direction]
    refine Submodule.add_mem _ (Submodule.mem_sup_left (hle (hk.grows u hu))) (Submodule.smul_mem _ _ ?_)
    refine Submodule.smul_mem _ _ (Submodule.sub_mem _ (Submodule.mem_sup_left hmem) ?_)
    exact Submodule.mem_sup_right (Submodule.mem_span_singleton_self _)

end Krylov

/-! ### The iteration -/

/-- The iterate with the given vectors. -/
noncomputable def realIterate (w r p : Euclidean m) : Iterate (Exact ε) := ⟨vec w, vec r, vec p, real (inner ℝ r r)⟩

open Classical in
/-- What a pass makes of real vectors: a direction that is lost on the transpose ends the iteration, and so does a small
residual. -/
noncomputable def realPass (par : NormalParam (Exact ε)) (L : Euclidean n →ₗ[ℝ] Euclidean m) (normB : ℝ)
    (w r p : Euclidean m) : Progress (Exact ε) :=
  if transpose L p = 0 then .done (vec w)
  else if real ‖nextResidual L r p‖ ≤ par.epsRel * real normB then .done (vec (w + stepLength L r p • p))
  else .next (realIterate (w + stepLength L r p • p) (nextResidual L r p) (nextDirection L r p))

theorem curvature_nonpos_iff {t : Euclidean n} : (real (inner ℝ t t) : Exact ε) ≤ 0 ↔ t = 0 :=
  real_le.trans real_inner_self_nonpos

theorem pass_eq_realPass (hA : A.Acts L) (normB : ℝ) (j : ℕ) (hr : r = 0 → LinearMap.adjoint L p = 0) :
    (pass par A (real normB) j (realIterate w r p)).Ensures fun out => out = realPass par L normB w r p := by
  unfold pass realIterate realPass
  rw [hA.cols, hA.rows, zeros_eq, zeros_eq]
  refine ensures_bind (hA.applyTransposed 1 0 p 0) ?_
  rintro _ rfl
  refine ensures_bind (hA.apply 1 0 _ 0) ?_
  rintro _ rfl
  simp only [one_smul, smul_zero, add_zero, inner_vec]
  rw [if_neg (by simp)]
  by_cases hflat : LinearMap.adjoint L p = 0
  · rw [if_pos hflat, if_pos (curvature_nonpos_iff.mpr hflat)]
    exact ensures_bind (ensures_true _) fun _ _ => ensures_pure rfl
  · have hκ := real_inner_self_pos.mpr hflat
    have hrr := (real_inner_self_pos.mpr (mt hr hflat)).ne'
    rw [if_neg hflat, if_neg (mt curvature_nonpos_iff.mp hflat), real_div hκ.ne', real_neg]
    refine ensures_bind (P := fun x => x = vec (w + stepLength L r p • p))
      (ensures_lift fun _ h => checked_add_eq_ok h) ?_
    rintro _ rfl
    refine ensures_bind (P := fun x => x = vec (nextResidual L r p)) (ensures_lift fun _ h => checked_add_eq_ok h) ?_
    rintro _ rfl
    refine ensures_bind (ensures_true _) fun _ _ => ?_
    rw [sqrt_inner_vec, inner_vec]
    split
    · exact ensures_pure rfl
    · rw [real_div hrr, scale_vec]
      refine ensures_bind (ensures_lift fun _ h => checked_add_eq_ok (a := 1) h) ?_
      rintro _ rfl
      rw [one_smul]
      exact ensures_pure rfl

/-- What is handed out leaves a residual of at most `τ` after at most as many iterations as the rank. -/
def Solves (L : Euclidean n →ₗ[ℝ] Euclidean m) (b : Euclidean m) (τ : ℝ) (s : Solved (Exact ε)) : Prop :=
  ∃ w i, s = ⟨vec w, .ok i⟩ ∧ i ≤ Module.finrank ℝ (LinearMap.range L) ∧ ‖b - L (transpose L w)‖ ≤ τ

theorem finish_vec (j : ℕ) (w : Euclidean m) : (finish j (vec w) : Solved (Exact ε)) = ⟨vec w, .ok j⟩ := by
  unfold finish
  rw [if_pos isFinite_vec]

theorem pass_solves (hA : A.Acts L) (he : par.epsRel = real e) (hτ : 0 ≤ e * normB) (j : ℕ) (hk : Krylov L b i w r p K) :
    (pass par A (real normB) j (realIterate w r p)).Ensures fun
      | .next s => ∃ w r p K, s = realIterate w r p ∧ Krylov L b (i + 1) w r p K
      | .done x => ∃ w, x = vec w ∧ ‖b - L (LinearMap.adjoint L w)‖ ≤ e * normB
      | .failed _ => False := by
  refine (pass_eq_realPass hA normB j fun h => absurd h hk.ne_zero).mono ?_
  rintro _ rfl
  unfold realPass
  rw [if_neg hk.adjoint_direction_ne_zero, he, real_mul]
  by_cases h : (real ‖nextResidual L r p‖ : Exact ε) ≤ real (e * normB)
  · rw [if_pos h]
    refine ⟨_, rfl, ?_⟩
    rw [← residual_next hk.residual (p := p), add_sub_cancel_left]
    exact real_le.mp h
  · rw [if_neg h]
    refine ⟨_, _, _, _, rfl, hk.advance fun h0 => h (real_le.mpr ?_)⟩
    rwa [h0, norm_zero]

theorem iterate_solves (hA : A.Acts L) (he : par.epsRel = real e) (hτ : 0 ≤ e * normB) (budget : ℕ)
    (hbudget : Module.finrank ℝ (LinearMap.range L) ≤ budget + i) (hk : Krylov L b i w r p K) :
    (iterate par A (real normB) budget i (realIterate w r p)).Ensures (Solves L b (e * normB)) := by
  have hlt := hk.lt_rank
  induction budget generalizing i w r p K with
  | zero => omega
  | succ budget ih =>
    refine ensures_bind (pass_solves hA he hτ _ hk) ?_
    rintro (s | x | x) hx
    · obtain ⟨w, r, p, K, rfl, hk⟩ := hx
      exact ih (by omega) hk hk.lt_rank
    · obtain ⟨w, rfl, hw⟩ := hx
      exact ensures_pure ⟨w, i + 1, finish_vec _ w, hlt, hw⟩
    · exact hx.elim

/-- An iteration for each equation is enough. -/
theorem rank_le_rows (L : Euclidean n →ₗ[ℝ] Euclidean m) : Module.finrank ℝ (LinearMap.range L) ≤ m :=
  (Submodule.finrank_le _).trans_eq finrank_euclideanSpace_fin

open Classical in
/-- A solve that is given what fits iterates from zero, unless there is nothing to solve. -/
theorem solve_eq_iterate (hA : A.Acts L) (b : Euclidean m) {x : Vec (Exact ε)} (hx : x.length = m) {work : ℕ}
    (hwork : solveWorkLength m n ≤ work) : solve par A (vec b) x work =
      if b = 0 then pure ⟨vec (0 : Euclidean m), .ok 0⟩ else iterate par A (real ‖b‖) par.maxIter 0 (realIterate 0 b b) := by
  have hzero : ((real ‖b‖ : Exact ε) == 0) = true ↔ b = 0 := real_beq.trans norm_eq_zero
  unfold solve
  rw [if_neg (by simp [hA.rows, hx]), if_neg (by rw [hA.rows, hA.cols]; exact hwork.not_gt)]
  dsimp only
  rw [zerosLike_of_length hx, sqrt_inner_vec, inner_vec, if_neg (by simp)]
  exact if_congr hzero rfl rfl

/-- A consistent system is solved to the tolerance, whatever its rank. -/
theorem solve_solves (hA : A.Acts L) (he : par.epsRel = real e) (he0 : 0 ≤ e)
    (hiter : Module.finrank ℝ (LinearMap.range L) ≤ par.maxIter) (hb : b ∈ LinearMap.range L) {x : Vec (Exact ε)}
    (hx : x.length = m) {work : ℕ} (hwork : solveWorkLength m n ≤ work) :
    (solve par A (vec b) x work).Ensures (Solves L b (e * ‖b‖)) := by
  rw [solve_eq_iterate hA b hx hwork]
  split
  case isTrue h =>
    refine ensures_pure ⟨0, 0, rfl, Nat.zero_le _, ?_⟩
    rw [map_zero, map_zero, sub_zero, h, norm_zero, mul_zero]
  case isFalse h =>
    exact iterate_solves hA he (mul_nonneg he0 (norm_nonneg b)) _ hiter (Krylov.start hb h)

/-! ### Projections -/

/-- The orthogonal projection onto the null space. -/
noncomputable def kernelProjection (L : Euclidean n →ₗ[ℝ] Euclidean m) : Euclidean n →ₗ[ℝ] Euclidean n :=
  (LinearMap.ker L).starProjection

theorem kernelProjection_mem (v : Euclidean n) : kernelProjection L v ∈ LinearMap.ker L :=
  Submodule.starProjection_apply_mem _ _

theorem kernelProjection_symmetric : (kernelProjection L).IsSymmetric := (LinearMap.ker L).starProjection_isSymmetric

theorem kernelProjection_idempotent (v : Euclidean n) :
    kernelProjection L (kernelProjection L v) = kernelProjection L v :=
  Submodule.starProjection_eq_self_iff.mpr (kernelProjection_mem v)

/-- What solves the normal equations for the image of a vector takes it to the null space. -/
theorem sub_adjoint_eq_kernelProjection {v : Euclidean n} {w : Euclidean m} (hw : L (LinearMap.adjoint L w) = L v) :
    v - LinearMap.adjoint L w = kernelProjection L v := by
  refine (Submodule.eq_starProjection_of_mem_of_inner_eq_zero ?_ fun u hu => ?_).symm
  · rw [LinearMap.mem_ker, map_sub, hw, sub_self]
  · rw [sub_sub_cancel, LinearMap.adjoint_inner_left, LinearMap.mem_ker.mp hu, inner_zero_right]

theorem project_solves (hA : A.Acts L) (he : par.epsRel = real e) (he0 : 0 ≤ e)
    (hiter : Module.finrank ℝ (LinearMap.range L) ≤ par.maxIter) (v : Euclidean n) {u : Vec (Exact ε)} (hu : u.length = n)
    {work : ℕ} (hwork : workLength m n ≤ work) : (project par A (vec v) u work).Ensures fun s =>
      ∃ w i, s = ⟨vec (v - LinearMap.adjoint L w), .ok i⟩ ∧ ‖L v - L (LinearMap.adjoint L w)‖ ≤ e * ‖L v‖ := by
  unfold project workShortage?
  rw [if_neg (by simp [hA.cols, hu]), if_neg (by rw [hA.rows, hA.cols]; exact hwork.not_gt)]
  refine ensures_bind (P := fun shortage => shortage = false) (ensures_pure rfl) ?_
  rintro _ rfl
  rw [if_neg Bool.false_ne_true, hA.rows, hA.cols, zeros_eq]
  refine ensures_bind (hA.apply 1 0 v 0) ?_
  rintro _ rfl
  rw [one_smul, smul_zero, add_zero]
  refine ensures_bind (solve_solves hA he he0 hiter ⟨v, rfl⟩ length_vec le_rfl) ?_
  rintro _ ⟨w, i, rfl, -, hw⟩
  refine ensures_bind (hA.applyTransposed (-1) 1 w v) ?_
  rintro _ rfl
  refine ensures_pure ⟨w, i, ?_, hw⟩
  rw [one_smul, neg_one_smul, neg_add_eq_sub]

theorem project_eq_kernelProjection (hA : A.Acts L) (heps : par.epsRel = real 0)
    (hiter : Module.finrank ℝ (LinearMap.range L) ≤ par.maxIter) (v u : Euclidean n) :
    (project par A (vec v) (vec u) (workLength A.rows A.cols)).Ensures fun s =>
      ∃ i, s = ⟨vec (kernelProjection L v), .ok i⟩ := by
  rw [hA.rows, hA.cols]
  refine (project_solves hA heps le_rfl hiter v length_vec le_rfl).mono ?_
  rintro _ ⟨w, i, rfl, hw⟩
  rw [zero_mul, norm_le_zero_iff, sub_eq_zero] at hw
  exact ⟨i, by rw [sub_adjoint_eq_kernelProjection hw.symm]⟩

theorem project_refuses {v u : Vec (Exact ε)} (hlen : v.length ≠ A.cols) (work : ℕ) :
    (project par A v u work).Ensures fun s => s.outcome = .error .invalidOperator := by
  unfold project
  rw [if_pos (.inl hlen)]
  exact ensures_bind (ensures_true _) fun _ _ => ensures_pure rfl

end NormalEquations

namespace Barrier
open NormalEquations

/-- With no tolerance and enough iterations the null space projector is the orthogonal projection. -/
theorem nullProjector_acts (hA : A.Acts L) (heps : par.epsRel = real 0)
    (hiter : Module.finrank ℝ (LinearMap.range L) ≤ par.maxIter) :
    (nullProjector A par).Acts (kernelProjection L) := by
  have happly : ∀ (a b : ℝ) (v z : Euclidean n), ((nullProjector A par).apply (real a) (vec v) (real b) (vec z)).Ensures
      fun y => y = vec (a • kernelProjection L v + b • z) := by
    intro a b v z
    have hzeros : (Vec.zeros A.cols : Vec (Exact ε)) = vec (0 : Euclidean n) := by rw [hA.cols, zeros_eq]
    unfold nullProjector Operator.selfAdjoint
    rw [hzeros]
    refine ensures_bind (project_eq_kernelProjection hA heps hiter v 0) ?_
    rintro _ ⟨i, rfl⟩
    refine ensures_bind (P := fun u => u = vec (kernelProjection L v)) (ensures_pure rfl) ?_
    rintro _ rfl
    exact axpby_ensures a b _ z
  refine ⟨hA.cols, hA.cols, happly, fun a b v z => ?_⟩
  rw [kernelProjection_symmetric.adjoint_eq]
  exact happly a b v z

/-- What is real of a projection is in the null space, whatever was projected. -/
theorem nullProjector_into {c : Constraint (Exact ε)} {x : Vec (Exact ε)} (hA : (c.jacobian x).Acts L)
    (heps : par.epsRel = real 0) (hiter : Module.finrank ℝ (LinearMap.range L) ≤ par.maxIter) (v : Vec (Exact ε)) :
    ((nullProjector (c.jacobian x) par).apply 1 v 0 (vec (0 : Euclidean n))).Ensures fun z =>
      Vec.isFinite z = true → ∃ u ∈ LinearMap.ker L, z = vec u := by
  have hcols : (c.jacobian x).cols = n := hA.cols
  by_cases hlen : v.length = n
  · by_cases hfin : Vec.isFinite v = true
    · obtain ⟨v, rfl⟩ := exists_vec hlen hfin
      refine ((nullProjector_acts hA heps hiter).apply 1 0 v 0).mono fun z hz _ => ?_
      rw [one_smul, smul_zero, add_zero] at hz
      exact ⟨_, kernelProjection_mem v, hz⟩
    · exact (nullProjector_strict c x par v _ (hlen.trans hcols.symm)).mono fun z hz h => absurd (hz h) hfin
  · unfold nullProjector Operator.selfAdjoint
    refine ensures_bind (project_refuses (fun h => hlen (h.trans hcols)) _) fun s hs => ?_
    rw [hs]
    refine ensures_bind (P := fun u => u = List.replicate (c.jacobian x).cols Scalar.nan)
      (ensures_bind (ensures_true _) fun _ _ => ensures_pure rfl) ?_
    rintro _ rfl
    refine ensures_lift fun z hz hfin => ?_
    obtain rfl : n = 0 := hcols.symm.trans (eq_zero_of_isFinite_nan (Checked.isFinite_of_axpby hz hfin))
    exact ⟨0, Submodule.zero_mem _, List.eq_nil_of_length_eq_zero ((Checked.axpby_length hz).trans length_vec)⟩

end Barrier

end ConstrainedOpt
