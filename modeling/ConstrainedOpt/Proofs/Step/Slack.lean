import ConstrainedOpt.Proofs.Scalar.Comparable
import ConstrainedOpt.Proofs.Sizes.Solvers
import ConstrainedOpt.Proofs.Step.Safeguard

/-! # The largest safe fraction

The safeguard of a linearised constraint answers with a fraction between zero and one whatever it is given, undefined and
infinite values included. In exact arithmetic it answers with the largest fraction of a direction that leaves all of the
slack, if the base does, and with zero if the base misses a component by more than the tolerance. In between it takes no
component of the slack below zero, nor further below.
-/
namespace ConstrainedOpt
open Exact Journaled

/-! ### Fractions of any numbers -/

section Comparable
variable {F : Type} [Scalar F] [Comparable F] {sg : Safeguard F} {A : Operator F} {h : Vec F} {κ : F} {m n : ℕ}

theorem Safeguard.linearFraction_mem (A : Operator F) (h : Vec F) (κ : F) (base d : Vec F) :
    (linearFraction A h κ base d).Ensures fun θ => Scalar.isNaN θ = false ∧ 0 ≤ θ ∧ θ ≤ 1 := by
  have hzero : Scalar.isNaN (0 : F) = false ∧ (0 : F) ≤ 0 ∧ (0 : F) ≤ 1 :=
    ⟨Comparable.isNaN_zero, Comparable.le_self Comparable.isNaN_zero, Comparable.zero_le_one⟩
  unfold linearFraction
  refine ensures_bind (ensures_true _) fun y _ => ensures_bind (ensures_true _) fun lowest _ => ?_
  dsimp only
  split
  · exact ensures_pure hzero
  · refine ensures_bind (ensures_true _) fun z _ => ensures_bind (ensures_true _) fun reach _ => ?_
    split
    case isTrue => exact ensures_pure hzero
    case isFalse hreach => exact ensures_pure (Comparable.cut_mem (Bool.not_eq_true _ ▸ hreach))

omit [Comparable F] in
/-- The safeguard is made for a slack of the size of the constraint only. -/
theorem Safeguard.IsLinear.length_eq (hsg : sg.IsLinear A h κ) : h.length = A.rows := by
  obtain ⟨work, hreturns⟩ := hsg
  refine hreturns.ensured (Q := fun r => ∀ sg, r = .ok sg → h.length = A.rows) ?_ sg rfl
  unfold linear
  split
  · exact ensures_bind (ensures_true _) fun _ _ => ensures_pure nofun
  case isFalse hlen =>
    exact (ensures_true _).mono fun _ _ _ _ => not_not.mp hlen

theorem Safeguard.IsLinear.fraction_mem (hsg : sg.IsLinear A h κ) (hA : A.Fills m n) (call : ℕ)
    {base d : Vec F} (hbase : base.length = n) (hd : d.length = n) :
    (sg.fraction call base d).Yields fun θ => Scalar.isNaN θ = false ∧ 0 ≤ θ ∧ θ ≤ 1 := by
  rw [hsg.eq]
  have hanswers := linearFraction_answers hA (hsg.length_eq.trans hA.rows) κ hbase hd
  exact (hanswers.and (linearFraction_mem A h κ base d)).mono fun _ hθ => hθ.2

end Comparable

/-! ### Fractions of real numbers -/

variable {ε : Set.Ioi (0 : ℝ)} {m n : ℕ}

/-- The safeguard of a linearised constraint answers with a fraction, whatever the numbers are. Where they are real, the test
on the base finds the least component of its slack, and the fraction is the largest one. -/
theorem Safeguard.fraction_largest :
    (∀ {F : Type} [Scalar F] [Comparable F] {sg : Safeguard F} {A : Operator F} {h : Vec F} {κ : F} {m n : ℕ},
      sg.IsLinear A h κ → A.Fills m n → ∀ (call : ℕ) (base d : Vec F), base.length = n → d.length = n →
        (sg.fraction call base d).Yields fun θ => Scalar.isNaN θ = false ∧ 0 ≤ θ ∧ θ ≤ 1) ∧
    ∀ {sg : Safeguard (Exact ε)} {A : Operator (Exact ε)} {J : Euclidean n →ₗ[ℝ] Euclidean m} {h : Euclidean m} {κ : ℝ},
      sg.IsLinear A (vec h) (real κ) → A.Fills m n → A.Acts J → 0 < κ →
        (∀ (call : ℕ) (base d : Euclidean n), (sg.fraction call (vec base) (vec d)).Yields fun θ =>
          ∃ α, θ = real α ∧ LargestFraction (κ • h + J base) (J d) (√ε * κ * ‖h‖) α) ∧
        ∀ y : Euclidean m,
          (∃ i, Vec.boundaryLength (Vec.scale (-1) (Vec.ones m)) (vec y : Vec (Exact ε)) = real (y i) ∧ ∀ j, y i ≤ y j) ∨
          m = 0 ∧ Vec.boundaryLength (Vec.scale (-1) (Vec.ones m)) (vec y : Vec (Exact ε)) = infinite false := by
  refine ⟨fun hsg hA call base d hbase hd => hsg.fraction_mem hA call hbase hd, ?_⟩
  intro sg A J h κ hsg hA hJ hκ
  refine ⟨fun call base d => ?_, boundaryLength_neg_ones⟩
  rw [hsg.eq]
  have hanswers := linearFraction_answers hA (hsg.length_eq.trans hA.rows) (real κ) (length_vec (v := base))
    (length_vec (v := d))
  exact (hanswers.and (linearFraction_largest hJ h hκ.le base d)).mono fun _ hθ => hθ.2

/-- An undefined slack leaves a fraction too. Of a direction that takes four times its share of one component of the slack, a
quarter is safe. -/
theorem Safeguard.fraction_largest_quarter :
    (∃ sg : Safeguard Float, sg.IsLinear (.identity 1) [Scalar.nan] 1 ∧ (Operator.identity 1 : Operator Float).Fills 1 1 ∧
      (sg.fraction 0 [1] [Scalar.infinity]).Yields fun θ => Scalar.isNaN θ = false ∧ 0 ≤ θ ∧ θ ≤ 1) ∧
    let h : Euclidean 2 := WithLp.toLp 2 ![2, 2]
    let d : Euclidean 2 := WithLp.toLp 2 ![-4, 1]
    ∃ sg : Safeguard (Exact ⟨1, Set.mem_Ioi.mpr one_pos⟩), sg.IsLinear (.identity 2) (vec h) (real (1 / 2)) ∧
      (Operator.identity 2 : Operator (Exact ⟨1, Set.mem_Ioi.mpr one_pos⟩)).Fills 2 2 ∧
      (Operator.identity 2 : Operator (Exact ⟨1, Set.mem_Ioi.mpr one_pos⟩)).Acts (LinearMap.id : Euclidean 2 →ₗ[ℝ] _) ∧
      (0 : ℝ) < 1 / 2 ∧ (sg.fraction 0 (vec (0 : Euclidean 2)) (vec d)).Yields fun θ => θ = real (1 / 4) := by
  obtain ⟨hany, hreal⟩ := fraction_largest (ε := ⟨1, Set.mem_Ioi.mpr one_pos⟩) (m := 2) (n := 2)
  refine ⟨⟨_, isLinear 1 rfl, Operator.identity_fills 1, ?_⟩, ?_⟩
  · exact hany (isLinear 1 rfl) (Operator.identity_fills 1) 0 [1] [Scalar.infinity] rfl rfl
  · intro h d
    have hlinear := isLinear (A := .identity 2) (h := vec h) (real (1 / 2) : Exact ⟨1, Set.mem_Ioi.mpr one_pos⟩) length_vec
    have hhalf : (0 : ℝ) < 1 / 2 := by norm_num
    refine ⟨_, hlinear, Operator.identity_fills 2, Operator.identity_acts 2, hhalf, ?_⟩
    refine ((hreal hlinear (Operator.identity_fills 2) (Operator.identity_acts 2) hhalf).1 0 0 d).mono ?_
    rintro _ ⟨α, rfl, hα⟩
    rw [LinearMap.id_apply, LinearMap.id_apply, add_zero] at hα
    have hy : ∀ i : Fin 2, ((1 / 2 : ℝ) • h) i = 1 := by
      intro i
      fin_cases i <;> simp [h]
    have hquarter : IsGreatest {t : ℝ | 0 ≤ t ∧ t ≤ 1 ∧ ∀ i, 0 ≤ 1 + t * d i} (1 / 4) := by
      refine ⟨⟨by norm_num, by norm_num, fun i => ?_⟩, fun t ⟨_, _, ht⟩ => ?_⟩
      · fin_cases i <;> norm_num [d]
      · have hfirst : 0 ≤ 1 + t * -4 := ht 0
        linarith
    have hgreatest := hα.greatest fun i => (hy i).symm ▸ zero_le_one
    simp only [hy] at hgreatest
    rw [hgreatest.unique hquarter]

end ConstrainedOpt
