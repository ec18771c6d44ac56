import ConstrainedOpt.Problem.Quadratic
import ConstrainedOpt.Proofs.Quadratic.Matrix
import ConstrainedOpt.Proofs.Reduction.Predicted
import ConstrainedOpt.Proofs.Sizes.States
import ConstrainedOpt.Proofs.Step.Stability

/-! # Quadratic programs

A problem poses a quadratic program when its functions are those of the program. The merit of a quadratic program
changes by exactly what the model of its Lagrangian and the reduction of the violation say, at any multipliers and for any
penalty.
-/
namespace ConstrainedOpt
open Journaled

/-! ### Ready-made functions -/

section Sizes
variable {F : Type} [Scalar F] {n : Nat}
open Checked

theorem Objective.quadratic_fills {P q : Matrix F} {r : F} {o : Objective F}
    (h : (quadratic P q r).answer = .ok (some o)) : o.Fills P.rows := by
  unfold quadratic at h
  split at h
  case isTrue => cases h
  case isFalse hsizes =>
    simp only [not_or, Bool.not_eq_true, Bool.not_eq_false', ne_eq, not_not, Prod.mk.injEq] at hsizes
    obtain ⟨hsym, hrows, hcols⟩ := hsizes
    have hq : q.entries.toList.length = P.rows := by simpa [hrows] using Matrix.size_of_column hcols
    have hP := Matrix.rows_eq_cols hsym
    have hproduct : ∀ (c d : F) {x y : Vec F}, x.length = P.rows → y.length = P.rows →
        (P.product false c x d y).Answers fun z => z.length = P.rows := by
      intro c d x y hx hy
      exact (P.product_answers false c d (hx.trans hP) hy).mono fun z hz => hz.trans hy
    cases h
    refine ⟨fun x hx => ?_, fun x hx => ?_, fun x dx _ hdx => hproduct _ _ hdx (Vec.length_zeros _)⟩
    · refine answers_bind (hproduct _ _ hx ((Vec.length_zerosLike x).trans hx)) fun px hpx => ?_
      refine answers_bind (answers_inner hx hpx) fun curved _ => ?_
      exact answers_bind (answers_inner hq hx) fun sloped _ => ⟨_, rfl, trivial⟩
    · refine answers_bind (answers_copy hq (Vec.length_zeros _)) ?_
      rintro _ rfl
      exact hproduct _ _ hx hq

theorem Constraint.affine_fills {A b : Matrix F} {c : Constraint F} (h : (affine A b).answer = .ok (some c)) :
    c.Fills A.rows A.cols := by
  unfold affine at h
  split at h
  case isTrue => cases h
  case isFalse hsizes =>
    simp only [ne_eq, not_not, Prod.mk.injEq] at hsizes
    obtain ⟨hrows, hcols⟩ := hsizes
    have hb : b.entries.toList.length = A.rows := by simpa [hrows] using Matrix.size_of_column hcols
    cases h
    refine ⟨rfl, rfl, fun x hx => ?_, fun x dx _ hdx => ?_, fun x dy _ hdy => ?_, fun _ _ _ _ _ _ =>
      ⟨_, rfl, Vec.length_zeros _⟩⟩
    · refine answers_bind (answers_copy hb (Vec.length_zeros _)) ?_
      rintro _ rfl
      exact (A.product_answers false _ _ hx hb).mono fun z hz => hz.trans hb
    · have hzeros := Vec.length_zeros (F := F) A.rows
      exact (A.product_answers false _ _ hdx hzeros).mono fun z hz => hz.trans hzeros
    · have hzeros := Vec.length_zeros (F := F) A.cols
      exact (A.product_answers true _ _ hdy hzeros).mono fun z hz => hz.trans hzeros

end Sizes

/-! ### Programs -/

open Exact

/-- Minimise `½ ⟨x, P x⟩ + ⟨q, x⟩ + r` subject to `A x = b`. -/
structure QuadraticProgram (n m : ℕ) where
  P : Euclidean n →ₗ[ℝ] Euclidean n
  symmetric : P.IsSymmetric
  q : Euclidean n
  r : ℝ
  A : Euclidean n →ₗ[ℝ] Euclidean m
  b : Euclidean m

namespace QuadraticProgram
variable {n m : ℕ} (Q : QuadraticProgram n m)

noncomputable def value (x : Euclidean n) : ℝ := 1 / 2 * inner ℝ x (Q.P x) + inner ℝ Q.q x + Q.r

def constraint (x : Euclidean n) : Euclidean m := Q.A x - Q.b

/-- The gradient of the Lagrangian at the multipliers `y`. -/
noncomputable def gradient (x : Euclidean n) (y : Euclidean m) : Euclidean n :=
  Q.P x + Q.q + transpose Q.A y

noncomputable def merit (x : Euclidean n) (y : Euclidean m) (ρ : ℝ) : ℝ :=
  Q.value x + inner ℝ y (Q.constraint x) + ρ * ‖Q.constraint x‖ * ‖Q.constraint x‖

theorem constraint_add (x d : Euclidean n) : Q.constraint (x + d) = Q.constraint x + Q.A d := by
  unfold constraint
  rw [map_add]
  abel

theorem value_add (x d : Euclidean n) :
    Q.value (x + d) = Q.value x + inner ℝ (Q.P x + Q.q) d + 1 / 2 * inner ℝ d (Q.P d) := by
  have hsym : inner ℝ d (Q.P x) = inner ℝ (Q.P x) d := real_inner_comm _ _
  have hcross : inner ℝ x (Q.P d) = inner ℝ (Q.P x) d := (Q.symmetric x d).symm
  unfold value
  rw [map_add]
  simp only [inner_add_left, inner_add_right, hsym, hcross]
  ring

/-- The merit falls by what the model and the violation predict. -/
theorem merit_sub (x d : Euclidean n) (y : Euclidean m) (ρ : ℝ) :
    Q.merit x y ρ - Q.merit (x + d) y ρ =
      -TruncatedCG.quadratic Q.P (Q.gradient x y) d + ρ * violationReduction Q.A (Q.constraint x) d := by
  have hpull : inner ℝ (LinearMap.adjoint Q.A y) d = inner ℝ y (Q.A d) := LinearMap.adjoint_inner_left Q.A d y
  unfold merit TruncatedCG.quadratic violationReduction gradient
  rw [value_add, constraint_add, inner_add_right, inner_add_left _ (LinearMap.adjoint Q.A y), hpull]
  ring

end QuadraticProgram

/-! ### Problems that pose a program -/

variable {ε : Set.Ioi (0 : ℝ)} {n m : ℕ} {Q : QuadraticProgram n m} {p : Problem (Exact ε)}

/-- The functions of a problem are those of a quadratic program, and fill their sizes. -/
structure Problem.Poses (p : Problem (Exact ε)) (Q : QuadraticProgram n m) : Prop where
  value : ∀ x, p.objective.value (vec x) = .ok (real (Q.value x))
  gradient : ∀ x, p.objective.gradient (vec x) n = .ok (vec (Q.P x + Q.q))
  hessian : ∀ (x : Vec (Exact ε)) d, p.objective.hessian x (vec d) n = .ok (vec (Q.P d))
  strict : ∀ x dx z, dx.length = n → p.objective.hessian x dx n = .ok z → Vec.isFinite z = true →
    Vec.isFinite dx = true
  equality : p.equality = none ∧ m = 0 ∨ ∃ c, p.equality = some c ∧ c.Affine Q.A (-Q.b) ∧
    ∀ x dx dy, c.second x dx dy n = .ok (Vec.zeros n)
  inequality : p.inequality = none
  fills : p.Fills n

/-- The functions of a problem are ready-made ones of real numbers: a quadratic objective, and an affine equality
constraint or none. -/
structure Problem.IsQuadratic (p : Problem (Exact ε)) (n : ℕ) : Prop where
  objective : ∃ (P q : Matrix (Exact ε)) (r : ℝ), P.Finite ∧ q.Finite ∧ P.rows = n ∧
    (Objective.quadratic P q (real r)).answer = .ok (some p.objective)
  equality : ∀ c, p.equality = some c → ∃ A b : Matrix (Exact ε), A.Finite ∧ b.Finite ∧ A.cols = n ∧
    (Constraint.affine A b).answer = .ok (some c)
  inequality : p.inequality = none
  preconditioner : ∀ b, p.preconditioner = some b → b.Fills n n

theorem Matrix.exists_column {a : Matrix (Exact ε)} (ha : a.Finite) (hrows : a.rows = m) (hcols : a.cols = 1) :
    ∃ v : Euclidean m, a.entries.toList = vec v :=
  exists_vec (by simpa [hrows] using size_of_column hcols) (List.all_eq_true.mpr ha)

theorem Constraint.affine_realises {A b : Matrix (Exact ε)} {c : Constraint (Exact ε)} (hA : A.Finite) (hb : b.Finite)
    (hrows : A.rows = m) (hcols : A.cols = n) (h : (affine A b).answer = .ok (some c)) :
    ∃ b' : Euclidean m, c.Affine (A.linear m n) (-b') ∧ ∀ x dx dy, c.second x dx dy n = .ok (Vec.zeros n) := by
  unfold affine at h
  split at h
  case isTrue => cases h
  case isFalse hsizes =>
    simp only [ne_eq, not_not, Prod.mk.injEq] at hsizes
    obtain ⟨v, hv⟩ := Matrix.exists_column hb (hsizes.1.trans hrows) hsizes.2
    cases h
    refine ⟨v, ⟨fun x => ?_, fun x => ⟨hrows, hcols, fun s => ?_, fun w => ?_⟩⟩, fun _ _ _ => rfl⟩
    · have hcopy : Checked.copy b.entries.toList (Vec.zeros A.rows) = .ok (vec v) := by
        rw [hv, hrows, Checked.copy_eq_ok]
        exact ⟨by simp, rfl⟩
      refine Checked.bind_eq_ok.mpr ⟨_, hcopy, ?_⟩
      rw [one_eq, real_neg, Matrix.product_vec hA hrows hcols, one_smul, neg_one_smul]
    · dsimp only
      rw [zeros_eq, one_eq, zero_eq, Matrix.product_vec hA hrows hcols, one_smul, smul_zero, add_zero]
    · dsimp only
      rw [zeros_eq, one_eq, zero_eq, Matrix.product_transposed_vec hA hrows hcols, one_smul, smul_zero, add_zero]

theorem Objective.quadratic_realises {P q : Matrix (Exact ε)} {r : ℝ} {o : Objective (Exact ε)} (hP : P.Finite)
    (hq : q.Finite) (hrows : P.rows = n) (h : (quadratic P q (real r)).answer = .ok (some o)) :
    (P.linear n n).IsSymmetric ∧ ∃ q' : Euclidean n,
      (∀ x : Euclidean n, o.value (vec x) = .ok (real (1 / 2 * inner ℝ x (P.linear n n x) + inner ℝ q' x + r))) ∧
      (∀ x : Euclidean n, o.gradient (vec x) n = .ok (vec (P.linear n n x + q'))) ∧
      (∀ (x : Vec (Exact ε)) (d : Euclidean n), o.hessian x (vec d) n = .ok (vec (P.linear n n d))) ∧
      ∀ x dx z, dx.length = n → o.hessian x dx n = .ok z → Vec.isFinite z = true → Vec.isFinite dx = true := by
  unfold quadratic at h
  split at h
  case isTrue => cases h
  case isFalse hsizes =>
    simp only [not_or, Bool.not_eq_true, Bool.not_eq_false', ne_eq, not_not, Prod.mk.injEq] at hsizes
    obtain ⟨hsym, hqrows, hqcols⟩ := hsizes
    have hcols : P.cols = n := (Matrix.rows_eq_cols hsym).symm.trans hrows
    obtain ⟨v, hv⟩ := Matrix.exists_column hq (hqrows.trans hrows) hqcols
    have hproduct : ∀ d : Euclidean n, P.product false 1 (vec d) 0 (vec (0 : Euclidean n)) =
        .ok (vec (P.linear n n d)) := by
      intro d
      rw [one_eq, zero_eq, Matrix.product_vec hP hrows hcols, one_smul, smul_zero, add_zero]
    have hinner : ∀ u w : Euclidean n, (Checked.inner (vec u) (vec w) : Checked (Exact ε)) = .ok (real (inner ℝ u w)) :=
      fun u w => Checked.inner_eq_ok.mpr ⟨by simp, inner_vec.symm⟩
    cases h
    refine ⟨Matrix.linear_symmetric hsym n, v, fun x => ?_, fun x => ?_, fun x d => ?_, fun x dx z hdx hz hfin => ?_⟩
    · refine Checked.bind_eq_ok.mpr ⟨_, by rw [zerosLike_vec]; exact hproduct x, ?_⟩
      refine Checked.bind_eq_ok.mpr ⟨_, hinner _ _, ?_⟩
      refine Checked.bind_eq_ok.mpr ⟨_, by rw [hv]; exact hinner _ _, ?_⟩
      rw [half_eq, real_mul, real_add, real_add]
      rfl
    · refine Checked.bind_eq_ok.mpr ⟨vec v, by rw [hv, Checked.copy_eq_ok]; exact ⟨by simp, rfl⟩, ?_⟩
      rw [one_eq, Matrix.product_vec hP hrows hcols, one_smul, one_smul]
    · dsimp only
      rw [zeros_eq, hproduct]
    · exact Matrix.isFinite_of_product (fun h0 => (Matrix.rows_eq_cols hsym).symm.trans h0) (hdx.trans hcols.symm) hz hfin

/-- Ready-made functions of real numbers pose a quadratic program. -/
theorem Problem.IsQuadratic.poses (hp : p.IsQuadratic n) : ∃ Q : QuadraticProgram n p.equalities, p.Poses Q := by
  obtain ⟨P, q, r, hP, hq, hrows, ho⟩ := hp.objective
  obtain ⟨hsym, v, hvalue, hgradient, hhessian, hstrict⟩ := Objective.quadratic_realises hP hq hrows ho
  have hobjective : p.objective.Fills n := hrows ▸ Objective.quadratic_fills ho
  cases hc : p.equality with
  | none =>
    refine ⟨⟨P.linear n n, hsym, v, r, 0, 0⟩, hvalue, hgradient, hhessian, hstrict, .inl ⟨hc, ?_⟩, hp.inequality,
      hobjective, by simp [hc], by simp [hp.inequality], hp.preconditioner⟩
    simp [equalities, hc]
  | some c =>
    obtain ⟨A, b, hA, hb, hcols, haffine⟩ := hp.equality c hc
    have hfills := Constraint.affine_fills haffine
    have hm : A.rows = p.equalities := by
      unfold equalities
      rw [hc]
      exact hfills.rows.symm
    obtain ⟨b', hrealises, hsecond⟩ := Constraint.affine_realises hA hb hm hcols haffine
    refine ⟨⟨P.linear n n, hsym, v, r, A.linear _ n, b'⟩, hvalue, hgradient, hhessian, hstrict,
      .inr ⟨c, hc, hrealises, hsecond⟩, hp.inequality, hobjective, fun c' hc' => ?_, by simp [hp.inequality],
      hp.preconditioner⟩
    obtain rfl : c = c' := Option.some.inj (hc.symm.trans hc')
    rwa [hm, hcols] at hfills

/-! ### What is computed of a program -/

namespace Problem.Poses
variable (hp : p.Poses Q)
include hp

theorem equalities : p.equalities = m := by
  unfold Problem.equalities
  rcases hp.equality with ⟨hc, hm⟩ | ⟨c, hc, hrealises, -⟩
  · simp [hc, hm]
  · rw [hc]
    exact (hrealises.linearises 0).rows

theorem inequalities : p.inequalities = 0 := by simp [Problem.inequalities, hp.inequality]

theorem evaluate (x : Euclidean n) : p.evaluate (vec x) = .ok ⟨vec x, real (Q.value x), vec (Q.constraint x), []⟩ := by
  unfold Problem.evaluate
  refine Checked.bind_eq_ok.mpr ⟨vec (Q.constraint x), ?_, ?_⟩
  · rcases hp.equality with ⟨hc, hm⟩ | ⟨c, hc, hrealises, -⟩
    · subst hm
      rw [hc]
      rfl
    · rw [hc, QuadraticProgram.constraint, sub_eq_add_neg]
      exact hrealises.value x
  refine Checked.bind_eq_ok.mpr ⟨[], by rw [hp.inequality], ?_⟩
  exact Checked.bind_eq_ok.mpr ⟨_, hp.value x, rfl⟩

theorem trial (x d : Euclidean n) : p.trial (vec x) (vec d) 1 =
    .ok ⟨vec (x + d), real (Q.value (x + d)), vec (Q.constraint (x + d)), []⟩ := by
  have hadd : Checked.add 1 (vec d) (vec x : Vec (Exact ε)) = .ok (vec (x + d)) := by
    rw [Checked.add_eq_ok, one_eq, add_vec, one_smul]
    exact ⟨by simp, rfl⟩
  exact Checked.bind_eq_ok.mpr ⟨_, hadd, hp.evaluate _⟩

/-- The Hessian of the Lagrangian is that of the objective. -/
theorem hessian_acts {x : Vec (Exact ε)} (hx : x.length = n) (y : Euclidean m) (h : Vec (Exact ε)) (μ : Exact ε) :
    (Barrier.hessian p x (vec y) h μ).Acts Q.P := by
  have happly : ∀ (a b : ℝ) (s t : Euclidean n), ((Barrier.hessian p x (vec y) h μ).apply (real a) (vec s) (real b)
      (vec t)).Ensures fun z => z = vec (a • Q.P s + b • t) := by
    intro a b s t
    unfold Barrier.hessian
    refine ensures_bind (P := fun v => v = vec (Q.P s)) (ensures_lift fun v hv => ?_) ?_
    · rw [hx, hp.hessian] at hv
      exact (Except.ok.inj hv).symm
    rintro _ rfl
    refine ensures_bind (P := fun v => v = vec (Q.P s)) ?_ ?_
    · rcases hp.equality with ⟨hc, -⟩ | ⟨c, hc, -, hsecond⟩
      · rw [hc]
        exact ensures_pure rfl
      · rw [hc, hx]
        refine ensures_bind (P := fun v => v = vec (0 : Euclidean n)) (ensures_lift fun v hv => ?_) ?_
        · rw [hsecond, zeros_eq] at hv
          exact (Except.ok.inj hv).symm
        rintro _ rfl
        refine ensures_lift fun z hz => ?_
        rw [checked_add_eq_ok (a := 1) hz, smul_zero, add_zero]
    rintro _ rfl
    refine ensures_bind (P := fun v => v = vec (Q.P s)) ?_ ?_
    · rw [hp.inequality]
      exact ensures_pure rfl
    rintro _ rfl
    exact axpby_ensures a b _ t
  refine ⟨hx, hx, happly, ?_⟩
  rw [Q.symmetric.adjoint_eq]
  exact happly

theorem hessian_strict {x : Vec (Exact ε)} (hx : x.length = n) (y h : Vec (Exact ε)) (μ : Exact ε) :
    (Barrier.hessian p x y h μ).Strict := by
  intro dx out hdx
  have hdx : dx.length = n := hdx.trans hx
  unfold Barrier.hessian
  refine ensures_bind (P := fun t => Vec.isFinite t = true → Vec.isFinite dx = true) (ensures_lift fun t ht => ?_)
    fun t ht => ?_
  · rw [hx] at ht
    exact hp.strict _ _ _ hdx ht
  refine ensures_bind (P := fun t => Vec.isFinite t = true → Vec.isFinite dx = true) ?_ fun t ht => ?_
  · split
    · exact ensures_pure ht
    · exact ensures_bind (ensures_true _) fun u _ => ensures_lift fun z hz hfin => ht (Checked.isFinite_of_add hz hfin).2
  refine ensures_bind (P := fun t => Vec.isFinite t = true → Vec.isFinite dx = true) ?_ fun t ht => ?_
  · rw [hp.inequality]
    exact ensures_pure ht
  · exact ensures_lift fun z hz hfin => ht (Checked.isFinite_of_axpby hz hfin)

theorem jacobian_acts {c : Constraint (Exact ε)} (hc : p.equality = some c) (x : Euclidean n) :
    (c.jacobian (vec x)).Acts Q.A := by
  rcases hp.equality with ⟨hnone, -⟩ | ⟨c', hc', hrealises, -⟩
  · rw [hc] at hnone
    cases hnone
  · obtain rfl : c = c' := Option.some.inj (hc.symm.trans hc')
    exact (hrealises.linearises x).acts

/-- Without a constraint there are no multipliers. -/
theorem multipliers_subsingleton (hc : p.equality = none) : Subsingleton (Euclidean m) := by
  obtain rfl : m = 0 := by
    rw [← hp.equalities, Problem.equalities, hc]
    rfl
  infer_instance

/-- The gradient of the Lagrangian is found, with whatever multipliers come with it. -/
theorem lagrangianGradient_yields {par : NormalParam (Exact ε)} (heps : Nonneg par.epsRel) (updateY : Bool)
    (x : Euclidean n) (y : Euclidean m) (μ : Exact ε) :
    (Barrier.lagrangianGradient p par updateY (vec x) [] (vec y) μ n).Yields fun r =>
      ∃ y', r = (vec y', vec (Q.gradient x y'), .ok ()) := by
  have hsized := Barrier.lagrangianGradient_sized hp.fills par updateY (length_vec (v := x)) (h := [])
    hp.inequalities.symm (y := vec y) (by rw [length_vec, hp.equalities]) μ
  have hreal : (Barrier.lagrangianGradient p par updateY (vec x) [] (vec y) μ n).Ensures fun r =>
      r.2.2 ≠ .error .numericalInstability ∧ (r.2.2 = .ok () → ∃ y', r = (vec y', vec (Q.gradient x y'), .ok ())) := by
    unfold Barrier.lagrangianGradient
    refine ensures_bind (P := fun φ => φ = vec (Q.P x + Q.q)) ?_ ?_
    · unfold Barrier.gradient
      refine ensures_bind (P := fun φ => φ = vec (Q.P x + Q.q)) (ensures_lift fun φ hφ => ?_) ?_
      · rw [hp.gradient] at hφ
        exact (Except.ok.inj hφ).symm
      rintro _ rfl
      rw [hp.inequality]
      exact ensures_pure rfl
    rintro _ rfl
    cases hc : p.equality with
    | none =>
      have := hp.multipliers_subsingleton hc
      refine ensures_pure ⟨nofun, fun _ => ⟨y, ?_⟩⟩
      rw [QuadraticProgram.gradient, Subsingleton.elim y 0, map_zero, add_zero]
    | some c =>
      have hA := hp.jacobian_acts hc x
      refine ensures_bind (P := fun r => r.2 ≠ .error .numericalInstability ∧ (r.2 = .ok () → ∃ y' : Euclidean m, r.1 = vec y'))
        ?_ ?_
      · split
        case isTrue =>
          unfold Barrier.multipliers
          rw [hc]
          have hrows : c.rows = m := hA.rows
          dsimp only
          rw [hrows, zeros_eq]
          refine ensures_bind (hA.apply (-1) 0 _ 0) ?_
          rintro _ rfl
          refine ensures_bind ((NormalEquations.solve_stable hA heps _ _ _).and
            (NormalEquations.solve_sound hA.rows _ _ _)) ?_
          rintro ⟨w, outcome⟩ ⟨hstable, hsound⟩
          cases outcome with
          | error e =>
            refine ensures_pure ⟨?_, nofun⟩
            rintro ⟨⟩
            exact hstable rfl
          | ok i => exact ensures_pure ⟨nofun, fun _ => hsound i rfl⟩
        case isFalse => exact ensures_pure ⟨nofun, fun _ => ⟨y, rfl⟩⟩
      · rintro ⟨y', outcome⟩ ⟨hstable, hreal⟩
        cases outcome with
        | error e => exact ensures_pure ⟨hstable, nofun⟩
        | ok u =>
          obtain ⟨y', rfl⟩ := hreal rfl
          refine ensures_bind (hA.applyTransposed 1 1 y' _) ?_
          rintro _ rfl
          refine ensures_pure ⟨nofun, fun _ => ⟨y', ?_⟩⟩
          rw [one_smul, one_smul, add_comm]
          rfl
  refine (hsized.and hreal).mono ?_
  rintro ⟨y', grad, outcome⟩ ⟨⟨-, -, honly⟩, hstable, hvalue⟩
  obtain ⟨⟨⟩, rfl⟩ := honly.exists_ok hstable
  exact hvalue rfl

end Problem.Poses

/-- The merit of a state without inequality constraints. -/
theorem Barrier.merit_vec (f ρ : ℝ) (g y : Euclidean m) (μ : Exact ε) :
    merit (real f) (vec g) [] (vec y) μ (real ρ) = .ok (real (f + inner ℝ y g + ρ * ‖g‖ * ‖g‖)) := by
  unfold merit
  have hobjective : objective (real f : Exact ε) [] μ = real f := rfl
  rw [hobjective]
  dsimp only
  split
  case isTrue h =>
    obtain rfl : m = 0 := by simpa [vec] using h
    rw [Subsingleton.elim g 0, inner_zero_right, norm_zero, mul_zero, add_zero, add_zero]
    rfl
  case isFalse =>
    refine Checked.bind_eq_ok.mpr ⟨_, Checked.inner_eq_ok.mpr ⟨by simp, rfl⟩, ?_⟩
    rw [inner_vec, norm_vec, real_add, real_mul, real_mul, real_add]
    rfl

end ConstrainedOpt
