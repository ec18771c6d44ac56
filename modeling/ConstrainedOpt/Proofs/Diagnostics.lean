import ConstrainedOpt.Diagnostics
import ConstrainedOpt.Proofs.Exact.Operator
import ConstrainedOpt.Proofs.Exact.Orthant
import ConstrainedOpt.Proofs.Step.Safeguard

/-! # Diagnostics over the reals

Where the functions of a problem take real vectors to real ones, every check of them ends in a real error. So do the
checks of the vector space, and those of its Jordan algebra unless there is no component to check.
-/
namespace ConstrainedOpt
open Exact Journaled Checked
variable {ε : Set.Ioi (0 : ℝ)} {n m : ℕ} {x d e : Euclidean n}

/-- The functions of the objective take real vectors of `n` components to real values and vectors. -/
structure Objective.OverReals (o : Objective (Exact ε)) (n : ℕ) : Prop where
  value : ∀ x : Euclidean n, ∃ r, o.value (vec x) = .ok (real r)
  gradient : ∀ x : Euclidean n, ∃ v : Euclidean n, o.gradient (vec x) n = .ok (vec v)
  hessian : ∀ x d : Euclidean n, ∃ v : Euclidean n, o.hessian (vec x) (vec d) n = .ok (vec v)

structure Constraint.OverReals (c : Constraint (Exact ε)) (n m : ℕ) : Prop where
  rows : c.rows = m
  cols : c.cols = n
  value : ∀ x : Euclidean n, ∃ v : Euclidean m, c.value (vec x) m = .ok (vec v)
  forward : ∀ x d : Euclidean n, ∃ v : Euclidean m, c.forward (vec x) (vec d) m = .ok (vec v)
  adjoint : ∀ (x : Euclidean n) (w : Euclidean m), ∃ v : Euclidean n, c.adjoint (vec x) (vec w) n = .ok (vec v)
  second : ∀ (x d : Euclidean n) (w : Euclidean m), ∃ v : Euclidean n, c.second (vec x) (vec d) (vec w) n = .ok (vec v)

structure Problem.OverReals (p : Problem (Exact ε)) (n : ℕ) : Prop where
  objective : p.objective.OverReals n
  equality : ∀ c, p.equality = some c → c.OverReals n c.rows
  inequality : ∀ c, p.inequality = some c → c.OverReals n c.rows

/-- The Jordan algebra has a component to check, if it is checked. -/
def Problem.Checkable (p : Problem (Exact ε)) (n : ℕ) (space : SpaceChecks) : Prop :=
  space = .euclideanJordan → 0 < (p.inequality.map Constraint.rows).getD n

/-- Random vectors are real. -/
theorem Generator.vector_real (n : ℕ) (g : Generator) : ∃ v : Euclidean n, (g.vector n).1 = (vec v : Vec (Exact ε)) := by
  have hall : (g.vector n : Vec (Exact ε) × Generator).1.length = n ∧
      Vec.isFinite (g.vector n : Vec (Exact ε) × Generator).1 = true := by
    induction n generalizing g with
    | zero => exact ⟨rfl, rfl⟩
    | succ n ih =>
      obtain ⟨hlen, hfin⟩ := ih g.next.2
      have huniform : ∀ r, Scalar.isFinite (uniform r : Exact ε) = true := by
        intro r
        have hrange : (OfScientific.ofScientific halfRange false 0 : ℝ) ≠ 0 := by
          unfold halfRange
          norm_num
        have hdiv : (uniform r : Exact ε) = real _ := real_div hrange
        rw [hdiv]
        rfl
      exact ⟨congrArg (· + 1) hlen, List.all_cons.trans (by rw [huniform, Bool.true_and]; exact hfin)⟩
  exact exists_vec hall.1 hall.2

namespace Diagnostics

/-! ### Errors -/

theorem relativeError_eq (a b : ℝ) : (relativeError (real a) (real b) : Exact ε) = real (‖a - b‖ / (ε + ‖b‖)) := by
  have hpos : (ε : ℝ) + |b| ≠ 0 := (add_pos_of_pos_of_nonneg ε.2 (abs_nonneg b)).ne'
  unfold relativeError
  rw [real_sub]
  exact real_div hpos

theorem relativeError_real (a b : ℝ) : Scalar.isFinite (relativeError (real a) (real b) : Exact ε) = true := by
  rw [relativeError_eq]
  rfl

theorem relativeErrorVec_eq (u v : Euclidean n) :
    relativeErrorVec (vec u) (vec v : Vec (Exact ε)) = .ok (real (‖u - v‖ / (ε + ‖v‖))) := by
  have hpos : (ε : ℝ) + ‖v‖ ≠ 0 := (add_pos_of_pos_of_nonneg ε.2 (norm_nonneg v)).ne'
  have hvalue : Vec.norm (vec (u + (-1 : ℝ) • v)) / (Scalar.epsilon + Vec.norm (vec v)) =
      (real (‖u - v‖ / (ε + ‖v‖)) : Exact ε) := by
    rw [norm_vec, norm_vec, neg_one_smul, ← sub_eq_add_neg]
    exact real_div hpos
  exact Checked.bind_eq_ok.mpr ⟨_, checked_add_vec (a := -1), congrArg Except.ok hvalue⟩

theorem relativeErrorVec_answers (u v : Euclidean n) :
    (relativeErrorVec (vec u) (vec v : Vec (Exact ε))).Answers fun e => Scalar.isFinite e = true :=
  ⟨_, relativeErrorVec_eq u v, isFinite_real⟩

theorem errorReport_yields (title : String) {err : Exact ε} (h : Scalar.isFinite err = true) :
    (errorReport title err).Yields fun e => Scalar.isFinite e = true :=
  fun _ => ⟨err, _, rfl, h⟩

/-- A check goes on with a finite error after a report of the relative error of a real vector. -/
theorem yields_report {title : String} {u v : Euclidean n} {β : Type} {f : Exact ε → Journaled (Exact ε) β} {Q : β → Prop}
    (h : ∀ e, Scalar.isFinite e = true → (f e).Yields Q) :
    (liftM (relativeErrorVec (vec u) (vec v)) >>= fun e => errorReport title e >>= f).Yields Q :=
  yields_bind (yields_lift (relativeErrorVec_answers u v)) fun _ he => yields_bind (errorReport_yields title he) h

/-- Step sizes are nonzero reals. -/
theorem tenth_real (j : ℕ) : ∃ r : ℝ, r ≠ 0 ∧ (Scalar.tenth j : Exact ε) = real r := by
  refine ⟨OfScientific.ofScientific 1 true j, ?_, rfl⟩
  rw [NNRatCast.ofScientific_eq_ite, if_pos rfl, NNRat.divNat_eq_div]
  simp

/-- The smallest of the errors at nonzero step sizes is real. -/
theorem differenceReport_yields (title : String) {errorAt : Exact ε → Checked (Exact ε)}
    (h : ∀ r : ℝ, r ≠ 0 → (errorAt (real r)).Answers fun e => Scalar.isFinite e = true) :
    (differenceReport title errorAt).Yields fun e => Scalar.isFinite e = true := by
  have hreport : ∀ (ks : List ℕ) (best : Exact ε), IsReach best → (ks = [] → Scalar.isFinite best = true) →
      (stepReport errorAt ks best).Yields fun e => Scalar.isFinite e = true := by
    intro ks
    induction ks with
    | nil => exact fun best _ hbest => yields_pure (hbest rfl)
    | cons j ks ih =>
      intro best hbest _
      obtain ⟨r, hr, htenth⟩ := tenth_real (ε := ε) j
      unfold stepReport
      rw [htenth]
      refine yields_bind (yields_lift (h r hr)) fun err herr => ?_
      obtain ⟨a, rfl⟩ := isFinite_iff.mp herr
      obtain ⟨z, hz, -⟩ := hbest.minNum a
      refine yields_bind (P := fun _ => True) (fun _ => ⟨(), _, rfl, trivial⟩) fun _ _ => ?_
      rw [hz]
      exact ih _ (.inr ⟨z, rfl⟩) fun _ => rfl
  refine yields_bind (P := fun _ => True) (fun _ => ⟨(), _, rfl, trivial⟩) fun _ _ => ?_
  refine yields_bind (hreport _ _ (.inl rfl) nofun) fun best hbest => ?_
  exact yields_bind (yields_log _ _) fun _ _ => yields_pure hbest

theorem difference_eq {f : Vec (Exact ε) → Checked (Vec (Exact ε))} {ψ : Euclidean n → Euclidean m}
    (hf : ∀ z, f (vec z) = .ok (vec (ψ z))) (x d : Euclidean n) {r : ℝ} (hr : r ≠ 0) :
    difference f (vec x) (vec d) (real r) = .ok (vec ((1 / (2 * r)) • (ψ (x + r • d) - ψ (x + (-r) • d)))) := by
  have hscale : (1 / (Scalar.two * real r) : Exact ε) = real (1 / (2 * r)) := by
    rw [one_eq, two_eq, real_mul, real_div (mul_ne_zero two_ne_zero hr)]
  refine Checked.bind_eq_ok.mpr ⟨_, checked_add_vec, Checked.bind_eq_ok.mpr ⟨_, hf _, ?_⟩⟩
  refine Checked.bind_eq_ok.mpr ⟨_, checked_add_vec (a := -r), Checked.bind_eq_ok.mpr ⟨_, hf _, ?_⟩⟩
  refine Checked.bind_eq_ok.mpr ⟨_, checked_add_vec (a := -1), ?_⟩
  rw [hscale, scale_vec, neg_one_smul, ← sub_eq_add_neg]
  rfl

/-- Differences of real vectors are real. -/
theorem difference_answers {f : Vec (Exact ε) → Checked (Vec (Exact ε))}
    (hf : ∀ x : Euclidean n, ∃ v : Euclidean m, f (vec x) = .ok (vec v)) (x d : Euclidean n) {r : ℝ} (hr : r ≠ 0) :
    (difference f (vec x) (vec d) (real r)).Answers fun z => ∃ v : Euclidean m, z = vec v := by
  choose ψ hψ using hf
  exact ⟨_, difference_eq hψ x d hr, _, rfl⟩

/-- The report on a derivative whose differences are real. -/
theorem differenceReport_vec (title : String) {f : Vec (Exact ε) → Checked (Vec (Exact ε))}
    (hf : ∀ x : Euclidean n, ∃ v : Euclidean m, f (vec x) = .ok (vec v)) (x d : Euclidean n) (v : Euclidean m) :
    (differenceReport title fun ε => do relativeErrorVec (← difference f (vec x) (vec d) ε) (vec v)).Yields
      fun e => Scalar.isFinite e = true := by
  refine differenceReport_yields title fun r hr => answers_bind (difference_answers hf x d hr) ?_
  rintro _ ⟨u, rfl⟩
  exact relativeErrorVec_answers u v

/-! ### Functions -/

section Functions
variable {f : Objective (Exact ε)} (hf : f.OverReals n) {c : Constraint (Exact ε)} (hc : c.OverReals n m)

theorem slopeError_eq {φ : Euclidean n → ℝ} (hφ : ∀ z, f.value (vec z) = .ok (real (φ z))) (x d : Euclidean n) (s : ℝ)
    {r : ℝ} (hr : r ≠ 0) :
    (do
      let up ← f.value (← Checked.add (real r) (vec d) (vec x))
      let down ← f.value (← Checked.add (-real r) (vec d) (vec x))
      return relativeError ((up - down) / (Scalar.two * real r)) (real s))
      = .ok (real (‖(φ (x + r • d) - φ (x + (-r) • d)) / (2 * r) - s‖ / (ε + ‖s‖))) := by
  refine Checked.bind_eq_ok.mpr ⟨_, checked_add_vec, Checked.bind_eq_ok.mpr ⟨_, hφ _, ?_⟩⟩
  refine Checked.bind_eq_ok.mpr ⟨_, checked_add_vec (a := -r), Checked.bind_eq_ok.mpr ⟨_, hφ _, ?_⟩⟩
  rw [real_sub, two_eq, real_mul, real_div (mul_ne_zero two_ne_zero hr), relativeError_eq]
  rfl

include hf in
theorem gradientCheck_yields (x d : Euclidean n) :
    (gradientCheck f (vec x) (vec d)).Yields fun e => Scalar.isFinite e = true := by
  obtain ⟨v, hv⟩ := hf.gradient x
  unfold gradientCheck
  rw [length_vec]
  refine yields_lift_bind hv ?_
  refine yields_lift_bind checked_inner_vec ?_
  choose φ hφ using hf.value
  exact differenceReport_yields _ fun r hr => ⟨_, slopeError_eq hφ x d _ hr, isFinite_real⟩

include hf in
theorem hessianCheck_yields (x d : Euclidean n) :
    (hessianCheck f (vec x) (vec d)).Yields fun e => Scalar.isFinite e = true := by
  obtain ⟨v, hv⟩ := hf.hessian x d
  unfold hessianCheck
  rw [length_vec]
  refine yields_lift_bind hv ?_
  exact differenceReport_vec _ hf.gradient x d v

include hf in
theorem hessianSymmetryCheck_yields (x d e : Euclidean n) :
    (hessianSymmetryCheck f (vec x) (vec d) (vec e)).Yields fun e => Scalar.isFinite e = true := by
  obtain ⟨u, hu⟩ := hf.hessian x d
  obtain ⟨v, hv⟩ := hf.hessian x e
  unfold hessianSymmetryCheck
  rw [length_vec]
  refine yields_lift_bind hu ?_
  refine yields_lift_bind hv ?_
  refine yields_lift_bind checked_inner_vec ?_
  refine yields_lift_bind checked_inner_vec ?_
  exact errorReport_yields _ (relativeError_real _ _)

include hc in
theorem derivativeCheck_yields (x d : Euclidean n) :
    (derivativeCheck c (vec x) (vec d)).Yields fun e => Scalar.isFinite e = true := by
  obtain ⟨v, hv⟩ := hc.forward x d
  unfold derivativeCheck
  rw [hc.rows]
  refine yields_lift_bind hv ?_
  exact differenceReport_vec _ hc.value x d v

include hc in
theorem adjointCheck_yields (x d : Euclidean n) (w : Euclidean m) :
    (adjointCheck c (vec x) (vec d) (vec w)).Yields fun e => Scalar.isFinite e = true := by
  obtain ⟨u, hu⟩ := hc.forward x d
  obtain ⟨v, hv⟩ := hc.adjoint x w
  unfold adjointCheck
  rw [hc.rows, hc.cols]
  refine yields_lift_bind hu ?_
  refine yields_lift_bind hv ?_
  refine yields_lift_bind checked_inner_vec ?_
  refine yields_lift_bind checked_inner_vec ?_
  exact errorReport_yields _ (relativeError_real _ _)

include hc in
theorem secondDerivativeCheck_yields (x d : Euclidean n) (w : Euclidean m) :
    (secondDerivativeCheck c (vec x) (vec d) (vec w)).Yields fun e => Scalar.isFinite e = true := by
  obtain ⟨v, hv⟩ := hc.second x d w
  unfold secondDerivativeCheck
  rw [hc.cols]
  refine yields_lift_bind hv ?_
  exact differenceReport_vec _ (fun x => hc.adjoint x w) x d v

end Functions

/-! ### The vector space -/

theorem worst_isFinite {errs : List (Exact ε)} (h : ∀ e ∈ errs, Scalar.isFinite e = true) :
    Scalar.isFinite (worst errs) = true := by
  refine List.foldlRecOn (motive := fun a => Scalar.isFinite a = true) errs _ rfl fun a ha e he => ?_
  obtain ⟨a, rfl⟩ := isFinite_iff.mp ha
  obtain ⟨b, rfl⟩ := isFinite_iff.mp (h e he)
  rw [isNaN_real, isNaN_real, if_neg (by simp), maxNum_real, isFinite_real]

/-- An infinite error is worse than all finite ones before it. -/
theorem worst_infinite {errs : List (Exact ε)} (h : ∀ e ∈ errs, Scalar.isFinite e = true) :
    worst (errs ++ [infinite false]) = infinite false := by
  obtain ⟨a, ha⟩ := isFinite_iff.mp (worst_isFinite h)
  have hlt : real a < (infinite false : Exact ε) := rfl
  have happend : worst (errs ++ [infinite false]) = if Scalar.isNaN (worst errs) then Scalar.nan else
      Scalar.maxNum (worst errs) (infinite false) := List.foldl_append
  rw [happend, ha, if_neg nofun, Scalar.maxNum, if_neg nofun, if_neg nofun, if_pos hlt]

theorem spaceCheck_yields (u v : Euclidean n) :
    (spaceCheck (vec u) (vec v : Vec (Exact ε))).Yields fun e => Scalar.isFinite e = true := by
  obtain ⟨a, ha⟩ : ∃ a, (0.75 : Exact ε) = real a := ⟨_, rfl⟩
  have hcopy : Checked.copy (vec u) (Vec.zerosLike (vec u)) = .ok (vec u : Vec (Exact ε)) :=
    copy_eq_ok.mpr ⟨by simp, rfl⟩
  unfold spaceCheck
  dsimp only
  rw [ha]
  refine yields_lift_bind (checked_add_vec (a := 1)) ?_
  refine yields_lift_bind (checked_add_vec (a := 1)) ?_
  refine yields_report fun commutes hcommutes => ?_
  rw [scale_vec, scale_vec]
  refine yields_lift_bind checked_add_vec ?_
  refine yields_report fun distributes hdistributes => ?_
  refine yields_lift_bind hcopy ?_
  refine yields_report fun copies hcopies => ?_
  rw [zerosLike_vec, norm_vec]
  refine yields_bind (errorReport_yields _ isFinite_real) fun clears hclears => ?_
  refine yields_lift_bind checked_inner_vec ?_
  refine yields_lift_bind checked_inner_vec ?_
  refine yields_bind (errorReport_yields _ (relativeError_real _ _)) fun symmetric hsymmetric => ?_
  rw [norm_vec, inner_vec, real_mul]
  refine yields_bind (errorReport_yields _ (relativeError_real _ _)) fun normed hnormed => ?_
  refine yields_pure (worst_isFinite ?_)
  simp only [List.forall_mem_cons]
  exact ⟨hcommutes, hdistributes, hcopies, hclears, hsymmetric, hnormed, List.forall_mem_nil _⟩

/-! ### The Jordan algebra -/

/-- The barrier of the identity is real. -/
theorem logBarrier_ones (n : ℕ) : Scalar.isFinite (Vec.logBarrier (Vec.ones n : Vec (Exact ε))) = true := by
  rw [ones_eq, logBarrier_vec fun _ => one_pos, isFinite_real]

/-- From the identity the boundary is met, where there is one. -/
theorem boundaryLength_ones (n : ℕ) :
    (0 < n ∧ ∃ r, Vec.boundaryLength (vec (WithLp.toLp 2 fun _ => -1 : Euclidean n))
      (vec (WithLp.toLp 2 fun _ => 1 : Euclidean n) : Vec (Exact ε)) = real r) ∨
    n = 0 ∧ Vec.boundaryLength (vec (WithLp.toLp 2 fun _ => -1 : Euclidean n))
      (vec (WithLp.toLp 2 fun _ => 1 : Euclidean n) : Vec (Exact ε)) = infinite false := by
  rcases Nat.eq_zero_or_pos n with rfl | hn
  · exact .inr ⟨rfl, rfl⟩
  obtain ⟨hreach, hiff⟩ := boundaryLength_spec (ε := ε) (WithLp.toLp 2 fun _ => -1 : Euclidean n)
    (WithLp.toLp 2 fun _ => 1 : Euclidean n)
  refine .inl ⟨hn, hreach.resolve_left fun hinf => ?_⟩
  have hle := (hiff 2).mp (hinf ▸ le_infinite) ⟨0, hn⟩ (by norm_num)
  norm_num at hle

theorem relativeError_infinite (b : ℝ) : relativeError (infinite false) (real b) = (infinite false : Exact ε) := by
  have hpos : 0 < (ε : ℝ) + |b| := add_pos_of_pos_of_nonneg ε.2 (abs_nonneg b)
  change infinite (false ^^ decide ((ε : ℝ) + |b| < 0)) = _
  rw [decide_eq_false hpos.le.not_gt]
  rfl

/-- The checks of the algebra end in a finite error where there is a component to check. -/
theorem jordanCheck_yields (u v : Euclidean n) :
    (jordanCheck (vec u) (vec v : Vec (Exact ε))).Yields fun e => Scalar.isFinite e = true ↔ 0 < n := by
  have hpos : ∀ i, 0 < (WithLp.toLp 2 (fun i => u i * u i) + (1 : ℝ) • WithLp.toLp 2 fun _ => 1 : Euclidean n) i := by
    intro i
    have := mul_self_nonneg (u i)
    simp only [PiLp.add_apply, PiLp.smul_apply, smul_eq_mul, mul_one]
    linarith
  have hminus : Vec.scale (-1) (vec (WithLp.toLp 2 fun _ => 1 : Euclidean n)) =
      (vec (WithLp.toLp 2 fun _ => -1 : Euclidean n) : Vec (Exact ε)) := by
    rw [one_eq, real_neg, scale_vec]
    congr 1
    ext i
    simp
  have hbarrier := logBarrier_ones (ε := ε) n
  unfold jordanCheck
  dsimp only
  rw [length_vec, ones_eq]
  refine yields_lift_bind (checked_prod_vec _ _) ?_
  refine yields_lift_bind (checked_prod_vec _ _) ?_
  refine yields_report fun commutes hcommutes => ?_
  refine yields_lift_bind (checked_prod_vec _ _) ?_
  refine yields_report fun identity hidentity => ?_
  refine yields_lift_bind (checked_prod_vec _ _) ?_
  refine yields_lift_bind (checked_add_vec (a := 1)) ?_
  refine yields_lift_bind (checked_prod_vec _ _) ?_
  refine yields_lift_bind (checked_quotient_vec (fun i => (hpos i).ne') _) ?_
  refine yields_report fun inverse hinverse => ?_
  rw [sqrt_vec fun i => (hpos i).le]
  refine yields_lift_bind (checked_prod_vec _ _) ?_
  refine yields_report fun squared hsquared => ?_
  rw [← ones_eq]
  obtain ⟨b, hb⟩ := isFinite_iff.mp hbarrier
  rw [hb]
  refine yields_bind (errorReport_yields _ (isFinite_real (x := |b|))) fun barrier hbarrier => ?_
  rw [ones_eq, hminus]
  refine yields_lift_bind (boundaryLength_eq_ok.mpr ⟨by simp, rfl⟩) ?_
  rcases boundaryLength_ones (ε := ε) n with ⟨hn, r, hr⟩ | ⟨hn, hr⟩
  · rw [hr]
    refine yields_bind (errorReport_yields _ (relativeError_real _ _)) fun search hsearch => ?_
    refine yields_pure (iff_of_true (worst_isFinite ?_) hn)
    simp only [List.forall_mem_cons]
    exact ⟨hcommutes, hidentity, hinverse, hsquared, hbarrier, hsearch, List.forall_mem_nil _⟩
  · rw [hr, one_eq, relativeError_infinite]
    refine yields_bind (P := fun e => e = infinite false) (fun _ => ⟨_, _, rfl, rfl⟩) ?_
    rintro _ rfl
    refine yields_pure (iff_of_false ?_ (by omega))
    have hothers : ∀ e ∈ [commutes, identity, inverse, squared, barrier], Scalar.isFinite e = true := by
      simp only [List.forall_mem_cons]
      exact ⟨hcommutes, hidentity, hinverse, hsquared, hbarrier, List.forall_mem_nil _⟩
    rw [show worst [commutes, identity, inverse, squared, barrier, infinite false] = infinite false from
      worst_infinite hothers]
    nofun

/-! ### All of them -/

/-- Every error is finite. -/
def AllFinite (errs : List (Exact ε)) : Prop := ∀ e ∈ errs, Scalar.isFinite e = true

theorem AllFinite.append {errs errs' : List (Exact ε)} (h : AllFinite errs) (h' : AllFinite errs') :
    AllFinite (errs ++ errs') := fun e he => (List.mem_append.mp he).elim (h e) (h' e)

theorem yields_line (message : Message (Exact ε)) : (line message).Yields fun _ => True :=
  fun _ => ⟨(), _, rfl, trivial⟩

theorem checkObjective_yields {f : Objective (Exact ε)} (hf : f.OverReals n) (second : Bool) (x d e : Euclidean n) :
    (checkObjective f second (vec x) (vec d) (vec e)).Yields AllFinite := by
  unfold checkObjective
  refine yields_bind (yields_line _) fun _ _ => ?_
  refine yields_bind (gradientCheck_yields hf x d) fun first hfirst => ?_
  split
  · exact yields_pure (by simpa [AllFinite] using hfirst)
  · refine yields_bind (hessianCheck_yields hf x d) fun hessian hhessian => ?_
    refine yields_bind (hessianSymmetryCheck_yields hf x d e) fun symmetry hsymmetry => yields_pure ?_
    simpa [AllFinite] using ⟨hfirst, hhessian, hsymmetry⟩

theorem checkConstraint_yields (name : String) {c : Option (Constraint (Exact ε))}
    (hc : ∀ c', c = some c' → c'.OverReals n c'.rows) (second : Bool) (x d : Euclidean n) (g : Generator) :
    (checkConstraint name c second (vec x) (vec d) g).Yields fun r => AllFinite r.1 := by
  unfold checkConstraint
  split
  · exact yields_pure (List.forall_mem_nil _)
  case h_2 c =>
    have hc := hc c rfl
    obtain ⟨w, hw⟩ := Generator.vector_real (ε := ε) c.rows g
    dsimp only
    rw [hw]
    refine yields_bind (yields_line _) fun _ _ => ?_
    refine yields_bind (derivativeCheck_yields hc x d) fun first hfirst => ?_
    refine yields_bind (adjointCheck_yields hc x d w) fun adjoint hadjoint => ?_
    split
    · exact yields_pure (by simpa [AllFinite] using ⟨hfirst, hadjoint⟩)
    · refine yields_bind (secondDerivativeCheck_yields hc x d w) fun curvature hcurvature => yields_pure ?_
      simpa [AllFinite] using ⟨hfirst, hadjoint, hcurvature⟩

variable {p : Problem (Exact ε)}

theorem checkFunctions_yields (hp : p.OverReals n) (checks : FunctionChecks) (x d e : Euclidean n) (g : Generator) :
    (checkFunctions p checks (vec x) (vec d) (vec e) g).Yields fun r => AllFinite r.1 := by
  unfold checkFunctions
  split
  · exact yields_pure (List.forall_mem_nil _)
  · refine yields_bind (checkObjective_yields hp.objective _ x d e) fun f hf => ?_
    refine yields_bind (checkConstraint_yields _ hp.equality _ x d g) ?_
    rintro ⟨equality, g⟩ hequality
    refine yields_bind (checkConstraint_yields _ hp.inequality _ x d g) ?_
    rintro ⟨inequality, g⟩ hinequality
    exact yields_pure ((hf.append hequality).append hinequality)

/-- The space passes its checks if there is a component to check for the algebra. -/
theorem checkSpace_yields (p : Problem (Exact ε)) (checks : SpaceChecks) (d e : Euclidean n) (g : Generator) :
    (checkSpace p checks n (vec d) (vec e) g).Yields fun errs =>
      AllFinite errs ↔ p.Checkable n checks := by
  unfold checkSpace Problem.Checkable
  split
  case isTrue h => exact yields_pure (iff_of_true (List.forall_mem_nil _) (by simp [h]))
  refine yields_bind (yields_line _) fun _ _ => yields_bind (spaceCheck_yields d e) fun space hspace => ?_
  split
  case isTrue h => exact yields_pure (iff_of_true (by simpa [AllFinite] using hspace) fun h' => absurd h' h)
  case isFalse h =>
    have hchecks : checks = .euclideanJordan := by simpa using h
    generalize (p.inequality.map Constraint.rows).getD n = m
    obtain ⟨u, hu⟩ := Generator.vector_real (ε := ε) m g
    obtain ⟨v, hv⟩ := Generator.vector_real (ε := ε) m (Generator.vector m g : Vec (Exact ε) × Generator).2
    dsimp only
    rw [hu, hv]
    refine yields_bind (yields_line _) fun _ _ => yields_bind (jordanCheck_yields u v) fun jordan hjordan => ?_
    refine yields_pure ?_
    simp [AllFinite, hspace, hjordan, hchecks]

/-- A problem over the reals passes its diagnostics, if there is a component to check for the algebra. -/
theorem run_yields (hp : p.OverReals n) (functions : FunctionChecks) (space : SpaceChecks) (x : Euclidean n) :
    (run p (vec x) functions space).Yields fun ok => ok = true ↔ p.Checkable n space := by
  obtain ⟨d, hd⟩ := Generator.vector_real (ε := ε) n (.ofSeed seed)
  obtain ⟨e, he⟩ := Generator.vector_real (ε := ε) n (Generator.vector n (.ofSeed seed) : Vec (Exact ε) × Generator).2
  unfold run
  rw [length_vec]
  dsimp only
  rw [hd, he]
  refine yields_bind (checkFunctions_yields hp functions x d e _) ?_
  rintro ⟨errs, g⟩ herrs
  refine yields_bind (checkSpace_yields p space d e g) fun errs' herrs' => yields_pure ?_
  rw [← herrs', List.all_append, Bool.and_eq_true, List.all_eq_true, List.all_eq_true]
  exact ⟨fun h => h.2, fun h => ⟨herrs, h⟩⟩

end Diagnostics
end ConstrainedOpt
