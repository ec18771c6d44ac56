import ConstrainedOpt.Proofs.Step.Conjugacy
import ConstrainedOpt.Proofs.Step.Descent
import ConstrainedOpt.Proofs.Step.Effort

/-! # What a pass of truncated conjugate gradients does

Where the operators of a model are linear maps, a pass works on vectors: it stops for a fault of an operator or at a
small residual, or it follows a direction, and then there are six ways for it to end. `Turn` lists them with what
decides between them; what a solve keeps is read off the list and not off the passes again.
-/
namespace ConstrainedOpt
open Exact Journaled
variable {ε : Set.Ioi (0 : ℝ)} {n m : ℕ}

/-- The fractions of the safeguard are between zero and one. -/
def Safeguard.Cuts (sg : Safeguard (Exact ε)) (n : ℕ) : Prop :=
  ∀ call (x d : Euclidean n), (sg.fraction call (vec x) (vec d)).Ensures fun θ => ∃ u, θ = real u ∧ 0 ≤ u ∧ u ≤ 1

theorem Safeguard.unlimited_cuts : (unlimited : Safeguard (Exact ε)).Cuts n :=
  fun _ _ _ => ensures_pure ⟨1, rfl, zero_le_one, le_rfl⟩

theorem Safeguard.Cuts.fraction {sg : Safeguard (Exact ε)} (hcut : sg.Cuts n) (call : ℕ) (x d : Euclidean n) :
    (sg.fraction call (vec x) (vec d)).Ensures fun θ =>
      ∃ u, θ = real u ∧ 0 ≤ u ∧ u ≤ 1 ∧ (sg = .unlimited → u = 1) := by
  by_cases h : sg = .unlimited
  · rw [h]
    exact ensures_pure ⟨1, rfl, zero_le_one, le_rfl, fun _ => rfl⟩
  · exact (hcut call x d).mono fun θ ⟨u, hu, h0, h1⟩ => ⟨u, hu, h0, h1, fun heq => absurd heq h⟩

/-- The image of a real vector. -/
theorem Operator.Acts.image {A : Operator (Exact ε)} {L : Euclidean n →ₗ[ℝ] Euclidean m} (hA : A.Acts L)
    (v : Euclidean n) : (A.apply 1 (vec v) 0 (vec (0 : Euclidean m))).Ensures fun z => z = vec (L v) := by
  refine (hA.apply 1 0 v 0).mono fun z hz => ?_
  rwa [one_smul, smul_zero, add_zero] at hz

/-- The length at which a ray leaves a ball is real, wherever the ray starts. -/
theorem Sphere.exit_real {x p : Euclidean n} {radius still : ℝ} {c : Exact ε} (hstill : 0 ≤ still)
    (h : exit (real still) (vec x) (vec p) (real radius) = .ok c) : ∃ σ, c = real σ ∧ 0 ≤ σ := by
  unfold exit at h
  simp only [inner_vec, zero_eq, real_le] at h
  split at h
  · cases h
    exact ⟨still, rfl, hstill⟩
  case isFalse hp =>
    obtain ⟨i, hi, h⟩ := Checked.bind_eq_ok.mp h
    rw [checked_inner_eq_ok hi] at h
    simp only [two_eq, real_mul, real_sub, minNum_real] at h
    obtain ⟨σ, hσ, hσ0, -⟩ := root_spec (ε := ε) (b := 2 * inner ℝ x p) (not_le.mp hp)
      (min_le_right (inner ℝ x x - radius * radius) 0)
    rw [hσ] at h
    cases h
    exact ⟨σ, rfl, hσ0⟩

namespace TruncatedCG
variable {H B C : Euclidean n →ₗ[ℝ] Euclidean n} {k : Model (Exact ε)} {g o s p : Euclidean n}
  {it it' : Iterate (Exact ε)}

/-- The operators of a model are linear maps, and its safeguard answers with fractions. -/
structure Model.Acts (k : Model (Exact ε)) (H B C : Euclidean n →ₗ[ℝ] Euclidean n) (g : Euclidean n) : Prop where
  hessian : k.H.Acts H
  symmetric : H.IsSymmetric
  preconditioner : k.B.Acts B
  projector : k.C.Acts C
  gradient : k.g = vec g
  fractions : k.safeguard.Cuts n

/-- The negative gradient of the model at `s`. -/
abbrev steepest (H : Euclidean n →ₗ[ℝ] Euclidean n) (g s : Euclidean n) : Euclidean n := -(g + H s)

/-- The iterate is at the step `s` from the offset `o`, with the residual and the value of the model there. -/
structure Iterate.At (H : Euclidean n →ₗ[ℝ] Euclidean n) (g o s : Euclidean n) (it : Iterate (Exact ε)) : Prop where
  step : it.s = vec s
  point : it.x = vec (o + s)
  residual : it.r = vec (steepest H g s)
  model : it.model = real (quadratic H g s)

/-- The iterate has the step `s` and the value of the model there. -/
structure Values (H : Euclidean n →ₗ[ℝ] Euclidean n) (g s : Euclidean n) (it : Iterate (Exact ε)) : Prop where
  step : it.s = vec s
  model : it.model = real (quadratic H g s)

/-- The last direction is real. Its factor may be undefined in a next direction, and then the Hessian shows it. -/
def Iterate.Recalls (k : Model (Exact ε)) (n : ℕ) (it : Iterate (Exact ε)) : Prop :=
  ∀ prev, it.previous = some prev → ∃ (p : Euclidean n) (c : ℝ),
    prev.p = vec p ∧ prev.rz = real c ∧ (c = 0 → k.H.Exposes n)

/-- With the residual `r`, preconditioned to `z`, the iterate heads for `p`. -/
def Iterate.HeadsFor (r z : Euclidean n) (it : Iterate (Exact ε)) (p : Euclidean n) : Prop :=
  direction it (vec z) (real (inner ℝ r z)) = .ok (vec p)

/-- A fraction that the safeguard may answer with. -/
structure Model.Leaves (k : Model (Exact ε)) (u : ℝ) : Prop where
  nonneg : 0 ≤ u
  le_one : u ≤ 1
  full : k.safeguard = .unlimited → u = 1

/-- The faults a pass may see in a residual `r` that is preconditioned to `z`. -/
inductive Fault (k : Model (Exact ε)) (H C : Euclidean n →ₗ[ℝ] Euclidean n) (r z : Euclidean n)
    (it : Iterate (Exact ε)) : TruncatedStop → Prop
  | projector (h : k.par.epsProj * Scalar.maxNum (real ‖C r‖) 1 < real ‖C (C r) - C r‖) :
      Fault k H C r z it .nonProjectorPreconditioner
  | residual {reason : TruncatedStop} (h : residualFault? k.par it (vec z) (real (inner ℝ r z)) = .ok (some reason)) :
      Fault k H C r z it reason
  | undefined {d : Vec (Exact ε)} (hd : direction it (vec z) (real (inner ℝ r z)) = .ok d)
      (hnot : ¬ Vec.isFinite d = true) : Fault k H C r z it .nanOperator
  | direction {p : Euclidean n} {reason : TruncatedStop}
      (h : directionFault? k.par it (vec p) (vec (H p)) = .ok (some reason)) : Fault k H C r z it reason

/-- The preconditioned residual `z` is small. -/
def Model.Settles (k : Model (Exact ε)) (it : Iterate (Exact ε)) (z : Euclidean n) : Prop :=
  real ‖z‖ ≤ k.par.eps * if it.iter = 0 then real ‖z‖ else it.normZ0

/-- A direction `p` of positive curvature is followed up to the length `a`. -/
structure Line (k : Model (Exact ε)) (H : Euclidean n →ₗ[ℝ] Euclidean n) (o s r z : Euclidean n)
    (it : Iterate (Exact ε)) (p : Euclidean n) (a : ℝ) : Prop where
  unsettled : ¬ k.Settles it z
  heads : it.HeadsFor r z p
  curved : 0 < inner ℝ p (H p)
  length : (if decide (k.δ ≤ real ‖o + s + (inner ℝ r z / inner ℝ p (H p)) • p‖) = true then
      Sphere.exit 0 (vec (o + s)) (vec p) k.δ else .ok (real (inner ℝ r z / inner ℝ p (H p)))) = .ok (real a)

/-- What a pass that goes on keeps of the solve. -/
structure Records (k : Model (Exact ε)) (r z : Euclidean n) (it it' : Iterate (Exact ε)) : Prop where
  iter : it'.iter = it.iter + 1
  scale : it'.normZ0 = if it.iter = 0 then real ‖z‖ else it.normZ0
  slots : it'.slots = record k.par.orthogMax it.seq ⟨vec z, real (inner ℝ r z)⟩ it.slots

/-- What a pass from the step `s` does, where the residual there is preconditioned to `z`. -/
inductive Turn (k : Model (Exact ε)) (H C : Euclidean n →ₗ[ℝ] Euclidean n) (g o s z : Euclidean n)
    (it : Iterate (Exact ε)) : Progress (Exact ε) → Prop
  /-- An operator is faulty. -/
  | fault {reason : TruncatedStop} {it' : Iterate (Exact ε)} (h : Fault k H C (steepest H g s) z it reason)
      (hit : Values H g s it') : Turn k H C g o s z it (.stop reason it')
  /-- The residual is small. -/
  | small {it' : Iterate (Exact ε)} (h : k.Settles it z)
      (hit : Values H g s it') (hiter : it'.iter = it.iter) : Turn k H C g o s z it (.stop .relativeErrorSmall it')
  /-- A direction without positive curvature is followed as far as it goes. -/
  | flat {p : Euclidean n} {σ u : ℝ} {it' : Iterate (Exact ε)} (hlarge : ¬ k.Settles it z) (hp : it.HeadsFor (steepest H g s) z p)
      (hκ : inner ℝ p (H p) ≤ 0)
      (hσ : (if Scalar.isFinite k.δ then Sphere.exit 0 (vec (o + s)) (vec p) k.δ
        else if (real ‖s‖ : Exact ε) == 0 then .ok 1 else .ok 0) = .ok (real σ))
      (hu : k.Leaves u) (hit : Values H g (s + (σ * u) • p) it') (hiter : it'.iter = it.iter + 1) :
      Turn k H C g o s z it (.stop .negativeCurvature it')
  /-- The step would raise the model. -/
  | rise {p : Euclidean n} {a : ℝ} {it' : Iterate (Exact ε)} (hline : Line k H o s (steepest H g s) z it p a)
      (h : quadratic H g s < quadratic H g (s + a • p)) (hit : Values H g s it') :
      Turn k H C g o s z it (.stop .objectiveIncrease it')
  /-- The safeguard cuts the step, once too often. -/
  | stuck {p : Euclidean n} {a u : ℝ} {it' : Iterate (Exact ε)} (hline : Line k H o s (steepest H g s) z it p a)
      (h : quadratic H g (s + a • p) ≤ quadratic H g s) (hu : k.Leaves u) (hcut : u < 1)
      (hit : Values H g (s + (a * u) • p) it') : Turn k H C g o s z it (.stop .tooManyFailedSafeguard it')
  /-- The safeguard cuts the step, and the recurrence starts again. -/
  | cut {p : Euclidean n} {a u : ℝ} {it' : Iterate (Exact ε)} (hline : Line k H o s (steepest H g s) z it p a)
      (h : quadratic H g (s + a • p) ≤ quadratic H g s) (hu : k.Leaves u) (hcut : u < 1)
      (hit : it'.At H g o (s + (a * u) • p)) (hrecords : Records k (steepest H g s) z it it') (hseq : it'.seq = 0)
      (hprevious : it'.previous = none) : Turn k H C g o s z it (.next it')
  /-- The step ends at the boundary of the trust region. -/
  | cross {p : Euclidean n} {a : ℝ} {it' : Iterate (Exact ε)} (hline : Line k H o s (steepest H g s) z it p a)
      (h : quadratic H g (s + a • p) ≤ quadratic H g s)
      (hout : k.δ ≤ real ‖o + s + (inner ℝ (steepest H g s) z / inner ℝ p (H p)) • p‖) (hit : Values H g (s + a • p) it')
      (hiter : it'.iter = it.iter + 1) : Turn k H C g o s z it (.stop .trustRegionViolated it')
  /-- The whole step is taken. -/
  | full {p : Euclidean n} {a : ℝ} {it' : Iterate (Exact ε)} (hline : Line k H o s (steepest H g s) z it p a)
      (ha : a = inner ℝ (steepest H g s) z / inner ℝ p (H p)) (h : quadratic H g (s + a • p) ≤ quadratic H g s)
      (hit : it'.At H g o (s + a • p)) (hrecords : Records k (steepest H g s) z it it') (hseq : it'.seq = it.seq + 1)
      (hprevious : it'.previous =
        some ⟨vec (steepest H g s), vec z, vec p, vec (H p), real (inner ℝ (steepest H g s) z)⟩) :
      Turn k H C g o s z it (.next it')

/-- A pass that goes on leaves a scale. -/
theorem Records.scale_nonneg {r z : Euclidean n} (h : Records k r z it it') (hscale : it.iter = 0 ∨ Nonneg it.normZ0) :
    it'.iter = 0 ∨ Nonneg it'.normZ0 := by
  right
  rw [h.scale]
  split
  case isTrue => exact ⟨_, rfl, norm_nonneg z⟩
  case isFalse h0 => exact hscale.resolve_left h0

/-! ### Passes -/

theorem Iterate.At.values (h : it.At H g o s) : Values H g s it := ⟨h.step, h.model⟩

/-- A residual is preconditioned to a vector, unless the projector is none. -/
theorem precondition_turns (hk : k.Acts H B C g) (r : Euclidean n) :
    (precondition k (vec r)).Ensures fun
      | .ok z => z = vec (projected B C r)
      | .error fault => ∀ z it, Fault k H C r z it fault := by
  unfold precondition
  rw [zerosLike_vec]
  refine ensures_bind (hk.projector.image r) ?_
  rintro _ rfl
  refine ensures_bind (hk.projector.image (C r)) ?_
  rintro _ rfl
  refine ensures_bind (ensures_lift fun _ h => checked_add_eq_ok (a := -1) h) ?_
  rintro _ rfl
  dsimp only
  rw [norm_vec, norm_vec, isFinite_real, if_neg (by simp), neg_one_smul, ← sub_eq_add_neg]
  split
  case isTrue h => exact ensures_pure fun z it => .projector h
  case isFalse =>
    refine ensures_bind (hk.preconditioner.image (C r)) ?_
    rintro _ rfl
    refine ensures_bind (hk.projector.image (B (C r))) ?_
    rintro _ rfl
    rw [isFinite_vec, if_neg (by simp)]
    exact ensures_pure rfl

theorem modelAfter_eq (hH : H.IsSymmetric) (σ : ℝ) :
    modelAfter (real (quadratic H g s)) (real σ) (real (inner ℝ (steepest H g s) p)) (real (inner ℝ p (H p)) : Exact ε) =
      real (quadratic H g (s + σ • p)) := by
  unfold modelAfter
  rw [half_eq, real_mul, real_mul, real_mul, real_mul, real_sub, real_add, quadratic_add hH]

section Follow
variable {z : Euclidean n} {start : Iterate (Exact ε)} (hk : k.Acts H B C g) (hit : it.At H g o s)
  (hrecords : Records k (steepest H g s) z start it)
include hk hit hrecords

theorem followNegative_turns (hlarge : ¬ k.Settles start z) (hp : start.HeadsFor (steepest H g s) z p) (hκ : inner ℝ p (H p) ≤ 0) :
    (followNegative k it (vec p) (real (inner ℝ (steepest H g s) p)) (real (inner ℝ p (H p)))).Ensures
      (Turn k H C g o s z start) := by
  obtain ⟨_, _, _, _, seq, iter, failed, calls, previous, slots, scale⟩ := it
  obtain ⟨rfl, rfl, rfl, rfl⟩ := hit
  unfold followNegative
  rw [norm_vec]
  refine ensures_bind (P := fun c => ∃ σ, c = real σ ∧ (if Scalar.isFinite k.δ then Sphere.exit 0 (vec (o + s)) (vec p) k.δ
    else if (real ‖s‖ : Exact ε) == 0 then .ok 1 else .ok 0) = .ok (real σ)) (ensures_lift fun c hc => ?_) ?_
  · have hreal : ∃ σ, c = real σ := by
      split at hc
      case isTrue hfin =>
        obtain ⟨δ, hδ⟩ := isFinite_iff.mp hfin
        rw [hδ] at hc
        obtain ⟨σ, hσ, -⟩ := Sphere.exit_real le_rfl hc
        exact ⟨σ, hσ⟩
      case isFalse =>
        split at hc <;> cases hc
        · exact ⟨1, rfl⟩
        · exact ⟨0, rfl⟩
    obtain ⟨σ, rfl⟩ := hreal
    exact ⟨σ, rfl, hc⟩
  rintro _ ⟨σ, rfl, hσ⟩
  rw [scale_vec]
  refine ensures_bind (hk.fractions.fraction _ _ _) ?_
  rintro _ ⟨u, rfl, hu0, hu1, hfull⟩
  dsimp only
  rw [real_mul]
  refine ensures_bind (ensures_lift fun _ h => checked_add_eq_ok h) ?_
  rintro _ rfl
  exact ensures_pure (.flat hlarge hp hκ hσ ⟨hu0, hu1, hfull⟩ ⟨rfl, modelAfter_eq hk.symmetric _⟩ hrecords.iter)

theorem restart_turns {a u : ℝ} (hline : Line k H o s (steepest H g s) z start p a)
    (hdown : quadratic H g (s + a • p) ≤ quadratic H g s) (hu : k.Leaves u) (hcut : u < 1) :
    (restart k it (vec p) (real a) (real u) (real (inner ℝ (steepest H g s) p)) (real (inner ℝ p (H p)))).Ensures
      (Turn k H C g o s z start) := by
  obtain ⟨_, _, _, _, seq, iter, failed, calls, previous, slots, scale⟩ := it
  obtain ⟨rfl, rfl, rfl, rfl⟩ := hit
  unfold restart
  dsimp only
  rw [real_mul, modelAfter_eq hk.symmetric]
  refine ensures_bind (ensures_lift fun _ h => checked_add_eq_ok h) ?_
  rintro _ rfl
  refine ensures_bind (ensures_lift fun _ h => checked_add_eq_ok h) ?_
  rintro _ rfl
  split
  · exact ensures_pure (.stuck hline hdown hu hcut ⟨rfl, rfl⟩)
  · refine ensures_bind (ensures_true _) fun _ _ => ?_
    rw [zerosLike_vec, hk.gradient]
    refine ensures_bind (hk.hessian.image _) ?_
    rintro _ rfl
    refine ensures_bind (ensures_lift fun _ h => checked_add_eq_ok (a := 1) h) ?_
    rintro _ rfl
    refine ensures_pure (.cut hline hdown hu hcut ⟨rfl, ?_, ?_, rfl⟩ ⟨hrecords.iter, hrecords.scale, hrecords.slots⟩ rfl rfl)
    · rw [add_assoc]
    · dsimp only
      rw [one_eq, real_neg, scale_vec, one_smul, neg_one_smul, add_comm]

theorem followPositive_turns (hseq : it.seq = start.seq) (hδ : k.δ ≠ infinite true)
    (hlarge : ¬ k.Settles start z) (hp : start.HeadsFor (steepest H g s) z p) (hκ : 0 < inner ℝ p (H p)) :
    (followPositive k it (vec z) (vec p) (vec (H p)) (real (inner ℝ (steepest H g s) z))
      (real (inner ℝ (steepest H g s) p)) (real (inner ℝ p (H p)))).Ensures (Turn k H C g o s z start) := by
  obtain ⟨_, _, _, _, seq, iter, failed, calls, previous, slots, scale⟩ := it
  obtain ⟨rfl, rfl, rfl, rfl⟩ := hit
  unfold followPositive
  dsimp only
  rw [real_div hκ.ne']
  refine ensures_bind (ensures_lift fun _ h => checked_add_eq_ok h) ?_
  rintro _ rfl
  rw [norm_vec]
  refine ensures_bind (P := fun c => ∃ a, c = real a ∧ Line k H o s (steepest H g s) z start p a)
    (ensures_lift fun c hc => ?_) ?_
  · have hreal : ∃ a, c = real a := by
      split at hc
      case isTrue hout =>
        have hout := of_decide_eq_true hout
        have hfin : ∃ δ, k.δ = real δ := by
          revert hδ hout
          cases k.δ with
          | nan => exact fun _ h => h.elim
          | infinite b => cases b <;> simp
          | real δ => exact fun _ _ => ⟨δ, rfl⟩
        obtain ⟨δ, hδ⟩ := hfin
        rw [hδ] at hc
        obtain ⟨σ, hσ, -⟩ := Sphere.exit_real le_rfl hc
        exact ⟨σ, hσ⟩
      case isFalse =>
        cases hc
        exact ⟨_, rfl⟩
    obtain ⟨a, rfl⟩ := hreal
    exact ⟨a, rfl, hlarge, hp, hκ, hc⟩
  rintro _ ⟨a, rfl, hline⟩
  rw [modelAfter_eq hk.symmetric]
  split
  case isTrue hrise => exact ensures_pure (.rise hline (real_lt.mp hrise) ⟨rfl, rfl⟩)
  case isFalse hdown =>
    have hdown : quadratic H g (s + a • p) ≤ quadratic H g s := not_lt.mp (mt real_lt.mpr hdown)
    rw [scale_vec]
    refine ensures_bind (hk.fractions.fraction _ _ _) ?_
    rintro _ ⟨u, rfl, hu0, hu1, hfull⟩
    split
    case isTrue hcut =>
      refine restart_turns hk ?_ ?_ hline hdown ⟨hu0, hu1, hfull⟩ (real_lt.mp hcut)
      · exact ⟨rfl, rfl, rfl, rfl⟩
      · exact ⟨hrecords.iter, hrecords.scale, hrecords.slots⟩
    case isFalse =>
      refine ensures_bind (ensures_lift fun _ h => checked_add_eq_ok h) ?_
      rintro _ rfl
      refine ensures_bind (ensures_lift fun _ h => checked_add_eq_ok (u := p) h) ?_
      rintro _ rfl
      split
      case isTrue hout => exact ensures_pure (.cross hline hdown (of_decide_eq_true hout) ⟨rfl, rfl⟩ hrecords.iter)
      case isFalse hin =>
        have ha : a = inner ℝ (steepest H g s) z / inner ℝ p (H p) := by
          have hlength := hline.length
          rw [if_neg hin] at hlength
          exact (real_inj.mp (Except.ok.inj hlength)).symm
        rw [real_neg]
        refine ensures_bind (ensures_lift fun _ h => checked_add_eq_ok h) ?_
        rintro _ rfl
        refine ensures_pure (.full hline ha hdown ⟨rfl, ?_, ?_, rfl⟩ ⟨hrecords.iter, hrecords.scale, hrecords.slots⟩
          (congrArg (· + 1) hseq) rfl)
        · rw [add_assoc]
        · change vec (-(g + H s) + -a • H p) = vec (-(g + H (s + a • p)))
          rw [map_add, map_smul, neg_smul]
          congr 1
          abel

end Follow

theorem follow_turns {z : Euclidean n} {start : Iterate (Exact ε)} (hk : k.Acts H B C g) (hit : it.At H g o s)
    (hrecords : Records k (steepest H g s) z start { it with iter := it.iter + 1 }) (hseq : it.seq = start.seq)
    (hδ : k.δ ≠ infinite true) (hlarge : ¬ k.Settles start z) (hp : start.HeadsFor (steepest H g s) z p)
    (normZ : Exact ε) :
    (follow k it (vec z) (vec p) (vec (H p)) (real (inner ℝ (steepest H g s) z)) normZ).Ensures
      (Turn k H C g o s z start) := by
  have hit' : Iterate.At H g o s { it with iter := it.iter + 1 } := ⟨hit.step, hit.point, hit.residual, hit.model⟩
  unfold follow
  refine ensures_bind (ensures_lift fun _ h => checked_inner_eq_ok h) ?_
  rintro _ rfl
  refine ensures_bind (P := fun rp => rp = real (inner ℝ (steepest H g s) p)) (ensures_lift fun rp h => ?_) ?_
  · rw [hit'.residual] at h
    exact checked_inner_eq_ok h
  rintro _ rfl
  refine ensures_bind (ensures_true _) fun _ _ => ?_
  split
  case isTrue h => exact followNegative_turns hk hit' hrecords hlarge hp (real_le.mp h)
  case isFalse h => exact followPositive_turns hk hit' hrecords hseq hδ hlarge hp (lt_of_not_ge fun h0 => h (real_le.mpr h0))

/-- What the residual and the last start show depends on them only. -/
theorem residualFault_congr (hr : it'.r = it.r) (hprevious : it'.previous = it.previous) (hseq : it'.seq = it.seq)
    (hslots : it'.slots = it.slots) (par : TruncatedParam (Exact ε)) (z : Vec (Exact ε)) (rz : Exact ε) :
    residualFault? par it' z rz = residualFault? par it z rz := by
  unfold residualFault?
  rw [hr, hprevious, hseq, hslots]

/-- Directions and their faults depend on the pass before only. -/
theorem direction_congr (h : it'.previous = it.previous) (z : Vec (Exact ε)) (rz : Exact ε) :
    direction it' z rz = direction it z rz := by
  unfold direction
  rw [h]

theorem directionFault_congr (h : it'.previous = it.previous) (par : TruncatedParam (Exact ε)) (p d : Vec (Exact ε)) :
    directionFault? par it' p d = directionFault? par it p d := by
  unfold directionFault?
  rw [h]

/-- Without a pass before there are no faults to be seen. -/
theorem residualFault_of_none (hnone : it.previous = none) (par : TruncatedParam (Exact ε)) (z : Vec (Exact ε))
    (rz : Exact ε) {fault : Option TruncatedStop} (h : residualFault? par it z rz = .ok fault) : fault = none := by
  unfold residualFault? at h
  rw [hnone] at h
  exact (Except.ok.inj h).symm

theorem directionFault_of_none (hnone : it.previous = none) (par : TruncatedParam (Exact ε)) (p d : Vec (Exact ε))
    {fault : Option TruncatedStop} (h : directionFault? par it p d = .ok fault) : fault = none := by
  unfold directionFault? at h
  rw [hnone] at h
  exact (Except.ok.inj h).symm

/-- What an iterate heads for is a real vector, or the Hessian shows that it is none. -/
theorem Iterate.Recalls.direction (hrecalls : it.Recalls k n) {r z : Euclidean n} {d : Vec (Exact ε)}
    (hd : TruncatedCG.direction it (vec z) (real (inner ℝ r z)) = .ok d) :
    (∃ p : Euclidean n, d = vec p ∧ it.HeadsFor r z p) ∨
      d.length = n ∧ Vec.Unreal d ∧ k.H.Exposes n := by
  have hheads : ∀ p : Euclidean n, d = vec p → ∃ p : Euclidean n, d = vec p ∧ it.HeadsFor r z p := by
    rintro p rfl
    exact ⟨p, rfl, hd⟩
  have hsome := hd
  unfold TruncatedCG.direction at hsome
  split at hsome
  case h_1 => exact .inl (hheads z (Except.ok.inj hsome).symm)
  case h_2 prev hprev =>
    obtain ⟨p, c, hp, hc, hexposes⟩ := hrecalls prev hprev
    rw [hp, hc] at hsome
    rcases Checked.real_or_unreal_of_add hsome with ⟨t, hd'⟩ | ⟨hc0, hlen, hnone⟩
    · exact .inl (hheads _ hd')
    · exact .inr ⟨hlen, hnone, hexposes hc0⟩

/-- A first pass takes the norm of its preconditioned residual for the scale. -/
theorem scaled_eq (it : Iterate (Exact ε)) (z : Euclidean n) :
    (if it.iter = 0 then { it with normZ0 := Vec.norm (vec z) } else it) =
      { it with normZ0 := if it.iter = 0 then real ‖z‖ else it.normZ0 } := by
  split
  · rw [norm_vec]
  · rfl

/-- A pass of a model with linear operators makes one of the turns. -/
theorem pass_turns (hk : k.Acts H B C g) (hδ : k.δ ≠ infinite true) (hit : it.At H g o s) (hrecalls : it.Recalls k n) :
    (pass k it).Ensures (Turn k H C g o s (projected B C (steepest H g s)) it) := by
  have hprecondition := precondition_turns hk (steepest H g s)
  rw [← hit.residual] at hprecondition
  unfold pass
  refine ensures_bind hprecondition fun out hout => ?_
  split
  · exact ensures_pure (.fault (hout _ _) hit.values)
  dsimp only at hout
  subst hout
  generalize projected B C (steepest H g s) = z
  dsimp only
  rw [scaled_eq, norm_vec]
  generalize hit' : ({ it with normZ0 := if it.iter = 0 then real ‖z‖ else it.normZ0 } : Iterate (Exact ε)) = it'
  split
  case isTrue hsmall =>
    subst hit'
    exact ensures_pure (.small hsmall ⟨hit.step, hit.model⟩ rfl)
  case isFalse hlarge =>
    have hat : it'.At H g o s := by
      subst hit'
      exact ⟨hit.step, hit.point, hit.residual, hit.model⟩
    have hprevious : it'.previous = it.previous := by subst hit'; rfl
    have hseq : it'.seq = it.seq := by subst hit'; rfl
    have hslots : it'.slots = it.slots := by subst hit'; rfl
    have hiter : it'.iter = it.iter := by subst hit'; rfl
    have hscale : it'.normZ0 = if it.iter = 0 then real ‖z‖ else it.normZ0 := by subst hit'; rfl
    rw [hscale] at hlarge
    refine ensures_bind (P := fun rz => rz = real (inner ℝ (steepest H g s) z)) (ensures_lift fun rz h => ?_) ?_
    · rw [hat.residual] at h
      exact checked_inner_eq_ok h
    rintro _ rfl
    refine ensures_bind (ensures_lift fun fault h => h) fun fault hfault => ?_
    rw [residualFault_congr (hat.residual.trans hit.residual.symm) hprevious hseq hslots] at hfault
    split
    · exact ensures_pure (.fault (.residual hfault) hat.values)
    refine ensures_bind (ensures_lift fun d h => h) fun d hd => ?_
    have hd : direction it (vec z) (real (inner ℝ (steepest H g s) z)) = .ok d := (direction_congr hprevious _ _).symm.trans hd
    rcases hrecalls.direction hd with ⟨p, rfl, hp⟩ | ⟨hlen, hnone, hexposes⟩
    · rw [zerosLike_vec]
      refine ensures_bind (hk.hessian.image p) ?_
      rintro _ rfl
      rw [isFinite_vec, if_neg (by simp)]
      refine ensures_bind (ensures_lift fun fault h => h) fun fault hfault => ?_
      have hfault : directionFault? k.par it (vec p) (vec (H p)) = .ok fault :=
        (directionFault_congr hprevious _ _ _).symm.trans hfault
      split
      · exact ensures_pure (.fault (.direction hfault) ⟨hat.step, hat.model⟩)
      · refine follow_turns hk ?_ ?_ ?_ hδ hlarge hp _
        · exact ⟨hat.step, hat.point, hat.residual, hat.model⟩
        · exact ⟨congrArg (· + 1) hiter, hscale, by rw [← hseq, ← hslots]⟩
        · exact hseq
    · refine ensures_bind (hexposes d hlen hnone) fun hp hhp => ?_
      rw [if_pos (by simpa using hhp)]
      exact ensures_pure (.fault (.undefined hd (by simp [hnone.isFinite_eq_false])) ⟨hat.step, hat.model⟩)

/-! ### Directions -/

section HeadsFor
variable {r z q : Euclidean n} {prev : Previous (Exact ε)} {c : ℝ} (hp : it.HeadsFor r z p)
include hp

theorem Iterate.HeadsFor.first (hnone : it.previous = none) : p = z := by
  unfold Iterate.HeadsFor direction at hp
  rw [hnone] at hp
  exact (vec_inj.mp (Except.ok.inj hp)).symm

theorem Iterate.HeadsFor.later (hprev : it.previous = some prev) (hq : prev.p = vec q) (hc : prev.rz = real c) (hc0 : c ≠ 0) :
    p = (inner ℝ r z / c) • q + z := by
  unfold Iterate.HeadsFor direction at hp
  rw [hprev] at hp
  dsimp only at hp
  rw [hq, hc, real_div hc0, scale_vec] at hp
  rw [vec_inj.mp (checked_add_eq_ok (a := 1) hp), one_smul]

/-- A space that has the preconditioned residual and the last direction has the next one. -/
theorem Iterate.HeadsFor.mem {V : Submodule ℝ (Euclidean n)} (hz : z ∈ V)
    (hprevious : ∀ prev, it.previous = some prev → ∃ q ∈ V, prev.p = vec q) : p ∈ V := by
  unfold Iterate.HeadsFor direction at hp
  split at hp
  case h_1 => rwa [← vec_inj.mp (Except.ok.inj hp)]
  case h_2 prev hprev =>
    obtain ⟨q, hqV, hq⟩ := hprevious prev hprev
    rw [hq] at hp
    obtain ⟨t, ht⟩ := exists_scale (Checked.isFinite_of_add hp isFinite_vec).2
    rw [ht] at hp
    rw [vec_inj.mp (checked_add_eq_ok (a := 1) hp)]
    exact V.add_mem (V.smul_mem t hqV) (V.smul_mem 1 hz)

end HeadsFor

/-! ### Faults -/

/-- The faults of a pass are numerical failures. -/
theorem Fault.fails {r z : Euclidean n} {reason : TruncatedStop} (h : Fault k H C r z it reason) :
    reason.isNumericalFailure = true := by
  cases h with
  | projector => rfl
  | residual h => exact residualFault_fails _ _ h _ rfl
  | undefined => rfl
  | direction h => exact directionFault_fails _ _ h _ rfl

section Linear
variable (hk : Linear { k with safeguard := .unlimited } H B C)
include hk

theorem Linear.acts (hg : k.g = vec g) (hcut : k.safeguard.Cuts n) : k.Acts H B C g where
  hessian := hk.hessian
  symmetric := hk.symmetric
  preconditioner := hk.preconditioner
  projector := hk.projector
  gradient := hg
  fractions := hcut

/-- Where there is no slope the residual is small. -/
theorem Linear.slope_pos (hscale : it.iter = 0 ∨ Nonneg it.normZ0) (h : ¬ k.Settles it (projected B C r)) :
    0 < inner ℝ r (projected B C r) := by
  refine lt_of_not_ge fun hle => h ?_
  obtain ⟨e, he, he0⟩ := hk.eps
  have he : k.par.eps = real e := he
  unfold Model.Settles
  rw [eq_zero_of_slope hk.projected_symmetric hk.projected_nonneg hle, norm_zero, he]
  split
  · exact real_le.mpr (mul_nonneg he0 le_rfl)
  case isFalse h0 =>
    obtain ⟨c, hc, hc0⟩ := hscale.resolve_left h0
    rw [hc]
    exact real_le.mpr (mul_nonneg he0 hc0)

/-- An idempotent projector is found to be one. -/
theorem Linear.not_projector_fault {r : Euclidean n} :
    ¬ k.par.epsProj * Scalar.maxNum (real ‖C r‖) 1 < real ‖C (C r) - C r‖ := by
  obtain ⟨t, ht, ht0⟩ := hk.epsProj
  have ht : k.par.epsProj = real t := ht
  rw [hk.idempotent, sub_self, norm_zero, ht, one_eq, maxNum_real, real_mul, real_lt]
  exact not_lt.mpr (by positivity)

/-- The first pass of a segment shows no fault. -/
theorem Linear.not_fault_of_none (hnone : it.previous = none) {r z : Euclidean n} {reason : TruncatedStop} :
    ¬ Fault k H C r z it reason := by
  intro hfault
  cases hfault with
  | projector h => exact hk.not_projector_fault h
  | residual h => exact absurd (residualFault_of_none hnone _ _ _ h) nofun
  | undefined hd hfin =>
    unfold direction at hd
    rw [hnone] at hd
    cases hd
    exact hfin isFinite_vec
  | direction h => exact absurd (directionFault_of_none hnone _ _ _ h) nofun

end Linear

/-! ### Solves -/

/-- A pass from `it` may come to `out`. -/
def Passes (k : Model (Exact ε)) (it : Iterate (Exact ε)) (out : Progress (Exact ε)) : Prop :=
  ∃ notes rest, (pass k it).run notes = (.ok out, rest)

/-- The iterates that passes from `it` go on to. -/
inductive Visits (k : Model (Exact ε)) (it : Iterate (Exact ε)) : Iterate (Exact ε) → Prop
  | here : Visits k it it
  | next {u v : Iterate (Exact ε)} (hu : Visits k it u) (hv : Passes k u (.next v)) : Visits k it v

/-- The iterate a pass leaves. -/
def Progress.iterate : Progress (Exact ε) → Iterate (Exact ε)
  | .next it => it
  | .stop _ it => it

theorem Visits.trans {u v : Iterate (Exact ε)} (hu : Visits k it u) (hv : Visits k u v) : Visits k it v := by
  induction hv with
  | here => exact hu
  | next _ hpass ih => exact .next ih hpass

/-- The check of the offset of a solve may come to `fault`. -/
def Checks (k : Model (Exact ε)) (offset : Vec (Exact ε)) (fault : Option TruncatedStop) : Prop :=
  ∃ notes rest, (offsetFault? offset k.δ k.safeguard).run notes = (.ok fault, rest)

/-- The loop of a solve from `offset` may come to `it`. -/
def Loops (k : Model (Exact ε)) (offset : Vec (Exact ε)) (it : Iterate (Exact ε)) : Prop :=
  Checks k offset none ∧ Visits k (start k.g offset) it

/-- Only an offset at a real distance from a bound that is not infinitely negative is let through. -/
theorem offsetFault_reads (o : Euclidean n) (δ : Exact ε) (safeguard : Safeguard (Exact ε)) :
    (offsetFault? (vec o) δ safeguard).Ensures fun
      | none => δ ≠ infinite true
      | some fault => fault = .offsetViolatesTrustRegion ∨ fault = .offsetViolatesSafeguard ∧ safeguard ≠ .unlimited := by
  unfold offsetFault?
  dsimp only
  split
  · exact ensures_bind (ensures_true _) fun _ _ => ensures_pure (.inl rfl)
  case isFalse hin =>
    refine ensures_bind (P := fun θ => safeguard = .unlimited → θ = 1) ?_ fun θ hθ => ?_
    · refine ensures_forall fun hsafe => ?_
      rw [hsafe]
      exact ensures_pure rfl
    split
    case isTrue hcut =>
      refine ensures_bind (ensures_true _) fun _ _ => ensures_pure (.inr ⟨rfl, fun hsafe => ?_⟩)
      rw [hθ hsafe] at hcut
      exact lt_irrefl _ (real_lt.mp hcut)
    case isFalse =>
      refine ensures_pure fun hδ => ?_
      have hε : 0 ≤ (ε : ℝ) := (Set.mem_Ioi.mp ε.2).le
      have hpos : 0 < 1 + Real.sqrt ε := by positivity
      have hsqrt : (1 : Exact ε) + Scalar.sqrt Scalar.epsilon = real (1 + Real.sqrt ε) :=
        congrArg (real 1 + ·) (sqrt_real hε)
      rw [hδ, hsqrt, norm_vec, mul_swap, mul_infinite_of_pos hpos] at hin
      exact absurd (not_not.mp hin) (by simp)

/-- An offset in the trust region has no fault that a missing safeguard would see. -/
theorem offsetFault_of_unlimited (ho : real ‖o‖ ≤ k.δ) :
    (offsetFault? (vec o) k.δ k.safeguard).Ensures fun fault => k.safeguard = .unlimited → fault = none := by
  refine ensures_forall fun hsafe => ?_
  unfold offsetFault?
  dsimp only
  rw [if_neg (not_not.mpr (offset_inside ho)), hsafe]
  refine ensures_bind (P := fun θ => θ = 1) (ensures_pure rfl) ?_
  rintro _ rfl
  rw [one_eq, if_neg (mt real_lt.mp (lt_irrefl 1))]
  exact ensures_pure rfl

theorem Checks.cases {fault : TruncatedStop} (h : Checks k (vec o) (some fault)) :
    fault = .offsetViolatesTrustRegion ∨ fault = .offsetViolatesSafeguard ∧ k.safeguard ≠ .unlimited := by
  obtain ⟨notes, rest, hrun⟩ := h
  exact offsetFault_reads o k.δ k.safeguard notes _ rest hrun

theorem Checks.blames {fault : TruncatedStop} (h : Checks k (vec o) (some fault)) : fault.BlamesOffset :=
  h.cases.imp_right And.left

/-- Without a safeguard there is nothing to say against an offset in the trust region. -/
theorem Checks.eq_none {fault : Option TruncatedStop} (h : Checks k (vec o) fault) (hsafe : k.safeguard = .unlimited)
    (ho : real ‖o‖ ≤ k.δ) : fault = none := by
  obtain ⟨notes, rest, hrun⟩ := h
  exact offsetFault_of_unlimited ho notes _ rest hrun hsafe

theorem Loops.radius_ne (h : Loops k (vec o) it) : k.δ ≠ infinite true := by
  obtain ⟨⟨notes, rest, hrun⟩, -⟩ := h
  exact offsetFault_reads o k.δ k.safeguard notes _ rest hrun

/-- The last of some passes stops, or there are no more passes. -/
theorem iterate_ends (budget : ℕ) (h : it.Thrifty k.par) :
    (iterate k budget it).Ensures fun out => ∃ u, Visits k it u ∧
      (Passes k u (.stop out.1 out.2) ∨ out = (.maxItersExceeded, u) ∧ u.iter = it.iter + budget) := by
  induction budget generalizing it with
  | zero => exact ensures_pure ⟨it, .here, .inr ⟨rfl, rfl⟩⟩
  | succ budget ih =>
    refine ensures_bind (P := fun out => Passes k it out ∧ out.Spends k.par it.iter) (fun notes out rest hrun => ?_) ?_
    · exact ⟨⟨notes, rest, hrun⟩, pass_spends h notes out rest hrun⟩
    rintro (v | ⟨reason, v⟩) ⟨hpass, hspends⟩
    · obtain ⟨hiter, hthrifty⟩ := hspends
      refine (ih hthrifty).mono fun out ⟨u, hu, hend⟩ => ⟨u, (Visits.here.next hpass).trans hu, ?_⟩
      exact hend.imp_right fun ⟨hout, hcount⟩ => ⟨hout, by omega⟩
    · exact ensures_pure ⟨it, .here, .inl hpass⟩

/-- A solve answers with the fault of its offset, or with what its passes end in. -/
theorem solve_ends (k : Model (Exact ε)) (o : Euclidean n) (w : Vec (Exact ε)) (work : ℕ) :
    (solve k (vec o) w work).Ensures fun out => ∀ r, out = .ok r →
      (∃ fault, Checks k (vec o) (some fault) ∧ r = result fault (start k.g (vec o))) ∨
      ∃ u reason it, Loops k (vec o) u ∧ r = result reason it ∧
        (Passes k u (.stop reason it) ∨ reason = .maxItersExceeded ∧ it = u ∧ u.iter = k.par.iterMax) := by
  have hstart : (start k.g (vec o)).Thrifty k.par := ⟨Nat.le_refl 0, Nat.zero_le _⟩
  refine (ensures_solve (P := fun reason it =>
    (∃ fault, Checks k (vec o) (some fault) ∧ result reason it = result fault (start k.g (vec o))) ∨
    ∃ u, Loops k (vec o) u ∧ (Passes k u (.stop reason it) ∨
      reason = .maxItersExceeded ∧ it = u ∧ u.iter = k.par.iterMax))
    (fun _ fault hfault => .inl ⟨fault, hfault, rfl⟩) fun _ hchecks => ?_).mono fun out hout r hr => ?_
  · refine (iterate_ends k.par.iterMax hstart).mono ?_
    rintro ⟨reason, it⟩ ⟨u, hu, hend⟩
    refine .inr ⟨u, ⟨hchecks, hu⟩, hend.imp_right ?_⟩
    rintro ⟨⟨⟩, hcount⟩
    exact ⟨rfl, rfl, hcount.trans (Nat.zero_add _)⟩
  · obtain ⟨reason, it, rfl, hfault | ⟨u, hu, hend⟩⟩ := hout r hr
    · exact .inl hfault
    · exact .inr ⟨u, reason, it, hu, rfl, hend⟩

/-- A property of the steps and their iterates that the turns of a solve from `o` keep. -/
structure Invariant (k : Model (Exact ε)) (H B C : Euclidean n →ₗ[ℝ] Euclidean n) (g o : Euclidean n)
    (I : Euclidean n → Iterate (Exact ε) → Prop) : Prop where
  at_step : ∀ {s it}, I s it → it.At H g o s
  recalls : ∀ {s it}, I s it → it.Recalls k n
  start : I 0 (start k.g (vec o))
  next : ∀ {s it it'}, I s it → Turn k H C g o s (projected B C (steepest H g s)) it (.next it') → ∃ s', I s' it'

/-- What a solve answers with: the fault of its offset, what is left after all passes, or the last turn. -/
inductive Answer (k : Model (Exact ε)) (H B C : Euclidean n →ₗ[ℝ] Euclidean n) (g o : Euclidean n)
    (I : Euclidean n → Iterate (Exact ε) → Prop) : TruncatedResult (Exact ε) → Prop
  | refused {fault : TruncatedStop} (h : Checks k (vec o) (some fault)) :
      Answer k H B C g o I (result fault (start k.g (vec o)))
  | spent {s : Euclidean n} {it : Iterate (Exact ε)} (h : I s it) (hiter : it.iter = k.par.iterMax) :
      Answer k H B C g o I (result .maxItersExceeded it)
  | stopped {s : Euclidean n} {it it' : Iterate (Exact ε)} {reason : TruncatedStop} (hloop : Loops k (vec o) it) (h : I s it)
      (hturn : Turn k H C g o s (projected B C (steepest H g s)) it (.stop reason it')) :
      Answer k H B C g o I (result reason it')

namespace Invariant
variable {I : Euclidean n → Iterate (Exact ε) → Prop}

theorem turn (hI : Invariant k H B C g o I) (hk : k.Acts H B C g) (hloop : Loops k (vec o) it) (hit : I s it)
    {out : Progress (Exact ε)} (hpass : Passes k it out) :
    Turn k H C g o s (projected B C (steepest H g s)) it out := by
  obtain ⟨notes, rest, hrun⟩ := hpass
  exact pass_turns hk hloop.radius_ne (hI.at_step hit) (hI.recalls hit) notes out rest hrun

theorem loops (hI : Invariant k H B C g o I) (hk : k.Acts H B C g) (hloop : Loops k (vec o) it) : ∃ s, I s it := by
  obtain ⟨hoffset, hvisits⟩ := hloop
  induction hvisits with
  | here => exact ⟨0, hI.start⟩
  | next hu hpass ih =>
    obtain ⟨s, hs⟩ := ih
    exact hI.next hs (hI.turn hk ⟨hoffset, hu⟩ hs hpass)

theorem answers (hI : Invariant k H B C g o I) (hk : k.Acts H B C g) (w : Vec (Exact ε)) (work : ℕ) :
    (TruncatedCG.solve k (vec o) w work).Ensures fun out => ∀ r, out = .ok r → Answer k H B C g o I r := by
  refine (solve_ends k o w work).mono fun out hends r hr => ?_
  rcases hends r hr with ⟨fault, hchecks, rfl⟩ | ⟨u, reason, it, hloop, rfl, hend⟩
  · exact .refused hchecks
  · obtain ⟨s, hs⟩ := hI.loops hk hloop
    rcases hend with hpass | ⟨rfl, rfl, hcount⟩
    · exact .stopped hloop hs (hI.turn hk hloop hs hpass)
    · exact .spent hs hcount

/-- Where the sizes fit, there is an answer. -/
theorem solve (hI : Invariant k H B C g o I) (hk : k.Acts H B C g) (hfit : k.Fits n) {w : Vec (Exact ε)}
    (hw : w.length = n) {work : ℕ} (hwork : workLength n k.par.orthogMax ≤ work) :
    (TruncatedCG.solve k (vec o) w work).Yields fun out => ∃ r, out = .ok r ∧ Answer k H B C g o I r := by
  refine ((solve_sized hfit (length_vec (v := o)) hw hwork).and (hI.answers hk w work)).mono ?_
  rintro out ⟨⟨r, rfl, -⟩, hanswer⟩
  exact ⟨r, rfl, hanswer r rfl⟩

end Invariant

/-- A solve starts at the step zero. -/
theorem start_at (hg : k.g = vec g) (o : Euclidean n) : (start k.g (vec o)).At H g o 0 where
  step := by
    change Vec.zerosLike k.g = _
    rw [hg, zerosLike_vec]
  point := by
    rw [add_zero]
    rfl
  residual := by
    change Vec.scale (-1) k.g = vec (-(g + H 0))
    rw [hg, one_eq, real_neg, scale_vec, map_zero, add_zero, neg_one_smul]
  model := congrArg real quadratic_zero.symm

end TruncatedCG
end ConstrainedOpt
