import ConstrainedOpt.Barrier
import ConstrainedOpt.Proofs.Exact.Calculus
import ConstrainedOpt.Proofs.Exact.Operator
import ConstrainedOpt.Proofs.Exact.Orthant
import ConstrainedOpt.Proofs.Interior

/-! # Derivatives of the barrier Lagrangian

Value, gradient and Hessian of the barrier Lagrangian are written as three separate formulas. Where the functions of
a problem are twice differentiable functions of the reals and the slack is positive, each is the derivative of the
one before it, for every multiplier and every barrier parameter, and the Hessian is symmetric.
-/
namespace ConstrainedOpt
open Exact Journaled
open scoped Topology Filter Gradient
variable {ε : Set.Ioi (0 : ℝ)} {n m l : ℕ} {p : Problem (Exact ε)} {φ : Euclidean n → ℝ}
  {G : Euclidean n → Euclidean m} {h : Euclidean n → Euclidean l} {x z : Euclidean n} {μ : ℝ}

/-- At `z` the objective has the value and the gradient of `φ`. -/
structure Objective.Differentiates (o : Objective (Exact ε)) (φ : Euclidean n → ℝ) (z : Euclidean n) : Prop where
  differentiable : DifferentiableAt ℝ φ z
  value : o.value (vec z) = .ok (real (φ z))
  gradient : o.gradient (vec z) n = .ok (vec (∇ φ z))

/-- At `z` the constraint has the values of `G` and acts as its derivative and the adjoint of that. -/
structure Constraint.Differentiates (c : Constraint (Exact ε)) (G : Euclidean n → Euclidean m) (z : Euclidean n) :
    Prop where
  differentiable : DifferentiableAt ℝ G z
  value : c.value (vec z) c.rows = .ok (vec (G z))
  linearises : c.Linearises (vec z) (fderiv ℝ G z).toLinearMap

/-- At `z` the functions of the problem are `φ`, `G` and `h` with their derivatives; what is absent has no
components. -/
structure Problem.Differentiates (p : Problem (Exact ε)) (φ : Euclidean n → ℝ) (G : Euclidean n → Euclidean m)
    (h : Euclidean n → Euclidean l) (z : Euclidean n) : Prop where
  equalities : p.equalities = m
  inequalities : p.inequalities = l
  objective : p.objective.Differentiates φ z
  equality : ∀ c, p.equality = some c → c.Differentiates G z
  inequality : ∀ c, p.inequality = some c → c.Differentiates h z

/-- The derivative of `G` has a derivative at `x`, and the second action of the constraint is that of the adjoint. -/
structure Constraint.Curves (c : Constraint (Exact ε)) (G : Euclidean n → Euclidean m) (x : Euclidean n) : Prop where
  differentiable : DifferentiableAt ℝ (fderiv ℝ G) x
  second : ∀ s w, c.second (vec x) (vec s) (vec w) n = .ok (vec (fderiv ℝ (fun z => (fderiv ℝ G z).adjoint w) x s))

/-- Near `x` the functions of the problem are `φ`, `G` and `h`, which are twice differentiable at `x`, and the
second derivatives of the problem are theirs. -/
structure Problem.TwiceDifferentiable (p : Problem (Exact ε)) (φ : Euclidean n → ℝ) (G : Euclidean n → Euclidean m)
    (h : Euclidean n → Euclidean l) (x : Euclidean n) : Prop where
  near : ∀ᶠ z in 𝓝 x, p.Differentiates φ G h z
  differentiable : DifferentiableAt ℝ (∇ φ) x
  hessian : ∀ s, p.objective.hessian (vec x) (vec s) n = .ok (vec (fderiv ℝ (∇ φ) x s))
  equality : ∀ c, p.equality = some c → c.Curves G x
  inequality : ∀ c, p.inequality = some c → c.Curves h x

namespace Barrier

/-! ### The formulas over the reals -/

noncomputable section

/-- The barrier objective. -/
def potential (φ : Euclidean n → ℝ) (h : Euclidean n → Euclidean l) (μ : ℝ) (z : Euclidean n) : ℝ :=
  φ z - μ * ∑ i, Real.log (h z i)

/-- The gradient of the barrier objective. -/
def slope (φ : Euclidean n → ℝ) (h : Euclidean n → Euclidean l) (μ : ℝ) (z : Euclidean n) : Euclidean n :=
  ∇ φ z - μ • (fderiv ℝ h z).adjoint (reciprocal (h z))

/-- The gradient of the barrier Lagrangian. -/
def lagrangianSlope (φ : Euclidean n → ℝ) (G : Euclidean n → Euclidean m) (h : Euclidean n → Euclidean l)
    (y : Euclidean m) (μ : ℝ) (z : Euclidean n) : Euclidean n :=
  slope φ h μ z + (fderiv ℝ G z).adjoint y

/-- The Hessian of the barrier Lagrangian at `x`. -/
def curvature (φ : Euclidean n → ℝ) (G : Euclidean n → Euclidean m) (h : Euclidean n → Euclidean l)
    (y : Euclidean m) (μ : ℝ) (x : Euclidean n) : Euclidean n →L[ℝ] Euclidean n :=
  fderiv ℝ (∇ φ) x + fderiv ℝ (fun z => (fderiv ℝ G z).adjoint y) x +
    μ • ((fderiv ℝ h x).adjoint ∘L dividing (h x) ∘L dividing (h x) ∘L fderiv ℝ h x) -
    μ • fderiv ℝ (fun z => (fderiv ℝ h z).adjoint (reciprocal (h x))) x

end

end Barrier

/-! ### Functions of a problem -/

/-- A function without components is smooth. -/
theorem Exact.smooth_of_dim_zero (f : Euclidean n → Euclidean 0) :
    DifferentiableAt ℝ f x ∧ DifferentiableAt ℝ (fderiv ℝ f) x := by
  obtain rfl : f = fun _ => 0 := Subsingleton.elim f _
  exact ⟨differentiableAt_const 0, by rw [fderiv_fun_const]; exact differentiableAt_const 0⟩

namespace Problem

theorem eq_zero_of_equality_none (hp : p.Differentiates φ G h z) (hc : p.equality = none) : m = 0 := by
  rw [← hp.equalities, equalities, hc]
  rfl

theorem eq_zero_of_inequality_none (hp : p.Differentiates φ G h z) (hc : p.inequality = none) : l = 0 := by
  rw [← hp.inequalities, inequalities, hc]
  rfl

theorem Differentiates.differentiable_slack (hp : p.Differentiates φ G h z) : DifferentiableAt ℝ h z := by
  cases hc : p.inequality with
  | none =>
    obtain rfl := eq_zero_of_inequality_none hp hc
    exact (smooth_of_dim_zero h).1
  | some c => exact (hp.inequality c hc).differentiable

theorem Differentiates.differentiable_equality (hp : p.Differentiates φ G h z) : DifferentiableAt ℝ G z := by
  cases hc : p.equality with
  | none =>
    obtain rfl := eq_zero_of_equality_none hp hc
    exact (smooth_of_dim_zero G).1
  | some c => exact (hp.equality c hc).differentiable

theorem TwiceDifferentiable.differentiable_slack (hp : p.TwiceDifferentiable φ G h x) :
    DifferentiableAt ℝ (fderiv ℝ h) x := by
  cases hc : p.inequality with
  | none =>
    obtain rfl := eq_zero_of_inequality_none hp.near.self_of_nhds hc
    exact (smooth_of_dim_zero h).2
  | some c => exact (hp.inequality c hc).differentiable

theorem TwiceDifferentiable.differentiable_equality (hp : p.TwiceDifferentiable φ G h x) :
    DifferentiableAt ℝ (fderiv ℝ G) x := by
  cases hc : p.equality with
  | none =>
    obtain rfl := eq_zero_of_equality_none hp.near.self_of_nhds hc
    exact (smooth_of_dim_zero G).2
  | some c => exact (hp.equality c hc).differentiable

theorem Differentiates.evaluate (hp : p.Differentiates φ G h z) :
    p.evaluate (vec z) = .ok ⟨vec z, real (φ z), vec (G z), vec (h z)⟩ := by
  refine Checked.bind_eq_ok.mpr ⟨vec (G z), ?_, Checked.bind_eq_ok.mpr ⟨vec (h z), ?_, ?_⟩⟩
  · split
    case h_1 hc =>
      obtain rfl := eq_zero_of_equality_none hp hc
      rfl
    case h_2 c hc => exact (hp.equality c hc).value
  · split
    case h_1 hc =>
      obtain rfl := eq_zero_of_inequality_none hp hc
      rfl
    case h_2 c hc => exact (hp.inequality c hc).value
  · exact Checked.bind_eq_ok.mpr ⟨_, hp.objective.value, rfl⟩

end Problem

/-! ### The formulas are those of the program -/

section Answers
variable {F α β : Type}

theorem Journaled.lift_ok {c : Checked α} {a : α} (h : c = .ok a) : (liftM c : Journaled F α) = pure a := by
  rw [h]
  rfl

theorem Journaled.answered_bind {c : Journaled F α} {a : α} (h : c = pure a) (f : α → Journaled F β) :
    c >>= f = f a := by rw [h, pure_bind]

theorem Journaled.lift_bind {c : Checked α} {a : α} (h : c = .ok a) (f : α → Journaled F β) :
    (liftM c : Journaled F α) >>= f = f a := answered_bind (lift_ok h) f

end Answers

namespace Constraint.Differentiates
variable {c : Constraint (Exact ε)}

theorem apply_vec (hc : c.Differentiates G z) (a b : ℝ) (s : Euclidean n) (w : Euclidean m) :
    (c.jacobian (vec z)).apply (real a) (vec s) (real b) (vec w) = pure (vec (a • fderiv ℝ G z s + b • w)) := by
  have hforward : c.forward (vec z) (vec s) (vec w : Vec (Exact ε)).length = .ok (vec (fderiv ℝ G z s)) := by
    rw [length_vec, hc.linearises.forward]
    rfl
  exact (lift_bind hforward _).trans (lift_ok (checked_axpby_vec a b _ w))

theorem applyTransposed_vec (hc : c.Differentiates G z) (a b : ℝ) (w : Euclidean m) (v : Euclidean n) :
    (c.jacobian (vec z)).applyTransposed (real a) (vec w) (real b) (vec v) =
      pure (vec (a • (fderiv ℝ G z).adjoint w + b • v)) := by
  have hadjoint : c.adjoint (vec z) (vec w) (vec v : Vec (Exact ε)).length = .ok (vec ((fderiv ℝ G z).adjoint w)) := by
    rw [length_vec, hc.linearises.adjoint, ContinuousLinearMap.adjoint_toLinearMap]
    rfl
  exact (lift_bind hadjoint _).trans (lift_ok (checked_axpby_vec a b _ v))

end Constraint.Differentiates

namespace Barrier

theorem objective_vec (f : ℝ) {u : Euclidean l} (hu : ∀ i, 0 < u i) :
    objective (real f) (vec u) (real μ) = (real (f - μ * ∑ i, Real.log (u i)) : Exact ε) := by
  unfold objective
  split
  case isTrue hempty =>
    obtain rfl : l = 0 := by simpa [vec] using hempty
    simp
  case isFalse => rw [logBarrier_vec hu, if_pos isFinite_real, real_mul, real_sub]

theorem gradient_vec (hp : p.Differentiates φ G h z) (hne : ∀ i, h z i ≠ 0) (μ : ℝ) :
    gradient p (vec z) (vec (h z)) (real μ) n = pure (vec (slope φ h μ z)) := by
  refine (lift_bind hp.objective.gradient _).trans ?_
  unfold slope
  split
  case h_1 hc =>
    obtain rfl := Problem.eq_zero_of_inequality_none hp hc
    rw [Subsingleton.elim (reciprocal (h z)) 0, map_zero, smul_zero, sub_zero]
  case h_2 c hc =>
    have hinv : Checked.quotient (vec (h z)) (Vec.ones (vec (h z) : Vec (Exact ε)).length) =
        .ok (vec (reciprocal (h z)) : Vec (Exact ε)) := by
      rw [length_vec, ones_eq, checked_quotient_vec hne]
      rfl
    refine (lift_bind hinv _).trans ?_
    refine ((hp.inequality c hc).applyTransposed_vec (-μ) 1 _ _).trans ?_
    rw [one_smul, neg_smul, add_comm, ← sub_eq_add_neg]

theorem lagrangianGradient_vec (hp : p.Differentiates φ G h z) (hne : ∀ i, h z i ≠ 0) (par : NormalParam (Exact ε))
    (y : Euclidean m) (μ : ℝ) :
    lagrangianGradient p par false (vec z) (vec (h z)) (vec y) (real μ) n =
      pure (vec y, vec (lagrangianSlope φ G h y μ z), .ok ()) := by
  unfold lagrangianGradient lagrangianSlope
  rw [gradient_vec hp hne, pure_bind]
  split
  case h_1 hc =>
    obtain rfl := Problem.eq_zero_of_equality_none hp hc
    rw [Subsingleton.elim y 0, map_zero, add_zero]
  case h_2 c hc =>
    rw [if_neg Bool.false_ne_true, pure_bind]
    have hpull := (hp.equality c hc).applyTransposed_vec 1 1 y (slope φ h μ z)
    rw [one_smul, one_smul, add_comm] at hpull
    simp only [one_eq, hpull, pure_bind]

theorem quotient_vec {u : Euclidean l} (hu : ∀ i, u i ≠ 0) (v : Euclidean l) :
    Checked.quotient (vec u) (vec v : Vec (Exact ε)) = .ok (vec (dividing u v)) := checked_quotient_vec hu v

theorem inequalityHessian_vec {c : Constraint (Exact ε)} (hc : c.Differentiates h x) (hcurves : c.Curves h x)
    (hne : ∀ i, h x i ≠ 0) (μ : ℝ) (s t : Euclidean n) :
    inequalityHessian c (vec x) (vec (h x)) (real μ) (vec s) (vec t) =
      pure (vec (t + μ • (fderiv ℝ h x).adjoint (dividing (h x) (dividing (h x) (fderiv ℝ h x s))) -
        μ • fderiv ℝ (fun z => (fderiv ℝ h z).adjoint (reciprocal (h x))) x s)) := by
  have hforward := hc.apply_vec 1 0 s 0
  have hpull := hc.applyTransposed_vec μ 1 (dividing (h x) (dividing (h x) (fderiv ℝ h x s))) t
  have hones : Checked.quotient (vec (h x)) (Vec.ones l) = .ok (vec (reciprocal (h x)) : Vec (Exact ε)) := by
    rw [ones_eq, quotient_vec hne, reciprocal]
  rw [one_smul, zero_smul, add_zero] at hforward
  rw [one_smul] at hpull
  unfold inequalityHessian
  simp only [zerosLike_vec, one_eq, zero_eq, length_vec]
  rw [hforward, pure_bind]
  refine (lift_bind (quotient_vec hne _) _).trans ((lift_bind (quotient_vec hne _) _).trans ?_)
  rw [hpull, pure_bind]
  refine (lift_bind hones _).trans ((lift_bind (hcurves.second s _) _).trans (lift_ok ?_))
  rw [real_neg, checked_add_vec, neg_smul, ← sub_eq_add_neg, add_comm t]

/-- Whatever it is added to, the Hessian is the curvature. -/
theorem hessian_vec (hp : p.TwiceDifferentiable φ G h x) (hne : ∀ i, h x i ≠ 0) (y : Euclidean m) (μ : ℝ)
    (a b : Exact ε) (s : Euclidean n) (out : Vec (Exact ε)) :
    (hessian p (vec x) (vec y) (vec (h x)) (real μ)).apply a (vec s) b out =
      liftM (Checked.axpby a (vec (curvature φ G h y μ x s)) b out) := by
  have hx := hp.near.self_of_nhds
  have hhessian : p.objective.hessian (vec x) (vec s) (vec x : Vec (Exact ε)).length =
      .ok (vec (fderiv ℝ (∇ φ) x s)) := by
    rw [length_vec, hp.hessian]
  refine (lift_bind hhessian _).trans ?_
  refine (answered_bind (a := vec (fderiv ℝ (∇ φ) x s + fderiv ℝ (fun z => (fderiv ℝ G z).adjoint y) x s)) ?_ _).trans ?_
  · split
    case h_1 hc =>
      obtain rfl := Problem.eq_zero_of_equality_none hx hc
      simp [Subsingleton.elim y 0]
    case h_2 c hc =>
      rw [length_vec]
      refine (lift_bind ((hp.equality c hc).second s y) _).trans (lift_ok ?_)
      rw [one_eq, checked_add_vec, one_smul]
  refine answered_bind (a := vec (curvature φ G h y μ x s)) ?_ _
  split
  case h_1 hc =>
    obtain rfl := Problem.eq_zero_of_inequality_none hx hc
    have hflat : (fun z => (fderiv ℝ h z).adjoint (reciprocal (h x))) = fun _ => 0 := by
      funext z
      rw [Subsingleton.elim (reciprocal (h x)) 0, map_zero]
    simp [curvature, hflat, Subsingleton.elim (fderiv ℝ h x) 0]
  case h_2 c hc =>
    refine (inequalityHessian_vec (hx.inequality c hc) (hp.inequality c hc) hne μ s _).trans ?_
    rfl

/-! ### Derivatives -/

theorem hasGradientAt_potential (hp : p.Differentiates φ G h z) (hpos : ∀ i, 0 < h z i) (μ : ℝ) :
    HasGradientAt (potential φ h μ) (slope φ h μ z) z :=
  hasGradientAt_barrier μ hp.objective.differentiable hp.differentiable_slack.hasFDerivAt hpos

theorem hasFDerivAt_lagrangianSlope (hp : p.TwiceDifferentiable φ G h x) (hne : ∀ i, h x i ≠ 0) (y : Euclidean m)
    (μ : ℝ) : HasFDerivAt (lagrangianSlope φ G h y μ) (curvature φ G h y μ x) x := by
  have hslack := hp.near.self_of_nhds.differentiable_slack.hasFDerivAt
  have hbarrier := hasFDerivAt_pullback hp.differentiable_slack (hasFDerivAt_reciprocal hslack hne)
  have hmultipliers := hasFDerivAt_pullback hp.differentiable_equality (hasFDerivAt_const y x)
  have hsum := (hp.differentiable.hasFDerivAt.fun_sub (hbarrier.const_smul μ)).fun_add hmultipliers
  refine hsum.congr_fderiv ?_
  ext s : 1
  simp [curvature]
  abel

/-- Near a point of positive slack the slack is positive. -/
theorem eventually_pos (hh : DifferentiableAt ℝ h x) (hpos : ∀ i, 0 < h x i) : ∀ᶠ z in 𝓝 x, ∀ i, 0 < h z i :=
  Filter.eventually_all.mpr fun i =>
    (differentiableAt_euclidean.mp hh i).continuousAt.eventually (lt_mem_nhds (hpos i))

theorem curvature_symmetric (hp : p.TwiceDifferentiable φ G h x) (hpos : ∀ i, 0 < h x i) (y : Euclidean m) (μ : ℝ) :
    (curvature φ G h y μ x).toLinearMap.IsSymmetric := by
  have hnear := hp.near.and (eventually_pos hp.near.self_of_nhds.differentiable_slack hpos)
  have hgrad : ∀ᶠ z in 𝓝 x, HasGradientAt (fun z => potential φ h μ z + inner ℝ y (G z)) (lagrangianSlope φ G h y μ z) z :=
    hnear.mono fun z hz => hasGradientAt_add (hasGradientAt_potential hz.1 hz.2 μ)
      (hasGradientAt_inner y hz.1.differentiable_equality.hasFDerivAt)
  exact isSymmetric_of_gradient hgrad (hasFDerivAt_lagrangianSlope hp (fun i => (hpos i).ne') y μ)

/-- Value, gradient and Hessian are successive derivatives at every point of positive slack, for every barrier
parameter and all multipliers.

Near `x` the program answers with the values of a real function `Φ` as barrier objective, and with those of `Γ` as
gradient of the barrier Lagrangian at the fixed multipliers `y`. Its barrier gradient at `x` is the gradient of `Φ`,
and its Hessian at `x` is the derivative of `Γ`, a symmetric map: so the update by the transposed operator, which is
the one by the operator, is an update by the adjoint. -/
theorem successive_derivatives (hp : p.TwiceDifferentiable φ G h x) (hpos : ∀ i, 0 < h x i) (par : NormalParam (Exact ε))
    (y : Euclidean m) (μ : ℝ) :
    let K := hessian p (vec x) (vec y) (vec (h x)) (real μ)
    ∃ (Φ : Euclidean n → ℝ) (a : Euclidean n) (Γ : Euclidean n → Euclidean n) (H : Euclidean n →L[ℝ] Euclidean n),
      (∀ᶠ z in 𝓝 x, ∃ t, p.evaluate (vec z) = .ok t ∧ objective t.f t.h (real μ) = real (Φ z)) ∧
      gradient p (vec x) (vec (h x)) (real μ) n = pure (vec a) ∧ HasGradientAt Φ a x ∧
      (∀ᶠ z in 𝓝 x, lagrangianGradient p par false (vec z) (vec (h z)) (vec y) (real μ) n =
        pure (vec y, vec (Γ z), .ok ())) ∧
      HasFDerivAt Γ H x ∧ IsSelfAdjoint H ∧
      (∀ α s out, out.length = n → K.apply (real α) (vec s) 0 out = pure (vec (α • H s))) ∧
      ∀ α β s out, K.apply (real α) (vec s) (real β) (vec out) = pure (vec (α • H s + β • out)) ∧
        K.applyTransposed (real α) (vec s) (real β) (vec out) = pure (vec (α • H.adjoint s + β • out)) := by
  intro K
  have hne : ∀ i, h x i ≠ 0 := fun i => (hpos i).ne'
  have hx := hp.near.self_of_nhds
  have hnear := hp.near.and (eventually_pos hx.differentiable_slack hpos)
  have hself : IsSelfAdjoint (curvature φ G h y μ x) := (curvature_symmetric hp hpos y μ).isSelfAdjoint
  have happly : ∀ α β s out, K.apply (real α) (vec s) (real β) (vec out) =
      pure (vec (α • curvature φ G h y μ x s + β • out)) := fun α β s out =>
    (hessian_vec hp hne y μ _ _ s _).trans (lift_ok (checked_axpby_vec α β _ out))
  refine ⟨potential φ h μ, slope φ h μ x, lagrangianSlope φ G h y μ, curvature φ G h y μ x, ?_, gradient_vec hx hne μ,
    hasGradientAt_potential hx hpos μ, ?_, hasFDerivAt_lagrangianSlope hp hne y μ, hself, ?_, fun α β s out => ?_⟩
  · exact hnear.mono fun z hz => ⟨_, hz.1.evaluate, objective_vec (φ z) hz.2⟩
  · exact hnear.mono fun z hz => lagrangianGradient_vec hz.1 (fun i => (hz.2 i).ne') par y μ
  · intro α s out hout
    refine (hessian_vec hp hne y μ _ _ s out).trans (lift_ok ?_)
    unfold Checked.axpby
    rw [zero_eq, if_pos (real_beq.mpr rfl), Vec.zerosLike, hout, zeros_eq, checked_add_vec, zero_add]
  · refine ⟨happly α β s out, (happly α β s out).trans ?_⟩
    rw [ContinuousLinearMap.isSelfAdjoint_iff'.mp hself]

end Barrier

/-! ### A ball -/

/-- The points whose square is at most `r`. -/
def Constraint.ball {F : Type} [Scalar F] (n : Nat) (r : F) : Constraint F where
  rows := 1
  cols := n
  value x _ := .ok [r - Vec.inner x x]
  forward x dx _ := .ok [-(Scalar.two * Vec.inner x dx)]
  adjoint x dy _ := .ok (Vec.scale (-(Scalar.two * Vec.sum dy)) x)
  second _ dx dy _ := .ok (Vec.scale (-(Scalar.two * Vec.sum dy)) dx)

/-- The least half square on the unit sphere of the line, inside a larger ball. -/
def Problem.leastOnSphere {F : Type} [Scalar F] : Problem F where
  objective := Problem.leastHalfSquare.objective
  equality := some (.ball 1 1)
  inequality := some (.ball 1 Scalar.two)
  preconditioner := none

namespace Exact

noncomputable def ballSlack (r : ℝ) (z : Euclidean n) : Euclidean 1 := WithLp.toLp 2 fun _ => r - inner ℝ z z

theorem hasFDerivAt_ballSlack (r : ℝ) (z : Euclidean n) :
    HasFDerivAt (ballSlack r) ((innerSL ℝ z).smulRight (WithLp.toLp 2 fun _ => -2 : Euclidean 1)) z := by
  refine hasFDerivAt_entries.mpr fun i => ?_
  have hsq := ((hasFDerivAt_id z).inner ℝ (hasFDerivAt_id z)).const_sub r
  refine hsq.congr_fderiv ?_
  ext s
  simp [real_inner_comm]
  ring

theorem fderiv_ballSlack (r : ℝ) :
    fderiv ℝ (ballSlack r : Euclidean n → Euclidean 1) =
      fun z => (innerSL ℝ z).smulRight (WithLp.toLp 2 fun _ => -2 : Euclidean 1) :=
  funext fun z => (hasFDerivAt_ballSlack r z).fderiv

theorem adjoint_fderiv_ballSlack (r : ℝ) (z : Euclidean n) (w : Euclidean 1) :
    (fderiv ℝ (ballSlack r) z).adjoint w = (-(2 * w 0)) • z := by
  refine ext_inner_right ℝ fun s => ?_
  rw [ContinuousLinearMap.adjoint_inner_left, fderiv_ballSlack]
  simp [PiLp.inner_apply, inner_smul_left]
  ring

theorem vec_one (v : Euclidean 1) : (vec v : Vec (Exact ε)) = [real (v 0)] := by simp [vec]

theorem sum_vec_one (v : Euclidean 1) : Vec.sum (vec v : Vec (Exact ε)) = real (v 0) := by
  rw [vec, sum_ofFn, Fin.sum_univ_one]

end Exact

theorem Constraint.ball_differentiates (r : ℝ) (z : Euclidean n) :
    (ball n (real r) : Constraint (Exact ε)).Differentiates (ballSlack r) z where
  differentiable := (hasFDerivAt_ballSlack r z).differentiableAt
  value := by simp [ball, vec_one, ballSlack]
  linearises := {
    rows := rfl
    cols := rfl
    forward s := by simp [ball, vec_one, fderiv_ballSlack, mul_comm]
    adjoint w := by
      rw [ContinuousLinearMap.adjoint_toLinearMap]
      simp [ball, adjoint_fderiv_ballSlack, sum_vec_one] }

theorem Constraint.ball_curves (r : ℝ) (z : Euclidean n) :
    (ball n (real r) : Constraint (Exact ε)).Curves (ballSlack r) z where
  differentiable := by
    rw [fderiv_ballSlack]
    exact ((ContinuousLinearMap.smulRightL ℝ (Euclidean n) (Euclidean 1)).flip _ ∘L innerSL ℝ).differentiableAt
  second s w := by
    have hderiv : HasFDerivAt (fun z => (fderiv ℝ (ballSlack r : Euclidean n → Euclidean 1) z).adjoint w)
        ((-(2 * w 0)) • ContinuousLinearMap.id ℝ (Euclidean n)) z := by
      simp only [adjoint_fderiv_ballSlack]
      exact (hasFDerivAt_id z).fun_const_smul _
    rw [hderiv.fderiv]
    simp [ball, sum_vec_one]

theorem Problem.hasGradientAt_halfSquare (z : Euclidean n) : HasGradientAt (fun z => 1 / 2 * inner ℝ z z) z z := by
  have hsq := ((hasFDerivAt_id z).inner ℝ (hasFDerivAt_id z)).const_mul (1 / 2)
  refine hasGradientAt_iff_hasFDerivAt.mpr (hsq.congr_fderiv ?_)
  ext s
  simp [real_inner_comm]
  ring

theorem Problem.leastOnSphere_twiceDifferentiable (x : Euclidean 1) :
    (leastOnSphere : Problem (Exact ε)).TwiceDifferentiable (fun z => 1 / 2 * inner ℝ z z) (ballSlack 1) (ballSlack 2) x := by
  have hgrad : ∇ (fun z : Euclidean 1 => (1 : ℝ) / 2 * inner ℝ z z) = id := funext fun z => (hasGradientAt_halfSquare z).gradient
  refine ⟨.of_forall fun z => ?_, ?_, fun s => ?_, ?_, ?_⟩
  · refine ⟨rfl, rfl, ⟨(hasGradientAt_halfSquare z).differentiableAt, ?_, ?_⟩, ?_, ?_⟩
    · simp [leastOnSphere, leastHalfSquare]
    · rw [hgrad]
      exact Checked.copy_eq_ok.mpr ⟨by simp, rfl⟩
    · rintro c ⟨⟩
      exact Constraint.ball_differentiates 1 z
    · rintro c ⟨⟩
      rw [two_eq]
      exact Constraint.ball_differentiates 2 z
  · rw [hgrad]
    exact differentiableAt_id
  · rw [hgrad]
    simp [leastOnSphere, leastHalfSquare]
  · rintro c ⟨⟩
    exact Constraint.ball_curves 1 x
  · rintro c ⟨⟩
    rw [two_eq]
    exact Constraint.ball_curves 2 x

theorem Barrier.successive_derivatives_leastOnSphere :
    let p : Problem (Exact ⟨1, Set.mem_Ioi.mpr one_pos⟩) := .leastOnSphere
    let x : Euclidean 1 := WithLp.toLp 2 fun _ => 1
    let y : Euclidean 1 := WithLp.toLp 2 fun _ => 3
    p.TwiceDifferentiable (fun z => 1 / 2 * inner ℝ z z) (ballSlack 1) (ballSlack 2) x ∧ (∀ i, 0 < ballSlack 2 x i) ∧
    ∃ (Φ : Euclidean 1 → ℝ) (a : Euclidean 1) (H : Euclidean 1 →L[ℝ] Euclidean 1),
      Barrier.gradient p (vec x) (vec (ballSlack 2 x)) (real (1 / 4)) 1 = pure (vec a) ∧ HasGradientAt Φ a x ∧
      IsSelfAdjoint H ∧ ∀ s, (Barrier.hessian p (vec x) (vec y) (vec (ballSlack 2 x)) (real (1 / 4))).apply (real 1)
        (vec s) 0 (vec s) = pure (vec ((1 : ℝ) • H s)) := by
  intro p x y
  have hp := Problem.leastOnSphere_twiceDifferentiable (ε := ⟨1, Set.mem_Ioi.mpr one_pos⟩) x
  have hpos : ∀ i, 0 < ballSlack 2 x i := by
    intro i
    change 0 < 2 - inner ℝ x x
    rw [PiLp.inner_apply]
    norm_num [x]
  obtain ⟨Φ, a, Γ, H, -, hgrad, hΦ, -, -, hself, happly, -⟩ :=
    Barrier.successive_derivatives hp hpos Parameters.default.normalEq y (1 / 4)
  exact ⟨hp, hpos, Φ, a, H, hgrad, hΦ, hself, fun s => happly 1 s (vec s) length_vec⟩

end ConstrainedOpt
